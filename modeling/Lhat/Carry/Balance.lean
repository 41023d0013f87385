import Lhat.Carry.Holds
import Mathlib

/-!
# Wrappers and their holds

Putting a value back together takes a hold for every wrapper that it makes and gives one
back for every wrapper that could not be made. Over a whole trip, from the carrying to
the freeing, the holds that are left are those of the wrappers.
-/

namespace Lhat.Carry

/-- The wrappers of a pointer that stand in a machine and did not before. -/
def wrappers (before after : LhatMachine) (tag : Address) (pointer : UInt64) : Set Address :=
  {a | before.heap.object a = none ∧
    ∃ data, after.heap.object a = some (.hostdata data) ∧ data.tag = tag ∧ data.pointer = pointer}

variable {p : Program} {tag : Address} {pointer : UInt64} {b b' b'' : Builder}

/-- Along a walk objects stay where they are, and there is one hold more for each new
wrapper. -/
structure Lands (tag : Address) (pointer : UInt64) (b b' : Builder) : Prop where
  kept : ∀ a o, b.machine.heap.object a = some o → b'.machine.heap.object a = some o
  balanced : ∃ made : Finset Address,
    (∀ a, a ∈ made ↔ a ∈ wrappers b.machine b'.machine tag pointer) ∧
      balance tag pointer b'.calls = balance tag pointer b.calls + made.card

theorem Lands.of_heap (hheap : b'.machine.heap = b.machine.heap) (hcalls : b'.calls = b.calls) :
    Lands tag pointer b b' := by
  refine ⟨fun a o h => hheap ▸ h, ∅, fun a => ⟨fun h => absurd h (by simp), ?_⟩, by simp [hcalls]⟩
  rintro ⟨hnone, data, hsome, -⟩
  rw [hheap, hnone] at hsome
  cases hsome

theorem Lands.refl (b : Builder) : Lands tag pointer b b := Lands.of_heap rfl rfl

theorem Lands.trans (b b' b'' : Builder) (h : Lands tag pointer b b')
    (h' : Lands tag pointer b' b'') : Lands tag pointer b b'' := by
  obtain ⟨made, hmade, hcard⟩ := h.balanced
  obtain ⟨made', hmade', hcard'⟩ := h'.balanced
  refine ⟨fun a o ho => h'.kept a o (h.kept a o ho), made ∪ made', fun a => ?_, ?_⟩
  · rw [Finset.mem_union, hmade, hmade']
    constructor
    · rintro (⟨hnone, data, hsome, hdata⟩ | ⟨hnone, data, hsome, hdata⟩)
      · exact ⟨hnone, data, h'.kept a _ hsome, hdata⟩
      · refine ⟨?_, data, hsome, hdata⟩
        by_contra hne
        obtain ⟨o, ho⟩ := Option.ne_none_iff_exists'.mp hne
        rw [h.kept a o ho] at hnone
        cases hnone
    · rintro ⟨hnone, data, hsome, hdata⟩
      cases hmid : b'.machine.heap.object a with
      | none => exact Or.inr ⟨hmid, data, hsome, hdata⟩
      | some o =>
        rw [h'.kept a o hmid] at hsome
        cases hsome
        exact Or.inl ⟨hnone, data, hmid, hdata⟩
  · rw [Finset.card_union_of_disjoint, hcard', hcard]
    · push_cast
      omega
    · rw [Finset.disjoint_left]
      intro a ha ha'
      obtain ⟨-, data, hsome, -⟩ := (hmade a).mp ha
      rw [((hmade' a).mp ha').1] at hsome
      cases hsome

abbrev Landing (tag : Address) (pointer : UInt64) {α : Type} (x : Fallible Builder α) : Prop :=
  Fallible.Moves (Lands tag pointer) x

theorem Landing.bind {α β : Type} {x : Fallible Builder α} {f : α → Fallible Builder β}
    (hx : Landing tag pointer x) (hf : ∀ a, Landing tag pointer (f a)) :
    Landing tag pointer (x >>= f) := Fallible.Moves.bind hx Lands.trans hf

theorem Landing.pure {α : Type} (a : α) : Landing tag pointer (pure a : Fallible Builder α) :=
  Fallible.Moves.pure Lands.refl a

theorem Landing.fail {α : Type} : Landing tag pointer (Fallible.fail : Fallible Builder α) :=
  Fallible.Moves.fail Lands.refl

theorem Landing.get : Landing tag pointer (Fallible.get : Fallible Builder Builder) :=
  Fallible.Moves.get Lands.refl

theorem Landing.each {α β : Type} {f : α → Fallible Builder β} {as : List α}
    (hf : ∀ a, Landing tag pointer (f a)) : Landing tag pointer (Fallible.each f as) :=
  Fallible.Moves.each Lands.refl Lands.trans hf

theorem Landing.modify {f : Builder → Builder}
    (hf : ∀ b, (f b).machine.heap = b.machine.heap ∧ (f b).calls = b.calls) :
    Landing tag pointer (Fallible.modify f) := fun b => Lands.of_heap (hf b).1 (hf b).2

theorem Landing.modify_bind {α : Type} {f : Builder → Builder} {x : Unit → Fallible Builder α}
    (hf : ∀ b, (f b).machine.heap = b.machine.heap ∧ (f b).calls = b.calls)
    (hx : ∀ u, Landing tag pointer (x u)) : Landing tag pointer (Fallible.modify f >>= x) :=
  (Landing.modify hf).bind hx

theorem wp_makeObject (bytes : Nat) (o : LhatObject) (b : Builder) :
    Fallible.wp (makeObject bytes o)
      (fun a b' => b.machine.heap.object a = none ∧
        b'.machine.heap.object = Function.update b.machine.heap.object a (some o) ∧
        b'.calls = b.calls)
      (fun b' => b'.machine.heap = b.machine.heap ∧ b'.calls = b.calls) True b := by
  unfold makeObject LhatMachine.objectAlloc Fallible.wp
  dsimp only
  split
  · rename_i hx
    cases hx
  · rename_i hx
    split at hx
    · simp at hx
    · cases hx
      exact ⟨rfl, rfl⟩
  · rename_i hx
    split at hx
    · rename_i hroom
      cases hx
      exact ⟨hroom.2.1, rfl, rfl⟩
    · simp at hx

theorem landing_makeObject (bytes : Nat) {o : LhatObject} (ho : ∀ data, o ≠ .hostdata data) :
    Landing tag pointer (makeObject bytes o) := by
  intro b
  refine Fallible.wp_mono (wp_makeObject bytes o b) ?_ (fun b' h => Lands.of_heap h.1 h.2) id
  rintro a b' ⟨hnone, hheap, hcalls⟩
  refine ⟨fun c held hc => ?_, ∅, fun c => ⟨fun h => absurd h (by simp), ?_⟩, by simp [hcalls]⟩
  · rw [hheap, Function.update_of_ne]
    · exact hc
    · rintro rfl
      rw [hnone] at hc
      cases hc
  · rintro ⟨hc, data, hsome, -⟩
    rw [hheap, Function.update_apply] at hsome
    split at hsome
    · exact absurd (Option.some.inj hsome) (ho data)
    · rw [hc] at hsome
      cases hsome

theorem landing_request (bytes : Nat) : Landing tag pointer (request bytes) := by
  unfold request
  split
  · exact Landing.pure ()
  · refine Landing.get.bind fun b => Landing.modify_bind (fun _ => ⟨rfl, rfl⟩) fun _ => ?_
    split
    · exact Landing.pure ()
    · exact Landing.fail

theorem landing_makeString (text : List UInt8) : Landing tag pointer (makeString text) :=
  (landing_makeObject _ fun _ h => by cases h).bind fun _ => Landing.pure _

theorem landing_makeTable : Landing tag pointer makeTable :=
  (landing_makeObject _ fun _ h => by cases h).bind fun _ =>
    Landing.modify_bind (fun _ => ⟨rfl, rfl⟩) fun _ => Landing.pure _

theorem landing_setKey (table : Address) (key value : LhatValue) :
    Landing tag pointer (setKey table key value) := by
  intro b
  unfold Fallible.wp setKey
  cases vmSetKey b.machine.heap b.machine.writes ⟨b.machine.tables, b.machine.memory⟩ table key
    value with
  | none => trivial
  | some wrote =>
    dsimp only
    by_cases hok : wrote.ok = true
    · rw [if_pos hok]
      exact Lands.of_heap rfl rfl
    · rw [if_neg hok]
      exact Lands.of_heap rfl rfl

theorem landing_makeCell : Landing tag pointer makeCell :=
  (landing_makeObject _ fun _ h => by cases h).bind fun _ =>
    Landing.modify_bind (fun _ => ⟨rfl, rfl⟩) fun _ => Landing.pure _

theorem landing_makeClosureWith (proto : Address) (cells : List Address) :
    Landing tag pointer (makeClosureWith p proto cells) := by
  unfold makeClosureWith
  split
  · exact Landing.fail
  split
  · exact Landing.fail
  refine (landing_makeObject _ fun _ h => by cases h).bind fun a =>
    Landing.modify_bind (fun _ => ⟨rfl, rfl⟩) fun _ => (landing_request _).bind fun _ => ?_
  split
  · exact Landing.fail
  · exact Landing.modify_bind (fun _ => ⟨rfl, rfl⟩) fun _ => Landing.pure _

theorem landing_makeCoroutineFrom (closure : LhatValue) (slots : List LhatValue) :
    Landing tag pointer (makeCoroutineFrom p closure slots) := by
  unfold makeCoroutineFrom
  split
  · refine Landing.get.bind fun b => ?_
    split
    · exact Landing.fail
    split
    · refine (landing_makeObject _ fun _ h => by cases h).bind fun a => Landing.get.bind fun b =>
        Landing.modify_bind (fun _ => ⟨rfl, rfl⟩) fun _ => ?_
      split
      · exact Landing.modify_bind (fun _ => ⟨rfl, rfl⟩) fun _ => Landing.pure _
      · exact Landing.fail
    · exact Landing.fail
  · exact Landing.fail

theorem landing_reachSegment (owner : Address) (segment : List UInt8) :
    Landing tag pointer (reachSegment owner segment) := by
  unfold reachSegment
  refine Landing.get.bind fun b => ?_
  split
  · exact Fallible.Moves.halt
  dsimp only
  split
  · exact Landing.pure _
  split
  · refine (landing_makeString _).bind fun key => landing_makeTable.bind fun table =>
      (landing_setKey _ _ _).bind fun refused => ?_
    split
    · exact Landing.fail
    · exact Landing.pure _
  · exact Landing.fail

theorem landing_reachTable (path : List (List UInt8)) (owner : Address) :
    Landing tag pointer (reachTable owner path) := by
  induction path generalizing owner with
  | nil => exact Landing.pure owner
  | cons segment rest ih => exact (landing_reachSegment owner segment).bind ih

theorem wp_makeHostdata (a : Address) (x : UInt64) (b : Builder) :
    Fallible.wp (makeHostdata p a x)
      (fun _ b' => ∃ b₁ at_ data, Lands tag pointer b b₁ ∧ b₁.machine.heap.object at_ = none ∧
        data.tag = a ∧ data.pointer = x ∧
        b'.machine.heap.object =
          Function.update b₁.machine.heap.object at_ (some (.hostdata data)) ∧
        b'.calls = b₁.calls)
      (Lands tag pointer b) True b := by
  unfold makeHostdata
  rw [Fallible.wp_bind, Fallible.wp_get]
  split
  · exact Lands.refl b
  split
  · exact Lands.refl b
  rw [Fallible.wp_bind]
  refine Fallible.wp_mono (landing_reachTable _ _ b) (fun module b₁ h₁ => ?_) (fun _ h => h) id
  rw [Fallible.wp_bind]
  refine Fallible.wp_mono (landing_reachTable _ _ b₁) (fun members b₂ h₂ => ?_)
    (fun b₂ h₂ => h₁.trans _ _ _ h₂) id
  have hland := h₁.trans _ _ _ h₂
  rw [Fallible.wp_bind]
  refine Fallible.wp_mono (wp_makeObject _ _ b₂) ?_
    (fun b₃ h₃ => hland.trans _ _ _ (Lands.of_heap h₃.1 h₃.2)) id
  rintro at_ b₃ ⟨hnone, hheap, hcalls⟩
  exact ⟨b₂, at_, _, hland, hnone, rfl, rfl, hheap, hcalls⟩

theorem Lands.wrap (hcounts : Counts p tag) {b₁ : Builder} {a at_ : Address} {x : UInt64}
    {data : LhatHostData} (h : Lands tag pointer { b with calls := b.calls ++ hold p a x } b₁)
    (hnone : b₁.machine.heap.object at_ = none) (htag : data.tag = a) (hpointer : data.pointer = x)
    (hheap : b'.machine.heap.object =
      Function.update b₁.machine.heap.object at_ (some (.hostdata data)))
    (hcalls : b'.calls = b₁.calls) : Lands tag pointer b b' := by
  subst htag hpointer
  obtain ⟨made, hmade, hcard⟩ := h.balanced
  have hfresh : b.machine.heap.object at_ = none := by
    by_contra hne
    obtain ⟨o, ho⟩ := Option.ne_none_iff_exists'.mp hne
    rw [h.kept at_ o ho] at hnone
    cases hnone
  have hother : ∀ c, c ≠ at_ → b'.machine.heap.object c = b₁.machine.heap.object c := fun c hc => by
    rw [hheap, Function.update_of_ne hc]
  have hat : b'.machine.heap.object at_ = some (.hostdata data) := by
    rw [hheap, Function.update_self]
  have hout : at_ ∉ made := fun hin => by
    obtain ⟨-, d, hd, -⟩ := (hmade at_).mp hin
    rw [hnone] at hd
    cases hd
  have hkept : ∀ c o, b.machine.heap.object c = some o → b'.machine.heap.object c = some o := by
    intro c o hc
    rw [hother c]
    · exact h.kept c o hc
    · rintro rfl
      rw [hfresh] at hc
      cases hc
  have hrest : ∀ c, c ≠ at_ → (c ∈ made ↔ c ∈ wrappers b.machine b'.machine tag pointer) := by
    intro c hc
    rw [hmade]
    unfold wrappers
    rw [Set.mem_ofPred_eq, Set.mem_ofPred_eq, hother c hc]
  refine ⟨hkept, ?_⟩
  rw [balance_append, balance_hold hcounts] at hcard
  by_cases hsame : (data.tag, data.pointer) = (tag, pointer)
  · rw [if_pos hsame] at hcard
    refine ⟨insert at_ made, fun c => ?_, ?_⟩
    · rw [Finset.mem_insert]
      by_cases hc : c = at_
      · subst hc
        exact ⟨fun _ => ⟨hfresh, data, hat, Prod.mk.inj hsame⟩, fun _ => Or.inl rfl⟩
      · rw [← hrest c hc]
        exact ⟨fun h => h.resolve_left hc, Or.inr⟩
    · rw [Finset.card_insert_of_notMem hout, hcalls, hcard]
      push_cast
      omega
  · rw [if_neg hsame] at hcard
    refine ⟨made, fun c => ?_, by rw [hcalls, hcard]; omega⟩
    by_cases hc : c = at_
    · subst hc
      refine ⟨fun hin => absurd hin hout, ?_⟩
      rintro ⟨-, d, hd, htag, hpointer⟩
      rw [hat] at hd
      cases hd
      exact absurd (by rw [htag, hpointer]) hsame
    · exact hrest c hc

theorem Lands.giveBack (hcounts : Counts p tag) {b₁ : Builder} {a : Address} {x : UInt64}
    (h : Lands tag pointer { b with calls := b.calls ++ hold p a x } b₁) :
    Lands tag pointer b { b₁ with calls := b₁.calls ++ letGo p a x } := by
  obtain ⟨made, hmade, hcard⟩ := h.balanced
  refine ⟨h.kept, made, hmade, ?_⟩
  rw [balance_append, balance_hold hcounts] at hcard
  show balance tag pointer (b₁.calls ++ letGo p a x) = _
  rw [balance_append, balance_letGo hcounts, hcard]
  split <;> omega

/-! ### Building -/

theorem landing_finish (index : Nat) (value : LhatValue) :
    Landing tag pointer (finish index value) :=
  Landing.modify_bind (fun _ => ⟨rfl, rfl⟩) fun _ => Landing.pure _

theorem landing_placeCell (cell : Nat) : Landing tag pointer (placeCell cell) := by
  unfold placeCell
  refine Landing.get.bind fun b => ?_
  split
  · exact landing_makeCell.bind fun a =>
      Landing.modify_bind (fun _ => ⟨rfl, rfl⟩) fun _ => Landing.pure _
  · exact Landing.pure _

theorem landing_fillCell (a : Address) (held : LhatValue) :
    Landing tag pointer (fillCell a held) := Landing.modify fun _ => ⟨rfl, rfl⟩

theorem landing_buildHostdata (hcounts : Counts p tag) (index : Nat) (a : Address) (x : UInt64) :
    Landing tag pointer (buildHostdata p index a x) := by
  intro b
  have hmake : Fallible.wp (makeHostdata p a x) _
      (Lands tag pointer { b with calls := b.calls ++ hold p a x }) True _ :=
    wp_makeHostdata a x { b with calls := b.calls ++ hold p a x }
  unfold Fallible.wp at hmake
  unfold Fallible.wp buildHostdata
  cases hx : makeHostdata p a x { b with calls := b.calls ++ hold p a x } with
  | none => trivial
  | some r =>
    obtain ⟨_ | made, b'⟩ := r
    · rw [hx] at hmake
      exact Lands.giveBack hcounts hmake
    · rw [hx] at hmake
      obtain ⟨b₁, at_, data, hland, hnone, htag, hpointer, hheap, hcalls⟩ := hmake
      have hwrap := Lands.wrap hcounts hland hnone htag hpointer hheap hcalls
      exact (landing_finish index made).wp_from Lands.trans hwrap

section Parts

variable {build : Nat → Fallible Builder LhatValue} {carried : LhatCarried}

section

variable (hbuild : ∀ i, Landing tag pointer (build i))
include hbuild

theorem landing_buildTable (index : Nat)
    (entries : List (Nat × Nat)) : Landing tag pointer (buildTable build index entries) :=
  landing_makeTable.bind fun a => Landing.modify_bind (fun _ => ⟨rfl, rfl⟩) fun _ =>
    (Landing.each fun entry => (hbuild _).bind fun _ => (hbuild _).bind fun _ =>
      (landing_setKey _ _ _).bind fun _ => Landing.pure _).bind fun _ => Landing.pure _

theorem landing_buildHeld (cell : Nat) :
    Landing tag pointer (buildHeld build carried cell) := by
  unfold buildHeld
  refine Landing.get.bind fun b => ?_
  split
  · exact Landing.pure _
  · exact Landing.modify_bind (fun _ => ⟨rfl, rfl⟩) fun _ => (hbuild _).bind fun held =>
      Landing.get.bind fun b => landing_fillCell _ _

theorem landing_buildClosure (index : Nat)
    (proto : Address) (cells : List Nat) :
    Landing tag pointer (buildClosure p build carried index proto cells) :=
  (landing_request _).bind fun _ => (Landing.each landing_placeCell).bind fun places =>
    (landing_makeClosureWith proto places).bind fun closure =>
      Landing.modify_bind (fun _ => ⟨rfl, rfl⟩) fun _ =>
        (Landing.each (landing_buildHeld hbuild)).bind fun _ => Landing.pure _

theorem landing_buildCell (index : Nat) :
    Landing tag pointer (buildCell build carried index) := by
  unfold buildCell
  refine Landing.get.bind fun b => ?_
  split
  · exact Landing.pure _
  · exact (landing_placeCell index).bind fun a => (hbuild _).bind fun held =>
      (landing_fillCell a held).bind fun _ => Landing.pure _

theorem landing_buildCoroutine (index ofClosure : Nat)
    (image : List Nat) : Landing tag pointer (buildCoroutine p build index ofClosure image) :=
  (hbuild _).bind fun closure => (landing_request _).bind fun _ =>
    (Landing.each hbuild).bind fun slots => (landing_makeCoroutineFrom closure slots).bind fun made =>
      landing_finish index made

end

end Parts

theorem landing_build (hcounts : Counts p tag) (carried : LhatCarried) :
    ∀ (fuel index : Nat), Landing tag pointer (build p carried fuel index) := by
  intro fuel
  induction fuel with
  | zero => exact fun index => Fallible.Moves.halt
  | succ fuel ih =>
    intro index
    unfold build
    refine Landing.get.bind fun b => ?_
    split
    · exact Landing.pure _
    split
    · exact Fallible.Moves.halt
    rename_i node _
    cases node with
    | nil => exact landing_finish index _
    | bool b => exact landing_finish index _
    | int i => exact landing_finish index _
    | real d => exact landing_finish index _
    | string text => exact (landing_makeString text).bind (landing_finish index)
    | table entries => exact landing_buildTable ih index entries
    | closure proto cells => exact landing_buildClosure ih index proto cells
    | cell held => exact landing_buildCell ih index
    | hostdata a x => exact landing_buildHostdata hcounts index a x
    | coroutine ofClosure image => exact landing_buildCoroutine ih index ofClosure image

theorem lhatUncarry_balanced (hcounts : Counts p tag) {fuel : Nat} {m : LhatMachine}
    {carried : LhatCarried} {landed : Uncarried} (h : lhatUncarry p fuel m carried = some landed) :
    balance tag pointer landed.calls = (wrappers m landed.machine tag pointer).ncard := by
  unfold lhatUncarry at h
  dsimp only at h
  split at h
  · rw [Option.map_eq_some_iff] at h
    obtain ⟨⟨value, b⟩, hbuild, rfl⟩ := h
    have hbuilds : Landing tag pointer (build p carried fuel carried.root) :=
      landing_build hcounts carried fuel carried.root
    have hland := hbuilds { machine := askRuns m (max carried.nodes.length 1) }
    unfold Fallible.wp at hland
    rw [hbuild] at hland
    have hlands : Lands tag pointer { machine := askRuns m (max carried.nodes.length 1) } b := by
      cases value with
      | none => exact hland
      | some value => exact hland
    obtain ⟨made, hmade, hcard⟩ := hlands.balanced
    have hset : wrappers m b.machine tag pointer = ↑made := by
      ext a
      exact (hmade a).symm
    show balance tag pointer b.calls = _
    rw [hcard, hset, Set.ncard_coe_finset]
    exact Int.zero_add _
  · cases h
    have hempty : wrappers m (askRuns m (max carried.nodes.length 1)) tag pointer = ∅ := by
      ext a
      constructor
      · rintro ⟨hnone, data, hsome, -⟩
        rw [show (askRuns m (max carried.nodes.length 1)).heap = m.heap from rfl, hnone] at hsome
        cases hsome
      · exact fun h => absurd h (Set.notMem_empty a)
    rw [hempty, Set.ncard_empty]
    rfl

/-! ### From the carrying to the freeing -/

/-- The calls of a trip, and the machines it led to: each as it was before the value was
built there and as it was afterwards. -/
structure Trip where
  calls : List HoldCall
  landings : List (LhatMachine × LhatMachine)

/-- The value built on one machine after the other. -/
def uncarryEach (p : Program) (fuel : Nat) (carried : LhatCarried) : List LhatMachine → Option Trip
  | [] => some { calls := [], landings := [] }
  | m :: rest => do
    let one ← lhatUncarry p fuel m carried
    let more ← uncarryEach p fuel carried rest
    return {
      calls := one.calls ++ more.calls
      landings := (m, one.machine) :: more.landings }

/-- `lhat_carry`, any number of `lhat_uncarry`, and `lhat_carried_free`. -/
def trip (p : Program) (fuel : Nat) (source : LhatMachine) (memory : Memory) (value : LhatValue)
    (targets : List LhatMachine) : Option Trip := do
  let carriage ← lhatCarry p source fuel memory value
  match carriage.outcome with
  | .error _ => return { calls := carriage.calls, landings := [] }
  | .ok carried =>
    let all ← uncarryEach p fuel carried targets
    return { all with calls := carriage.calls ++ all.calls ++ lhatCarriedFree p carried.nodes }

/-- The wrappers of a pointer that a trip made. -/
noncomputable def Trip.wrapped (t : Trip) (tag : Address) (pointer : UInt64) : Nat :=
  (t.landings.map fun landing => (wrappers landing.1 landing.2 tag pointer).ncard).sum

theorem uncarryEach_balanced (hcounts : Counts p tag) {fuel : Nat} {carried : LhatCarried}
    {targets : List LhatMachine} {t : Trip} (h : uncarryEach p fuel carried targets = some t) :
    balance tag pointer t.calls = t.wrapped tag pointer := by
  induction targets generalizing t with
  | nil =>
    cases h
    rfl
  | cons m rest ih =>
    simp only [uncarryEach, bind, Option.bind_eq_some_iff, pure, Option.some.injEq] at h
    obtain ⟨one, hone, more, hmore, rfl⟩ := h
    rw [balance_append, lhatUncarry_balanced hcounts hone, ih hmore]
    unfold Trip.wrapped
    rw [List.map_cons, List.sum_cons]
    push_cast
    rfl

/-- Whatever the value and wherever memory ran out: a type that counts is left with one
hold for each wrapper. -/
theorem trip_balanced (fuel : Nat) (source : LhatMachine) (memory : Memory) (value : LhatValue)
    (targets : List LhatMachine) (t : Trip) (h : trip p fuel source memory value targets = some t)
    (hcounts : Counts p tag) : balance tag pointer t.calls = t.wrapped tag pointer := by
  simp only [trip, bind, Option.bind_eq_some_iff] at h
  obtain ⟨carriage, hcarry, h⟩ := h
  have hheld : balance tag pointer carriage.calls = _ := lhatCarry_balanced hcounts hcarry
  split at h
  · rename_i hout
    rw [hout] at hheld
    cases h
    exact hheld
  · rename_i carried hout
    rw [hout] at hheld
    simp only [Option.bind_eq_some_iff, pure, Option.some.injEq] at h
    obtain ⟨all, hall, rfl⟩ := h
    rw [balance_append, balance_append, hheld, balance_lhatCarriedFree hcounts,
      uncarryEach_balanced hcounts hall]
    show (holders tag pointer carried.nodes : Int) + all.wrapped tag pointer +
      -holders tag pointer carried.nodes = all.wrapped tag pointer
    omega

/-- A program with one type of host data, declared shared and counted or not. -/
def oneType (counted : Bool) : Program where
  proto _ := none
  hostDataTag a :=
    if a = 7 then
      some { module := [109], name := [84], isShared := true, retain := counted, letGo := counted }
    else none
  proto_null := rfl
  hostDataTag_null := rfl

/-- A machine with nothing registered, and one value of that type. -/
def oneValue : LhatMachine where
  heap := {
    object := fun a =>
      if a = 1 then some .table
      else if a = 5 then some (.hostdata { tag := 7, pointer := 99 })
      else none
    depth := 8
    scratch := fun _ => true
    object_null := rfl }
  tables := [(1, lhatTableNew)]
  closures _ := {}
  coroutines _ := {}
  upvalues _ := .nil
  modules := 1
  writes := { selfKey := 2, misread := fun _ _ => false }
  memory := { grants := fun _ => true }
  places n := UInt64.ofNat (n + 100)

theorem trip_balanced_twice :
    ∃ t, trip (oneType true) 2 oneValue oneValue.memory (.object 5) [oneValue, oneValue] = some t ∧
      balance 7 99 t.calls = t.wrapped 7 99 := by
  obtain ⟨t, ht⟩ := Option.isSome_iff_exists.mp
    (show (trip (oneType true) 2 oneValue oneValue.memory (.object 5)
      [oneValue, oneValue]).isSome = true by decide +kernel)
  exact ⟨t, ht, trip_balanced 2 oneValue oneValue.memory (.object 5) [oneValue, oneValue] t ht
    ⟨_, rfl, rfl, rfl⟩⟩

/-- Whether 109 is where a landing leaves a wrapper. -/
def wrapsAt (landing : LhatMachine × LhatMachine) : Bool :=
  match landing.1.heap.object 109, landing.2.heap.object 109 with
  | none, some (.hostdata data) => decide (data.tag = 7 ∧ data.pointer = 99)
  | _, _ => false

/-- A type that is not counted is told of nothing, whatever was made. -/
theorem not_trip_balanced : ¬ ∀ (p : Program) (fuel : Nat) (source : LhatMachine) (memory : Memory)
    (value : LhatValue) (targets : List LhatMachine) (t : Trip),
    trip p fuel source memory value targets = some t →
      ∀ tag pointer, balance tag pointer t.calls = t.wrapped tag pointer := by
  intro hall
  have hrun : (trip (oneType false) 2 oneValue oneValue.memory (.object 5) [oneValue]).map
      (fun t => (t.calls, t.landings.map wrapsAt)) = some ([], [true]) := by decide_cbv
  obtain ⟨t, ht, hsees⟩ := Option.map_eq_some_iff.mp hrun
  obtain ⟨hcalls, hlandings⟩ := Prod.mk.inj hsees
  obtain ⟨landing, hone, hmade⟩ := List.map_eq_singleton_iff.mp hlandings
  have hwrapper : (109 : Address) ∈ wrappers landing.1 landing.2 7 99 := by
    unfold wrapsAt at hmade
    split at hmade
    · rename_i hnone hsome
      exact ⟨hnone, _, hsome, of_decide_eq_true hmade⟩
    · cases hmade
  have hfinite : (wrappers landing.1 landing.2 7 99).Finite :=
    Set.Finite.of_injOn (fun a _ => Set.mem_univ a.toFin)
      (fun a _ b _ hab => UInt64.toFin_inj.mp hab) Set.finite_univ
  have hpos := (Set.ncard_pos hfinite).mpr ⟨109, hwrapper⟩
  have hbalance := hall _ _ _ _ _ _ t ht 7 99
  rw [hcalls, Trip.wrapped, hone, List.map_singleton, List.sum_singleton, balance_nil] at hbalance
  omega

end Lhat.Carry
