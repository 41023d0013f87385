import Lhat.Descriptor.Cache
import Mathlib.Data.Finset.Card

/-!
# The search for the components

Each step of `strongconnect` is one of the search that components are found by. It comes back, as
every type is entered once.
-/

namespace Lhat.Descriptor

open Check (TypeRef)
open Components (Marks Under Connected)

section Steps

variable {address : TypeRef → UInt64} {cache cache' : LhatRtCache} {type x : TypeRef}

/-- The types from one of them on along the next ones. -/
def Linked (next : TypeRef → TypeRef) : TypeRef → List TypeRef → Prop
  | a, [] => a = 0
  | a, b :: rest => a = b ∧ b ≠ 0 ∧ Linked next (next b) rest

theorem Linked.congr {next next' : TypeRef → TypeRef} {list : List TypeRef} {a : TypeRef}
    (h : Linked next a list) (hsame : ∀ b ∈ list, next' b = next b) : Linked next' a list := by
  induction list generalizing a with
  | nil => exact h
  | cons b rest ih =>
    obtain ⟨rfl, hne, hrest⟩ := h
    refine ⟨rfl, hne, ?_⟩
    rw [hsame a List.mem_cons_self]
    exact ih hrest fun c hc => hsame c (List.mem_cons_of_mem _ hc)

/-- The components are listed, each with its members. -/
structure Listed (address : TypeRef → UInt64) (cache : LhatRtCache) : Prop where
  ne_zero : ∀ a, (marks address cache).index a ≠ 0 → a ≠ 0
  lists : ∀ k < cache.components.length, ∃ list, list ≠ [] ∧ list.Nodup ∧
    Linked (nextOf ∘ node address cache) (cache.components.getD k 0) list ∧
    ∀ a, a ∈ list ↔ (marks address cache).component a = some k

theorem Listed.congr (h : Listed address cache)
    (hindex : (marks address cache').index = (marks address cache).index)
    (hcomponent : (marks address cache').component = (marks address cache).component)
    (hnext : nextOf ∘ node address cache' = nextOf ∘ node address cache)
    (hcomponents : cache'.components = cache.components) : Listed address cache' := by
  refine ⟨fun a ha => h.ne_zero a (hindex ▸ ha), fun k hk => ?_⟩
  rw [hcomponents] at hk ⊢
  rw [hnext, hcomponent]
  exact h.lists k hk

/-- What a step does whether memory runs out or not. -/
structure Advances (address : TypeRef → UInt64) (cache cache' : LhatRtCache) : Prop where
  sound : Sound address cache'
  broken : cache.broken = true → cache'.broken = true
  reach : cache'.reach = cache.reach
  runtime : runtimeOf ∘ node address cache' = runtimeOf ∘ node address cache
  index : ∀ a, (marks address cache).index a ≠ 0 → (marks address cache').index a ≠ 0

theorem Advances.refl (h : Sound address cache) : Advances address cache cache :=
  ⟨h, id, rfl, rfl, fun _ => id⟩

theorem Advances.trans {cache'' : LhatRtCache} (h : Advances address cache cache')
    (h' : Advances address cache' cache'') : Advances address cache cache'' :=
  ⟨h'.sound, fun hb => h'.broken (h.broken hb), h'.reach.trans h.reach,
    h'.runtime.trans h.runtime, fun a ha => h'.index a (h.index a ha)⟩

theorem lowerNode_spec (h : Sound address cache) (hx : (marks address cache).index x ≠ 0)
    (low : Nat) :
    ∃ nodes, lowerNode address cache x low = some { cache with nodes := nodes } ∧
      Advances address cache { cache with nodes := nodes } ∧
      marks address { cache with nodes := nodes } = (marks address cache).lower x low ∧
      nextOf ∘ node address { cache with nodes := nodes } = nextOf ∘ node address cache := by
  obtain ⟨found, hfound, -⟩ := node_of_index hx
  have hlow : (marks address cache).low x = found.low := by
    show lowOf (node address cache x) = _
    rw [hfound]
    rfl
  unfold lowerNode
  rw [nodeFind_eq h, hfound]
  simp only
  split
  · rename_i hlt
    obtain ⟨nodes, hwrite, hwf, hget⟩ :=
      nodeWrite_spec h hfound fun n => { n with low := low }
    have hof : ∀ {β : Type} (f : Option LhatRtNode → β) (v : β),
        f (some { found with low := low }) = v → f (node address cache x) = v →
        f ∘ HalfFull.get (typeHome address) nodes = f ∘ node address cache := by
      intro β f v hv hold
      rw [hget, Function.comp_update, hv, ← hold]
      exact Function.update_eq_self x (f ∘ node address cache)
    have hindex := hof indexOf found.index rfl (by rw [hfound]; rfl)
    refine ⟨nodes, hwrite, ⟨⟨hwf, h.reach⟩, id, rfl, hof runtimeOf found.runtime rfl
      (by rw [hfound]; rfl), fun a ha => ?_⟩, ?_, hof nextOf found.nextInComponent rfl
      (by rw [hfound]; rfl)⟩
    · show (indexOf ∘ HalfFull.get (typeHome address) nodes) a ≠ 0
      rw [hindex]
      exact ha
    · have hcomponent := hof numberOf (numberOf (some found)) rfl (by rw [hfound])
      have hlows : lowOf ∘ HalfFull.get (typeHome address) nodes =
          Function.update (lowOf ∘ node address cache) x
            (min ((marks address cache).low x) low) := by
        rw [hget, Function.comp_update, hlow, Nat.min_eq_right (Nat.le_of_lt hlt)]
        rfl
      unfold marks Marks.lower
      simp only [Marks.mk.injEq]
      exact ⟨hindex, hlows, hcomponent, trivial, trivial, trivial⟩
  · rename_i hge
    refine ⟨cache.nodes, rfl, .refl h, ?_, rfl⟩
    unfold Marks.lower
    rw [hlow, Nat.min_eq_left (Nat.not_lt.mp hge), ← hlow, Function.update_eq_self]

theorem enterNode_spec (h : Sound address cache) (x : TypeRef) :
    ∃ ok added, nodeAdd address cache x = some (ok, added) ∧ Advances address cache added ∧
      (ok = false ∧ added.broken = true ∨
        ok = true ∧ added.broken = cache.broken ∧ ∃ nodes,
          nodeWrite address { added with nextIndex := added.nextIndex + 1 } x (fun n =>
            { n with index := added.nextIndex + 1, low := added.nextIndex + 1, component :=
              none }) =
              some { added with nextIndex := added.nextIndex + 1, nodes := nodes } ∧
          Advances address cache { added with nextIndex := added.nextIndex + 1, nodes := nodes } ∧
          marks address
              { added with
                nextIndex := added.nextIndex + 1, nodes := nodes, stack := x :: added.stack } =
            (marks address cache).enter x ∧
          nextOf ∘ node address { added with nextIndex := added.nextIndex + 1, nodes := nodes } =
            nextOf ∘ node address cache ∧
          added.components = cache.components) := by
  obtain ⟨ok, nodes, memory, broken, hadd, hwf, hcase⟩ := nodeAdd_spec h x
  have hsound : ∀ broken, Sound address { cache with nodes := nodes, memory := memory, broken :=
    broken } :=
    fun broken => ⟨hwf, h.reach⟩
  have hof : ∀ {β : Type} (f : Option LhatRtNode → β),
      f (some ((node address cache x).getD {})) = f (node address cache x) →
      f ∘ Function.update (node address cache) x (some ((node address cache x).getD {})) =
        f ∘ node address cache := by
    intro β f hsame
    rw [Function.comp_update, hsame]
    exact Function.update_eq_self x (f ∘ node address cache)
  have hget : ∀ {β : Type} (f : Option LhatRtNode → β), f none = f (some {}) →
      f (some ((node address cache x).getD {})) = f (node address cache x) := by
    intro β f hnone
    cases node address cache x with
    | none => exact hnone.symm
    | some found => rfl
  refine ⟨ok, _, hadd, ?_, ?_⟩
  · obtain ⟨rfl, rfl, hsame⟩ | ⟨rfl, rfl, hsame⟩ := hcase
    · refine ⟨hsound _, id, rfl, ?_, fun a ha => ?_⟩
      · show runtimeOf ∘ HalfFull.get (typeHome address) nodes = _
        rw [hsame]
        exact hof runtimeOf (hget runtimeOf rfl)
      · show (indexOf ∘ HalfFull.get (typeHome address) nodes) a ≠ 0
        rw [hsame, hof indexOf (hget indexOf rfl)]
        exact ha
    · refine ⟨hsound _, fun _ => rfl, rfl, ?_, fun a ha => ?_⟩
      · show runtimeOf ∘ HalfFull.get (typeHome address) nodes = _
        rw [hsame]
      · show (indexOf ∘ HalfFull.get (typeHome address) nodes) a ≠ 0
        rw [hsame]
        exact ha
  · obtain ⟨rfl, rfl, hsame⟩ | ⟨rfl, rfl, hsame⟩ := hcase
    swap
    · exact .inl ⟨rfl, rfl⟩
    refine .inr ⟨rfl, rfl, ?_⟩
    have hfound : node address
        { cache with nodes := nodes, memory := memory, nextIndex := cache.nextIndex + 1 } x =
          some ((node address cache x).getD {}) := by
      show HalfFull.get (typeHome address) nodes x = _
      rw [hsame, Function.update_self]
    have hsound' : Sound address
        { cache with nodes := nodes, memory := memory, nextIndex := cache.nextIndex + 1 } :=
      ⟨hwf, h.reach⟩
    obtain ⟨nodes', hwrite, hwf', hget'⟩ := nodeWrite_spec hsound' hfound fun n =>
      { n with index := cache.nextIndex + 1, low := cache.nextIndex + 1, component := none }
    have hget'' : HalfFull.get (typeHome address) nodes' =
        Function.update (node address cache) x (some
          { (node address cache x).getD {} with
            index := cache.nextIndex + 1, low := cache.nextIndex + 1, component := none }) := by
      rw [hget']
      show Function.update (HalfFull.get (typeHome address) nodes) x _ = _
      rw [hsame, Function.update_idem]
    have hkept : ∀ {β : Type} (f : Option LhatRtNode → β),
        f (some { (node address cache x).getD {} with
            index := cache.nextIndex + 1, low := cache.nextIndex + 1, component := none }) =
          f (node address cache x) →
        f ∘ HalfFull.get (typeHome address) nodes' = f ∘ node address cache := by
      intro β f hsame
      rw [hget'', Function.comp_update, hsame]
      exact Function.update_eq_self x (f ∘ node address cache)
    have hindex : indexOf ∘ HalfFull.get (typeHome address) nodes' =
        Function.update (indexOf ∘ node address cache) x (cache.nextIndex + 1) := by
      rw [hget'', Function.comp_update]
      rfl
    refine ⟨nodes', hwrite, ⟨⟨hwf', h.reach⟩, id, rfl, ?_, fun a ha => ?_⟩, ?_, ?_, rfl⟩
    · exact hkept runtimeOf (hget runtimeOf rfl)
    · show (indexOf ∘ HalfFull.get (typeHome address) nodes') a ≠ 0
      rw [hindex, Function.update_apply]
      split
      · exact Nat.succ_ne_zero _
      · exact ha
    · unfold marks Marks.enter
      simp only [Marks.mk.injEq]
      refine ⟨hindex, ?_, ?_, trivial, trivial, trivial⟩
      · show lowOf ∘ HalfFull.get (typeHome address) nodes' = _
        rw [hget'', Function.comp_update]
        rfl
      · show numberOf ∘ HalfFull.get (typeHome address) nodes' = _
        rw [hget'', Function.comp_update]
        rfl
    · exact hkept nextOf (hget nextOf rfl)

theorem popComponent_spec {component : Nat} {rest : List TypeRef} (popped : List TypeRef) :
    ∀ {cache : LhatRtCache} {listed : List TypeRef}, Sound address cache →
      component < cache.components.length →
      (∀ a ∈ popped ++ [x], (marks address cache).index a ≠ 0 ∧ a ≠ 0 ∧ a ∉ listed) →
      (popped ++ [x]).Nodup →
      Linked (nextOf ∘ node address cache) (cache.components.getD component 0) listed →
      ∃ nodes, popComponent address x component cache (popped ++ x :: rest) =
          some { cache with
            nodes := nodes, stack := rest, components := cache.components.set component x } ∧
        HalfFull.Wf (typeHome address) nodes ∧
        indexOf ∘ HalfFull.get (typeHome address) nodes = indexOf ∘ node address cache ∧
        lowOf ∘ HalfFull.get (typeHome address) nodes = lowOf ∘ node address cache ∧
        runtimeOf ∘ HalfFull.get (typeHome address) nodes = runtimeOf ∘ node address cache ∧
        (∀ a, numberOf (HalfFull.get (typeHome address) nodes a) =
          if a ∈ popped ++ [x] then some component else numberOf (node address cache a)) ∧
        (∀ a, a ∉ popped ++ [x] →
          nextOf (HalfFull.get (typeHome address) nodes a) = nextOf (node address cache a)) ∧
        Linked (nextOf ∘ HalfFull.get (typeHome address) nodes) x
          ((popped ++ [x]).reverse ++ listed) := by
  -- one type is taken off
  have hone : ∀ {cache : LhatRtCache} (a : TypeRef), Sound address cache →
      (marks address cache).index a ≠ 0 →
      ∃ nodes, nodeWrite address cache a (fun m =>
          { m with component := some component
                   nextInComponent := cache.components.getD component 0 }) =
          some { cache with nodes := nodes } ∧
        HalfFull.Wf (typeHome address) nodes ∧
        indexOf ∘ HalfFull.get (typeHome address) nodes = indexOf ∘ node address cache ∧
        lowOf ∘ HalfFull.get (typeHome address) nodes = lowOf ∘ node address cache ∧
        runtimeOf ∘ HalfFull.get (typeHome address) nodes = runtimeOf ∘ node address cache ∧
        (∀ b, numberOf (HalfFull.get (typeHome address) nodes b) =
          if b = a then some component else numberOf (node address cache b)) ∧
        ∀ b, nextOf (HalfFull.get (typeHome address) nodes b) =
          if b = a then cache.components.getD component 0 else nextOf (node address cache b) := by
    intro cache a h ha
    obtain ⟨found, hfound, hindex⟩ := node_of_index ha
    obtain ⟨nodes, hwrite, hwf, hget⟩ := nodeWrite_spec h hfound fun m =>
      { m with component := some component, nextInComponent := cache.components.getD component 0 }
    have hof : ∀ {β : Type} (f : Option LhatRtNode → β),
        f (some { found with
          component := some component
          nextInComponent := cache.components.getD component 0 }) = f (some found) →
        f ∘ HalfFull.get (typeHome address) nodes = f ∘ node address cache := by
      intro β f hsame
      rw [hget, Function.comp_update, hsame, ← hfound]
      exact Function.update_eq_self a (f ∘ node address cache)
    refine ⟨nodes, hwrite, hwf, hof indexOf rfl, hof lowOf rfl, hof runtimeOf rfl,
      fun b => ?_, fun b => ?_⟩
    · rw [hget, Function.update_apply]
      by_cases hb : b = a
      · rw [if_pos hb, if_pos hb]
        exact if_neg hindex
      · rw [if_neg hb, if_neg hb]
    · rw [hget, Function.update_apply]
      by_cases hb : b = a
      · rw [if_pos hb, if_pos hb]
        rfl
      · rw [if_neg hb, if_neg hb]
  induction popped with
  | nil =>
    intro cache listed h hlt hall _ hlinked
    obtain ⟨hx, hne, hnot⟩ := hall x (by simp)
    obtain ⟨nodes, hwrite, hwf, hindex, hlow, hruntime, hnumber, hnext⟩ := hone x h hx
    refine ⟨nodes, ?_, hwf, hindex, hlow, hruntime, ?_, ?_, rfl, hne, ?_⟩
    · rw [List.nil_append, popComponent, hwrite]
      simp
    · intro a
      rw [hnumber a]
      simp
    · intro a ha
      rw [hnext a, if_neg (by simpa using ha)]
    · show Linked _ ((nextOf ∘ HalfFull.get (typeHome address) nodes) x) listed
      rw [Function.comp_apply, hnext x, if_pos rfl]
      refine hlinked.congr fun b hb => ?_
      rw [Function.comp_apply, hnext b, if_neg]
      · rfl
      · rintro rfl
        exact hnot hb
  | cons a popped ih =>
    intro cache listed h hlt hall hnodup hlinked
    obtain ⟨ha, hne, hnot⟩ := hall a (by simp)
    obtain ⟨hapart, hnodup'⟩ : a ∉ popped ++ [x] ∧ (popped ++ [x]).Nodup :=
      List.nodup_cons.mp hnodup
    obtain ⟨nodes, hwrite, hwf, hindex, hlow, hruntime, hnumber, hnext⟩ := hone a h ha
    have hax : a ≠ x := by
      rintro rfl
      exact hapart (by simp)
    have hset : (cache.components.set component a).getD component 0 = a := by
      rw [List.getD_eq_getElem?_getD, List.getElem?_set_self hlt]
      rfl
    obtain ⟨nodes', hpop, hwf', hindex', hlow', hruntime', hnumber', hnext', hlinked'⟩ :=
      @ih { cache with
          nodes := nodes, stack := popped ++ x :: rest
          components := cache.components.set component a } (a :: listed) ⟨hwf, h.reach⟩
        (by simpa using hlt) (fun b hb => by
          obtain ⟨hb', hne', hnot'⟩ := hall b (List.mem_cons_of_mem _ hb)
          refine ⟨?_, hne', ?_⟩
          · show (indexOf ∘ HalfFull.get (typeHome address) nodes) b ≠ 0
            rw [hindex]
            exact hb'
          · rw [List.mem_cons, not_or]
            refine ⟨?_, hnot'⟩
            rintro rfl
            exact hapart hb) hnodup'
        (by
          rw [show ({ cache with
            nodes := nodes, stack := popped ++ x :: rest
            components := cache.components.set component a } : LhatRtCache).components.getD
              component 0 = a from hset]
          refine ⟨rfl, hne, ?_⟩
          show Linked _ (nextOf (HalfFull.get (typeHome address) nodes a)) listed
          rw [hnext a, if_pos rfl]
          refine hlinked.congr fun b hb => ?_
          show nextOf (HalfFull.get (typeHome address) nodes b) = _
          rw [hnext b, if_neg]
          · rfl
          · rintro rfl
            exact hnot hb)
    refine ⟨nodes', ?_, hwf', hindex'.trans hindex, hlow'.trans hlow, hruntime'.trans hruntime,
      fun b => ?_, fun b hb => ?_, ?_⟩
    · rw [List.cons_append, popComponent, hwrite]
      simp only [if_neg hax]
      rw [hpop]
      simp
    · have hsame : node address { cache with
          nodes := nodes, stack := popped ++ x :: rest
          components := cache.components.set component a } b =
            HalfFull.get (typeHome address) nodes b := rfl
      rw [hnumber' b, hsame, hnumber b]
      by_cases hb : b = a
      · simp [hb]
      · simp [hb]
    · rw [List.cons_append, List.mem_cons, not_or] at hb
      have hsame : node address { cache with
          nodes := nodes, stack := popped ++ x :: rest
          components := cache.components.set component a } b =
            HalfFull.get (typeHome address) nodes b := rfl
      rw [hnext' b hb.2, hsame, hnext b, if_neg hb.1]
    · rw [List.cons_append, List.reverse_cons, List.append_assoc]
      exact hlinked'

/-- The edges that the components are of. -/
def Child (arena : CheckedArena) (a b : TypeRef) : Prop := b ∈ arena.eachChild a

theorem closeComponent_spec {arena : CheckedArena} {gray seen : List TypeRef}
    {m : Marks TypeRef} (h : Sound address cache) (hx : (marks address cache).index x ≠ 0)
    (hunder : cache.broken = false → m.Inv (Child arena) gray ∧ Listed address cache ∧
      Under (Child arena) gray m x seen (marks address cache) ∧
      ∀ c, Child arena x c → c ∈ seen) :
    ∃ closed, closeComponent address cache x = some closed ∧ Advances address cache closed ∧
      (closed.broken = false → Connected (Child arena) gray m x (marks address closed) ∧
        Listed address closed) := by
  obtain ⟨found, hfound, -⟩ := node_of_index hx
  have hindex : (marks address cache).index x = found.index := by
    show indexOf (node address cache x) = _
    rw [hfound]
    rfl
  have hlow : (marks address cache).low x = found.low := by
    show lowOf (node address cache x) = _
    rw [hfound]
    rfl
  unfold closeComponent
  rw [nodeFind_eq h, hfound]
  simp only
  by_cases hstay : (cache.broken || found.low != found.index) = true
  · rw [if_pos hstay]
    refine ⟨cache, rfl, .refl h, fun hbroken => ?_⟩
    rw [hbroken, Bool.false_or, bne_iff_ne] at hstay
    obtain ⟨hm, hlisted, hunder, hall⟩ := hunder hbroken
    exact ⟨hunder.keep hm hall (by rw [hlow, hindex]; exact hstay), hlisted⟩
  · rw [if_neg hstay]
    rw [Bool.or_eq_true, not_or, Bool.not_eq_true, bne_iff_ne, not_not] at hstay
    obtain ⟨hbroken, heq⟩ := hstay
    obtain ⟨hm, hlisted, hunder, hall⟩ := hunder hbroken
    obtain ⟨room, capacity, memory⟩ :=
      growCapacity cache.components.length cache.componentCapacity cache.memory
    cases room with
    | false => exact ⟨_, rfl, ⟨⟨h.nodes, h.reach⟩, fun _ => rfl, rfl, rfl, fun _ => id⟩, nofun⟩
    | true =>
      obtain ⟨new, hstack, -⟩ := hunder.above
      have hstack' : cache.stack = new ++ x :: m.stack := hstack
      have hinv := hunder.inv
      have hpopped : ∀ a ∈ new ++ [x], a ∈ (marks address cache).stack := fun a ha => by
        rw [hstack]
        obtain ha | ha := List.mem_append.mp ha
        · exact List.mem_append_left _ ha
        · rw [List.mem_singleton.mp ha]
          simp
      have hopen : ∀ a ∈ new ++ [x], (marks address cache).index a ≠ 0 ∧
          (marks address cache).component a = none := fun a ha =>
        (hinv.mem_stack a).mp (hpopped a ha)
      have hnodup : (new ++ [x]).Nodup := by
        have hall : (marks address cache).stack.Nodup := hinv.sorted.imp fun hlt => by
          rintro rfl
          exact Nat.lt_irrefl _ hlt
        rw [hstack, show new ++ x :: m.stack = (new ++ [x]) ++ m.stack by simp] at hall
        exact (List.nodup_append.mp hall).1
      obtain ⟨nodes, hpop, hwf, hindexes, hlows, hruntime, hnumber, hnext, hlinked⟩ :=
        @popComponent_spec address x cache.components.length m.stack new
          { cache with
            componentCapacity := capacity
            memory := memory
            components := cache.components ++ [0] } [] ⟨h.nodes, h.reach⟩ (by simp)
          (fun a ha => ⟨(hopen a ha).1, hlisted.ne_zero a (hopen a ha).1, List.not_mem_nil⟩) hnodup
          (by simp [Linked])
      rw [← hstack'] at hpop
      refine ⟨{ cache with
        nodes := nodes, stack := m.stack, componentCapacity := capacity, memory := memory
        components := (cache.components ++ [0]).set cache.components.length x }, hpop,
        ⟨⟨hwf, h.reach⟩, id, rfl, hruntime, fun a ha => ?_⟩, fun _ => ?_⟩
      · show (indexOf ∘ HalfFull.get (typeHome address) nodes) a ≠ 0
        rw [hindexes]
        exact ha
      have hset : (cache.components ++ [0]).set cache.components.length x =
          cache.components ++ [x] := by
        rw [List.set_append_right _ _ (Nat.le_refl _), Nat.sub_self]
        rfl
      have hmarks : marks address { cache with
          nodes := nodes, stack := m.stack, componentCapacity := capacity, memory := memory
          components := (cache.components ++ [0]).set cache.components.length x } =
            (marks address cache).close (new ++ [x]) m.stack := by
        unfold marks Marks.close
        simp only [Marks.mk.injEq]
        refine ⟨hindexes, hlows, funext hnumber, trivial, trivial, ?_⟩
        rw [hset, List.length_append]
        rfl
      refine ⟨?_, fun a ha => ?_, fun k hk => ?_⟩
      · rw [hmarks]
        exact hunder.close hm hall (by rw [hlow, hindex, heq]) hstack
      · rw [hmarks] at ha
        exact hlisted.ne_zero a ha
      · rw [hmarks]
        show ∃ list, list ≠ [] ∧ list.Nodup ∧
          Linked (nextOf ∘ HalfFull.get (typeHome address) nodes)
            (((cache.components ++ [0]).set cache.components.length x).getD k 0) list ∧
          ∀ a, a ∈ list ↔ (if a ∈ new ++ [x] then some cache.components.length
            else (marks address cache).component a) = some k
        have hk : k < ((cache.components ++ [0]).set cache.components.length x).length := hk
        rw [hset] at hk ⊢
        rw [List.length_append, List.length_singleton] at hk
        obtain hlt | rfl := Nat.lt_succ_iff_lt_or_eq.mp hk
        · obtain ⟨list, hne, hnodup', hlinked', hmem⟩ := hlisted.lists k hlt
          have hapart : ∀ a ∈ list, a ∉ new ++ [x] := fun a ha hin => by
            have hk := (hmem a).mp ha
            rw [(hopen a hin).2] at hk
            cases hk
          refine ⟨list, hne, hnodup', ?_, fun a => ?_⟩
          · rw [List.getD_eq_getElem?_getD, List.getElem?_append_left hlt,
              ← List.getD_eq_getElem?_getD]
            exact hlinked'.congr fun a ha => hnext a (hapart a ha)
          · rw [hmem]
            by_cases ha : a ∈ new ++ [x]
            · rw [if_pos ha, (hopen a ha).2]
              exact ⟨nofun, fun heq => absurd (Option.some.inj heq) (Nat.ne_of_gt hlt)⟩
            · rw [if_neg ha]
        · refine ⟨(new ++ [x]).reverse, by simp, List.nodup_reverse.mpr hnodup, ?_, fun a => ?_⟩
          · rw [List.getD_eq_getElem?_getD, List.getElem?_append_right (Nat.le_refl _),
              Nat.sub_self]
            rw [List.append_nil] at hlinked
            exact hlinked
          · rw [List.mem_reverse]
            by_cases ha : a ∈ new ++ [x]
            · rw [if_pos ha]
              exact ⟨fun _ => rfl, fun _ => ha⟩
            · rw [if_neg ha]
              exact ⟨fun hin => absurd hin ha, fun hk =>
                absurd (hinv.entered a _ hk).2 (Nat.lt_irrefl _)⟩

/-! ### A search from a type -/

section Search

variable {arena : CheckedArena} {gray seen : List TypeRef} {m : Marks TypeRef} {fuel : Nat}
  {known : Finset TypeRef}

/-- The types that are still to be entered. -/
def unvisited (address : TypeRef → UInt64) (known : Finset TypeRef) (cache : LhatRtCache) :
    Finset TypeRef :=
  known.filter fun a => (marks address cache).index a = 0

theorem Advances.unvisited (h : Advances address cache cache') (known : Finset TypeRef) :
    (unvisited address known cache').card ≤ (unvisited address known cache).card := by
  refine Finset.card_le_card fun a ha => ?_
  obtain ⟨hin, hzero⟩ := Finset.mem_filter.mp ha
  refine Finset.mem_filter.mpr ⟨hin, ?_⟩
  by_contra hne
  exact h.index a hne hzero

theorem Advances.whole (h : Advances address cache cache') (hbroken : cache'.broken = false) :
    cache.broken = false := by
  cases hb : cache.broken with
  | false => rfl
  | true =>
    rw [h.broken hb] at hbroken
    cases hbroken

/-- What is asked of `strongconnect`, with so much fuel. -/
def Searches (address : TypeRef → UInt64) (arena : CheckedArena) (known : Finset TypeRef)
    (fuel : Nat) (connect : LhatRtCache → TypeRef → Option LhatRtCache) : Prop :=
  ∀ (cache : LhatRtCache) (x : TypeRef) (gray : List TypeRef), Sound address cache → x ≠ 0 →
    x ∈ known → (marks address cache).index x = 0 →
    (unvisited address known cache).card < fuel →
    (cache.broken = false →
      (marks address cache).Inv (Child arena) gray ∧ Listed address cache) →
    ∃ cache', connect cache x = some cache' ∧ Advances address cache cache' ∧
      (cache'.broken = false →
        Connected (Child arena) gray (marks address cache) x (marks address cache') ∧
          Listed address cache')

/-- `tarjan_edge` where a type has no index. -/
def descend (address : TypeRef → UInt64) (connect : LhatRtCache → TypeRef → Option LhatRtCache)
    (node : TypeRef) (cache : LhatRtCache) (type : TypeRef) : Option LhatRtCache :=
  match connect cache type with
  | none => none
  | some cache =>
    match nodeFind address cache type with
    | none => none
    | some none => some cache
    | some (some child) => lowerNode address cache node child.low

theorem tarjanEdge_spec {connect : LhatRtCache → TypeRef → Option LhatRtCache} {c : TypeRef}
    (hconnect : Searches address arena known fuel connect) (h : Sound address cache)
    (hx : (marks address cache).index x ≠ 0) (hedge : Child arena x c) (hc : c ∈ known)
    (hfuel : (unvisited address known cache).card < fuel)
    (hunder : cache.broken = false → m.Inv (Child arena) gray ∧ Listed address cache ∧
      Under (Child arena) gray m x seen (marks address cache)) :
    ∃ cache', tarjanEdge address connect x cache c = some cache' ∧
      Advances address cache cache' ∧
      (cache'.broken = false → Listed address cache' ∧
        Under (Child arena) gray m x (c :: seen) (marks address cache')) := by
  have hcne : c ≠ 0 := arena.ne_zero_of_mem_eachChild hedge
  -- a type without an index is searched from there
  have hdescend : (marks address cache).index c = 0 →
      ∃ cache', descend address connect x cache c = some cache' ∧
        Advances address cache cache' ∧
        (cache'.broken = false → Listed address cache' ∧
          Under (Child arena) gray m x (c :: seen) (marks address cache')) := by
    intro hnew
    obtain ⟨after, hcall, hadvance, hafter⟩ := hconnect cache c (x :: gray) h hcne hc hnew hfuel
      fun hbroken => ⟨(hunder hbroken).2.2.inv, (hunder hbroken).2.1⟩
    unfold descend
    rw [hcall]
    simp only
    rw [nodeFind_eq hadvance.sound]
    cases hnode : node address after c with
    | none =>
      refine ⟨after, rfl, hadvance, fun hbroken => ?_⟩
      obtain ⟨found, hfound, -⟩ := node_of_index (hafter hbroken).1.entered
      rw [hnode] at hfound
      cases hfound
    | some child =>
      obtain ⟨nodes, hlower, hadvance', hmarks, hnext⟩ :=
        lowerNode_spec hadvance.sound (hadvance.index x hx) child.low
      refine ⟨_, hlower, hadvance.trans hadvance', fun hbroken => ?_⟩
      obtain ⟨hconnected, hlisted⟩ := hafter hbroken
      obtain ⟨hm, -, hunder⟩ := hunder (hadvance.whole hbroken)
      refine ⟨hlisted.congr (by rw [hmarks]; rfl) (by rw [hmarks]; rfl) hnext rfl, ?_⟩
      have hlow : (marks address after).low c = child.low := by
        show lowOf (node address after c) = _
        rw [hnode]
        rfl
      rw [hmarks, ← hlow]
      exact hunder.descend hm hedge hnew hconnected
  unfold tarjanEdge
  simp only
  rw [nodeFind_eq h]
  cases hnode : node address cache c with
  | none => exact hdescend (by show indexOf (node address cache c) = 0; rw [hnode]; rfl)
  | some child =>
    have hindex : (marks address cache).index c = child.index := by
      show indexOf (node address cache c) = _
      rw [hnode]
      rfl
    by_cases hzero : child.index = 0
    · simp only [if_pos hzero]
      exact hdescend (hindex.trans hzero)
    · have hnumber : (marks address cache).component c = child.component := by
        show numberOf (node address cache c) = _
        rw [hnode]
        exact if_neg hzero
      simp only [if_neg hzero]
      by_cases hopen : child.component = none
      · rw [if_pos hopen]
        obtain ⟨nodes, hlower, hadvance, hmarks, hnext⟩ := lowerNode_spec h hx child.index
        refine ⟨_, hlower, hadvance, fun hbroken => ?_⟩
        obtain ⟨hm, hlisted, hunder⟩ := hunder hbroken
        refine ⟨hlisted.congr (by rw [hmarks]; rfl) (by rw [hmarks]; rfl) hnext rfl, ?_⟩
        rw [hmarks, ← hindex]
        exact hunder.back hm hedge ((hunder.inv.mem_stack c).mpr
          ⟨by rw [hindex]; exact hzero, hnumber.trans hopen⟩)
      · rw [if_neg hopen]
        refine ⟨cache, rfl, .refl h, fun hbroken => ?_⟩
        obtain ⟨hm, hlisted, hunder⟩ := hunder hbroken
        obtain ⟨k, hk⟩ := Option.ne_none_iff_exists'.mp hopen
        exact ⟨hlisted, hunder.skip (hnumber.trans hk) hm⟩

theorem tarjanEdges_spec {connect : LhatRtCache → TypeRef → Option LhatRtCache}
    (hconnect : Searches address arena known fuel connect) (children : List TypeRef) :
    ∀ {cache : LhatRtCache} {seen : List TypeRef}, Sound address cache →
      (marks address cache).index x ≠ 0 → (∀ c ∈ children, Child arena x c ∧ c ∈ known) →
      (unvisited address known cache).card < fuel →
      (cache.broken = false → m.Inv (Child arena) gray ∧ Listed address cache ∧
        Under (Child arena) gray m x seen (marks address cache)) →
      ∃ cache', children.foldlM (tarjanEdge address connect x) cache = some cache' ∧
        Advances address cache cache' ∧
        (cache'.broken = false → m.Inv (Child arena) gray ∧ Listed address cache' ∧
          ∃ seen', (∀ c, c ∈ children ∨ c ∈ seen → c ∈ seen') ∧
            Under (Child arena) gray m x seen' (marks address cache')) := by
  induction children with
  | nil =>
    intro cache seen h _ _ _ hunder
    exact ⟨cache, rfl, .refl h, fun hbroken => ⟨(hunder hbroken).1, (hunder hbroken).2.1, seen,
      fun c hc => hc.resolve_left List.not_mem_nil, (hunder hbroken).2.2⟩⟩
  | cons c children ih =>
    intro cache seen h hx hall hfuel hunder
    obtain ⟨hedge, hc⟩ := hall c List.mem_cons_self
    obtain ⟨next, hnext, hadvance, hafter⟩ :=
      tarjanEdge_spec hconnect h hx hedge hc hfuel hunder
    obtain ⟨last, hlast, hadvance', hafter'⟩ := @ih next (c :: seen) hadvance.sound
      (hadvance.index x hx) (fun d hd => hall d (List.mem_cons_of_mem _ hd))
      (Nat.lt_of_le_of_lt (hadvance.unvisited known) hfuel)
      fun hbroken => ⟨(hunder (hadvance.whole hbroken)).1, hafter hbroken⟩
    refine ⟨last, by rw [List.foldlM_cons, hnext]; exact hlast, hadvance.trans hadvance',
      fun hbroken => ?_⟩
    obtain ⟨hm, hlisted, seen', hseen, hunder'⟩ := hafter' hbroken
    refine ⟨hm, hlisted, seen', fun d hd => hseen d ?_, hunder'⟩
    obtain hd | hd := hd
    · obtain rfl | hd := List.mem_cons.mp hd
      · exact .inr List.mem_cons_self
      · exact .inl hd
    · exact .inr (List.mem_cons_of_mem _ hd)

theorem Listed.enter {entered : LhatRtCache} (h : Listed address cache)
    (hinv : (marks address cache).Inv (Child arena) gray) (hne : x ≠ 0)
    (hzero : (marks address cache).index x = 0)
    (hmarks : marks address entered = (marks address cache).enter x)
    (hnext : nextOf ∘ node address entered = nextOf ∘ node address cache)
    (hcomponents : entered.components = cache.components) : Listed address entered := by
  have hnone : (marks address cache).component x = none := by
    cases hc : (marks address cache).component x with
    | none => rfl
    | some k => exact absurd hzero (hinv.entered x k hc).1
  have hcomponent : ((marks address cache).enter x).component =
      (marks address cache).component := by
    unfold Marks.enter
    simp only
    rw [← hnone, Function.update_eq_self]
  refine ⟨fun a ha => ?_, fun k hk => ?_⟩
  · by_cases hax : a = x
    · rw [hax]
      exact hne
    · rw [hmarks] at ha
      unfold Marks.enter at ha
      simp only [Function.update_of_ne hax] at ha
      exact h.ne_zero a ha
  · rw [hmarks, hcomponent, hnext, hcomponents]
    exact h.lists k (hcomponents ▸ hk)

/-- With fuel for the types that are not visited, `strongconnect` comes back. What it leaves is
connected, unless memory ran out. -/
theorem strongconnect_spec (hknown : ∀ a ∈ known, ∀ b, Child arena a b → b ∈ known)
    (fuel : Nat) : Searches address arena known fuel (strongconnect address arena fuel) := by
  induction fuel with
  | zero => exact fun cache x gray _ _ _ _ hfuel => absurd hfuel (Nat.not_lt_zero _)
  | succ fuel ih =>
    intro cache x gray h hne hx hzero hfuel hinv
    obtain ⟨ok, added, hadd, hadvance, hcase⟩ := enterNode_spec h x
    unfold strongconnect
    rw [hadd]
    obtain ⟨rfl, hbroken⟩ | ⟨rfl, hsame, nodes, hwrite, hentered, hmarks, hnext, hcomponents⟩ :=
      hcase
    · exact ⟨added, rfl, hadvance, fun hfalse => by rw [hbroken] at hfalse; cases hfalse⟩
    simp only [hwrite]
    obtain ⟨room, capacity, memory⟩ :=
      growCapacity added.stack.length added.stackCapacity added.memory
    cases room with
    | false =>
      exact ⟨_, rfl, ⟨⟨hentered.sound.nodes, hentered.sound.reach⟩, fun _ => rfl, hentered.reach,
        hentered.runtime, hentered.index⟩, nofun⟩
    | true =>
      simp only
      -- the type stands on the stack
      generalize hstart : ({ added with
          nextIndex := added.nextIndex + 1, nodes := nodes, stackCapacity := capacity
          memory := memory, stack := x :: added.stack } : LhatRtCache) = entered
      have hmarks' : marks address entered = (marks address cache).enter x := hstart ▸ hmarks
      have hnext' : nextOf ∘ node address entered = nextOf ∘ node address cache := hstart ▸ hnext
      have hcomponents' : entered.components = cache.components := hstart ▸ hcomponents
      have hbroken' : entered.broken = cache.broken := hstart ▸ hsame
      have hadvance' : Advances address cache entered := hstart ▸
        ⟨⟨hentered.sound.nodes, hentered.sound.reach⟩, hentered.broken, hentered.reach,
          hentered.runtime, hentered.index⟩
      have hself : (marks address entered).index x ≠ 0 := by
        rw [hmarks']
        unfold Marks.enter
        simp only [Function.update_self]
        exact Nat.succ_ne_zero _
      have hless : (unvisited address known entered).card <
          (unvisited address known cache).card := by
        refine Finset.card_lt_card ⟨fun a ha => ?_, fun hsub => ?_⟩
        · obtain ⟨hin, ha⟩ := Finset.mem_filter.mp ha
          refine Finset.mem_filter.mpr ⟨hin, ?_⟩
          by_contra hne
          exact hadvance'.index a hne ha
        · exact hself (Finset.mem_filter.mp (hsub (Finset.mem_filter.mpr ⟨hx, hzero⟩))).2
      obtain ⟨followed, hfold, hfollow, hfollowed⟩ :=
        @tarjanEdges_spec address x arena gray (marks address cache) fuel known _ ih
          (arena.eachChild x) entered [] hadvance'.sound hself
          (fun c hc => ⟨hc, hknown x hx c hc⟩) (by omega) fun hbroken => by
            obtain ⟨hm, hlisted⟩ := hinv (hbroken'.symm.trans hbroken)
            refine ⟨hm, hlisted.enter hm hne hzero hmarks' hnext' hcomponents', ?_⟩
            rw [hmarks']
            exact .enter hm hzero
      obtain ⟨seen', hseen⟩ : ∃ seen', followed.broken = false →
          (marks address cache).Inv (Child arena) gray ∧ Listed address followed ∧
          Under (Child arena) gray (marks address cache) x seen' (marks address followed) ∧
          ∀ c, Child arena x c → c ∈ seen' := by
        cases hb : followed.broken with
        | true => exact ⟨[], nofun⟩
        | false =>
          obtain ⟨hm, hlisted, seen', hseen, hunder⟩ := hfollowed hb
          exact ⟨seen', fun _ => ⟨hm, hlisted, hunder, fun c hc => hseen c (.inl hc)⟩⟩
      obtain ⟨closed, hclose, hleft, hclosed⟩ :=
        closeComponent_spec hfollow.sound (hfollow.index x hself) hseen
      rw [hfold]
      exact ⟨closed, hclose, (hadvance'.trans hfollow).trans hleft, hclosed⟩

end Search

end Steps

end Lhat.Descriptor
