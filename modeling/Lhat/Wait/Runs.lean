import Lhat.Wait.Basic
import Mathlib.Data.List.Nodup
import Mathlib.Order.Basic

/-!
# A wait is answered once

While no machine is made where an older one stood that waits still name, each wait is answered
to the machine it was armed on and to no other, once, when it is ready.
-/

namespace Lhat.Waits

variable {e : Event} {machine : Option Address} {now : Int64}
variable {t t' : AsyncModule} {w w' : World} {x y : Waiting} {id : Int64} {log : List Event}

/-! ### The table -/

theorem takeFirst_perm {asked : Waiting → Bool} (h : t.takeFirst asked = some (x, t')) :
    asked x = true ∧ (x :: t'.waits).Perm t.waits ∧ t'.nextId = t.nextId := by
  unfold AsyncModule.takeFirst at h
  split at h
  · rename_i i hfind
    obtain ⟨y, hy, h⟩ := Option.map_eq_some_iff.mp h
    cases h
    obtain ⟨hlt, hasked, -⟩ := List.findIdx?_eq_some_iff_getElem.mp hfind
    obtain ⟨_, rfl⟩ := List.getElem?_eq_some_iff.mp hy
    exact ⟨hasked, swapRemove_perm hy, rfl⟩
  · cases h

theorem takeReady_perm (h : t.takeReady machine now = some (id, t')) :
    ∃ x, x.id = id ∧ x.mine machine = true ∧ x.isReady now = true ∧
      (x :: t'.waits).Perm t.waits ∧ t'.nextId = t.nextId := by
  obtain ⟨⟨x, taken⟩, hfirst, h⟩ := Option.map_eq_some_iff.mp h
  cases h
  obtain ⟨hasked, hperm, hnext⟩ := takeFirst_perm hfirst
  rw [Bool.and_eq_true] at hasked
  exact ⟨x, rfl, hasked.1, hasked.2, hperm, hnext⟩

theorem takeThis_perm (h : t.takeThis machine now id = (1, t')) :
    ∃ x, x.id = id ∧ x.mine machine = true ∧ x.isReady now = true ∧
      (x :: t'.waits).Perm t.waits ∧ t'.nextId = t.nextId := by
  unfold AsyncModule.takeThis at h
  split at h
  · rename_i x taken hfirst
    split at h
    · rename_i hready
      cases h
      obtain ⟨hasked, hperm, hnext⟩ := takeFirst_perm hfirst
      rw [Bool.and_eq_true, decide_eq_true_eq] at hasked
      exact ⟨x, hasked.1, hasked.2, hready, hperm, hnext⟩
    · cases h
  · cases h

theorem drop_perm (h : t.drop machine id = some t') :
    ∃ x, x.id = id ∧ (x :: t'.waits).Perm t.waits ∧ t'.nextId = t.nextId := by
  obtain ⟨⟨x, taken⟩, hfirst, h⟩ := Option.map_eq_some_iff.mp h
  cases h
  obtain ⟨hasked, hperm, hnext⟩ := takeFirst_perm hfirst
  rw [Bool.and_eq_true, decide_eq_true_eq] at hasked
  exact ⟨x, hasked.1, hperm, hnext⟩

theorem complete_marks (h : t.complete id = some t') :
    t'.nextId = t.nextId ∧ t'.waits.map Waiting.id = t.waits.map Waiting.id ∧
      ∀ x ∈ t'.waits, x ∈ t.waits ∨ x.id = id ∧ ∃ y ∈ t.waits, x = { y with ready := true } := by
  unfold AsyncModule.complete at h
  split at h
  · rename_i i hfind
    cases h
    obtain ⟨hlt, hid, -⟩ := List.findIdx?_eq_some_iff_getElem.mp hfind
    rw [decide_eq_true_eq] at hid
    refine ⟨rfl, ?_, fun x hx => ?_⟩
    · refine List.ext_getElem? fun j => ?_
      simp only [List.getElem?_map, List.getElem?_modify]
      cases t.waits[j]? with
      | none => rfl
      | some y => by_cases hij : i = j <;> simp [hij]
    · obtain ⟨j, hj⟩ := List.mem_iff_getElem?.mp hx
      rw [List.getElem?_modify] at hj
      cases hy : t.waits[j]? with
      | none =>
        rw [hy] at hj
        cases hj
      | some y =>
        rw [hy] at hj
        by_cases hij : i = j
        · subst hij
          obtain ⟨_, rfl⟩ := List.getElem?_eq_some_iff.mp hy
          simp only [if_pos, Option.map_eq_map, Option.map_some, Option.some.injEq] at hj
          subst hj
          exact .inr ⟨hid, _, List.mem_of_getElem? hy, rfl⟩
        · simp only [if_neg hij, Option.map_eq_map, Option.map_some, Option.some.injEq] at hj
          subst hj
          exact .inl (List.mem_of_getElem? hy)
  · cases h

/-! ### The invariant -/

/-- What the log says of a wait that is in the table. -/
structure Told (w : World) (x : Waiting) : Prop where
  armed : ∃ machine deadline, .armed x.id machine deadline ∈ w.log ∧
    (x.owner = none → machine = none) ∧
    (∀ a, x.owner = some a → ∃ m, machine = some m ∧ ∀ m', w.standing a = some m' → m' = m) ∧
    (x.timed = true → deadline = some x.dueMs.toInt)
  ready : x.ready = true → .completed x.id ∈ w.log
  here : ¬Gone x.id w.log

structure Inv (w : World) : Prop where
  positive : 0 < w.table.nextId.toInt
  clock : 0 ≤ w.now.toInt
  below : ∀ id machine deadline, .armed id machine deadline ∈ w.log →
    id.toInt < w.table.nextId.toInt
  gone : ∀ id, Gone id w.log → id.toInt < w.table.nextId.toInt
  once : (w.table.waits.map Waiting.id).Nodup
  told : ∀ x ∈ w.table.waits, Told w x
  stays : ∀ id machine deadline, .armed id machine deadline ∈ w.log → ¬Gone id w.log →
    id ∈ w.table.waits.map Waiting.id
  fair : Fair w.log

theorem Inv.kept (hw : Inv w) : Kept w := by
  intro id machine deadline harmed
  have hcount : w.table.waits.countP (·.id = id) = (w.table.waits.map Waiting.id).count id := by
    rw [List.count, List.countP_map]
    refine List.countP_congr fun x _ => ?_
    simp
  rw [hcount]
  refine ⟨fun hnot => ?_, fun hgone => ?_⟩
  · exact List.count_eq_one_of_mem hw.once (hw.stays id machine deadline harmed hnot)
  · refine List.count_eq_zero.mpr fun hmem => ?_
    obtain ⟨x, hx, rfl⟩ := List.mem_map.mp hmem
    exact (hw.told x hx).here hgone

/-! ### Steps -/

theorem toInt_add {m n : Int64} (hm : 0 ≤ m.toInt) (hn : 0 ≤ n.toInt)
    (h : m.toInt + n.toInt < 2 ^ 63) : (m + n).toInt = m.toInt + n.toInt := by
  rw [Int64.toInt_add]
  exact Int.bmod_eq_of_le (by omega) (by omega)

/-- The event is the end of a wait. -/
def Ends (id : Int64) (e : Event) : Prop :=
  e = .dropped id ∨ ∃ machine now, e = .answered id machine now

theorem gone_cons (he : Ends id e) {other : Int64} :
    Gone other (e :: log) ↔ other = id ∨ Gone other log := by
  unfold Gone
  obtain rfl | ⟨machine, now, rfl⟩ := he
  · simp only [List.mem_cons, Event.dropped.injEq, reduceCtorEq, false_or]
    grind
  · simp only [List.mem_cons, Event.answered.injEq, reduceCtorEq, false_or]
    constructor
    · rintro (hd | ⟨m, n, ⟨rfl, -, -⟩ | ha⟩)
      · exact .inr (.inl hd)
      · exact .inl rfl
      · exact .inr (.inr ⟨m, n, ha⟩)
    · rintro (rfl | hd | ⟨m, n, ha⟩)
      · exact .inr ⟨machine, now, .inl ⟨rfl, rfl, rfl⟩⟩
      · exact .inl hd
      · exact .inr ⟨m, n, .inr ha⟩

theorem gone_cons_of (he : ∀ id, ¬Ends id e) {other : Int64} :
    Gone other (e :: log) ↔ Gone other log := by
  unfold Gone
  constructor
  · rintro (hd | ⟨m, n, ha⟩)
    · obtain heq | hd := List.mem_cons.mp hd
      · exact absurd (.inl heq.symm) (he other)
      · exact .inl hd
    · obtain heq | ha := List.mem_cons.mp ha
      · exact absurd (.inr ⟨m, n, heq.symm⟩) (he other)
      · exact .inr ⟨m, n, ha⟩
  · rintro (hd | ⟨m, n, ha⟩)
    · exact .inl (List.mem_cons_of_mem _ hd)
    · exact .inr ⟨m, n, List.mem_cons_of_mem _ ha⟩

theorem armed_cons (he : ∀ id machine deadline, e ≠ .armed id machine deadline)
    {machine : Option Machine} {deadline : Option Int} :
    .armed id machine deadline ∈ e :: log ↔ .armed id machine deadline ∈ log := by
  rw [List.mem_cons]
  exact or_iff_right fun heq => he _ _ _ heq.symm

theorem Ends.ne_armed (he : Ends id e) (other : Int64) (machine : Option Machine)
    (deadline : Option Int) : e ≠ .armed other machine deadline := by
  rintro rfl
  obtain heq | ⟨m, n, heq⟩ := he <;> cases heq

theorem Inv.ends (hw : Inv w) (hperm : (x :: t.waits).Perm w.table.waits)
    (hnext : t.nextId = w.table.nextId) (he : Ends x.id e) (hfair : Fair (e :: w.log)) :
    Inv { w with table := t, log := e :: w.log } := by
  have hx : Told w x := hw.told x (hperm.subset List.mem_cons_self)
  have hids : (x.id :: t.waits.map Waiting.id).Perm (w.table.waits.map Waiting.id) :=
    hperm.map Waiting.id
  obtain ⟨hfresh, honce⟩ := List.nodup_cons.mp (hids.nodup_iff.mpr hw.once)
  refine ⟨hnext ▸ hw.positive, hw.clock, fun id m d h => ?_, fun id h => ?_, honce, fun y hy => ?_,
    fun id m d h hnot => ?_, hfair⟩
  · rw [armed_cons he.ne_armed] at h
    exact hnext ▸ hw.below id m d h
  · change id.toInt < t.nextId.toInt
    rw [hnext]
    obtain rfl | h := (gone_cons he).mp h
    · obtain ⟨m, d, harmed, -⟩ := hx.armed
      exact hw.below _ m d harmed
    · exact hw.gone id h
  · have hold := hw.told y (hperm.subset (List.mem_cons_of_mem x hy))
    obtain ⟨m, d, harmed, hnone, hsome, htimed⟩ := hold.armed
    refine ⟨⟨m, d, List.mem_cons_of_mem _ harmed, hnone, hsome, htimed⟩,
      fun h => List.mem_cons_of_mem _ (hold.ready h), fun h => ?_⟩
    obtain heq | h := (gone_cons he).mp h
    · exact hfresh (heq ▸ List.mem_map_of_mem hy)
    · exact hold.here h
  · rw [armed_cons he.ne_armed] at h
    obtain ⟨hne, hnot'⟩ := not_or.mp fun h' => hnot ((gone_cons he).mpr h')
    exact List.mem_of_ne_of_mem hne (hids.symm.subset (hw.stays id m d h hnot'))

theorem Inv.answer (hw : Inv w) (hperm : (x :: t.waits).Perm w.table.waits)
    (hnext : t.nextId = w.table.nextId) (hcall : w.callable machine = true)
    (hmine : x.mine machine = true) (hready : x.isReady w.now = true) :
    Inv (w.answer machine x.id t) := by
  have hx : Told w x := hw.told x (hperm.subset List.mem_cons_self)
  refine hw.ends hperm hnext (.inr ⟨_, _, rfl⟩) ⟨hw.fair, fun m n h => hx.here (.inr ⟨m, n, h⟩), ?_⟩
  obtain ⟨m, d, harmed, hnone, hsome, htimed⟩ := hx.armed
  refine ⟨m, d, harmed, ?_, ?_⟩
  · unfold Waiting.mine at hmine
    rw [Bool.or_eq_true, Option.isNone_iff_eq_none, decide_eq_true_eq] at hmine
    obtain howner | howner := hmine
    · exact .inl (hnone howner)
    · cases machine with
      | none => exact .inl (hnone howner)
      | some a =>
        obtain ⟨n, rfl, hsame⟩ := hsome a howner
        obtain ⟨m', hm'⟩ := Option.isSome_iff_exists.mp hcall
        refine .inr ?_
        change _ = w.standing a
        rw [hm', hsame m' hm']
  · unfold Waiting.isReady at hready
    rw [Bool.or_eq_true, Bool.and_eq_true, decide_eq_true_eq] at hready
    obtain hready | ⟨htime, hdue⟩ := hready
    · exact .inl (hx.ready hready)
    · exact .inr ⟨_, htimed htime, Int64.le_iff_toInt_le.mp hdue⟩

theorem Inv.arm (hw : Inv w) {owner : Option Address} {timed : Bool} {dueMs : Int64}
    {deadline : Option Int} (hcall : w.callable owner = true)
    (hroom : w.table.nextId.toInt + 1 < 2 ^ 63)
    (hdeadline : timed = true → deadline = some dueMs.toInt) :
    Inv (w.arm owner timed dueMs deadline) := by
  have hnext : (w.table.nextId + 1).toInt = w.table.nextId.toInt + 1 :=
    toInt_add (Int.le_of_lt hw.positive) (by decide) hroom
  have hno : ∀ id, ¬Ends id (.armed w.table.nextId (w.machineAt owner) deadline) := by
    rintro id (heq | ⟨m, n, heq⟩) <;> cases heq
  have hfresh : ∀ y ∈ w.table.waits, y.id ≠ w.table.nextId := fun y hy heq => by
    obtain ⟨m, d, harmed, -⟩ := (hw.told y hy).armed
    have := hw.below _ m d harmed
    rw [heq] at this
    exact Int.lt_irrefl _ this
  refine ⟨?_, hw.clock, fun id m d h => ?_, fun id h => ?_, ?_, fun y hy => ?_,
    fun id m d h hnot => ?_, hw.fair⟩
  · change 0 < (w.table.nextId + 1).toInt
    rw [hnext]
    have := hw.positive
    omega
  · change id.toInt < (w.table.nextId + 1).toInt
    rw [hnext]
    obtain heq | h := List.mem_cons.mp h
    · cases heq
      omega
    · have := hw.below id m d h
      omega
  · change id.toInt < (w.table.nextId + 1).toInt
    rw [hnext]
    have := hw.gone id ((gone_cons_of hno).mp h)
    omega
  · change ((w.table.waits ++ [_]).map Waiting.id).Nodup
    rw [List.map_append]
    refine List.Nodup.append hw.once (List.nodup_singleton _) ?_
    intro id hid hid'
    rw [List.map_singleton, List.mem_singleton] at hid'
    obtain ⟨y, hy, rfl⟩ := List.mem_map.mp hid
    exact hfresh y hy hid'
  · obtain hy | hy := List.mem_append.mp hy
    · have hold := hw.told y hy
      obtain ⟨m, d, harmed, hrest⟩ := hold.armed
      exact ⟨⟨m, d, List.mem_cons_of_mem _ harmed, hrest⟩,
        fun h => List.mem_cons_of_mem _ (hold.ready h),
        fun h => hold.here ((gone_cons_of hno).mp h)⟩
    · rw [List.mem_singleton] at hy
      subst hy
      refine ⟨⟨_, _, List.mem_cons_self, ?_, ?_, hdeadline⟩, fun h => (nomatch h), fun h => ?_⟩
      · rintro rfl
        rfl
      · rintro a rfl
        obtain ⟨m, hm⟩ := Option.isSome_iff_exists.mp hcall
        refine ⟨m, hm, fun m' hm' => ?_⟩
        exact Option.some.inj (hm'.symm.trans hm)
      · exact Int.lt_irrefl _ (hw.gone _ ((gone_cons_of hno).mp h))
  · change id ∈ (w.table.waits ++ [_]).map Waiting.id
    rw [List.map_append, List.mem_append]
    obtain heq | h := List.mem_cons.mp h
    · cases heq
      exact .inr List.mem_cons_self
    · exact .inl (hw.stays id m d h fun hg => hnot ((gone_cons_of hno).mpr hg))

theorem Inv.complete (hw : Inv w) (h : w.table.complete id = some t) :
    Inv { w with table := t, log := .completed id :: w.log } := by
  obtain ⟨hnext, hids, hmarks⟩ := complete_marks h
  have hno : ∀ other, ¬Ends other (.completed id) := by
    rintro other (heq | ⟨m, n, heq⟩) <;> cases heq
  have harmed : ∀ other m d, Event.completed id ≠ .armed other m d := fun _ _ _ heq => by cases heq
  refine ⟨hnext ▸ hw.positive, hw.clock, fun other m d h => ?_, fun other h => ?_, ?_, fun y hy => ?_,
    fun other m d h hnot => ?_, hw.fair⟩
  · rw [armed_cons harmed] at h
    exact hnext ▸ hw.below other m d h
  · exact hnext ▸ hw.gone other ((gone_cons_of hno).mp h)
  · change (t.waits.map Waiting.id).Nodup
    rw [hids]
    exact hw.once
  · obtain ⟨z, hz, hsame, hready⟩ : ∃ z ∈ w.table.waits,
        (y.id = z.id ∧ y.owner = z.owner ∧ y.timed = z.timed ∧ y.dueMs = z.dueMs) ∧
        (y.ready = true → z.ready = true ∨ y.id = id) := by
      obtain hy | ⟨hid, z, hz, rfl⟩ := hmarks y hy
      · exact ⟨y, hy, ⟨rfl, rfl, rfl, rfl⟩, .inl⟩
      · exact ⟨z, hz, ⟨rfl, rfl, rfl, rfl⟩, fun _ => .inr hid⟩
    have hold := hw.told z hz
    obtain ⟨hid, howner, htimed, hdue⟩ := hsame
    obtain ⟨m, d, harmed', hrest⟩ := hold.armed
    rw [← hid] at harmed'
    rw [← howner, ← htimed, ← hdue] at hrest
    refine ⟨⟨m, d, List.mem_cons_of_mem _ harmed', hrest⟩, fun hy => ?_, fun h => ?_⟩
    · obtain hz | rfl := hready hy
      · rw [hid]
        exact List.mem_cons_of_mem _ (hold.ready hz)
      · exact List.mem_cons_self
    · rw [hid] at h
      exact hold.here ((gone_cons_of hno).mp h)
  · rw [armed_cons harmed] at h
    change other ∈ t.waits.map Waiting.id
    rw [hids]
    exact hw.stays other m d h fun hg => hnot ((gone_cons_of hno).mpr hg)

theorem Inv.restand (hw : Inv w) {standing : Address → Option Machine} {made : Nat}
    (hstand : ∀ x ∈ w.table.waits, ∀ a, x.owner = some a → ∀ m, standing a = some m →
      w.standing a = some m) : Inv { w with standing := standing, made := made } := by
  refine ⟨hw.positive, hw.clock, hw.below, hw.gone, hw.once, fun x hx => ?_, hw.stays, hw.fair⟩
  have hold := hw.told x hx
  obtain ⟨m, d, harmed, hnone, hsome, htimed⟩ := hold.armed
  refine ⟨⟨m, d, harmed, hnone, fun a ha => ?_, htimed⟩, hold.ready, hold.here⟩
  obtain ⟨n, hn, hsame⟩ := hsome a ha
  exact ⟨n, hn, fun m' hm' => hsame m' (hstand x hx a ha m' hm')⟩

theorem Inv.step {act : Act} (hw : Inv w) (hsound : Sound w act) (h : w.step act = some w') :
    Inv w' := by
  cases act with
  | makeMachine a =>
    obtain ⟨-, h⟩ := Option.ite_none_right_eq_some.mp h
    cases h
    refine hw.restand fun x hx b hb m hm => ?_
    have hne : b ≠ a := by
      rintro rfl
      exact hsound x hx hb
    rwa [Function.update_of_ne hne] at hm
  | dispose a =>
    cases h
    refine hw.restand fun x _ b _ m hm => ?_
    by_cases hb : b = a
    · rw [hb, Function.update_self] at hm
      cases hm
    · rwa [Function.update_of_ne hb] at hm
  | tick now =>
    obtain ⟨hle, h⟩ := Option.ite_none_right_eq_some.mp h
    cases h
    have hclock := hw.clock
    have hlater := Int64.le_iff_toInt_le.mp hle
    refine ⟨hw.positive, ?_, hw.below, hw.gone, hw.once, fun x hx => ?_, hw.stays, hw.fair⟩
    · exact Int.le_trans hclock hlater
    · have hold := hw.told x hx
      exact ⟨hold.armed, hold.ready, hold.here⟩
  | timer a ms =>
    obtain ⟨hcall, h⟩ := Option.ite_none_right_eq_some.mp h
    cases h
    rw [Bool.and_eq_true, decide_eq_true_eq] at hcall
    have hms : (0 : Int64).toInt ≤ ms.toInt := Int64.le_iff_toInt_le.mp hcall.2
    refine hw.arm hcall.1 hsound.2 fun _ => ?_
    rw [toInt_add hw.clock hms hsound.1]
  | external owner =>
    obtain ⟨hcall, h⟩ := Option.ite_none_right_eq_some.mp h
    cases h
    exact hw.arm hcall hsound fun h => (nomatch h)
  | complete id =>
    rcases hcomplete : w.table.complete id with _ | t
    · simp only [World.step, hcomplete] at h
      cases h
      exact hw
    · simp only [World.step, hcomplete] at h
      cases h
      exact hw.complete hcomplete
  | drop a id =>
    obtain ⟨-, h⟩ := Option.ite_none_right_eq_some.mp h
    split at h
    · rename_i t hdrop
      cases h
      obtain ⟨x, rfl, hperm, hnext⟩ := drop_perm hdrop
      exact hw.ends hperm hnext (.inl rfl) hw.fair
    · cases h
      exact hw
  | wait a giveUpAt =>
    obtain ⟨hcall, h⟩ := Option.ite_none_right_eq_some.mp h
    split at h
    · rename_i id t hturn
      cases h
      have htake : w.table.takeReady (some a) w.now = some (id, t) := by
        unfold waitTurn at hturn
        split at hturn
        · rename_i hready
          cases hturn
          exact hready
        · split at hturn <;> cases hturn
      obtain ⟨x, rfl, hmine, hready, hperm, hnext⟩ := takeReady_perm htake
      exact hw.answer hperm hnext hcall hmine hready
    · cases h
      exact hw
  | take machine id =>
    obtain ⟨hcall, h⟩ := Option.ite_none_right_eq_some.mp h
    split at h
    · rename_i t htake
      cases h
      obtain ⟨x, rfl, hmine, hready, hperm, hnext⟩ := takeThis_perm htake
      exact hw.answer hperm hnext hcall hmine hready
    · cases h
      exact hw

theorem Inv.new (h : 0 ≤ now) : Inv (.new now) where
  positive := show 0 < (1 : Int64).toInt by decide
  clock := Int64.le_iff_toInt_le.mp h
  below := fun _ _ _ h => (nomatch h)
  gone := by
    rintro id (h | ⟨m, n, h⟩) <;> cases h
  once := List.nodup_nil
  told := fun _ h => (nomatch h)
  stays := fun _ _ _ h => (nomatch h)
  fair := trivial

theorem Reached.inv (h : Reached w) : Inv w := by
  induction h with
  | new hnow => exact .new hnow
  | step act _ hsound hstep ih => exact ih.step hsound hstep

/-- Where each step is sound, every answer was due, to the machine it went to and only once, and
every wait stays in the table until it is answered or dropped. -/
theorem Reached.answered_once (h : Reached w) : Fair w.log ∧ Kept w := ⟨h.inv.fair, h.inv.kept⟩

/-- A wait that is completed is answered to the machine that armed it. -/
theorem answered_once_taken : ∃ w, Reached w ∧ w.table.waits = [] ∧
    w.log = [.answered 1 (some 0) 0, .completed 1, .armed 1 (some 0) none] ∧
    Fair w.log ∧ Kept w := by
  have h₀ : Reached (.new 0) := .new (Int64.le_refl 0)
  have h₁ := h₀.step (.makeMachine 7) (fun _ h => (nomatch h)) rfl
  have h₂ := h₁.step (.external (some 7)) (by decide) rfl
  have h₃ := h₂.step (.complete 1) trivial rfl
  have h₄ := h₃.step (.take (some 7) 1) trivial rfl
  exact ⟨_, h₄, rfl, rfl, h₄.answered_once⟩

/-! ### A machine at an old address -/

def World.run (w : World) (acts : List Act) : Option World := acts.foldlM World.step w

/-- A wait that a machine armed is answered to the machine that stands at its address. -/
theorem not_fair_reused : ∃ w, (World.new 0).run [.makeMachine 7, .external (some 7), .dispose 7,
      .makeMachine 7, .complete 1, .take (some 7) 1] = some w ∧
    w.log = [.answered 1 (some 1) 0, .completed 1, .armed 1 (some 0) none] ∧ ¬Fair w.log := by
  refine ⟨_, rfl, rfl, ?_⟩
  rintro ⟨-, -, machine, deadline, harmed, hmachine, -⟩
  obtain heq | harmed := List.mem_cons.mp harmed
  · cases heq
  · obtain heq := List.mem_singleton.mp harmed
    cases heq
    obtain hnone | hother := hmachine
    · cases hnone
    · cases hother

end Lhat.Waits
