import Lhat.Foundation.OpenAddressing

/-!
# Open addressing that keeps what is put

Slots that are free or hold something, which is put into the first free one from its home and
never taken away, whether its key is held already or not. The run from a home, up to a free
slot, has what was put under a key in the order it was put in, so the loop finds what came
first.
-/

namespace ProbeRuns

variable {α K : Type*} [DecidableEq K] (key : α → K) (home : K → Nat)

/-- The loop over the slots, to a free one or to one the comparison answers. -/
def probe (slots : List (Option α)) (hit : Option α → Bool) (k : K) : Option Nat :=
  OpenAddressing.search Option.isNone (fun _ => false) (fun slot => some (hit slot)) slots
    slots.length (home k &&& (slots.length - 1)) none

/-- What goes in goes where the first free slot is. -/
def put (slots : List (Option α)) (a : α) : Option (List (Option α)) :=
  (probe home slots (fun _ => false) (key a)).map fun i => slots.set i (some a)

/-- What the loop finds under a key. -/
def lookup (slots : List (Option α)) (k : K) : Option (Option α) :=
  (probe home slots (fun slot => decide (slot.map key = some k)) k).map fun i =>
    slots.getD i none

/-- What is held from a place on, up to a free slot. -/
inductive Run (slots : List (Option α)) : Nat → List α → Prop
  | free {h : Nat} : slots[h % slots.length]? = some none → Run slots h []
  | held {h : Nat} {a : α} {as : List α} : slots[h % slots.length]? = some (some a) →
      Run slots (h + 1) as → Run slots h (a :: as)

/-- The slots after so much was put. -/
structure Wf (slots : List (Option α)) (as : List α) : Prop where
  capacity : ∃ e, slots.length = 2 ^ e
  used : slots.countP Option.isSome = as.length
  room : as.length < slots.length
  reached : ∀ i a, slots[i]? = some (some a) → ∃ d < slots.length,
    (home (key a) + d) % slots.length = i ∧
      ∀ e ≤ d, ∃ b, slots[(home (key a) + e) % slots.length]? = some (some b)
  found : ∀ k r, Run slots (home k) r → r.find? (key · = k) = as.find? (key · = k)

variable {key home} {slots : List (Option α)} {as r r' : List α} {h e : Nat} {a : α} {k : K}

theorem add_mod_inj {n p q : Nat} (hp : p < n) (hq : q < n) (heq : (h + p) % n = (h + q) % n) :
    p = q := (Nat.ModEq.add_left_cancel' h heq).eq_of_lt_of_lt hp hq

namespace Run

theorem eq (hr : Run slots h r) (hr' : Run slots h r') : r = r' := by
  induction hr generalizing r' with
  | free hfree =>
    cases hr' with
    | free => rfl
    | held hheld => exact nomatch hfree.symm.trans hheld
  | held hheld _ ih =>
    cases hr' with
    | free hfree => exact nomatch hfree.symm.trans hheld
    | held hheld' hrest =>
      rw [ih hrest, Option.some.inj (Option.some.inj (hheld.symm.trans hheld'))]

theorem of_free {m : Nat} : ∀ {h : Nat}, slots[(h + m) % slots.length]? = some none →
    ∃ r, Run slots h r ∧ r.length ≤ m := by
  induction m with
  | zero => exact fun hfree => ⟨[], .free hfree, Nat.le_refl _⟩
  | succ m ih =>
    intro h hfree
    obtain ⟨hlt, -⟩ := List.getElem?_eq_some_iff.1 hfree
    obtain ⟨s, hs⟩ : ∃ s, slots[h % slots.length]? = some s :=
      ⟨_, List.getElem?_eq_getElem (Nat.mod_lt _ (Nat.zero_lt_of_lt hlt))⟩
    cases s with
    | none => exact ⟨[], .free hs, Nat.zero_le _⟩
    | some a =>
      rw [← Nat.add_assoc, Nat.add_right_comm] at hfree
      obtain ⟨r, hr, hlength⟩ := ih hfree
      exact ⟨a :: r, .held hs hr, Nat.succ_le_succ hlength⟩

theorem exists_run (hroom : slots.countP Option.isSome < slots.length) (h : Nat) :
    ∃ r, Run slots h r ∧ r.length < slots.length := by
  obtain ⟨s, hs, hfree⟩ : ∃ s ∈ slots, s = none := by
    by_contra hno
    have hall : ∀ s ∈ slots, s.isSome = true := fun s hs =>
      Option.isSome_iff_ne_none.2 fun h => hno ⟨s, hs, h⟩
    exact absurd (List.countP_eq_length.2 hall) (Nat.ne_of_lt hroom)
  obtain ⟨i, hi, rfl⟩ := List.getElem_of_mem hs
  obtain ⟨m, hm, hmi⟩ := OpenAddressing.SlotView.exists_steps h hi
  obtain ⟨r, hr, hle⟩ := of_free (hmi ▸ hfree ▸ List.getElem?_eq_getElem hi)
  exact ⟨r, hr, Nat.lt_of_le_of_lt hle hm⟩

theorem ends (hr : Run slots h r) : slots[(h + r.length) % slots.length]? = some none := by
  induction hr with
  | free hfree => exact hfree
  | held _ _ ih => rwa [List.length_cons, Nat.add_comm _ 1, ← Nat.add_assoc]

theorem get (hr : Run slots h r) {p : Nat} {b : α} (hb : r[p]? = some b) :
    slots[(h + p) % slots.length]? = some (some b) := by
  induction hr generalizing p with
  | free => cases hb
  | held hheld _ ih =>
    cases p with
    | zero => exact Option.some.inj hb ▸ hheld
    | succ p => rw [Nat.add_comm p 1, ← Nat.add_assoc]; exact ih hb

/-- The loop stops at the first hit of a run, or at its end. -/
theorem search (hcap : slots.length = 2 ^ e) (hit : Option α → Bool) (hr : Run slots h r) :
    ∀ {fuel}, r.length < fuel →
      ∃ i, OpenAddressing.search Option.isNone (fun _ => false) (fun slot => some (hit slot)) slots
          fuel (h % slots.length) none = some i ∧
        slots[i]? = some (r.find? fun b => hit (some b)) ∧
        ((∀ b ∈ r, hit (some b) = false) → i = (h + r.length) % slots.length) := by
  induction hr with
  | @free h hfree =>
    intro fuel hfuel
    obtain ⟨fuel, rfl⟩ := Nat.exists_eq_succ_of_ne_zero (Nat.ne_zero_of_lt hfuel)
    exact ⟨h % slots.length, by simp [OpenAddressing.search, hfree], hfree, fun _ => rfl⟩
  | @held h b r hheld hrest ih =>
    intro fuel hfuel
    obtain ⟨fuel, rfl⟩ := Nat.exists_eq_succ_of_ne_zero (Nat.ne_zero_of_lt hfuel)
    cases hb : hit (some b) with
    | true =>
      refine ⟨h % slots.length, by simp [OpenAddressing.search, hheld, hb], ?_,
        fun hno => by cases hb.symm.trans (hno b List.mem_cons_self)⟩
      rw [List.find?_cons, hb, hheld]
    | false =>
      obtain ⟨i, hsearch, hi, hend⟩ := ih (Nat.lt_of_succ_lt_succ hfuel)
      refine ⟨i, ?_, by rw [List.find?_cons, hb, hi], fun hno => ?_⟩
      · simp only [OpenAddressing.search, hheld, Option.isNone_some, Bool.false_eq_true, if_false,
          hb, OpenAddressing.and_capacity hcap, Nat.mod_add_mod, hsearch]
      · rw [hend fun b hb => hno b (List.mem_cons_of_mem _ hb), List.length_cons,
          Nat.add_comm r.length 1, Nat.add_assoc]

/-- A run is as it was where another slot is filled, and goes on where its end is. -/
theorem set {j : Nat} (hr : Run slots h r) (hj : slots[j]? = some none)
    (hr' : Run (slots.set j (some a)) h r') :
    ((h + r.length) % slots.length ≠ j → r' = r) ∧
      ((h + r.length) % slots.length = j → ∃ bs, r' = r ++ a :: bs) := by
  have hself : (slots.set j (some a))[j]? = some (some a) :=
    List.getElem?_set_self (List.getElem?_eq_some_iff.1 hj).1
  have hne : ∀ {i : Nat} {s}, i ≠ j → slots[i]? = s → (slots.set j (some a))[i]? = s :=
    fun hij hs => (List.getElem?_set_ne (Ne.symm hij)).trans hs
  induction hr generalizing r' with
  | @free h hfree =>
    refine ⟨fun hend => hr'.eq (.free ?_), fun hend => ?_⟩
    · rw [List.length_set]
      exact hne hend hfree
    · cases hr' with
      | free hfree' =>
        rw [List.length_set, show h % slots.length = j from hend, hself] at hfree'
        cases hfree'
      | @held _ b bs hheld _ =>
        rw [List.length_set, show h % slots.length = j from hend, hself] at hheld
        obtain rfl := Option.some.inj (Option.some.inj hheld)
        exact ⟨bs, rfl⟩
  | @held h b r hheld _ ih =>
    have hstill := hne (fun heq => nomatch (heq ▸ hheld).symm.trans hj) hheld
    rw [← List.length_set (i := j) (a := some a)] at hstill
    cases hr' with
    | free hfree => exact nomatch hfree.symm.trans hstill
    | held hheld' hrest =>
      obtain rfl := Option.some.inj (Option.some.inj (hstill.symm.trans hheld'))
      obtain ⟨hother, hend⟩ := ih hrest
      rw [List.length_cons, Nat.add_comm r.length 1, ← Nat.add_assoc]
      exact ⟨fun hne => by rw [hother hne],
        fun heq => (hend heq).imp fun bs hbs => by rw [hbs]; rfl⟩

end Run

namespace Wf

theorem exists_run (hw : Wf key home slots as) (h : Nat) :
    ∃ r, Run slots h r ∧ r.length < slots.length := Run.exists_run (hw.used ▸ hw.room) h

theorem lookup_eq (hw : Wf key home slots as) (k : K) :
    lookup key home slots k = some (as.find? (key · = k)) := by
  obtain ⟨e, hcap⟩ := hw.capacity
  obtain ⟨r, hr, hlt⟩ := hw.exists_run (home k)
  obtain ⟨i, hsearch, hi, -⟩ :=
    hr.search hcap (fun slot => decide (slot.map key = some k)) hlt
  rw [lookup, probe, OpenAddressing.and_capacity hcap, hsearch, Option.map_some,
    List.getD_eq_getElem?_getD, hi, ← hw.found k r hr]
  simp

theorem blank (e : Nat) : Wf key home (List.replicate (2 ^ e) none) [] := by
  have hnone : ∀ (i : Nat) a, (List.replicate (2 ^ e) (none : Option α))[i]? ≠ some (some a) := by
    intro i a h
    rw [List.getElem?_replicate] at h
    split at h <;> cases h
  refine ⟨⟨e, List.length_replicate⟩, by simp, by simp, fun i a h => absurd h (hnone i a),
    fun k r hr => ?_⟩
  cases hr with
  | free => rfl
  | held hheld => exact absurd hheld (hnone _ _)

theorem put (hw : Wf key home slots as) (a : α) (hroom : as.length + 1 < slots.length) :
    ∃ slots', put key home slots a = some slots' ∧ slots'.length = slots.length ∧
      Wf key home slots' (as ++ [a]) := by
  obtain ⟨e, hcap⟩ := hw.capacity
  obtain ⟨ra, hra, hlt⟩ := hw.exists_run (home (key a))
  obtain ⟨j, hsearch, -, hend⟩ := hra.search hcap (fun _ => false) hlt
  obtain rfl := hend fun _ _ => rfl
  have hj := hra.ends
  generalize hplace : (home (key a) + ra.length) % slots.length = j at hj hsearch
  obtain ⟨hjlt, hjget⟩ := List.getElem?_eq_some_iff.1 hj
  have hself : (slots.set j (some a))[j]? = some (some a) := List.getElem?_set_self hjlt
  have hheld : ∀ {i : Nat} {b}, slots[i]? = some (some b) →
      (slots.set j (some a))[i]? = some (some b) := fun {i b} hb => (List.getElem?_set_ne fun heq : j = i =>
      nomatch (heq ▸ hj).symm.trans hb).trans hb
  have hused : (slots.set j (some a)).countP Option.isSome = as.length + 1 := by
    rw [List.countP_set hjlt, hjget, hw.used]
    simp
  have hwf : Wf key home (slots.set j (some a)) (as ++ [a]) := by
    refine ⟨⟨e, by simpa using hcap⟩, by simpa using hused, by simpa using hroom, ?_, ?_⟩
    · rw [List.length_set]
      intro i b hb
      by_cases hij : i = j
      · subst hij
        obtain rfl := Option.some.inj (Option.some.inj (hself.symm.trans hb))
        refine ⟨ra.length, hlt, hplace, fun e he => ?_⟩
        obtain he | rfl := Nat.lt_or_eq_of_le he
        · exact ⟨_, hheld (hra.get (List.getElem?_eq_getElem he))⟩
        · exact ⟨a, hplace ▸ hself⟩
      · rw [List.getElem?_set_ne (Ne.symm hij)] at hb
        obtain ⟨d, hd, hi, hall⟩ := hw.reached i b hb
        exact ⟨d, hd, hi, fun e he => (hall e he).imp fun _ hb => hheld hb⟩
    · intro k r' hr'
      obtain ⟨r, hr, hrlt⟩ := hw.exists_run (home k)
      obtain ⟨hother, hhere⟩ := hr.set hj hr'
      rw [List.find?_append, ← hw.found k r hr]
      by_cases heq : (home k + r.length) % slots.length = j
      · obtain ⟨bs, rfl⟩ := hhere heq
        rw [List.find?_append]
        congr 1
        by_cases hk : key a = k
        · simp [hk]
        rw [List.find?_cons_of_neg (by simp [hk]), List.find?_cons_of_neg (by simp [hk]),
          List.find?_eq_none.2]
        · rfl
        -- a slot past the free one is not reached from the home of its key
        intro b hb hbk
        obtain rfl : key b = k := by simpa using hbk
        obtain ⟨q, hq⟩ := List.getElem?_of_mem hb
        obtain ⟨r'', hr'', hlt''⟩ := @Run.exists_run _ (slots.set j (some a))
          (by rw [hused, List.length_set]; exact hroom) (home (key b))
        obtain rfl := hr''.eq hr'
        have hget := hr'.get (p := r.length + (q + 1))
          (by rw [List.getElem?_append_right (Nat.le_add_right ..), Nat.add_sub_cancel_left]; exact hq)
        obtain ⟨hqlt, -⟩ := List.getElem?_eq_some_iff.1 hq
        rw [List.length_set] at hget hlt''
        rw [List.length_append, List.length_cons] at hlt''
        rw [List.getElem?_set_ne fun h => by
          have := add_mod_inj hrlt (by omega) (heq.trans h)
          omega] at hget
        obtain ⟨d, hd, hi, hall⟩ := hw.reached _ b hget
        obtain rfl := add_mod_inj hd (by omega) hi
        obtain ⟨c, hc⟩ := hall r.length (Nat.le_add_right ..)
        exact nomatch hr.ends.symm.trans hc
      · obtain rfl := hother heq
        have hk : key a ≠ k := by
          rintro rfl
          exact heq (hr.eq hra ▸ hplace)
        simp [hk]
  exact ⟨_, by rw [ProbeRuns.put, probe, OpenAddressing.and_capacity hcap, hsearch]; rfl, by simp,
    hwf⟩

end Wf

end ProbeRuns
