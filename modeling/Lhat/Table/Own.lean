import Mathlib.Data.List.GetD
import Lhat.Table.Reference
import Lhat.Table.Runs

/-!
# What a table has of its own

`LhatTable.own` is what a table answers before its definition is asked. A write under
an integer key changes that key and no other, although the sequence may take in the
keys that follow it; and it does so whether or not memory runs out on the way, for the
keys that were not taken in are still found. A seat under an integer key would be taken
in too and end as an element, so there is none (`Unseated`).
-/

namespace Lhat

open scoped Classical

variable {i : Int64} {value : LhatValue} {s : Store}

/-- A value that a lookup stops at. -/
def live (found : Option LhatValue) : Option LhatValue := found.filter fun value => !value.isNil

/-- What a table itself answers under a normalised key. -/
noncomputable def LhatTable.own (h : Heap) (t : LhatTable) (key : LhatValue) : Option LhatValue :=
  match arrayIndex t key with
  | some index => some (t.slot index)
  | none => (placeForm h key).bind fun c => live (t.find h c)

/-- What an integer key is looked for by. -/
def integerPlace (i : Int64) : KeyForm × UInt32 := (.integer i, fold64 i.toUInt64)

/-- No seat stands under an integer key. -/
def Unseated (h : Heap) (t : LhatTable) : Prop := ∀ i, t.find h (integerPlace i) ≠ some .nil

theorem integerPlace_inj {j : Int64} (heq : integerPlace i = integerPlace j) : i = j :=
  KeyForm.integer.inj (congrArg Prod.fst heq)

theorem live_some (hvalue : value ≠ .nil) : live (some value) = some value := by
  simp [live, Option.filter, hvalue]

@[simp] theorem live_none : live none = none := rfl

@[simp] theorem live_nil : live (some .nil) = none := rfl

section Own

variable {h : Heap} {t t' : LhatTable}

theorem placeForm_integerPlace (h : Heap) (i : Int64) :
    placeForm h (.integer i) = some (integerPlace i) := rfl

theorem LhatTable.Wf.ownRead_eq_own (hw : t.Wf h) {key : LhatValue} (hfit : KeyFits h t key)
    {c : KeyForm × UInt32} (hc : placeForm h key = some c) :
    (ownRead h t key none (hashKey h key)).map (Option.map Prod.fst) = some (t.own h key) := by
  unfold ownRead LhatTable.own
  simp only [Option.isNone_none, if_true]
  cases hindex : arrayIndex t key with
  | some index => rfl
  | none =>
    simp only [hc, Option.bind_some]
    by_cases he : t.entries = []
    · rw [LhatTable.find_of_empty he]
      simp [he]
    · obtain ⟨i, hi, hprobe, hprobed⟩ := hw.probe_spec he hfit
      unfold probe at hprobe
      simp only [List.isEmpty_eq_false_iff.2 he, Bool.false_eq_true, if_false, hprobe]
      by_cases hkey : (t.entryAt i).key = .nil
      · rw [hprobed.find_absent hw hkey hc]
        simp [hkey]
      · obtain ⟨c', -, hkc, hfind⟩ := hprobed.find_held hw hi hkey
        obtain rfl := Option.some.inj (hc.symm.trans hkc)
        rw [hfind]
        by_cases hv : (t.entryAt i).value = .nil
        · simp [hv]
        · simp [hkey, hv, live_some hv]

theorem arrayIndex_integer :
    arrayIndex t (.integer i) =
      if 0 ≤ i.toInt ∧ i.toInt < t.array.length then some i.toInt.toNat else none := by
  simp only [arrayIndex]
  by_cases hin : 0 ≤ i.toInt ∧ i.toInt < t.array.length
  · rw [if_pos hin, if_neg (by omega)]
  · rw [if_neg hin, if_pos (by omega)]

theorem LhatTable.own_inside (hnonneg : 0 ≤ i.toInt)
    (hlt : i.toInt < t.array.length) : t.own h (.integer i) = some (t.slot i.toInt.toNat) := by
  unfold LhatTable.own
  rw [arrayIndex_integer, if_pos ⟨hnonneg, hlt⟩]

theorem LhatTable.own_outside (hout : ¬(0 ≤ i.toInt ∧ i.toInt < t.array.length)) :
    t.own h (.integer i) = live (t.find h (integerPlace i)) := by
  unfold LhatTable.own
  rw [arrayIndex_integer, if_neg hout]
  rfl

theorem int64_of_toInt {n : Nat} (heq : i.toInt = n) (hn : n < 2 ^ 63) : i = Int64.ofNat n := by
  rw [← Int64.toInt_inj, Int64.toInt_ofNat_of_lt hn, heq]

/-! ### Taking in -/

/-- The sequence grew, and every integer key reads as it did. -/
structure Reads (h : Heap) (t t' : LhatTable) : Prop where
  wf : t'.Wf h
  unseated : Unseated h t'
  links : t'.links = t.links
  longer : t.array.length ≤ t'.array.length
  same : ∀ i, t'.own h (.integer i) = t.own h (.integer i)
  beside : ∀ c, (∀ i, c ≠ integerPlace i) → t'.find h c = t.find h c

theorem Reads.refl (hw : t.Wf h) (hu : Unseated h t) : Reads h t t :=
  ⟨hw, hu, rfl, Nat.le_refl _, fun _ => rfl, fun _ _ => rfl⟩

theorem Reads.trans {t'' : LhatTable} (hr : Reads h t t') (hr' : Reads h t' t'') : Reads h t t'' :=
  ⟨hr'.wf, hr'.unseated, hr'.links.trans hr.links, hr.longer.trans hr'.longer,
    fun i => (hr'.same i).trans (hr.same i), fun c hc => (hr'.beside c hc).trans (hr.beside c hc)⟩

theorem Reads.take (hw : t.Wf h) (hu : Unseated h t) {i capacity : Nat} (hi : i < t.entries.length)
    (hkey : (t.entryAt i).key ≠ .nil)
    (hplace : placeForm h (t.entryAt i).key = some (position t.array.length))
    (hfound : t.find h (position t.array.length) = some (t.entryAt i).value)
    (hlt : t.array.length < capacity) (hbytes : capacity * 8 < 2 ^ 63) :
    Reads h t ({ (t.bury i).touch with arrayCapacity := capacity }.append (t.entryAt i).value) := by
  obtain ⟨hwb, hfind, -⟩ := hw.take hi hkey hplace
  have hlen := hw.length_lt
  set value := (t.entryAt i).value with hvalue
  have hne : value ≠ .nil := fun hnil => hu (Int64.ofNat t.array.length)
    (by rw [← hnil]; exact hfound)
  have hwa := hwb.append capacity hlt hbytes value
  set t' := ({ (t.bury i).touch with arrayCapacity := capacity }.append value) with ht'
  have harray : t'.array = t.array ++ [value] := rfl
  have hfind' : ∀ c, t'.find h c = if position t.array.length = c then none else t.find h c :=
    fun c => congrFun hfind c
  refine ⟨hwa, fun j hj => ?_, rfl, by rw [harray, List.length_append]; omega, fun j => ?_,
    fun c hc => ?_⟩
  · rw [hfind'] at hj
    split at hj
    · cases hj
    · exact hu j hj
  · by_cases hin : 0 ≤ j.toInt ∧ j.toInt < t.array.length
    · rw [LhatTable.own_inside hin.1 (by rw [harray, List.length_append]; omega),
        LhatTable.own_inside hin.1 hin.2, LhatTable.slot, LhatTable.slot, harray]
      rw [List.getD_append _ _ _ _ (by omega)]
    · rw [LhatTable.own_outside hin]
      have hgrown : t'.array.length = t.array.length + 1 := by
        rw [harray, List.length_append, List.length_singleton]
      by_cases hat : j.toInt = t.array.length
      · -- The key taken in reads its value, from the sequence now.
        obtain rfl := int64_of_toInt hat (by omega)
        rw [LhatTable.own_inside (by omega) (by omega), LhatTable.slot, harray]
        rw [show (Int64.ofNat t.array.length).toInt.toNat = t.array.length by omega]
        rw [List.getD_append_right _ _ _ _ (Nat.le_refl _), Nat.sub_self]
        show some value = live (t.find h (position t.array.length))
        rw [hfound, live_some hne]
      · rw [LhatTable.own_outside (by omega), hfind', if_neg]
        intro heq
        refine hat ?_
        rw [← integerPlace_inj (i := Int64.ofNat t.array.length) heq]
        exact Int64.toInt_ofNat_of_lt (by omega)
  · rw [hfind', if_neg fun heq => hc _ heq.symm]

theorem Reads.drain {fuel : Nat} (hw : t.Wf h) (hu : Unseated h t) {m m' : Memory}
    (hdrain : drain h fuel m t = some (t', m')) : Reads h t t' := by
  induction fuel generalizing m t with
  | zero => cases hdrain
  | succ fuel ih =>
    obtain ⟨r, hr, hfound⟩ := hw.findEntry t.array.length
    unfold Lhat.drain at hdrain
    rcases hfound with ⟨rfl, -⟩ | ⟨i, hi, rfl, hkey, hplace, hsome⟩
    · simp only [hr, Option.some.injEq, Prod.mk.injEq] at hdrain
      exact hdrain.1 ▸ Reads.refl hw hu
    · obtain ⟨-, -, hroom⟩ := hw.makeRoom m
      simp only [hr] at hdrain
      rcases hroom with ⟨hok, htable⟩ | ⟨hok, capacity, htable, hlt, hbytes⟩
      · simp only [hok, htable, Bool.false_eq_true, if_false, Option.some.injEq,
          Prod.mk.injEq] at hdrain
        exact hdrain.1 ▸ Reads.refl hw hu
      · rw [if_pos hok, htable] at hdrain
        have htaken := Reads.take hw hu hi hkey hplace hsome hlt hbytes
        exact htaken.trans (ih htaken.wf htaken.unseated hdrain)

/-! ### One write -/

/-- What a write of an integer key leaves. A key past the end that `nil` is written
under is not held any more. -/
structure Stored (h : Heap) (t : LhatTable) (i : Int64) (value : LhatValue) (t' : LhatTable) :
    Prop where
  wf : t'.Wf h
  unseated : Unseated h t'
  links : t'.links = t.links
  longer : t.array.length ≤ t'.array.length
  here : t'.own h (.integer i) = some value ∨ value = .nil ∧ t'.own h (.integer i) = none
  elsewhere : ∀ j, j ≠ i → t'.own h (.integer j) = t.own h (.integer j)
  beside : ∀ c, (∀ j, c ≠ integerPlace j) → t'.find h c = t.find h c

theorem Stored.trans {t'' : LhatTable}
    (hs : Stored h t i value t') (hr : Reads h t' t'') : Stored h t i value t'' :=
  ⟨hr.wf, hr.unseated, hr.links.trans hs.links, hs.longer.trans hr.longer,
    by rw [hr.same]; exact hs.here, fun j hne => (hr.same j).trans (hs.elsewhere j hne),
    fun c hc => (hr.beside c hc).trans (hs.beside c hc)⟩

theorem Stored.inside (hw : t.Wf h) (hu : Unseated h t) (hnonneg : 0 ≤ i.toInt)
    (hlt : i.toInt < t.array.length) (value : LhatValue) :
    Stored h t i value { t with array := t.array.set i.toInt.toNat value } := by
  have hlen : (t.array.set i.toInt.toNat value).length = t.array.length := List.length_set
  refine ⟨hw.of_entries rfl rfl rfl ?_ hw.bounded, hu, rfl, hlen.ge, .inl ?_, fun j hne => ?_,
    fun _ _ => rfl⟩
  · show (t.array.set i.toInt.toNat value).length ≤ _
    rw [hlen]
    exact hw.dense
  · rw [LhatTable.own_inside hnonneg (by rw [hlen]; exact hlt)]
    simp only [LhatTable.slot]
    rw [List.getD_eq_getElem _ _ (by rw [hlen]; omega), List.getElem_set_self]
  · by_cases hin : 0 ≤ j.toInt ∧ j.toInt < t.array.length
    · rw [LhatTable.own_inside hin.1 (by rw [hlen]; exact hin.2), LhatTable.own_inside hin.1 hin.2]
      have hapart : i.toInt.toNat ≠ j.toInt.toNat := by
        intro heq
        exact hne (Int64.toInt_inj.1 (by omega))
      simp only [LhatTable.slot, List.getD_eq_getElem?_getD, List.getElem?_set_ne hapart]
    · rw [LhatTable.own_outside (by rw [hlen]; exact hin), LhatTable.own_outside hin]
      rfl

theorem Stored.append (hw : t.Wf h) (hu : Unseated h t) {capacity : Nat}
    (hlt : t.array.length < capacity) (hbytes : capacity * 8 < 2 ^ 63) (value : LhatValue) :
    Stored h t (Int64.ofNat t.array.length) value
      ({ t with arrayCapacity := capacity }.append value) := by
  have hlen := hw.length_lt
  have hpos : (Int64.ofNat t.array.length).toInt = t.array.length :=
    Int64.toInt_ofNat_of_lt (by omega)
  set t' := ({ t with arrayCapacity := capacity }.append value) with ht'
  have harray : t'.array = t.array ++ [value] := rfl
  have hgrown : t'.array.length = t.array.length + 1 := by
    rw [harray, List.length_append, List.length_singleton]
  have hfind : ∀ c, t'.find h c = t.find h c := fun _ => rfl
  refine ⟨hw.append capacity hlt hbytes value, hu, rfl, by omega, .inl ?_, fun j hne => ?_,
    fun _ _ => rfl⟩
  · rw [LhatTable.own_inside (by omega) (by omega), LhatTable.slot, harray, hpos, Int.toNat_natCast,
      List.getD_append_right _ _ _ _ (Nat.le_refl _), Nat.sub_self]
    rfl
  · have hat : j.toInt ≠ t.array.length := fun heq => hne (int64_of_toInt heq (by omega))
    by_cases hin : 0 ≤ j.toInt ∧ j.toInt < t.array.length
    · rw [LhatTable.own_inside hin.1 (by omega), LhatTable.own_inside hin.1 hin.2, LhatTable.slot,
        LhatTable.slot, harray, List.getD_append _ _ _ _ (by omega)]
    · rw [LhatTable.own_outside hin, LhatTable.own_outside (by omega), hfind]

theorem Stored.entry (hu : Unseated h t)
    (hout : ¬(0 ≤ i.toInt ∧ i.toInt < t.array.length)) (hlinks : t'.links = t.links)
    (hwritten : Written h t t' (.integer i) (setFound h t (.integer i) value)) :
    Stored h t i value t' := by
  have hfind : ∀ c, t'.find h c =
      if integerPlace i = c then if value.isNil then none else some value else t.find h c := by
    intro c
    rw [hwritten.find, setFound, placeForm_integerPlace]
    simp only [Option.some.injEq]
  have hreach : ∀ j : Int64, (0 ≤ j.toInt ∧ j.toInt < t'.array.length) ↔
      0 ≤ j.toInt ∧ j.toInt < t.array.length := fun j => by rw [hwritten.array]
  refine ⟨hwritten.wf, fun j hj => ?_, hlinks, hwritten.array ▸ Nat.le_refl _, ?_, fun j hne => ?_,
    fun c hc => by rw [hfind, if_neg (Ne.symm (hc i))]⟩
  · rw [hfind] at hj
    split at hj
    · split at hj
      · cases hj
      · next hvalue =>
          rw [Option.some.inj hj] at hvalue
          exact hvalue rfl
    · exact hu j hj
  · rw [LhatTable.own_outside (fun hin => hout ((hreach i).1 hin)), hfind, if_pos rfl]
    by_cases hvalue : value = .nil
    · exact .inr ⟨hvalue, by simp [hvalue]⟩
    · exact .inl (by rw [if_neg (by simpa using hvalue), live_some hvalue])
  · have hkept : t'.find h (integerPlace j) = t.find h (integerPlace j) := by
      rw [hfind, if_neg fun heq => hne (integerPlace_inj heq).symm]
    by_cases hin : 0 ≤ j.toInt ∧ j.toInt < t.array.length
    · rw [LhatTable.own_inside hin.1 ((hreach j).2 hin).2, LhatTable.own_inside hin.1 hin.2,
        LhatTable.slot, LhatTable.slot, hwritten.array]
    · rw [LhatTable.own_outside hin, LhatTable.own_outside (fun h' => hin ((hreach j).1 h')), hkept]

theorem LhatTable.Wf.stored (hw : t.Wf h) (hu : Unseated h t) {m : Memory} {made : Outcome}
    (hmade : lhatTableSet h m t (.integer i) value = some made) (hok : made.ok = true) :
    Stored h t i value made.table := by
  have hlinks : made.table.links = t.links := TableOp.run_links (.set (.integer i) value) hmade
  have hnormal : normaliseKey (.integer i) = .integer i := rfl
  have hopen : refusedKey h (.integer i) = false := rfl
  unfold lhatTableSet at hmade
  simp only [hopen, hnormal, Bool.false_eq_true, if_false] at hmade
  rw [arrayIndex_integer] at hmade
  by_cases hin : 0 ≤ i.toInt ∧ i.toInt < t.array.length
  · rw [if_pos hin] at hmade
    cases hmade
    exact Stored.inside hw hu hin.1 hin.2 value
  · rw [if_neg hin] at hmade
    simp only at hmade
    cases hnext : namesNext t (.integer i) with
    | true =>
      rw [namesNext_iff] at hnext
      cases hnext
      simp only [namesNext_iff.2 rfl, if_true] at hmade
      rcases (hw.makeRoom m).2.2 with ⟨hroom, -⟩ | ⟨hroom, capacity, htable, hlt, hbytes⟩
      · rw [hroom, if_neg Bool.false_ne_true] at hmade
        cases hmade
        rw [hroom] at hok
        cases hok
      · rw [if_pos hroom, htable] at hmade
        obtain ⟨⟨t', m'⟩, hdrain, rfl⟩ := Option.map_eq_some_iff.1 hmade
        have happended := Stored.append hw hu hlt hbytes value
        exact happended.trans (Reads.drain happended.wf happended.unseated hdrain)
    | false =>
      rw [hnext, if_neg Bool.false_ne_true] at hmade
      obtain ⟨made', hmade', -, -, hsaid⟩ := hw.setEntry m (hw.keyFits_integer i) value
      obtain rfl := Option.some.inj (hmade.symm.trans hmade')
      rcases hsaid with ⟨hfailed, -⟩ | ⟨-, hwritten⟩
      · rw [hok] at hfailed
        cases hfailed
      · exact Stored.entry hu hin hlinks hwritten

end Own

/-! ### The write of the machine -/

/-- Every table keeps the invariant and no seat under an integer key. -/
def Store.Orderly (h : Heap) (s : Store) : Prop :=
  ∀ a t, s.table a = some t → t.Wf h ∧ Unseated h t

section Machine

variable {h : Heap} {mc : Machine} {st : TableState} {table : Address} {t : LhatTable}

theorem Store.Orderly.write (ho : s.Orderly h) {t' : LhatTable} (hw : t'.Wf h)
    (hu : Unseated h t') : (s.write table t').Orderly h := by
  intro a u hau
  rcases Store.table_write_cases hau with ⟨-, rfl⟩ | ⟨-, hold⟩
  · exact ⟨hw, hu⟩
  · exact ho a u hold

theorem Store.write_write (a : Address) (t t' : LhatTable) :
    (s.write a t).write a t' = s.write a t' := by
  unfold Store.write
  rw [List.map_map]
  refine List.map_congr_left fun held _ => ?_
  by_cases hheld : held.1 = a <;> simp [hheld]

theorem Store.length_write (a : Address) (t : LhatTable) :
    (s.write a t).length = s.length := List.length_map _

theorem declaresSeat_integer (ho : st.store.Orderly h) {seat : Bool}
    (hseat : declaresSeat h mc st.store t (.integer i) value = some seat) : seat = false := by
  unfold declaresSeat at hseat
  split at hseat
  · exact (Option.some.inj hseat).symm
  · obtain ⟨held, -, hseat⟩ := Option.bind_eq_some_iff.1 hseat
    simp only at hseat
    split at hseat
    · exact (Option.some.inj hseat).symm
    · obtain ⟨proto, hproto, hseat⟩ := Option.bind_eq_some_iff.1 hseat
      obtain ⟨hw, hu⟩ := ho _ _ hproto
      have husable : usableKey (.integer i) = true := rfl
      rw [hw.reserved husable (hw.keyFits_integer i) (placeForm_integerPlace h i)] at hseat
      rw [← Option.some.inj hseat]
      exact decide_eq_false (hu i)

theorem vmSetKey_integer (ho : st.store.Orderly h) (htable : st.store.table table = some t)
    (hopen : t.shared = false) {wrote : Wrote}
    (hwrote : vmSetKey h mc st table (.integer i) value = some wrote) (hok : wrote.ok = true) :
    ∃ t', wrote.state.store = st.store.write table t' ∧ Stored h t i value t' := by
  obtain ⟨hw, hu⟩ := ho _ _ htable
  unfold vmSetKey at hwrote
  simp only [htable, Option.bind_eq_bind, Option.bind_some, hopen, Bool.false_eq_true, if_false]
    at hwrote
  obtain ⟨seat, hseat, hwrote⟩ := Option.bind_eq_some_iff.1 hwrote
  rw [declaresSeat_integer ho hseat, if_neg Bool.false_ne_true] at hwrote
  obtain ⟨made, hmade, hwrote⟩ := Option.bind_eq_some_iff.1 hwrote
  obtain rfl := Option.some.inj hwrote
  exact ⟨made.table, rfl, hw.stored hu hmade hok⟩

end Machine

end Lhat
