import Lhat.Table.Concat
import Mathlib

/-!
# What is carried, and where it comes to stand

The elements of the two sequences, one after the other, and the entries of the two sides
are what is carried over, each to its place for a sequence as long as the two
(`carried`). A collision is reported exactly when two of them have one place, and else the
table that is made has each at its place and nothing else (`concat_joins`). That leaves out
a real key past the two sequences that rounds to a position the sparse keys of the integers
fill: whether it is met before or after them is a matter of the order of slots (`Strays`).
-/

namespace Lhat

open scoped Classical

variable {t : LhatTable} {done : List ((KeyForm × UInt32) × LhatValue)} {seq : List LhatValue}

/-- A table that `..` takes as it is, with a value under every key. Its keys are values of
the language, and none of them changes. -/
structure PlainTable (h : Heap) (t : LhatTable) : Prop where
  wf : t.Wf h
  plain : t.definition = 0 ∧ t.isDefinition = false
  seatless : ∀ entry ∈ t.entries, entry.key ≠ .nil → entry.value ≠ .nil
  unchanging : ∀ key ∈ t.keys, isOpenBox h key = false
  placed : ∀ key ∈ t.keys, ∃ c, placeForm h key = some c

/-- The elements of a sequence that hold a value, each at its position. -/
def elements (seq : List LhatValue) : List ((KeyForm × UInt32) × LhatValue) :=
  seq.zipIdx.filterMap fun (value, i) => if value.isNil then none else some (position i, value)

/-- The value of an entry, at the place of its key for a sequence of that length. -/
def placed (h : Heap) (n : Nat) (entry : LhatTableEntry) :
    Option ((KeyForm × UInt32) × LhatValue) :=
  (entryKey entry).bind fun key => (slotOf h n key).map fun c => (c, entry.value)

def named (h : Heap) (n : Nat) (entries : List LhatTableEntry) :
    List ((KeyForm × UInt32) × LhatValue) := entries.filterMap (placed h n)

/-- All that is carried over. -/
def carried (h : Heap) (left right : LhatTable) : List ((KeyForm × UInt32) × LhatValue) :=
  elements (left.array ++ right.array) ++
    named h (left.array ++ right.array).length (left.entries ++ right.entries)

/-- A real key past the sequences rounds to a position that, like all from their end up to
it, a sparse key is carried to. -/
def Strays (h : Heap) (left right : LhatTable) : Prop :=
  ∃ d j, LhatValue.real d ∈ left.keys ++ right.keys ∧
    arrayIndex (sequenceOf (j + 1)) (.real d) = some j ∧ (left.array ++ right.array).length ≤ j ∧
    ∀ i, (left.array ++ right.array).length ≤ i → i ≤ j →
      position i ∈ (carried h left right).map Prod.fst

section Elements

variable {h : Heap} {seq : List LhatValue} {c : KeyForm × UInt32} {value : LhatValue} {n : Nat}

theorem mem_elements : (c, value) ∈ elements seq ↔
    value ≠ .nil ∧ ∃ i, c = position i ∧ seq[i]? = some value := by
  simp only [elements, List.mem_filterMap, Prod.exists, List.mem_zipIdx_iff_getElem?]
  constructor
  · rintro ⟨v, i, hi, hv⟩
    split at hv
    · cases hv
    · next hnil =>
        obtain ⟨rfl, rfl⟩ := Prod.mk.inj (Option.some.inj hv)
        exact ⟨by simpa using hnil, i, rfl, hi⟩
  · rintro ⟨hnil, i, rfl, hi⟩
    exact ⟨value, i, hi, by simp [hnil]⟩

theorem elements_nodup (hlen : seq.length < 2 ^ 60) : ((elements seq).map Prod.fst).Nodup := by
  have hindices : seq.zipIdx.Pairwise fun a b => a.2 < b.2 := by
    rw [← List.pairwise_map (f := Prod.snd) (R := (· < ·)), List.zipIdx_map_snd]
    exact List.pairwise_lt_range'
  have hinside : ∀ a ∈ seq.zipIdx, a.2 < seq.length := fun a ha => by
    simpa using List.snd_lt_of_mem_zipIdx ha
  rw [List.Nodup, List.pairwise_map, elements, List.pairwise_filterMap]
  refine hindices.imp_of_mem fun {a b} ha hb hlt x hx y hy heq => ?_
  have hpos : ∀ {v : LhatValue} {i : Nat} {x : (KeyForm × UInt32) × LhatValue},
      (if v.isNil then none else some (position i, v)) = some x → x.1 = position i := by
    intro v i x hx
    split at hx
    · cases hx
    · exact (congrArg Prod.fst (Option.some.inj hx)).symm
  have ha := hinside a ha
  have hb := hinside b hb
  have hsame : position a.2 = position b.2 := (hpos hx).symm.trans (heq.trans (hpos hy))
  have := position_inj (by omega) (by omega) hsame
  omega

end Elements

/-! ### The places on the way -/

section Joining

variable {h : Heap} {mc : Machine} {st : TableState} {joined : Address} {left right : LhatTable}

/-- A key of one of the two, or an integer. -/
def KeyOf (left right : LhatTable) (key : LhatValue) : Prop :=
  key ∈ left.keys ++ right.keys ∨ ∃ i, key = .integer i

/-- The table being made, when so much has been carried to it. -/
structure Holding (h : Heap) (left right : LhatTable)
    (carried : List ((KeyForm × UInt32) × LhatValue)) (t : LhatTable) : Prop where
  wf : t.Wf h
  unseated : Unseated h t
  links : t.links = lhatTableNew.links
  keys : ∀ key ∈ t.keys, KeyOf left right key
  long : (left.array ++ right.array).length ≤ t.array.length
  solid : Solid (left.array ++ right.array).length t
  held : ∀ c value, value ≠ .nil → (t.held h c = value ↔ (c, value) ∈ carried)
  valued : ∀ x ∈ carried, x.2 ≠ .nil
  apart : (carried.map Prod.fst).Nodup

theorem Holding.plain {carried : List ((KeyForm × UInt32) × LhatValue)}
    (hh : Holding h left right carried t) : t.definition = 0 ∧ t.shared = false := by
  have hlinks := hh.links
  simp only [LhatTable.links, lhatTableNew, Prod.mk.injEq] at hlinks
  exact ⟨hlinks.1, hlinks.2.2.2.2.2⟩

theorem vmSetKey_plain (htable : st.store.table joined = some t)
    (hplain : t.definition = 0 ∧ t.shared = false) (key value : LhatValue) :
    vmSetKey h mc st joined key value = (lhatTableSet h st.memory t key value).map fun made =>
      { ok := made.ok, refused := made.refused
        state := { store := st.store.write joined made.table, memory := made.memory } } := by
  unfold vmSetKey
  simp only [htable, Option.bind_eq_bind, Option.bind_some, hplain.2, Bool.false_eq_true, if_false,
    declaresSeat, hplain.1, or_true, if_true]
  cases lhatTableSet h st.memory t key value <;> rfl

theorem Holding.slotOf_eq
    (hh : Holding h left right done t) (hdone : ∀ x ∈ done, x ∈ carried h left right)
    (hstray : ¬ Strays h left right) {key : LhatValue} (hkey : key ∈ left.keys ++ right.keys) :
    slotOf h t.array.length key = slotOf h (left.array ++ right.array).length key := by
  have hlen := hh.wf.length_lt
  have hlong := hh.long
  rw [Lhat.slotOf_eq]
  cases hindex : arrayIndex t key with
  | none =>
    cases hshort : arrayIndex (sequenceOf (left.array ++ right.array).length) key with
    | none => rw [slotOf, hshort]
    | some j =>
      have hj := arrayIndex_lt hshort
      rw [sequenceOf, List.length_replicate] at hj
      have hreach := arrayIndex_reaches hshort (Nat.lt_of_lt_of_le hj hlong)
      rw [arrayIndex_sequenceOf, hindex] at hreach
      cases hreach
  | some j =>
    by_cases hj : j < (left.array ++ right.array).length
    · rw [slotOf, arrayIndex_reaches hindex hj]
    · cases key with
      | integer i =>
        have h1 := (Lhat.slotOf_eq (h := h) t (.integer i)).symm
        rw [hindex, slotOf_integer] at h1
        rw [slotOf_integer]
        exact h1
      | real d =>
        refine absurd ⟨d, j, hkey, arrayIndex_reaches hindex (Nat.lt_succ_self j),
          Nat.le_of_not_lt hj, fun i hi hij => ?_⟩ hstray
        have hlt := Nat.lt_of_le_of_lt hij (arrayIndex_lt hindex)
        have hvalue := hh.solid i hi hlt
        have hmem := (hh.held (position i) _ hvalue).1 (LhatTable.held_position hlen hlt)
        exact List.mem_map.2 ⟨_, hdone _ hmem, rfl⟩
      | _ => cases hindex

theorem Holding.put {t' : LhatTable} {c : KeyForm × UInt32} {value : LhatValue}
    (hh : Holding h left right done t) (hvalue : value ≠ .nil) (hfree : t.held h c = .nil)
    (hlaid : Laid h t c value t') (hkeys : ∀ key ∈ t'.keys, KeyOf left right key) :
    Holding h left right (done ++ [(c, value)]) t' := by
  have habsent : c ∉ done.map Prod.fst := by
    rintro hc
    obtain ⟨⟨c', v⟩, hmem, rfl⟩ := List.mem_map.1 hc
    have hne := hh.valued _ hmem
    exact hne (((hh.held c' v hne).2 hmem).symm.trans hfree)
  refine ⟨hlaid.wf, hlaid.unseated, hlaid.links.trans hh.links, hkeys,
    Nat.le_trans hh.long hlaid.longer, hlaid.solid _ hh.solid, fun c' v hv => ?_, ?_, ?_⟩
  · rw [List.mem_append, List.mem_singleton, Prod.mk.injEq]
    by_cases hc : c' = c
    · subst hc
      rw [hlaid.here]
      constructor
      · rintro rfl
        exact .inr ⟨rfl, rfl⟩
      · rintro (hmem | ⟨-, rfl⟩)
        · exact absurd (List.mem_map.2 ⟨_, hmem, rfl⟩) habsent
        · rfl
    · rw [hlaid.elsewhere c' hc, hh.held c' v hv]
      simp [hc]
  · intro x hx
    rcases List.mem_append.1 hx with hx | hx
    · exact hh.valued x hx
    · obtain rfl := List.mem_singleton.1 hx
      exact hvalue
  · rw [List.map_append, List.map_singleton]
    exact List.nodup_append.2 ⟨hh.apart, List.nodup_singleton _, fun a ha b hb heq => by
      obtain rfl := List.mem_singleton.1 hb
      exact habsent (heq ▸ ha)⟩

/-! ### The positions -/

/-- The table being made, when the positions so far are in it. -/
structure Row (h : Heap) (seq : List LhatValue) (t : LhatTable) : Prop where
  wf : t.Wf h
  array : t.array = seq
  entries : t.entries = []
  links : t.links = lhatTableNew.links

theorem drainIntoArray_row (hr : Row h seq t) (m : Memory) :
    drainIntoArray h m t = some (t, m) := by
  have hcount : t.entryCount = 0 := by rw [hr.wf.counted, hr.entries, List.countP_nil]
  rw [drainIntoArray, hcount, drain, findEntry, if_pos hcount]

theorem Row.next (hr : Row h seq t) (m : Memory) (value : LhatValue) :
    ∃ made, lhatTableSet h m t (.integer (Int64.ofNat seq.length)) value = some made ∧
      (made.memory.refused = false → made.ok = true ∧ m.refused = false) ∧
      (made.ok = true → Row h (seq ++ [value]) made.table) := by
  have hlen := hr.wf.length_lt
  rw [← hr.array]
  have hopen : refusedKey h (.integer (Int64.ofNat t.array.length)) = false := rfl
  have hnormal : normaliseKey (.integer (Int64.ofNat t.array.length)) =
    .integer (Int64.ofNat t.array.length) := rfl
  have hpast : arrayIndex t (.integer (Int64.ofNat t.array.length)) = none := by
    rw [arrayIndex_integer, if_neg (by rw [Int64.toInt_ofNat_of_lt (by omega)]; omega)]
  obtain ⟨-, href, hroom⟩ := hr.wf.makeRoom m
  unfold lhatTableSet
  simp only [hopen, hnormal, hpast, Bool.false_eq_true, if_false, namesNext_iff.2 rfl, if_true]
  rcases hroom with ⟨hok, htable⟩ | ⟨hok, capacity, htable, hlt, hbytes⟩
  · refine ⟨makeRoom m t, by rw [if_neg (by simp [hok])], fun hmemory => href hmemory, fun h => ?_⟩
    rw [hok] at h
    cases h
  · have hrow : Row h (t.array ++ [value]) ({ t with arrayCapacity := capacity }.append value) :=
      ⟨hr.wf.append capacity hlt hbytes value, rfl, hr.entries, hr.links⟩
    exact ⟨⟨true, _, (makeRoom m t).memory, false⟩,
      by rw [if_pos hok, htable, drainIntoArray_row hrow, Option.map_some]; rfl,
      fun hmemory => ⟨rfl, (href hmemory).2⟩, fun _ => hrow⟩

/-- What a loop of `vm_concat_tables` leaves: no other table is written, and the loop is
through unless a request for memory was refused. -/
structure Left (joined : Address) (st st' : TableState) (through : Bool) : Prop where
  others : ∀ a, a ≠ joined → st'.store.table a = st.store.table a
  memory : st'.memory.refused = false → through = true ∧ st.memory.refused = false

theorem positions_row {values : List LhatValue}
    (htable : st.store.table joined = some t) (hr : Row h seq t) :
    ∃ ok st', writeEach h mc joined
        (fun _ (value, position) => some (some (.integer (Int64.ofNat position), value)))
        (values.zipIdx seq.length) st = some (ok, st') ∧ Left joined st st' ok ∧
      (ok = true → ∃ t', st'.store.table joined = some t' ∧ Row h (seq ++ values) t') := by
  induction values generalizing st seq t with
  | nil =>
    exact ⟨true, st, rfl, ⟨fun _ _ => rfl, fun hm => ⟨rfl, hm⟩⟩, fun _ =>
      ⟨t, htable, by simpa using hr⟩⟩
  | cons value values ih =>
    have hplain : t.definition = 0 ∧ t.shared = false := by
      have hlinks := hr.links
      simp only [LhatTable.links, lhatTableNew, Prod.mk.injEq] at hlinks
      exact ⟨hlinks.1, hlinks.2.2.2.2.2⟩
    obtain ⟨made, hmade, hmemory, hrow⟩ := hr.next st.memory value
    have hwrote := @vmSetKey_plain t h mc st joined htable hplain
      (.integer (Int64.ofNat seq.length)) value
    rw [hmade, Option.map_some] at hwrote
    rw [List.zipIdx_cons, writeEach]
    simp only [hwrote]
    cases hok : made.ok with
    | false =>
      refine ⟨false, _, rfl, ⟨fun a ha => Store.table_write_other ha, fun hm => ?_⟩, nofun⟩
      rw [hok] at hmemory
      exact absurd (hmemory hm).1 Bool.false_ne_true
    | true =>
      have hself : (TableState.mk (st.store.write joined made.table) made.memory).store.table
          joined = some made.table :=
        Store.table_write_self (by rw [htable]; rfl)
      obtain ⟨ok, st', hrun, hleft, hend⟩ := ih hself (hrow hok)
      rw [List.length_append, List.length_singleton] at hrun
      refine ⟨ok, st', by simpa using hrun, ⟨fun a ha => ?_, fun hm => ?_⟩, fun hok' => ?_⟩
      · exact (hleft.others a ha).trans (Store.table_write_other ha)
      · obtain ⟨hthrough, hm'⟩ := hleft.memory hm
        exact ⟨hthrough, (hmemory hm').2⟩
      · simpa using hend hok'

theorem Row.holding (hr : Row h (left.array ++ right.array) t) :
    Holding h left right (elements (left.array ++ right.array)) t := by
  have hlen := hr.wf.length_lt
  have hfind : ∀ c, t.find h c = none := LhatTable.find_of_empty hr.entries
  have hlength : (left.array ++ right.array).length < 2 ^ 60 := hr.array ▸ hlen
  refine ⟨hr.wf, fun i hi => ?_, hr.links, fun key hkey => ?_, by rw [hr.array], ?_, ?_, ?_,
    elements_nodup hlength⟩
  · rw [hfind] at hi
    cases hi
  · rw [LhatTable.keys, hr.entries] at hkey
    cases hkey
  · intro i hle hlt
    rw [hr.array] at hlt
    omega
  · intro c value hvalue
    rw [mem_elements]
    by_cases hint : ∃ j, c = integerPlace j
    · obtain ⟨j, rfl⟩ := hint
      rw [LhatTable.held_integer]
      by_cases hin : 0 ≤ j.toInt ∧ j.toInt < t.array.length
      · have hj : j = Int64.ofNat j.toInt.toNat := int64_of_toInt (by omega) (by omega)
        have hslot : t.slot j.toInt.toNat = value ↔
            (left.array ++ right.array)[j.toInt.toNat]? = some value := by
          rw [LhatTable.slot, ← hr.array, List.getD_eq_getElem?_getD, List.getElem?_eq_getElem
            (by omega)]
          simp
        rw [LhatTable.own_inside hin.1 hin.2, Option.getD_some, hslot]
        constructor
        · exact fun hget => ⟨hvalue, _, congrArg integerPlace hj, hget⟩
        · rintro ⟨-, i, hi, hget⟩
          have hlt := (List.getElem?_eq_some_iff.1 hget).1
          have heq : j = Int64.ofNat i := integerPlace_inj hi
          have hji : j.toInt = i := by rw [heq, Int64.toInt_ofNat_of_lt (by omega)]
          rwa [hji, Int.toNat_natCast]
      · rw [LhatTable.own_outside hin, hfind, live_none, Option.getD_none]
        refine iff_of_false hvalue.symm ?_
        rintro ⟨-, i, hi, hget⟩
        have hlt := (List.getElem?_eq_some_iff.1 hget).1
        have heq : j = Int64.ofNat i := integerPlace_inj hi
        have hji : j.toInt = i := by rw [heq, Int64.toInt_ofNat_of_lt (by omega)]
        rw [hr.array] at hin
        omega
    · rw [LhatTable.held_beside (not_exists.1 hint), hfind, Option.getD_none]
      refine iff_of_false hvalue.symm ?_
      rintro ⟨-, i, rfl, -⟩
      exact hint ⟨_, rfl⟩
  · intro x hx
    exact (mem_elements.1 hx).1

/-! ### The entries -/

theorem carryEntries_holds (hobject : h.object joined = some .table)
    (htold : ∀ key ∈ left.keys ++ right.keys, ∀ held ∈ left.keys ++ right.keys, KeysTold h held key)
    (hkeyed : ∀ key ∈ left.keys ++ right.keys, Storable key ∧ isOpenBox h key = false ∧
      ∃ c, placeForm h key = some c)
    (hstray : ¬ Strays h left right) {entries : List LhatTableEntry}
    (hentries : ∀ entry ∈ entries, entry.key ≠ .nil →
      entry.key ∈ left.keys ++ right.keys ∧ entry.value ≠ .nil)
    (hcarried : carried h left right =
      done ++ named h (left.array ++ right.array).length entries) (htable : st.store.table joined = some t) (hh : Holding h left right done t) :
    ∃ outcome st', carryEntries h mc joined entries st = some (outcome, st') ∧
      Left joined st st' (outcome != .outOfMemory) ∧
      (outcome = .collided → ¬ ((carried h left right).map Prod.fst).Nodup) ∧
      (outcome = .joined → ∃ t', st'.store.table joined = some t' ∧
        Holding h left right (carried h left right) t') := by
  induction entries generalizing st done t with
  | nil =>
    refine ⟨.joined, st, rfl, ⟨fun _ _ => rfl, fun hm => ⟨rfl, hm⟩⟩, by rintro ⟨⟩, fun _ => ⟨t, htable,
      ?_⟩⟩
    rw [hcarried, named, List.filterMap_nil, List.append_nil]
    exact hh
  | cons entry entries ih =>
    have hrest : ∀ e ∈ entries, e.key ≠ .nil → e.key ∈ left.keys ++ right.keys ∧ e.value ≠ .nil :=
      fun e he => hentries e (List.mem_cons_of_mem _ he)
    by_cases hnil : entry.key = .nil
    · have hnamed : named h (left.array ++ right.array).length (entry :: entries) =
          named h (left.array ++ right.array).length entries := by
        simp [named, placed, entryKey, hnil]
      rw [carryEntries, if_pos (by simp [hnil])]
      exact ih hrest (hnamed ▸ hcarried) htable hh
    · obtain ⟨hkey, hvalue⟩ := hentries entry List.mem_cons_self hnil
      obtain ⟨hstorable, hopen, hplaced⟩ := hkeyed entry.key hkey
      have hdone : ∀ x ∈ done, x ∈ carried h left right := fun x hx =>
        hcarried ▸ List.mem_append_left _ hx
      have hfit : KeyFits h t entry.key := by
        refine ⟨hstorable, fun held hheld => ?_⟩
        rcases hh.keys held hheld with hin | ⟨i, rfl⟩
        · exact htold _ hkey _ hin
        · exact KeysTold.integer hstorable i
      obtain ⟨c, hc⟩ : ∃ c, slotOf h t.array.length entry.key = some c := by
        rw [slotOf_eq]
        cases arrayIndex t entry.key with
        | some i => exact ⟨_, rfl⟩
        | none => exact hplaced
      have hcn : slotOf h (left.array ++ right.array).length entry.key = some c := by
        rw [← hh.slotOf_eq hdone hstray hkey, hc]
      have hnamed : named h (left.array ++ right.array).length (entry :: entries) =
          [(c, entry.value)] ++ named h (left.array ++ right.array).length entries := by
        have hone : placed h (left.array ++ right.array).length entry = some (c, entry.value) :=
          by
          rw [placed, entryKey, if_neg (by simpa using hnil), Option.bind_some, hcn,
            Option.map_some]
        rw [named, List.filterMap_cons_some hone]
        rfl
      rw [hnamed, ← List.append_assoc] at hcarried
      have hget := lhatTableGet_held hobject htable hh.plain.1 hh.wf hfit hplaced hc
      rw [carryEntries, if_neg (by simpa using hnil), hget, Option.bind_eq_bind, Option.bind_some]
      by_cases hfree : t.held h c = .nil
      · have hnormal : normaliseKey entry.key = entry.key := hstorable.normal
        have hrefused : refusedKey h entry.key = false := by
          rw [refusedKey, hopen, hstorable.usable]
          rfl
        obtain ⟨made, hmade, -, -, hkeys, hsaid⟩ :=
          hh.wf.set st.memory hrefused (hnormal.symm ▸ hfit) entry.value
        have hwrote := @vmSetKey_plain t h mc st joined htable hh.plain entry.key entry.value
        rw [hmade, Option.map_some] at hwrote
        rw [hfree, if_neg (by simp [LhatValue.isNil]), hwrote, Option.bind_eq_bind, Option.bind_some]
        cases hok : made.ok with
        | false =>
          refine ⟨.outOfMemory, _, rfl, ⟨fun a ha => Store.table_write_other ha, fun hm => ?_⟩,
            by rintro ⟨⟩, by rintro ⟨⟩⟩
          rw [hok] at hsaid
          exact absurd (hsaid hm).1 Bool.false_ne_true
        | true =>
          have hlaid := hh.wf.laid hh.unseated hfit hvalue hc hrefused hmade hok
          have hkeys' : ∀ key ∈ made.table.keys, KeyOf left right key := by
            intro key hmem
            rcases hkeys key hmem with hin | rfl
            · exact hh.keys key hin
            · exact .inl (hnormal.symm ▸ hkey)
          have hself : (TableState.mk
            (st.store.write joined made.table) made.memory).store.table
              joined = some made.table :=
            Store.table_write_self (by rw [htable]; rfl)
          obtain ⟨outcome, st', hrun, hleft, hcollided, hjoined⟩ :=
            ih hrest hcarried hself (hh.put hvalue hfree hlaid hkeys')
          refine ⟨outcome, st', hrun, ⟨fun a ha => ?_, fun hm => ?_⟩, hcollided, hjoined⟩
          · exact (hleft.others a ha).trans (Store.table_write_other ha)
          · obtain ⟨hthrough, hm'⟩ := hleft.memory hm
            exact ⟨hthrough, (hsaid hm').2.1⟩
      · have hmem := (hh.held c _ hfree).1 rfl
        rw [if_pos (by simpa using hfree)]
        refine ⟨.collided, st, rfl, ⟨fun _ _ => rfl, fun hm => ⟨rfl, hm⟩⟩, fun _ hnodup => ?_,
          by rintro ⟨⟩⟩
        rw [hcarried, List.append_assoc, List.map_append, List.nodup_append] at hnodup
        exact hnodup.2.2 c (List.mem_map.2 ⟨_, hmem, rfl⟩) c (by simp) rfl

end Joining

/-! ### The operation -/

/-- The table that is made of two: what is carried stands each at its place, and nothing else.
The positions of the two sequences are the first, and past them every position is filled. -/
structure Joins (h : Heap) (left right : LhatTable) (s : Store) (joined : Address)
    (t : LhatTable) : Prop where
  held : ∀ c value, value ≠ .nil → (t.held h c = value ↔ (c, value) ∈ carried h left right)
  answers : ∀ key c, KeyFits h t key → (∃ c, placeForm h key = some c) →
    slotOf h t.array.length key = some c → lhatTableGet h s joined key = some (t.held h c)
  long : (left.array ++ right.array).length ≤ t.array.length
  elements : ∀ i value, (left.array ++ right.array)[i]? = some value → value ≠ .nil →
    t.slot i = value
  filled : ∀ i, (left.array ++ right.array).length ≤ i → i < t.array.length → t.slot i ≠ .nil

/-- Two plain tables come to be one, or collide, unless a request for memory is refused. They
collide exactly when two of what is carried have one place; and no table that was there is
written. -/
theorem concat_joins {h : Heap} {mc : Machine} {st : TableState} {joined : Address}
    {left right : LhatTable} (hobject : h.object joined = some .table)
    (hleft : PlainTable h left) (hright : PlainTable h right)
    (htold : ∀ key ∈ left.keys ++ right.keys, ∀ held ∈ left.keys ++ right.keys, KeysTold h held key)
    (hstray : ¬ Strays h left right) :
    ∃ outcome st', vmConcatTables h mc st joined left right = some (outcome, st') ∧
      (∀ a, a ≠ joined → st'.store.table a = st.store.table a) ∧
      (st'.memory.refused = false → outcome ≠ .outOfMemory) ∧
      (outcome ≠ .outOfMemory →
        (outcome = .collided ↔ ¬ ((carried h left right).map Prod.fst).Nodup)) ∧
      (outcome = .joined → ∃ t, st'.store.table joined = some t ∧
        Joins h left right st'.store joined t) := by
  have hkeyed : ∀ key ∈ left.keys ++ right.keys, Storable key ∧ isOpenBox h key = false ∧
      ∃ c, placeForm h key = some c := by
    intro key hkey
    rcases List.mem_append.1 hkey with hin | hin
    · exact ⟨hleft.wf.storable key hin, hleft.unchanging key hin, hleft.placed key hin⟩
    · exact ⟨hright.wf.storable key hin, hright.unchanging key hin, hright.placed key hin⟩
  have hentries : ∀ entry ∈ left.entries ++ right.entries, entry.key ≠ .nil →
      entry.key ∈ left.keys ++ right.keys ∧ entry.value ≠ .nil := by
    intro entry hmem hne
    rcases List.mem_append.1 hmem with hin | hin
    · exact ⟨List.mem_append_left _ (LhatTable.mem_keys.2 ⟨hne, entry, hin, rfl⟩),
        hleft.seatless entry hin hne⟩
    · exact ⟨List.mem_append_right _ (LhatTable.mem_keys.2 ⟨hne, entry, hin, rfl⟩),
        hright.seatless entry hin hne⟩
  unfold vmConcatTables
  cases hgrant : st.memory.granted tableSize with
  | false =>
    refine ⟨.outOfMemory, _, rfl, fun _ _ => rfl, fun hm => ?_, fun h => absurd rfl h, nofun⟩
    simp [Memory.refused_request, hgrant] at hm
  | true =>
    have hnew : Row h [] lhatTableNew := ⟨wf_new h, rfl, rfl, rfl⟩
    have hself : (TableState.mk ((joined, lhatTableNew) :: st.store)
        (st.memory.request tableSize)).store.table joined = some lhatTableNew := by
      simp [Store.table]
    have hothers : ∀ a, a ≠ joined →
        Store.table ((joined, lhatTableNew) :: st.store) a = st.store.table a := by
      intro a ha
      have hne : (a == joined) = false := by simpa using ha
      simp [Store.table, List.lookup, hne]
    obtain ⟨ok, st₁, hpositions, hleft₁, hrow⟩ := @positions_row lhatTableNew [] h mc _ joined
      (left.array ++ right.array) hself hnew
    simp only [if_true, Option.bind_eq_bind]
    rw [show (left.array ++ right.array).zipIdx [].length = (left.array ++ right.array).zipIdx
      from rfl] at hpositions
    rw [hpositions, Option.bind_some]
    cases ok with
    | false =>
      refine ⟨.outOfMemory, st₁, rfl, fun a ha => (hleft₁.others a ha).trans (hothers a ha),
        fun hm => ?_, fun h => absurd rfl h, nofun⟩
      exact absurd (hleft₁.memory hm).1 Bool.false_ne_true
    | true =>
      obtain ⟨t, htable, hrow⟩ := hrow rfl
      obtain ⟨outcome, st₂, hrun, hleft₂, hcollided, hjoined⟩ :=
        carryEntries_holds hobject htold
        hkeyed hstray hentries rfl htable hrow.holding
      refine ⟨outcome, st₂, hrun, fun a ha => ?_, fun hm => ?_, fun hmemory => ?_, fun hj => ?_⟩
      · exact (hleft₂.others a ha).trans ((hleft₁.others a ha).trans (hothers a ha))
      · simpa using (hleft₂.memory hm).1
      · refine ⟨hcollided, fun hapart => ?_⟩
        cases outcome with
        | collided => rfl
        | outOfMemory => exact absurd rfl hmemory
        | joined =>
          obtain ⟨t', -, hh⟩ := hjoined rfl
          exact absurd hh.apart hapart
      · obtain ⟨t', htable', hh⟩ := hjoined hj
        have hlen := hh.wf.length_lt
        refine ⟨t', htable', hh.held, fun key c hfit hplaced hc =>
          lhatTableGet_held hobject htable' hh.plain.1 hh.wf hfit hplaced hc, hh.long,
          fun i value hi hvalue => ?_, hh.solid⟩
        have hlt := (List.getElem?_eq_some_iff.1 hi).1
        have hlong := hh.long
        rw [← LhatTable.held_position (h := h) hlen (by omega)]
        exact (hh.held _ _ hvalue).2 (List.mem_append_left _ (mem_elements.2 ⟨hvalue, i, rfl,
          hi⟩))

/-- A hole and an element. -/
def holeFirst : LhatTable := { array := [.nil, .bool true], arrayCapacity := 8 }

/-- One element, with a bool beside it. -/
def boolBeside : LhatTable :=
  ((lhatTableSet oneTable { grants := fun _ => true } { array := [.bool false], arrayCapacity := 8 }
    (.bool true) (.bool true)).map (·.table)).getD lhatTableNew

theorem not_isType_true : ¬ IsType oneTable (.bool true) := by
  rintro ⟨o, s, heq, -⟩
  cases heq

theorem boolBeside_plain :
    PlainTable oneTable boolBeside ∧ ∀ key ∈ boolBeside.keys, key = .bool true := by
  have hwf : ({ array := [.bool false], arrayCapacity := 8 } : LhatTable).Wf oneTable :=
    (wf_new oneTable).of_entries rfl rfl rfl (by decide) (by decide)
  have hfit : KeyFits oneTable { array := [.bool false], arrayCapacity := 8 } (.bool true) :=
    hwf.keyFits_of_not_type ⟨rfl, rfl⟩ not_isType_true
  have hopen : refusedKey oneTable (.bool true) = false := rfl
  obtain ⟨made, hmade, -, hw, hkeys, -⟩ := hwf.set { grants := fun _ => true } hopen hfit
    (.bool true)
  have hbeside : boolBeside = made.table := by
    rw [boolBeside, hmade]
    rfl
  have hkey : ∀ key ∈ boolBeside.keys, key = .bool true := by
    intro key hmem
    rcases hkeys key (hbeside ▸ hmem) with hin | heq
    · cases hin
    · exact heq
  refine ⟨⟨hbeside ▸ hw, by decide +kernel, by decide +kernel, fun key hmem => ?_,
    fun key hmem => ?_⟩, hkey⟩
  · rw [hkey key hmem]
    rfl
  · rw [hkey key hmem]
    exact ⟨_, rfl⟩

theorem concat_joins_bool : ∃ st' t,
    vmConcatTables oneTable { selfKey := 0, misread := fun _ _ => false }
      { store := [], memory := { grants := fun _ => true } } 16 holeFirst boolBeside =
        some (.joined, st') ∧
    st'.store.table 16 = some t ∧ Joins oneTable holeFirst boolBeside st'.store 16 t := by
  obtain ⟨hright, hkey⟩ := boolBeside_plain
  have hleft : PlainTable oneTable holeFirst :=
    ⟨(wf_new oneTable).of_entries rfl rfl rfl (by decide) (by decide), ⟨rfl, rfl⟩, nofun, nofun,
      nofun⟩
  have hkeys : ∀ key ∈ holeFirst.keys ++ boolBeside.keys, key = .bool true := fun key hmem =>
    hkey key hmem
  obtain ⟨outcome, st', hrun, -, -, -, hjoined⟩ := @concat_joins oneTable
    { selfKey := 0, misread := fun _ _ => false } { store := [], memory := { grants :=
    fun _ => true } }
    16 _ _ rfl hleft hright
    (fun key hmem held hheld => by
      rw [hkeys key hmem, hkeys held hheld]
      exact keysTold_of_not_type rfl rfl rfl rfl fun hand => not_isType_true hand.1)
    (fun ⟨d, j, hreal, _⟩ => LhatValue.noConfusion (hkeys _ hreal))
  have houtcome : (vmConcatTables oneTable { selfKey := 0, misread := fun _ _ => false }
      { store := [], memory := { grants := fun _ => true } } 16 holeFirst boolBeside).map Prod.fst =
        some .joined := by
    decide_cbv
  rw [hrun, Option.map_some, Option.some.injEq] at houtcome
  obtain rfl : outcome = .joined := houtcome
  obtain ⟨t, htable, hjoins⟩ := hjoined rfl
  exact ⟨st', t, hrun, htable, hjoins⟩

/-- Two elements, with a value under an integer past them. -/
def threeBeside : LhatTable :=
  ((lhatTableSet oneTable { grants := fun _ => true }
    { array := [.bool true, .bool true], arrayCapacity := 8 } (.integer 3) (.bool true)).map
      (·.table)).getD lhatTableNew

/-- The key `3` is carried to where the second element of the same side comes to stand, and
the other side has nothing there. -/
theorem collides_alone :
    (vmConcatTables oneTable { selfKey := 0, misread := fun _ _ => false }
      { store := [], memory := { grants := fun _ => true } } 16
      { array := [.bool true, .bool true], arrayCapacity := 8 } threeBeside).map Prod.fst =
        some .collided ∧
    ∀ c ∈ (elements [.bool true, .bool true] ++ named oneTable 4 []).map Prod.fst,
      c ∉ (elements [.nil, .nil, .bool true, .bool true] ++
        named oneTable 4 threeBeside.entries).map Prod.fst := by
  have hleft : (elements [.bool true, .bool true] ++ named oneTable 4 []).map Prod.fst =
      [position 0, position 1] := rfl
  have hright : (elements [.nil, .nil, .bool true, .bool true] ++
      named oneTable 4 threeBeside.entries).map Prod.fst = [position 2, position 3, position 3] :=
        by
    rfl
  have hne : ∀ {i j : Nat}, i < 2 → 2 ≤ j → j < 4 → position i ≠ position j :=
    fun hi hj hlt heq => by
    have := position_inj (by omega) (by omega) heq
    omega
  refine ⟨by decide_cbv, ?_⟩
  rw [hleft, hright]
  simp only [List.mem_cons, List.not_mem_nil, or_false, forall_eq_or_imp, forall_eq, not_or]
  refine ⟨⟨?_, ?_, ?_⟩, ?_, ?_, ?_⟩ <;> exact hne (by decide) (by decide) (by decide)

end Lhat
