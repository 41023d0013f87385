import Lhat.Table.Own
import Mathlib.Data.FinEnum

/-!
# Two tables made into one

`..` of two plain tables makes a third: the positions of the left, the positions of the
right after them, and then the entries of both, each under its own key unless something
stands there already. What stands there is asked of the table being made, so that a key
is what it is in that table: a real names the position it rounds to as far as the
sequence reaches. `slotOf` is the place of a key for a sequence of some length, and
`LhatTable.held` what a table has at a place.
-/

namespace Lhat

/-! ### The source's loops -/

/-- How far `vm_concat_tables` came. -/
inductive Concat where
  | joined | collided | outOfMemory
deriving DecidableEq, Repr

/-- The second loop of `vm_concat_tables`, over the slots of both sides. -/
def carryEntries (h : Heap) (mc : Machine) (joined : Address) :
    List LhatTableEntry → TableState → Option (Concat × TableState)
  | [], st => some (.joined, st)
  | entry :: rest, st =>
    if entry.key.isNil then carryEntries h mc joined rest st
    else do
      let held ← lhatTableGet h st.store joined entry.key
      if !held.isNil then some (.collided, st)
      else
        let wrote ← vmSetKey h mc st joined entry.key entry.value
        if wrote.ok then carryEntries h mc joined rest wrote.state
        else some (.outOfMemory, wrote.state)

/-- `vm_concat_tables`. The new table is the one `lhat_table_new` puts at `joined`. -/
def vmConcatTables (h : Heap) (mc : Machine) (st : TableState) (joined : Address)
    (left right : LhatTable) : Option (Concat × TableState) :=
  let memory := st.memory.request tableSize
  if st.memory.granted tableSize then do
    let (ok, st) ← writeEach h mc joined
      (fun _ (value, position) => some (some (.integer (Int64.ofNat position), value)))
      (left.array ++ right.array).zipIdx { store := (joined, lhatTableNew) :: st.store, memory }
    if ok then carryEntries h mc joined (left.entries ++ right.entries) st
    else some (.outOfMemory, st)
  else some (.outOfMemory, { st with memory })

/-! ### Places -/

/-- Any sequence of a length. -/
def sequenceOf (n : Nat) : LhatTable := { array := List.replicate n .nil }

/-- The place of a key beside or in a sequence of that length. -/
def slotOf (h : Heap) (n : Nat) (key : LhatValue) : Option (KeyForm × UInt32) :=
  match arrayIndex (sequenceOf n) key with
  | some i => some (position i)
  | none => placeForm h key

open scoped Classical in
/-- What a table itself has at a place, `nil` where it has nothing. -/
noncomputable def LhatTable.held (h : Heap) (t : LhatTable) (c : KeyForm × UInt32) : LhatValue :=
  if hc : ∃ i, c = integerPlace i then (t.own h (.integer hc.choose)).getD .nil
  else (t.find h c).getD .nil

section Places

variable {h : Heap} {t t' : LhatTable} {key value : LhatValue} {c : KeyForm × UInt32}

theorem position_eq_integerPlace (n : Nat) : position n = integerPlace (Int64.ofNat n) := rfl

theorem LhatTable.held_integer (t : LhatTable) (i : Int64) :
    t.held h (integerPlace i) = (t.own h (.integer i)).getD .nil := by
  have hc : ∃ j, integerPlace i = integerPlace j := ⟨i, rfl⟩
  rw [LhatTable.held, dif_pos hc, ← integerPlace_inj hc.choose_spec]

theorem LhatTable.held_beside (hc : ∀ i, c ≠ integerPlace i) : t.held h c = (t.find h c).getD .nil := by
  rw [LhatTable.held, dif_neg (not_exists.2 hc)]

theorem LhatTable.held_position (hlen : t.array.length < 2 ^ 60) {i : Nat} (hi : i < t.array.length) :
    t.held h (position i) = t.slot i := by
  have hint : (Int64.ofNat i).toInt = i := Int64.toInt_ofNat_of_lt (by omega)
  rw [position_eq_integerPlace, LhatTable.held_integer, LhatTable.own_inside (by omega) (by omega),
    hint]
  rfl

theorem arrayIndex_sequenceOf (t : LhatTable) (key : LhatValue) :
    arrayIndex (sequenceOf t.array.length) key = arrayIndex t key :=
  arrayIndex_congr (by simp [sequenceOf]) key

theorem arrayIndex_reaches {j : Nat} (hindex : arrayIndex t key = some j) {m : Nat} (hm : j < m) :
    arrayIndex (sequenceOf m) key = some j := by
  have hlength : (sequenceOf m).array.length = m := by simp [sequenceOf]
  unfold arrayIndex at hindex ⊢
  simp only [hlength] at hindex ⊢
  split at hindex
  · split at hindex
    · cases hindex
    · obtain rfl := Option.some.inj hindex
      rw [if_neg (by omega)]
  · split at hindex
    · rename_i hrange
      split at hindex
      · cases hindex
      · obtain rfl := Option.some.inj hindex
        rw [if_pos hrange, if_neg (by omega)]
    · cases hindex
  · cases hindex

theorem slotOf_eq (t : LhatTable) (key : LhatValue) : slotOf h t.array.length key =
    match arrayIndex t key with
    | some i => some (position i)
    | none => placeForm h key := by
  rw [slotOf, arrayIndex_sequenceOf]

theorem slotOf_integer (h : Heap) (n : Nat) (i : Int64) :
    slotOf h n (.integer i) = some (integerPlace i) := by
  rw [slotOf, arrayIndex_integer]
  split
  · next index hindex =>
      split at hindex
      · next hin =>
          obtain rfl := Option.some.inj hindex
          have hlt := i.toInt_lt
          have heq : i = Int64.ofNat i.toInt.toNat := int64_of_toInt (by omega) (by omega)
          rw [position_eq_integerPlace, ← heq]
      · cases hindex
  · rfl

theorem placeForm_beside (hstorable : Storable key) (hno : ∀ i, key ≠ .integer i)
    (hc : placeForm h key = some c) : ∀ i, c ≠ integerPlace i := by
  rintro i rfl
  have hform := (placeForm_eq_some.1 hc).1
  cases key with
  | integer j => exact hno j rfl
  | real d =>
    simp only [keyForm] at hform
    split at hform <;> cases hform
  | object o => exact objectForm_ne_integer h o i (Option.some.inj hform)
  | _ => cases hform

theorem lhatTableGet_held {s : Store} {node : Address} (hobject : h.object node = some .table)
    (htable : s.table node = some t) (hdefinition : t.definition = 0) (hw : t.Wf h)
    (hfit : KeyFits h t key) (hplaced : ∃ c, placeForm h key = some c)
    (hc : slotOf h t.array.length key = some c) :
    lhatTableGet h s node key = some (t.held h c) := by
  obtain ⟨c', hc'⟩ := hplaced
  have hnormal : normaliseKey key = key := hfit.storable.normal
  have hread := hw.ownRead_eq_own hfit hc'
  -- what the table itself has, at the place of the key
  have hown : (t.own h key).getD .nil = t.held h c := by
    rw [slotOf_eq] at hc
    unfold LhatTable.own
    cases hindex : arrayIndex t key with
    | some index =>
      rw [hindex] at hc
      obtain rfl := Option.some.inj hc
      have hlen := hw.length_lt
      exact (LhatTable.held_position hlen (arrayIndex_lt hindex)).symm
    | none =>
      rw [hindex] at hc
      obtain rfl : c' = c := Option.some.inj (hc'.symm.trans hc)
      by_cases hint : ∃ i, key = .integer i
      · obtain ⟨i, rfl⟩ := hint
        obtain rfl : integerPlace i = c' := Option.some.inj hc'
        rw [LhatTable.held_integer, LhatTable.own, hindex]
      · rw [LhatTable.held_beside (placeForm_beside hfit.storable (not_exists.1 hint) hc')]
        simp only [hc', Option.bind_some]
        cases hfind : t.find h c' with
        | none => rfl
        | some v =>
          by_cases hv : v = .nil
          · simp [hv]
          · simp [live_some hv]
  cases hfound : ownRead h t key none (hashKey h key) with
  | none => simp [hfound] at hread
  | some found =>
    rw [hfound] at hread
    cases found with
    | none =>
      rw [lhatTableGet_plain hobject htable hdefinition hfit.storable.usable (by rw [hnormal, hfound])]
      have hnone : t.own h key = none := by simpa using hread.symm
      rw [← hown, hnone]
      rfl
    | some found =>
      obtain ⟨v, slot⟩ := found
      rw [lhatTableGet_of_ownRead slot hobject htable hfit.storable.usable (by rw [hnormal, hfound])]
      have hsome : t.own h key = some v := by simpa using hread.symm
      rw [← hown, hsome]
      rfl

end Places

/-! ### One write -/

/-- From a position on every position has a value. -/
def Solid (n : Nat) (t : LhatTable) : Prop :=
  ∀ i, n ≤ i → i < t.array.length → t.slot i ≠ .nil

section Write

open scoped Classical

variable {h : Heap} {t t' : LhatTable} {key value : LhatValue} {c : KeyForm × UInt32} {n : Nat}

theorem Solid.append (hs : Solid n t) (hvalue : value ≠ .nil) {u : LhatTable}
    (harray : u.array = t.array ++ [value]) : Solid n u := by
  intro i hn hi
  rw [LhatTable.slot, harray] at *
  rw [List.length_append, List.length_singleton] at hi
  rcases Nat.lt_succ_iff_lt_or_eq.1 hi with hlt | rfl
  · rw [List.getD_append _ _ _ _ hlt]
    exact hs i hn hlt
  · rw [List.getD_append_right _ _ _ _ (Nat.le_refl _), Nat.sub_self]
    exact hvalue

theorem Solid.set (hs : Solid n t) (hvalue : value ≠ .nil) (index : Nat) :
    Solid n { t with array := t.array.set index value } := by
  intro i hn hi
  have hlt : i < t.array.length := by simpa using hi
  have hold := hs i hn hlt
  rw [LhatTable.slot] at hold ⊢
  rw [List.getD_eq_getElem _ _ hlt] at hold
  rw [List.getD_eq_getElem _ _ (by simpa using hlt), List.getElem_set]
  split
  · exact hvalue
  · exact hold

theorem Solid.drain {fuel : Nat} (hs : Solid n t) (hw : t.Wf h) (hu : Unseated h t) {m m' : Memory}
    (hdrain : drain h fuel m t = some (t', m')) : Solid n t' := by
  induction fuel generalizing m t with
  | zero => cases hdrain
  | succ fuel ih =>
    obtain ⟨r, hr, hfound⟩ := hw.findEntry t.array.length
    unfold Lhat.drain at hdrain
    rcases hfound with ⟨rfl, -⟩ | ⟨i, hi, rfl, hkey, hplace, hsome⟩
    · simp only [hr, Option.some.injEq, Prod.mk.injEq] at hdrain
      exact hdrain.1 ▸ hs
    · obtain ⟨-, -, hroom⟩ := hw.makeRoom m
      simp only [hr] at hdrain
      rcases hroom with ⟨hok, htable⟩ | ⟨hok, capacity, htable, hlt, hbytes⟩
      · simp only [hok, htable, Bool.false_eq_true, if_false, Option.some.injEq,
          Prod.mk.injEq] at hdrain
        exact hdrain.1 ▸ hs
      · rw [if_pos hok, htable] at hdrain
        have htaken := Reads.take hw hu hi hkey hplace hsome hlt hbytes
        have hvalue : (t.entryAt i).value ≠ .nil := fun hnil =>
          hu (Int64.ofNat t.array.length) (by rw [← hnil]; exact hsome)
        exact ih (hs.append hvalue rfl) htaken.wf htaken.unseated hdrain

theorem Solid.written (hs : Solid n t) (hw : t.Wf h) (hu : Unseated h t) (hfit : KeyFits h t key)
    (hvalue : value ≠ .nil) {m : Memory} {made : Outcome} (hrefused : refusedKey h key = false)
    (hmade : lhatTableSet h m t key value = some made) (hok : made.ok = true) :
    Solid n made.table := by
  have hnormal : normaliseKey key = key := hfit.storable.normal
  unfold lhatTableSet at hmade
  simp only [hrefused, hnormal, Bool.false_eq_true, if_false] at hmade
  cases hindex : arrayIndex t key with
  | some index =>
    rw [hindex] at hmade
    cases hmade
    exact hs.set hvalue index
  | none =>
    simp only [hindex] at hmade
    split at hmade
    · rcases (hw.makeRoom m).2.2 with ⟨hroom, -⟩ | ⟨hroom, capacity, htable, hlt, hbytes⟩
      · rw [hroom, if_neg Bool.false_ne_true] at hmade
        cases hmade
        rw [hroom] at hok
        cases hok
      · rw [if_pos hroom, htable] at hmade
        obtain ⟨⟨t', m'⟩, hdrain, rfl⟩ := Option.map_eq_some_iff.1 hmade
        have happended := Stored.append hw hu hlt hbytes value
        exact (hs.append hvalue rfl).drain happended.wf happended.unseated hdrain
    · obtain ⟨made', hmade', -, -, hsaid⟩ := hw.setEntry m hfit value
      obtain rfl := Option.some.inj (hmade.symm.trans hmade')
      rcases hsaid with ⟨hfailed, -⟩ | ⟨-, hwritten⟩
      · rw [hok] at hfailed
        cases hfailed
      · intro i hn hi
        rw [LhatTable.slot, hwritten.array] at *
        exact hs i hn hi

/-- A value laid at a place that had room for it. -/
structure Laid (h : Heap) (t : LhatTable) (c : KeyForm × UInt32) (value : LhatValue)
    (t' : LhatTable) : Prop where
  wf : t'.Wf h
  unseated : Unseated h t'
  links : t'.links = t.links
  longer : t.array.length ≤ t'.array.length
  here : t'.held h c = value
  elsewhere : ∀ c', c' ≠ c → t'.held h c' = t.held h c'
  solid : ∀ n, Solid n t → Solid n t'

theorem Stored.laid {i : Int64} (hs : Stored h t i value t') (hvalue : value ≠ .nil)
    (hsolid : ∀ n, Solid n t → Solid n t') : Laid h t (integerPlace i) value t' := by
  refine ⟨hs.wf, hs.unseated, hs.links, hs.longer, ?_, fun c' hne => ?_, hsolid⟩
  · rw [LhatTable.held_integer]
    rcases hs.here with hhere | ⟨hnil, -⟩
    · rw [hhere, Option.getD_some]
    · exact absurd hnil hvalue
  · by_cases hc : ∃ j, c' = integerPlace j
    · obtain ⟨j, rfl⟩ := hc
      rw [LhatTable.held_integer, LhatTable.held_integer,
        hs.elsewhere j fun heq => hne (congrArg integerPlace heq)]
    · rw [LhatTable.held_beside (not_exists.1 hc), LhatTable.held_beside (not_exists.1 hc),
        hs.beside c' (not_exists.1 hc)]

theorem Written.laid (hu : Unseated h t) (hstorable : Storable key) (hno : ∀ i, key ≠ .integer i)
    (hc : placeForm h key = some c) (hvalue : value ≠ .nil) (hlinks : t'.links = t.links)
    (hwritten : Written h t t' key (setFound h t key value)) : Laid h t c value t' := by
  have hbeside := placeForm_beside hstorable hno hc
  have hfind : ∀ c', t'.find h c' = if c = c' then some value else t.find h c' := by
    intro c'
    rw [hwritten.find, setFound, hc]
    simp [hvalue]
  have hsame : ∀ i, t'.find h (integerPlace i) = t.find h (integerPlace i) := fun i => by
    rw [hfind, if_neg (hbeside i)]
  have hreads : ∀ i, t'.own h (.integer i) = t.own h (.integer i) := by
    intro i
    by_cases hin : 0 ≤ i.toInt ∧ i.toInt < t.array.length
    · rw [LhatTable.own_inside hin.1 (by rw [hwritten.array]; exact hin.2),
        LhatTable.own_inside hin.1 hin.2, LhatTable.slot, LhatTable.slot, hwritten.array]
    · rw [LhatTable.own_outside hin, LhatTable.own_outside (by rwa [hwritten.array]), hsame]
  refine ⟨hwritten.wf, fun i => (hsame i).symm ▸ hu i, hlinks, hwritten.array ▸ Nat.le_refl _, ?_,
    fun c' hne => ?_, fun n hs i hn hi => ?_⟩
  · rw [LhatTable.held_beside hbeside, hfind, if_pos rfl, Option.getD_some]
  · by_cases hint : ∃ j, c' = integerPlace j
    · obtain ⟨j, rfl⟩ := hint
      rw [LhatTable.held_integer, LhatTable.held_integer, hreads]
    · rw [LhatTable.held_beside (not_exists.1 hint), LhatTable.held_beside (not_exists.1 hint), hfind,
        if_neg hne.symm]
  · have hslot := hs i hn (hwritten.array ▸ hi)
    rwa [LhatTable.slot, hwritten.array]

theorem LhatTable.Wf.laid (hw : t.Wf h) (hu : Unseated h t) (hfit : KeyFits h t key)
    (hvalue : value ≠ .nil) (hc : slotOf h t.array.length key = some c) {m : Memory} {made : Outcome}
    (hrefused : refusedKey h key = false) (hmade : lhatTableSet h m t key value = some made)
    (hok : made.ok = true) : Laid h t c value made.table := by
  have hnormal : normaliseKey key = key := hfit.storable.normal
  have hlinks : made.table.links = t.links := TableOp.run_links (.set key value) hmade
  have hsolid : ∀ n, Solid n t → Solid n made.table := fun n hs =>
    hs.written hw hu hfit hvalue hrefused hmade hok
  by_cases hint : ∃ i, key = .integer i
  · obtain ⟨i, rfl⟩ := hint
    obtain rfl := Option.some.inj ((slotOf_integer h _ i).symm.trans hc)
    exact (hw.stored hu hmade hok).laid hvalue hsolid
  · rw [slotOf_eq] at hc
    unfold lhatTableSet at hmade
    simp only [hrefused, hnormal, Bool.false_eq_true, if_false] at hmade
    cases hindex : arrayIndex t key with
    | some index =>
      -- a real that names a position
      rw [hindex] at hc hmade
      obtain rfl := Option.some.inj hc
      cases hmade
      have hlt := arrayIndex_lt hindex
      have hlen := hw.length_lt
      have htoInt : (Int64.ofNat index).toInt = index := Int64.toInt_ofNat_of_lt (by omega)
      have hstored : Stored h t (Int64.ofNat index) value _ :=
        Stored.inside hw hu (by omega) (by omega) value
      rw [htoInt, Int.toNat_natCast] at hstored
      exact hstored.laid hvalue hsolid
    | none =>
      have hnext : namesNext t key = false := by
        refine Bool.eq_false_iff.2 fun hnext => hint ⟨_, namesNext_iff.1 hnext⟩
      simp only [hindex, hnext, Bool.false_eq_true, if_false] at hc hmade
      obtain ⟨made', hmade', -, -, hsaid⟩ := hw.setEntry m hfit value
      obtain rfl := Option.some.inj (hmade.symm.trans hmade')
      rcases hsaid with ⟨hfailed, -⟩ | ⟨-, hwritten⟩
      · rw [hok] at hfailed
        cases hfailed
      · exact hwritten.laid hu hfit.storable (not_exists.1 hint) hc hvalue hlinks

end Write

end Lhat
