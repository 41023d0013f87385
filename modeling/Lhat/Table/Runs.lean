import Lhat.Table.Upkeep

/-!
# Runs over the tables

Every operation of a run writes into one table and leaves the others. The keys it
writes come from a family of keys that are told from one another (`Kin`), and as
long as they do, what `Upkept` says of every table is kept: by one write
(`Tended.vmSetKey`), by a loop of them (`Tended.writeEach`), by each operation and
by a run.
-/

namespace Lhat

variable {ran : LhatRunStatus × TableState} {args : List LhatValue} {key value : LhatValue}
  {source : Address} {i : Nat} {t : LhatTable}

section Stores

variable {s : Store} {a b : Address} {t : LhatTable}

theorem Store.table_write_self (htable : (s.table a).isSome) : (s.write a t).table a = some t := by
  unfold Store.table Store.write at *
  induction s with
  | nil => simp at htable
  | cons held s ih =>
    obtain ⟨x, u⟩ := held
    by_cases hx : x = a
    · simp [hx]
    · have hax : ¬a = x := fun heq => hx heq.symm
      simp only [List.lookup_cons, beq_eq_false_iff_ne.2 hax] at htable
      simp [hx, List.lookup_cons, beq_eq_false_iff_ne.2 hax, ih htable]

theorem Store.table_write_other (hne : b ≠ a) : (s.write a t).table b = s.table b := by
  unfold Store.table Store.write
  induction s with
  | nil => rfl
  | cons held s ih =>
    obtain ⟨x, u⟩ := held
    by_cases hx : x = a
    · subst hx
      simp [List.lookup_cons, beq_eq_false_iff_ne.2 hne, ih]
    · simp [hx, List.lookup_cons, ih]

theorem Store.table_write_cases {u : LhatTable} (htable : (s.write a t).table b = some u) :
    b = a ∧ u = t ∨ b ≠ a ∧ s.table b = some u := by
  by_cases hba : b = a
  · subst hba
    cases hs : s.table b with
    | none =>
      exfalso
      unfold Store.table Store.write at *
      rw [List.lookup_eq_none_iff] at hs
      obtain ⟨l₁, l₂, heq, -⟩ := List.lookup_eq_some_iff.1 htable
      have hmem : (b, u) ∈ s.map fun held => if held.1 = b then (b, t) else held := by
        rw [heq]
        simp
      obtain ⟨held, hin, hheld⟩ := List.mem_map.1 hmem
      have hne := hs held hin
      split at hheld
      · next hb => simp [hb] at hne
      · next hb => exact hb (congrArg Prod.fst hheld)
    | some held =>
      rw [Store.table_write_self (by rw [hs]; rfl)] at htable
      exact Or.inl ⟨rfl, (Option.some.inj htable).symm⟩
  · exact Or.inr ⟨hba, by rwa [Store.table_write_other hba] at htable⟩

end Stores

/-- A family of keys told from one another, with every integer among them. -/
structure Kin (h : Heap) (P : LhatValue → Prop) : Prop where
  storable : ∀ key, P key → Storable key
  told : ∀ key held, P key → P held → KeysTold h held key
  integer : ∀ i, P (.integer i)

/-- A state on the way of an operation on one table: the others stand as they did,
and the keys of that one are of a family. -/
structure Tended (h : Heap) (P : LhatValue → Prop) (table : Address) (base st : TableState) :
    Prop where
  upkept : st.Upkept h
  kin : ∀ t, st.store.table table = some t → ∀ key ∈ t.keys, P key
  others : ∀ a, a ≠ table → st.store.table a = base.store.table a

section Writes

variable {h : Heap} {P : LhatValue → Prop} {table : Address} {base st : TableState}

theorem storable_integer (i : Int64) : Storable (.integer i) := ⟨rfl, rfl⟩

theorem KeysTold.integer (hs : Storable key) (i : Int64) : KeysTold h (.integer i) key :=
  keysTold_of_not_type (by rfl) hs.normal rfl hs.usable fun hand => not_isType_integer i hand.1

theorem Kin.of_told {Q : LhatValue → Prop} (hstorable : ∀ key, Q key → Storable key)
    (htold : ∀ key held, Q key → Q held → KeysTold h held key) :
    Kin h fun key => Q key ∨ ∃ i, key = .integer i := by
  refine ⟨?_, ?_, fun i => Or.inr ⟨i, rfl⟩⟩
  · rintro key (hq | ⟨i, rfl⟩)
    · exact hstorable key hq
    · exact storable_integer i
  · rintro key held (hq | ⟨i, rfl⟩) (hq' | ⟨j, rfl⟩)
    · exact htold key held hq hq'
    · exact KeysTold.integer (hstorable key hq) j
    · exact (KeysTold.integer (hstorable held hq') i).symm
    · exact KeysTold.integer (storable_integer i) j

theorem Kin.keys (hw : t.Wf h) :
    Kin h fun key => key ∈ t.keys ∨ ∃ i, key = .integer i :=
  Kin.of_told hw.storable fun key held hkey hheld => hw.told key hkey held hheld

theorem Kin.fits (hkin : Kin h P) (hkeys : ∀ key ∈ t.keys, P key)
    (hkey : P key) : KeyFits h t key :=
  ⟨hkin.storable key hkey, fun held hmem => hkin.told key held hkey (hkeys held hmem)⟩

theorem Tended.write (ht : Tended h P table base st) {m : Memory} (hu : Lhat.Upkept h m.refused t)
    (hrefused : m.refused = false → st.memory.refused = false) (hkeys : ∀ key ∈ t.keys, P key) :
    Tended h P table base { store := st.store.write table t, memory := m } := by
  refine ⟨fun a u hau => ?_, fun u hu' => ?_, fun a hne => ?_⟩
  · rcases Store.table_write_cases hau with ⟨-, rfl⟩ | ⟨-, hold⟩
    · exact hu
    · exact ⟨(ht.upkept a u hold).wf, fun hr => (ht.upkept a u hold).settled (hrefused hr)⟩
  · rcases Store.table_write_cases hu' with ⟨-, rfl⟩ | ⟨hne, -⟩
    · exact hkeys
    · exact absurd rfl hne
  · exact (Store.table_write_other hne).trans (ht.others a hne)

theorem Tended.vmSetKey (hkin : Kin h P) (ht : Tended h P table base st) {mc : Machine} (hkey : value ≠ .nil → usableKey key = true → P (normaliseKey key))
    {wrote : Wrote} (hwrote : vmSetKey h mc st table key value = some wrote) :
    Tended h P table base wrote.state := by
  unfold Lhat.vmSetKey at hwrote
  simp only [Option.bind_eq_bind, Option.bind_eq_some_iff] at hwrote
  obtain ⟨t, htable, hwrote⟩ := hwrote
  have hkeys := ht.kin t htable
  split at hwrote
  · obtain rfl := Option.some.inj hwrote
    exact ht
  · obtain ⟨seat, -, hwrote⟩ := Option.bind_eq_some_iff.1 hwrote
    split at hwrote
    · obtain ⟨left, hleft, hwrote⟩ := Option.bind_eq_some_iff.1 hwrote
      obtain rfl := Option.some.inj hwrote
      obtain ⟨hu, hsub⟩ := (ht.upkept table t htable).vacate hleft
      exact ht.write hu id fun held hmem => hkeys held (hsub held hmem)
    · obtain ⟨made, hmade, hwrote⟩ := Option.bind_eq_some_iff.1 hwrote
      obtain rfl := Option.some.inj hwrote
      obtain ⟨hu, hrefused, hsub⟩ := (ht.upkept table t htable).set
        (fun hvalue husable => hkin.fits hkeys (hkey hvalue husable)) hmade
      refine ht.write hu hrefused fun held hmem => ?_
      rcases hsub held hmem with hin | ⟨i, rfl⟩ | ⟨hvalue, husable, rfl⟩
      · exact hkeys held hin
      · exact hkin.integer i
      · exact hkey hvalue husable

theorem Tended.writeEach {ι : Type*} (hkin : Kin h P) (ht : Tended h P table base st)
    {mc : Machine} {turn : TableState → ι → Option (Option (LhatValue × LhatValue))}
    (hturn : ∀ st' i key value, Tended h P table base st' → turn st' i = some (some (key, value)) →
      value ≠ .nil → usableKey key = true → P (normaliseKey key)) {turns : List ι} {ran : Bool × TableState}
    (hran : writeEach h mc table turn turns st = some ran) : Tended h P table base ran.2 := by
  induction turns generalizing st with
  | nil =>
    obtain rfl := Option.some.inj hran
    exact ht
  | cons i turns ih =>
    unfold Lhat.writeEach at hran
    split at hran
    · cases hran
    · exact ih ht hran
    · next key value hwhat =>
        split at hran
        · cases hran
        · next wrote hwrote =>
            have hst := ht.vmSetKey hkin (hturn st i key value ht hwhat) hwrote
            split at hran
            · exact ih hst hran
            · obtain rfl := Option.some.inj hran
              exact hst

end Writes

section Natives

variable {h : Heap} {mc : Machine} {st : TableState} {table : Address} {t : LhatTable}

section

variable (hu : st.Upkept h)
include hu

theorem TableState.Upkept.tended (htable : st.store.table table = some t) :
    Tended h (fun key => key ∈ t.keys ∨ ∃ i, key = .integer i) table st st := by
  refine ⟨hu, fun t' ht' key hmem => ?_, fun a _ => rfl⟩
  obtain rfl := Option.some.inj (htable.symm.trans ht')
  exact Or.inl hmem

theorem TableState.Upkept.writePositions {ι : Type*}
    (htable : st.store.table table = some t)
    {turn : TableState → ι → Option (Option (LhatValue × LhatValue))}
    (hturn : ∀ st' i key value, turn st' i = some (some (key, value)) → ∃ k, key = .integer k)
    {turns : List ι} {ran : Bool × TableState}
    (hran : writeEach h mc table turn turns st = some ran) :
    Tended h (fun key => key ∈ t.keys ∨ ∃ i, key = .integer i) table st ran.2 := by
  refine (hu.tended htable).writeEach (Kin.keys (hu table t htable).wf) ?_ hran
  intro st' i key value _ hwhat _ _
  obtain ⟨k, rfl⟩ := hturn st' i key value hwhat
  exact Or.inr ⟨k, rfl⟩

theorem TableState.Upkept.write {t' : LhatTable} {m : Memory} (hu' : Lhat.Upkept h m.refused t')
    (hrefused : m.refused = false → st.memory.refused = false) :
    TableState.Upkept h { store := st.store.write table t', memory := m } := by
  intro a u hau
  rcases Store.table_write_cases hau with ⟨-, rfl⟩ | ⟨-, hold⟩
  · exact hu'
  · exact ⟨(hu a u hold).wf, fun hr => (hu a u hold).settled (hrefused hr)⟩

theorem TableState.Upkept.insert (htable : st.store.table table = some t)
    (hran : tableInsert h mc st table t args = some ran) : ran.2.Upkept h := by
  unfold tableInsert at hran
  split at hran
  · split at hran
    · obtain rfl := Option.some.inj hran
      exact hu
    · simp only at hran
      split at hran
      · obtain rfl := Option.some.inj hran
        exact hu
      · unfold insertAt at hran
        obtain ⟨⟨ok, st'⟩, hloop, hran⟩ := Option.bind_eq_some_iff.1 hran
        have ht' := hu.writePositions htable (fun st' i key value hwhat => by
          obtain ⟨_, -, heq⟩ := Option.bind_eq_some_iff.1 hwhat
          cases heq
          exact ⟨_, rfl⟩) hloop
        simp only at hran
        split at hran
        · obtain ⟨wrote, hwrote, hran⟩ := Option.bind_eq_some_iff.1 hran
          obtain rfl := Option.some.inj hran
          refine (ht'.vmSetKey (Kin.keys (hu table t htable).wf) (fun _ _ => ?_) hwrote).upkept
          exact Or.inr ⟨_, rfl⟩
        · obtain rfl := Option.some.inj hran
          exact ht'.upkept
  · obtain rfl := Option.some.inj hran
    exact hu

theorem TableState.Upkept.push (htable : st.store.table table = some t)
    (hran : tablePush h mc st table t args = some ran) : ran.2.Upkept h := by
  unfold tablePush at hran
  split at hran
  · obtain ⟨wrote, hwrote, rfl⟩ := Option.map_eq_some_iff.1 hran
    refine ((hu.tended htable).vmSetKey (Kin.keys (hu table t htable).wf) (fun _ _ => ?_)
      hwrote).upkept
    exact Or.inr ⟨_, rfl⟩
  · obtain rfl := Option.some.inj hran
    exact hu

theorem TableState.Upkept.extend (htable : st.store.table table = some t)
    (hran : tableExtend h mc st table t args = some ran) : ran.2.Upkept h := by
  unfold tableExtend at hran
  split at hran
  · split at hran
    · obtain ⟨held, hheld, hran⟩ := Option.bind_eq_some_iff.1 hran
      obtain ⟨⟨ok, st'⟩, hloop, hran⟩ := Option.bind_eq_some_iff.1 hran
      obtain rfl := Option.some.inj hran
      refine (hu.writePositions htable (fun st' i key value hwhat => ?_) hloop).upkept
      obtain ⟨_, -, heq⟩ := Option.bind_eq_some_iff.1 hwhat
      cases heq
      exact ⟨_, rfl⟩
    · obtain rfl := Option.some.inj hran
      exact hu
  · obtain rfl := Option.some.inj hran
    exact hu
  · obtain rfl := Option.some.inj hran
    exact hu

end

@[simp] theorem length_shiftDown (array : List LhatValue) (first last : Nat) :
    (shiftDown array first last).length = array.length := by
  unfold shiftDown
  generalize List.range' first (last - first) = turns
  induction turns generalizing array with
  | nil => rfl
  | cons k turns ih => rw [List.foldl_cons, ih, List.length_set]

@[simp] theorem length_shiftUp (array : List LhatValue) (first last : Nat) :
    (shiftUp array first last).length = array.length := by
  unfold shiftUp
  generalize (List.range' (first + 1) (last - first)).reverse = turns
  induction turns generalizing array with
  | nil => rfl
  | cons k turns ih => rw [List.foldl_cons, ih, List.length_set]

@[simp] theorem length_relocate (array : List LhatValue) (start dest : Nat) :
    (relocate array start dest).length = array.length := by
  unfold relocate
  rw [List.length_set]
  split
  · exact length_shiftDown array start dest
  · exact length_shiftUp array dest start

section

variable (hu : st.Upkept h)
include hu

theorem TableState.Upkept.resizeTable {t' : LhatTable} (hu' : Lhat.Upkept h st.memory.refused t') {length : Nat} {fill : LhatValue}
    {made : Outcome} (hmade : lhatTableResize h st.memory t' length fill = some made) :
    TableState.Upkept h { store := st.store.write table made.table, memory := made.memory } := by
  obtain ⟨hmade', hrefused, -⟩ := hu'.resize hmade
  exact hu.write hmade' hrefused

section

variable (htable : st.store.table table = some t)
include htable

theorem TableState.Upkept.removeAt
    {atPos : Int64} {ran : LhatValue × TableState}
    (hran : removeAt h st table t atPos = some ran) : ran.2.Upkept h := by
  unfold Lhat.removeAt at hran
  simp only at hran
  split at hran
  · obtain rfl := Option.some.inj hran
    exact hu
  · obtain ⟨made, hmade, rfl⟩ := Option.map_eq_some_iff.1 hran
    exact hu.resizeTable ((hu table t htable).setArray (length_shiftDown _ _ _)) hmade

theorem TableState.Upkept.remove {ran : LhatRunStatus × LhatValue × TableState}
    (hran : tableRemove h st table t args = some ran) : ran.2.2.Upkept h := by
  unfold tableRemove at hran
  split at hran
  · split at hran
    · obtain rfl := Option.some.inj hran
      exact hu
    · obtain ⟨removed, hremoved, rfl⟩ := Option.map_eq_some_iff.1 hran
      exact hu.removeAt htable hremoved
  · obtain rfl := Option.some.inj hran
    exact hu

theorem TableState.Upkept.pop {ran : LhatRunStatus × LhatValue × TableState}
    (hran : tablePop h st table t args = some ran) : ran.2.2.Upkept h := by
  unfold tablePop at hran
  split at hran
  · obtain ⟨removed, hremoved, rfl⟩ := Option.map_eq_some_iff.1 hran
    exact hu.removeAt htable hremoved
  · obtain rfl := Option.some.inj hran
    exact hu

theorem TableState.Upkept.setArray
    {array : List LhatValue} (hlen : array.length = t.array.length) :
    (st.write table { t with array := array }).Upkept h :=
  hu.write ((hu table t htable).setArray hlen) id

theorem TableState.Upkept.blockmove
    {src : Address} {start last dest : Int64}
    (hran : tableBlockmove h mc st table src start last dest = some ran) : ran.2.Upkept h := by
  unfold tableBlockmove at hran
  split at hran
  · obtain rfl := Option.some.inj hran
    exact hu
  · obtain ⟨ran', hloop, rfl⟩ := Option.map_eq_some_iff.1 hran
    refine (hu.writePositions htable (fun st' i key value hwhat => ?_) hloop).upkept
    obtain ⟨_, -, heq⟩ := Option.bind_eq_some_iff.1 hwhat
    cases heq
    exact ⟨_, rfl⟩

theorem TableState.Upkept.moveOrdinals
    {cross : Option Address} {start dest : Int64} {block : Option Int64}
    (hran : moveOrdinals h mc st table t cross start block dest = some ran) : ran.2.Upkept h := by
  unfold Lhat.moveOrdinals at hran
  simp only at hran
  split at hran
  · split at hran
    · obtain rfl := Option.some.inj hran
      exact hu
    · obtain rfl := Option.some.inj hran
      exact hu.setArray htable (length_relocate _ _ _)
  · obtain ⟨held, -, hran⟩ := Option.bind_eq_some_iff.1 hran
    split at hran
    · obtain rfl := Option.some.inj hran
      exact hu
    · exact hu.blockmove htable hran

theorem TableState.Upkept.move
    (hran : tableMove h mc st table t args = some ran) : ran.2.Upkept h := by
  unfold tableMove at hran
  simp only at hran
  split at hran
  · split at hran
    · exact hu.moveOrdinals htable hran
    · obtain rfl := Option.some.inj hran
      exact hu
  · split at hran
    · exact hu.moveOrdinals htable hran
    · obtain rfl := Option.some.inj hran
      exact hu
  · obtain rfl := Option.some.inj hran
    exact hu

theorem TableState.Upkept.reverse
    (hran : tableReverse st table t args = some ran) : ran.2.Upkept h := by
  have hlen : ∀ (n : Nat) (turns : List Nat) (array : List LhatValue), (turns.foldl
      (fun a i => (a.set i (a.getD (n - 1 - i) .nil)).set (n - 1 - i) (a.getD i .nil))
      array).length = array.length := by
    intro n turns
    induction turns with
    | nil => exact fun array => rfl
    | cons i turns ih =>
      intro array
      rw [List.foldl_cons, ih, List.length_set, List.length_set]
  unfold tableReverse at hran
  split at hran
  · obtain rfl := Option.some.inj hran
    exact hu.setArray htable (hlen _ _ _)
  · obtain rfl := Option.some.inj hran
    exact hu

theorem TableState.Upkept.resize
    (hran : tableResize h st table t args = some ran) : ran.2.Upkept h := by
  unfold tableResize at hran
  split at hran
  · split at hran
    · obtain rfl := Option.some.inj hran
      exact hu
    · split at hran
      · obtain rfl := Option.some.inj hran
        exact hu
      · split at hran
        · obtain rfl := Option.some.inj hran
          exact hu
        · obtain ⟨made, hmade, rfl⟩ := Option.map_eq_some_iff.1 hran
          exact hu.resizeTable (hu table t htable) hmade
  · obtain rfl := Option.some.inj hran
    exact hu

theorem TableState.Upkept.clear
    (hran : tableClear st table t args = some ran) : ran.2.Upkept h := by
  unfold tableClear at hran
  split at hran
  · obtain rfl := Option.some.inj hran
    exact hu.write (hu table t htable).clear id
  · obtain rfl := Option.some.inj hran
    exact hu

end

end

/-- The keys a table holds values under. -/
def LhatTable.liveKeys (t : LhatTable) : List LhatValue :=
  (t.entries.filter fun entry => !entry.value.isNil).filterMap entryKey

theorem LhatTable.keys_of_liveKeys (hmem : key ∈ t.liveKeys) : key ∈ t.keys := by
  obtain ⟨entry, hin, hkey⟩ := List.mem_filterMap.1 hmem
  exact List.mem_filterMap.2 ⟨entry, List.mem_of_mem_filter hin, hkey⟩

/-- The keys one table has values under are told from the keys of another. -/
def TableState.Told (h : Heap) (st : TableState) (a b : Address) : Prop :=
  ∀ t u, st.store.table a = some t → st.store.table b = some u →
    ∀ held ∈ t.keys, ∀ key ∈ u.liveKeys, KeysTold h held key

theorem Kin.both {source : LhatTable} (hw : t.Wf h) (hw' : source.Wf h)
    (htold : ∀ held ∈ t.keys, ∀ key ∈ source.liveKeys, KeysTold h held key) :
    Kin h fun key => (key ∈ t.keys ∨ key ∈ source.liveKeys) ∨ ∃ i, key = .integer i := by
  refine Kin.of_told ?_ ?_
  · rintro key (hmem | hmem)
    · exact hw.storable key hmem
    · exact hw'.storable key (LhatTable.keys_of_liveKeys hmem)
  · rintro key held (hkey | hkey) (hheld | hheld)
    · exact hw.told key hkey held hheld
    · exact (htold key hkey held hheld).symm
    · exact htold held hheld key hkey
    · exact hw'.told key (LhatTable.keys_of_liveKeys hkey) held (LhatTable.keys_of_liveKeys hheld)

theorem LhatTable.entryAt_key_mem (hne : (t.entryAt i).key ≠ .nil) :
    (t.entryAt i).key ∈ t.keys := by
  exact LhatTable.mem_keys.2 ⟨hne, _, LhatTable.entryAt_mem (LhatTable.lt_of_key_ne_nil hne), rfl⟩

theorem dropAbsent_mem (hwhat : dropAbsent h table source st i = some (some (key, value))) :
    ∃ t, st.store.table table = some t ∧ key ∈ t.keys := by
  obtain ⟨t, htable, hwhat⟩ := Option.bind_eq_some_iff.1 hwhat
  simp only at hwhat
  split at hwhat
  · cases hwhat
  · next hlive =>
      obtain ⟨held, -, hwhat⟩ := Option.bind_eq_some_iff.1 hwhat
      split at hwhat
      · cases hwhat
        refine ⟨t, htable, LhatTable.entryAt_key_mem fun hnil => ?_⟩
        simp [hnil] at hlive
      · cases hwhat

theorem takeKey_mem (hwhat : takeKey source st i = some (some (key, value))) (hvalue : value ≠ .nil)
    : ∃ t, st.store.table source = some t ∧ key ∈ t.liveKeys := by
  obtain ⟨t, htable, hwhat⟩ := Option.bind_eq_some_iff.1 hwhat
  simp only at hwhat
  split at hwhat
  · cases hwhat
  · next hlive =>
      cases hwhat
      have hne : (t.entryAt i).key ≠ .nil := by simpa using hlive
      refine ⟨t, htable, List.mem_filterMap.2 ⟨t.entryAt i, List.mem_filter.2 ⟨?_, ?_⟩, ?_⟩⟩
      · exact LhatTable.entryAt_mem (LhatTable.lt_of_key_ne_nil hne)
      · simpa using hvalue
      · exact entryKey_eq_some.2 ⟨rfl, hne⟩

theorem takePosition_integer
    (hwhat : takePosition source st i = some (some (key, value))) : ∃ k, key = .integer k := by
  obtain ⟨_, -, hwhat⟩ := Option.bind_eq_some_iff.1 hwhat
  cases hwhat
  exact ⟨_, rfl⟩

theorem Tended.cutSequence {P : LhatValue → Prop} {base : TableState}
    (ht : Tended h P table base st) (htable : st.store.table table = some t) {length : Nat}
    {cut : Outcome} (hcut : cutSequence h st.memory t length = some cut) :
    Tended h P table base { store := st.store.write table cut.table, memory := cut.memory } := by
  unfold Lhat.cutSequence at hcut
  split at hcut
  · obtain ⟨hu, hrefused, hkeys⟩ := (ht.upkept table t htable).resize hcut
    exact ht.write hu hrefused fun key hmem => ht.kin t htable key (hkeys key hmem)
  · obtain rfl := Option.some.inj hcut
    exact ht.write (ht.upkept table t htable) id (ht.kin t htable)

theorem TableState.Upkept.assignKeys (hu : st.Upkept h) {theirs : LhatTable}
    (htable : st.store.table table = some t) (hsource : st.store.table source = some theirs)
    (hne : source ≠ table) (htold : st.Told h table source)
    (hran : assignKeys h mc st table source t theirs = some ran) : ran.2.Upkept h := by
  have hkin := Kin.both (hu table t htable).wf (hu source theirs hsource).wf
    (htold t theirs htable hsource)
  have ht : Tended h (fun key => (key ∈ t.keys ∨ key ∈ theirs.liveKeys) ∨ ∃ i, key = .integer i)
      table st st := by
    refine ⟨hu, fun t' ht' key hmem => ?_, fun a _ => rfl⟩
    obtain rfl := Option.some.inj (htable.symm.trans ht')
    exact Or.inl (Or.inl hmem)
  unfold Lhat.assignKeys at hran
  obtain ⟨⟨ok, st₁⟩, hdrop, hran⟩ := Option.bind_eq_some_iff.1 hran
  have ht₁ := ht.writeEach hkin (fun st' i key value hst hwhat _ _ => by
    obtain ⟨t', ht', hmem⟩ := dropAbsent_mem hwhat
    have hin := hst.kin t' ht' key hmem
    rwa [(hkin.storable _ hin).normal]) hdrop
  simp only at hran
  split at hran
  · obtain ⟨t', htable', hran⟩ := Option.bind_eq_some_iff.1 hran
    obtain ⟨cut, hcut, hran⟩ := Option.bind_eq_some_iff.1 hran
    have ht₂ := ht₁.cutSequence htable' hcut
    split at hran
    · obtain ⟨⟨ok', st₃⟩, hpositions, hran⟩ := Option.bind_eq_some_iff.1 hran
      have ht₃ := ht₂.writeEach hkin (fun st' i key value hst hwhat _ _ => by
        obtain ⟨k, rfl⟩ := takePosition_integer hwhat
        exact Or.inr ⟨k, rfl⟩) hpositions
      simp only at hran
      split at hran
      · obtain ⟨⟨ok'', st₄⟩, hkeys, hran⟩ := Option.bind_eq_some_iff.1 hran
        have ht₄ := ht₃.writeEach hkin (fun st' i key value hst hwhat hvalue _ => by
          obtain ⟨u, hu', hmem⟩ := takeKey_mem hwhat hvalue
          rw [hst.others source hne] at hu'
          obtain rfl := Option.some.inj (hsource.symm.trans hu')
          rw [(hkin.storable _ (Or.inl (Or.inr hmem))).normal]
          exact Or.inl (Or.inr hmem)) hkeys
        obtain rfl := Option.some.inj hran
        exact ht₄.upkept
      · obtain rfl := Option.some.inj hran
        exact ht₃.upkept
    · obtain rfl := Option.some.inj hran
      exact ht₂.upkept
  · obtain rfl := Option.some.inj hran
    exact ht₁.upkept

theorem TableState.Upkept.assign (hu : st.Upkept h) (htold : st.Told h table source)
    (hran : tableAssign h mc st table source = some ran) : ran.2.Upkept h := by
  unfold tableAssign at hran
  split at hran
  · obtain rfl := Option.some.inj hran
    exact hu
  · next hne =>
      obtain ⟨mine, htable, hran⟩ := Option.bind_eq_some_iff.1 hran
      obtain ⟨theirs, hsource, hran⟩ := Option.bind_eq_some_iff.1 hran
      split at hran
      · next halike =>
          obtain rfl := Option.some.inj hran
          exact hu.write ((hu table mine htable).overlay (hu source theirs hsource) halike).1 id
      · exact hu.assignKeys htable hsource (fun heq => hne heq.symm) htold hran

theorem TableState.Upkept.assignNative (hu : st.Upkept h)
    (htold : ∀ source, args = [.object source] → st.Told h table source)
    (hran : tableAssignNative h mc st table args = some ran) : ran.2.Upkept h := by
  unfold tableAssignNative at hran
  split at hran
  · next source =>
      split at hran
      · exact hu.assign (htold source rfl) hran
      · obtain rfl := Option.some.inj hran
        exact hu
  · obtain rfl := Option.some.inj hran
    exact hu
  · obtain rfl := Option.some.inj hran
    exact hu

theorem TableState.Upkept.native (hu : st.Upkept h) {native : TableNative}
    (htold : ∀ source, native = .assign → args = [.object source] → st.Told h table source)
    {answered : Answered} (hran : vmTableNative h mc st native table args = some answered) :
    answered.state.Upkept h := by
  unfold vmTableNative at hran
  obtain ⟨t, htable, hran⟩ := Option.bind_eq_some_iff.1 hran
  simp only at hran
  split at hran
  · obtain rfl := Option.some.inj hran
    exact hu
  · have hchained : ∀ {made : Option (LhatRunStatus × TableState)},
        (∀ ran, made = some ran → ran.2.Upkept h) →
        made.map (fun ran => ⟨ran.1, .object table, ran.2⟩) = some answered →
        answered.state.Upkept h := by
      intro made hmade hmap
      obtain ⟨ran, heq, rfl⟩ := Option.map_eq_some_iff.1 hmap
      exact hmade ran heq
    have hremoved : ∀ {made : Option (LhatRunStatus × LhatValue × TableState)},
        (∀ ran, made = some ran → ran.2.2.Upkept h) →
        made.map (fun ran => ⟨ran.1, ran.2.1, ran.2.2⟩) = some answered →
        answered.state.Upkept h := by
      intro made hmade hmap
      obtain ⟨ran, heq, rfl⟩ := Option.map_eq_some_iff.1 hmap
      exact hmade ran heq
    cases native with
    | insert => exact hchained (fun ran heq => hu.insert htable heq) hran
    | push => exact hchained (fun ran heq => hu.push htable heq) hran
    | extend => exact hchained (fun ran heq => hu.extend htable heq) hran
    | remove => exact hremoved (fun ran heq => hu.remove htable heq) hran
    | pop => exact hremoved (fun ran heq => hu.pop htable heq) hran
    | move => exact hchained (fun ran heq => hu.move htable heq) hran
    | reverse => exact hchained (fun ran heq => hu.reverse htable heq) hran
    | resize => exact hchained (fun ran heq => hu.resize htable heq) hran
    | clear => exact hchained (fun ran heq => hu.clear htable heq) hran
    | assign =>
      exact hchained (fun ran heq => hu.assignNative (fun source => htold source rfl) heq) hran

end Natives

end Lhat
