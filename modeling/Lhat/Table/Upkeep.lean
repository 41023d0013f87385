import Lhat.Table.Natives
import Lhat.Table.Lookup

/-!
# What the operations of a table keep

Every state of every run keeps the invariant of its tables. While memory has not
been refused the mapping also holds no value under a position that the sequence
covers or stands before (`Settled`).

A run of operations keeps what one of them does. The keys it writes have to be
told from the keys already held, which is asked for at each step (`TableCall.Told`)
and only ever fails of runtime types.
-/

namespace Lhat

variable {key : LhatValue} {refused : Bool} {m : Memory} {made : Outcome} {i : Nat} {mc : Machine}
  {source : LhatTable}

/-- No position of the sequence, nor the one after it, has a value among the
entries. -/
def Settled (h : Heap) (t : LhatTable) : Prop :=
  ∀ n ≤ t.array.length, ∀ value, t.find h (position n) = some value → value = .nil

/-- What is kept of a table, after memory was refused or before. -/
structure Upkept (h : Heap) (refused : Bool) (t : LhatTable) : Prop where
  wf : t.Wf h
  settled : refused = false → Settled h t

def TableState.Upkept (h : Heap) (st : TableState) : Prop :=
  ∀ a t, st.store.table a = some t → Lhat.Upkept h st.memory.refused t

section Sequence

variable {h : Heap} {t : LhatTable}

theorem Absorbs.settled {seq seq' : List LhatValue}
    {g g' : KeyForm × UInt32 → Option LhatValue} (habsorbs : Absorbs seq g seq' g')
    (hbelow : ∀ n < seq.length, ∀ value, g (position n) = some value → value = .nil) :
    ∀ n ≤ seq'.length, ∀ value, g' (position n) = some value → value = .nil := by
  induction habsorbs with
  | done hnone =>
    intro n hn value hvalue
    rcases Nat.lt_or_eq_of_le hn with hlt | rfl
    · exact hbelow n hlt value hvalue
    · rw [hnone] at hvalue
      cases hvalue
  | @take seq g seq' g' taken hsome hrest ih =>
    refine ih fun n hn value hvalue => ?_
    unfold without at hvalue
    split at hvalue
    · cases hvalue
    · next hne =>
        rw [List.length_append, List.length_singleton] at hn
        have hn' : n ≠ seq.length := by
          rintro rfl
          exact hne rfl
        exact hbelow n (by omega) value hvalue

theorem lengthened_below (fill : LhatValue) (missing : Nat) {seq : List LhatValue}
    {g : KeyForm × UInt32 → Option LhatValue}
    (hbelow : ∀ n < seq.length, ∀ value, g (position n) = some value → value = .nil) :
    ∀ n < (lengthened fill missing seq g).1.length, ∀ value,
      (lengthened fill missing seq g).2 (position n) = some value → value = .nil := by
  induction missing generalizing seq g with
  | zero => exact hbelow
  | succ missing ih =>
    refine ih fun n hn value hvalue => ?_
    unfold without at hvalue
    split at hvalue
    · cases hvalue
    · next hne =>
        rw [List.length_append, List.length_singleton] at hn
        have hn' : n ≠ seq.length := by
          rintro rfl
          exact hne rfl
        exact hbelow n (by omega) value hvalue

theorem Settled.below (hs : Settled h t) (seq : List LhatValue)
    (hle : seq.length ≤ t.array.length + 1) :
    ∀ n < seq.length, ∀ value, t.find h (position n) = some value → value = .nil :=
  fun n hn => hs n (by omega)

theorem Upkept.setArray (hu : Upkept h refused t) {array : List LhatValue}
    (hlen : array.length = t.array.length) : Upkept h refused { t with array := array } := by
  refine ⟨hu.wf.of_entries rfl rfl rfl ?_ hu.wf.bounded, fun hr n hn value hvalue => ?_⟩
  · rw [hlen]
    exact hu.wf.dense
  · exact hu.settled hr n (hlen ▸ hn) value hvalue

theorem Upkept.resize (hu : Upkept h m.refused t) {length : Nat} {fill : LhatValue} (hmade : lhatTableResize h m t length fill = some made) :
    Upkept h made.memory.refused made.table ∧ (made.memory.refused = false → m.refused = false) ∧
      ∀ key ∈ made.table.keys, key ∈ t.keys := by
  obtain ⟨made', hmade', -, hwf, hkeys, hsaid⟩ := hu.wf.resize m length fill
  obtain rfl := Option.some.inj (hmade.symm.trans hmade')
  refine ⟨⟨hwf, fun hr => ?_⟩, fun hr => (hsaid hr).2.1, hkeys⟩
  obtain ⟨-, hm, seq, g, hlengthened, habsorbs⟩ := hsaid hr
  refine habsorbs.settled ?_
  have hbelow := lengthened_below fill (length - (t.array.take length).length)
    ((hu.settled hm).below (t.array.take length) (by rw [List.length_take]; omega))
  rw [hlengthened] at hbelow
  exact hbelow

theorem eq_of_placeForm_position {n : Nat}
    (hplace : placeForm h key = some (position n)) : key = .integer (Int64.ofNat n) := by
  have hform : keyForm h key = some (.integer (Int64.ofNat n)) := (placeForm_eq_some.1 hplace).1
  cases key with
  | integer i =>
    obtain rfl : i = Int64.ofNat n := by simpa [keyForm] using hform
    rfl
  | object o => simp [keyForm] at hform
  | real d => simp [keyForm] at hform
  | _ => simp [keyForm] at hform

theorem placeForm_ne_position (hindex : arrayIndex t key = none)
    (hnext : namesNext t key = false) (hlen : t.array.length < 2 ^ 60) {n : Nat}
    (hn : n ≤ t.array.length) : placeForm h key ≠ some (position n) := by
  intro hplace
  obtain rfl := eq_of_placeForm_position hplace
  rcases Nat.lt_or_eq_of_le hn with hlt | rfl
  · rw [arrayIndex_position hlt (by omega)] at hindex
    cases hindex
  · rw [namesNext_iff.2 rfl] at hnext
    cases hnext

theorem Upkept.reserve (hu : Upkept h m.refused t)
    (hfit : usableKey key = true → KeyFits h t (normaliseKey key))
    (hmade : lhatTableReserve h m t key = some made) :
    Upkept h made.memory.refused made.table ∧ (made.memory.refused = false → m.refused = false) ∧
      ∀ held ∈ made.table.keys, held ∈ t.keys ∨ usableKey key = true ∧ held = normaliseKey key := by
  cases husable : usableKey key with
  | false =>
    obtain rfl : { ok := true, table := t, memory := m } = made := by
      simpa [lhatTableReserve, husable] using hmade
    exact ⟨hu, id, fun held hmem => Or.inl hmem⟩
  | true =>
    cases hindex : arrayIndex t (normaliseKey key) with
    | some index =>
      obtain rfl : { ok := true, table := t, memory := m } = made := by
        simpa [lhatTableReserve, husable, hindex] using hmade
      exact ⟨hu, id, fun held hmem => Or.inl hmem⟩
    | none =>
      obtain ⟨made', hmade', -, hflag, hcases⟩ := hu.wf.reserve m husable hindex (hfit husable)
      obtain rfl := Option.some.inj (hmade.symm.trans hmade')
      rcases hcases with ⟨hok, htable⟩ | ⟨-, hwritten⟩
      · rw [htable]
        refine ⟨⟨hu.wf, fun hr => ?_⟩, fun hr => (hflag hr).2, fun held hmem => Or.inl hmem⟩
        exact hu.settled (hflag hr).2
      · refine ⟨⟨hwritten.wf, fun hr n hn value hvalue => ?_⟩, fun hr => (hflag hr).2,
          fun held hmem => (hwritten.keys held hmem).imp_right fun heq => ⟨rfl, heq⟩⟩
        have hs := hu.settled (hflag hr).2
        rw [hwritten.array] at hn
        rw [hwritten.find] at hvalue
        unfold reserveFound at hvalue
        split at hvalue
        · cases hfind : t.find h (position n) with
          | none =>
            rw [hfind] at hvalue
            exact (Option.some.inj hvalue).symm
          | some held =>
            rw [hfind] at hvalue
            rw [← Option.some.inj hvalue]
            exact hs n hn held hfind
        · exact hs n hn value hvalue

theorem Upkept.bury (hu : Upkept h refused t)
    (hi : i < t.entries.length) (hkey : (t.entryAt i).key ≠ .nil) :
    Upkept h refused (t.bury i) ∧ ∀ held ∈ (t.bury i).keys, held ∈ t.keys := by
  have hwf := hu.wf.bury hi hkey
  refine ⟨⟨hwf, fun hr n hn value hvalue => ?_⟩, fun held hmem => ?_⟩
  · rw [hu.wf.find_bury hi hwf hkey] at hvalue
    split at hvalue
    · cases hvalue
    · exact hu.settled hr n hn value hvalue
  · rcases LhatTable.keys_set (t := t) rfl hmem with hin | hnew
    · exact hin
    · cases hnew

theorem LhatTable.lt_of_key_ne_nil (hkey : (t.entryAt i).key ≠ .nil) : i < t.entries.length := by
  by_contra hge
  exact hkey (by simp [LhatTable.entryAt, List.getD, List.getElem?_eq_none (not_lt.1 hge)])

theorem Upkept.vacate (hu : Upkept h refused t)
    {left : LhatTable} (hleft : lhatTableVacate h t key = some left) :
    Upkept h refused left ∧ ∀ held ∈ left.keys, held ∈ t.keys := by
  unfold lhatTableVacate at hleft
  split at hleft
  · obtain rfl := Option.some.inj hleft
    exact ⟨hu, fun held hmem => hmem⟩
  · obtain ⟨i, -, rfl⟩ := Option.map_eq_some_iff.1 hleft
    split
    · exact ⟨hu, fun held hmem => hmem⟩
    · next hnil =>
        have hkey : (t.entryAt i).key ≠ .nil := by simpa using hnil
        have hi := LhatTable.lt_of_key_ne_nil hkey
        obtain ⟨hwf, hkeys⟩ := hu.wf.vacateAt hi hkey
        refine ⟨⟨hwf, fun hr n hn value hvalue => ?_⟩, fun held hmem => hkeys ▸ hmem⟩
        rw [hu.wf.find_vacateAt hi hwf hkey] at hvalue
        split at hvalue
        · exact (Option.some.inj hvalue).symm
        · exact hu.settled hr n hn value hvalue

theorem Upkept.set_fits (hu : Upkept h m.refused t) {value : LhatValue}
    (hfit : usableKey key = true → KeyFits h t (normaliseKey key))
    (hmade : lhatTableSet h m t key value = some made) :
    Upkept h made.memory.refused made.table ∧ (made.memory.refused = false → m.refused = false) ∧
      ∀ held ∈ made.table.keys, held ∈ t.keys ∨ usableKey key = true ∧ held = normaliseKey key := by
  cases hkey : refusedKey h key with
  | true =>
    unfold lhatTableSet at hmade
    rw [hkey, if_pos rfl] at hmade
    obtain rfl := Option.some.inj hmade
    exact ⟨hu, id, fun held hmem => Or.inl hmem⟩
  | false =>
    have husable : usableKey key = true := by
      unfold refusedKey at hkey
      cases hk : usableKey key with
      | true => rfl
      | false => simp [hk] at hkey
    obtain ⟨made', hmade', -, hwf, hkeys, hsaid⟩ := hu.wf.set m hkey (hfit husable) value
    obtain rfl := Option.some.inj (hmade.symm.trans hmade')
    refine ⟨⟨hwf, fun hr => ?_⟩, fun hr => (hsaid hr).2.1, fun held hmem =>
      (hkeys held hmem).imp_right fun heq => ⟨husable, heq⟩⟩
    obtain ⟨-, hm, hset⟩ := hsaid hr
    have hs := hu.settled hm
    unfold SetTo at hset
    intro n hn
    cases hindex : arrayIndex t (normaliseKey key) with
    | some index =>
      rw [hindex] at hset
      rw [hset.1, List.length_set] at hn
      rw [hset.2]
      exact hs n hn
    | none =>
      rw [hindex] at hset
      cases hnext : namesNext t (normaliseKey key) with
      | true =>
        rw [hnext] at hset
        refine hset.settled (hs.below _ ?_) n hn
        rw [List.length_append, List.length_singleton]
      | false =>
        rw [hnext] at hset
        rw [hset.1] at hn
        have hne := placeForm_ne_position hindex hnext hu.wf.length_lt hn (h := h)
        rw [hset.2]
        unfold setFound
        rw [if_neg hne]
        exact hs n hn

theorem Upkept.setEntry_nil (hu : Upkept h m.refused t) (hmade : setEntry h m t key .nil = some made) :
    Upkept h m.refused made.table ∧ made.memory = m ∧ ∀ held ∈ made.table.keys, held ∈ t.keys := by
  unfold setEntry at hmade
  rw [if_pos (LhatValue.isNil_iff.2 rfl)] at hmade
  split at hmade
  · obtain rfl := Option.some.inj hmade
    exact ⟨hu, rfl, fun held hmem => hmem⟩
  · obtain ⟨i, -, rfl⟩ := Option.map_eq_some_iff.1 hmade
    simp only [true_and]
    split
    · exact ⟨hu, fun held hmem => hmem⟩
    · next hnil =>
        have hkey : (t.entryAt i).key ≠ .nil := by simpa using hnil
        obtain ⟨hub, hkeys⟩ := hu.bury (LhatTable.lt_of_key_ne_nil hkey) hkey
        exact ⟨⟨hub.wf.touch, hub.settled⟩, hkeys⟩

theorem Upkept.set (hu : Upkept h m.refused t) {value : LhatValue}
    (hfit : value ≠ .nil → usableKey key = true → KeyFits h t (normaliseKey key))
    (hmade : lhatTableSet h m t key value = some made) :
    Upkept h made.memory.refused made.table ∧ (made.memory.refused = false → m.refused = false) ∧
      ∀ held ∈ made.table.keys, held ∈ t.keys ∨ (∃ i, held = .integer i) ∨
        value ≠ .nil ∧ usableKey key = true ∧ held = normaliseKey key := by
  by_cases hvalue : value = .nil
  · subst hvalue
    cases hn : normaliseKey key with
    | integer i =>
      obtain ⟨hu', hrefused, hkeys⟩ :=
        hu.set_fits (fun _ => by rw [hn]; exact hu.wf.keyFits_integer i) hmade
      refine ⟨hu', hrefused, fun held hmem => (hkeys held hmem).imp_right ?_⟩
      rintro ⟨-, rfl⟩
      exact Or.inl ⟨i, hn⟩
    | _ =>
      unfold lhatTableSet at hmade
      rw [hn] at hmade
      simp only at hmade
      split at hmade
      · obtain rfl := Option.some.inj hmade
        exact ⟨hu, id, fun held hmem => Or.inl hmem⟩
      · split at hmade
        · obtain rfl := Option.some.inj hmade
          exact ⟨hu.setArray List.length_set, id, fun held hmem => Or.inl hmem⟩
        · rw [if_neg (by simp [namesNext])] at hmade
          obtain ⟨hu', hmemory, hkeys⟩ := hu.setEntry_nil hmade
          rw [hmemory]
          exact ⟨hu', id, fun held hmem => Or.inl (hkeys held hmem)⟩
  · obtain ⟨hu', hrefused, hkeys⟩ := hu.set_fits (hfit hvalue) hmade
    exact ⟨hu', hrefused, fun held hmem => (hkeys held hmem).imp_right fun hnew =>
      Or.inr ⟨hvalue, hnew⟩⟩

theorem Upkept.pruneFrom {definition : LhatTable} {left : Nat} (hu : Upkept h refused t)
    {t' : LhatTable} (hpruned : pruneFrom h definition left i t = some t') :
    Upkept h refused t' ∧ ∀ held ∈ t'.keys, held ∈ t.keys := by
  induction left generalizing i t with
  | zero =>
    obtain rfl := Option.some.inj hpruned
    exact ⟨hu, fun held hmem => hmem⟩
  | succ left ih =>
    unfold Lhat.pruneFrom at hpruned
    simp only at hpruned
    split at hpruned
    · exact ih hu hpruned
    · next hseat =>
        split at hpruned
        · cases hpruned
        · split at hpruned
          · have hkey : (t.entryAt i).key ≠ .nil := by
              intro hnil
              simp [hnil] at hseat
            obtain ⟨hub, hkeys⟩ := hu.bury (LhatTable.lt_of_key_ne_nil hkey) hkey
            obtain ⟨hu', hkeys'⟩ := ih hub hpruned
            exact ⟨hu', fun held hmem => hkeys held (hkeys' held hmem)⟩
          · exact ih hu hpruned

theorem Upkept.pruneSeats {definition : LhatTable} (hu : Upkept h refused t)
    {t' : LhatTable} (hpruned : lhatTablePruneSeats h t definition = some t') :
    Upkept h refused t' ∧ ∀ held ∈ t'.keys, held ∈ t.keys := by
  unfold lhatTablePruneSeats at hpruned
  split at hpruned
  · obtain rfl := Option.some.inj hpruned
    exact ⟨hu, fun held hmem => hmem⟩
  · exact hu.pruneFrom hpruned

theorem Upkept.clear (hu : Upkept h refused t) :
    Upkept h refused
      { t with array := [], entries := t.entries.map fun _ => {}, entryCount := 0 } := by
  have hblank : (t.entries.map fun _ => ({} : LhatTableEntry)) =
      List.replicate t.entries.length {} := List.map_const'
  have hwf : LhatTable.Wf h
      { t with array := [], entries := t.entries.map fun _ => {}, entryCount := 0 } := by
    rw [hblank]
    have hkeys : ∀ key, key ∉ LhatTable.keys
        { t with array := [], entries := List.replicate t.entries.length {}, entryCount := 0 } := by
      intro key hmem
      obtain ⟨hne, entry, hin, hkey⟩ := LhatTable.mem_keys.1 hmem
      rw [List.eq_of_mem_replicate hin] at hkey
      exact hne hkey.symm
    have hne : List.replicate t.entries.length ({} : LhatTableEntry) ≠ [] → t.entries ≠ [] := by
      intro hne he
      exact hne (by rw [he]; rfl)
    refine ⟨fun hsome => ?_, fun hsome => ?_, ?_, ?_, ?_, fun key hmem => absurd hmem (hkeys key),
      fun key hmem => absurd hmem (hkeys key), Nat.zero_le _, hu.wf.bounded⟩
    · obtain ⟨e, he⟩ := (hu.wf.placed (hne hsome)).capacity
      rw [he]
      exact OpenAddressing.SlotView.placed_replicate rfl e
    · rw [List.length_replicate]
      exact hu.wf.size (hne hsome)
    · exact (entryKey_replicate _ rfl _).symm
    · rw [entryKey_replicate _ rfl]
      exact Nat.zero_le _
    · have hload := hu.wf.load
      show 0 + t.entryTombs ≤ _
      rw [List.length_replicate]
      omega
  refine ⟨hwf, fun _ n _ value hvalue => ?_⟩
  rw [LhatTable.find_of_blank hwf hblank] at hvalue
  cases hvalue

theorem eq_of_keysAlike {i : Int64}
    (halike : keysAlike h mc (.integer i) key = true) : key = .integer i := by
  simpa [keysAlike, eq_comm] using halike

theorem entriesAlike_iff :
    entriesAlike h mc t source = true ↔ t.entries.length = source.entries.length ∧
      t.array.length = source.array.length ∧ t.shared = false ∧
      ∀ entries ∈ t.entries.zip source.entries,
        keysAlike h mc entries.1.key entries.2.key = true := by
  simp [entriesAlike, List.all_eq_true, and_assoc]

theorem overlay_map (hlen : t.entries.length = source.entries.length)
    {β : Type} (g : LhatTableEntry → β)
    (hg : ∀ entry : LhatTableEntry, entry.key ≠ .nil → ∀ value,
      g { entry with value := value } = g entry) :
    (t.overlay source).entries.map g = t.entries.map g := by
  have hfst : (t.entries.zip source.entries).map Prod.fst = t.entries :=
    List.map_fst_zip hlen.le
  calc (t.overlay source).entries.map g
      = (t.entries.zip source.entries).map (fun entries => g entries.1) := by
        unfold LhatTable.overlay
        rw [List.map_map]
        refine List.map_congr_left fun entries _ => ?_
        simp only [Function.comp_apply]
        split
        · rfl
        · next hkey => exact hg _ (by simpa using hkey) _
    _ = ((t.entries.zip source.entries).map Prod.fst).map g := by
        rw [List.map_map]
        rfl
    _ = t.entries.map g := by rw [hfst]

theorem Upkept.overlay (hu : Upkept h refused t) (hs : Upkept h refused source)
    (halike : entriesAlike h mc t source = true) :
    Upkept h refused (t.overlay source) ∧ (t.overlay source).keys = t.keys := by
  obtain ⟨hlen, harray, -, hkeys⟩ := entriesAlike_iff.1 halike
  obtain ⟨hwf, hsame⟩ : (t.overlay source).Wf h ∧ (t.overlay source).keys = t.keys := by
    refine hu.wf.revalued (overlay_map hlen _ fun entry hkey value => ?_) rfl rfl ?_ hu.wf.bounded
    · simp [entryIsFree, entryKey, LhatValue.isNil_eq_false_iff.2 hkey]
    · show source.array.length ≤ t.arrayCapacity
      rw [← harray]
      exact hu.wf.dense
  refine ⟨⟨hwf, fun hr n hn value hvalue => ?_⟩, hsame⟩
  obtain ⟨entry, hmem, hkey, hplace, rfl⟩ := hwf.find_eq_some.1 hvalue
  obtain ⟨⟨mine, theirs⟩, hin, rfl⟩ := List.mem_map.1 hmem
  have hbothkeys := hkeys _ hin
  obtain ⟨-, htheirs⟩ := List.of_mem_zip hin
  simp only at hkey hplace hbothkeys ⊢
  split at hkey
  · next hnil => exact absurd (LhatValue.isNil_iff.1 hnil) hkey
  · next hnil =>
      rw [if_neg hnil] at hplace ⊢
      rw [eq_of_placeForm_position hplace] at hbothkeys
      have htheirkey := eq_of_keysAlike hbothkeys
      refine hs.settled hr n hn _ (hs.wf.find_eq_some.2 ⟨theirs, htheirs, ?_, ?_, rfl⟩)
      · rw [htheirkey]
        exact LhatValue.noConfusion
      · rw [htheirkey]
        rfl

end Sequence

end Lhat
