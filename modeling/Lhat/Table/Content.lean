import Lhat.Table.Invariant

/-!
# What a table holds

The entries of a table read as a map: `find` answers the value standing under a
key, a seat being a key with `nil`. It is what every operation is described by
here, so that nothing above reads a slot.
-/

namespace Lhat

open scoped Classical

variable {key value : LhatValue} {i : Nat} {c : KeyForm × UInt32} {t₁ : LhatTable}

/-- The value of the entry of a key, by what the key is looked for by. -/
noncomputable def LhatTable.find (h : Heap) (t : LhatTable) (c : KeyForm × UInt32) :
    Option LhatValue :=
  ((entryView h).lookup t.entries c).map LhatTableEntry.value

section Find

variable {h : Heap} {t t' : LhatTable}

theorem canonKey_entry {entry : LhatTableEntry} :
    (entryView h).canonKey entry = some c ↔ entry.key ≠ .nil ∧ placeForm h entry.key = some c := by
  rw [OpenAddressing.SlotView.canonKey_eq_some]
  constructor
  · rintro ⟨key, hkey, hc⟩
    obtain ⟨rfl, hne⟩ := entryKey_eq_some.1 hkey
    exact ⟨hne, hc⟩
  · rintro ⟨hne, hc⟩
    exact ⟨_, entryKey_eq_some.2 ⟨rfl, hne⟩, hc⟩

section

variable (hw : t.Wf h)
include hw

theorem LhatTable.Wf.find_eq_some :
    t.find h c = some value ↔
      ∃ entry ∈ t.entries, entry.key ≠ .nil ∧ placeForm h entry.key = some c ∧
        entry.value = value := by
  have hlookup : ∀ entry, (entryView h).lookup t.entries c = some entry ↔
      entry ∈ t.entries ∧ (entryView h).canonKey entry = some c := by
    intro entry
    by_cases hne : t.entries = []
    · simp [hne, OpenAddressing.SlotView.lookup]
    · exact (hw.placed hne).lookup_eq_some
  unfold LhatTable.find
  rw [Option.map_eq_some_iff]
  constructor
  · rintro ⟨entry, hentry, rfl⟩
    obtain ⟨hmem, hc⟩ := (hlookup entry).1 hentry
    exact ⟨entry, hmem, (canonKey_entry.1 hc).1, (canonKey_entry.1 hc).2, rfl⟩
  · rintro ⟨entry, hmem, hne, hc, rfl⟩
    exact ⟨entry, (hlookup entry).2 ⟨hmem, canonKey_entry.2 ⟨hne, hc⟩⟩, rfl⟩

theorem LhatTable.Wf.find_eq_none :
    t.find h c = none ↔ ∀ entry ∈ t.entries, entry.key ≠ .nil → placeForm h entry.key ≠ some c := by
  constructor
  · intro hnone entry hmem hne hc
    have := hw.find_eq_some.2 ⟨entry, hmem, hne, hc, rfl⟩
    rw [hnone] at this
    cases this
  · intro hall
    cases hfind : t.find h c with
    | none => rfl
    | some value =>
      obtain ⟨entry, hmem, hne, hc, -⟩ := hw.find_eq_some.1 hfind
      exact absurd hc (hall entry hmem hne)

theorem find_congr (hw' : t'.Wf h)
    (hsame : ∀ entry : LhatTableEntry, entry.key ≠ .nil → (entry ∈ t'.entries ↔ entry ∈ t.entries))
    (c : KeyForm × UInt32) : t'.find h c = t.find h c := by
  refine Option.ext fun value => ?_
  simp only [hw.find_eq_some, hw'.find_eq_some]
  constructor
  · rintro ⟨entry, hmem, hne, hc⟩
    exact ⟨entry, (hsame entry hne).1 hmem, hne, hc⟩
  · rintro ⟨entry, hmem, hne, hc⟩
    exact ⟨entry, (hsame entry hne).2 hmem, hne, hc⟩

theorem Grown.find (hg : Grown h t t') (c : KeyForm × UInt32) :
    t'.find h c = t.find h c :=
  find_congr hw hg.wf hg.same c

theorem LhatTable.Wf.find_entryAt (hi : i < t.entries.length)
    (hkey : (t.entryAt i).key ≠ .nil)
    (hc : placeForm h (t.entryAt i).key = some c) : t.find h c = some (t.entryAt i).value :=
  hw.find_eq_some.2 ⟨_, LhatTable.entryAt_mem hi, hkey, hc, rfl⟩

theorem LhatTable.Wf.find_set (hw' : t'.Wf h)
    (hi : i < t.entries.length) {entry : LhatTableEntry}
    (hset : t'.entries = t.entries.set i entry) (c : KeyForm × UInt32) :
    t'.find h c =
      if entry.key ≠ .nil ∧ placeForm h entry.key = some c then some entry.value
      else if (t.entryAt i).key ≠ .nil ∧ placeForm h (t.entryAt i).key = some c then none
      else t.find h c := by
  have hne : t.entries ≠ [] := List.ne_nil_of_length_pos (by omega)
  have hne' : t'.entries ≠ [] := by simpa [hset] using hne
  have hp' := hw'.placed hne'
  rw [hset] at hp'
  have hlookup := (hw.placed hne).lookup_set (LhatTable.getElem?_entryAt hi) hp' c
  unfold LhatTable.find
  rw [hset]
  simp only [canonKey_entry] at hlookup
  rw [hlookup]
  split
  · rfl
  · split <;> rfl

section

variable (hi : i < t.entries.length)
include hi

theorem LhatTable.Wf.find_put (hw' : (t.put i key value).Wf h) (hkne : key ≠ .nil)
    (hnil : (t.entryAt i).key = .nil) (c : KeyForm × UInt32) :
    (t.put i key value).find h c =
      if placeForm h key = some c then some value else t.find h c := by
  rw [hw.find_set hw' hi rfl c]
  simp [hkne, hnil]

theorem LhatTable.Wf.find_overwrite (hw' : (t.overwrite i key value).Wf h) (hkne : key ≠ .nil)
    (hform : ∃ c, placeForm h (t.entryAt i).key = some c ∧ placeForm h key = some c)
    (c : KeyForm × UInt32) :
    (t.overwrite i key value).find h c =
      if placeForm h key = some c then some value else t.find h c := by
  obtain ⟨c', hc', hkc'⟩ := hform
  rw [hw.find_set hw' hi rfl c, hc', hkc']
  by_cases hcc : c' = c
  · simp [hcc, hkne]
  · simp [hcc]

theorem LhatTable.Wf.find_bury
    (hw' : (t.bury i).Wf h) (hkey : (t.entryAt i).key ≠ .nil) (c : KeyForm × UInt32) :
    (t.bury i).find h c = if placeForm h (t.entryAt i).key = some c then none else t.find h c := by
  rw [hw.find_set hw' hi rfl c]
  simp [tombstone, hkey]

theorem LhatTable.Wf.find_vacateAt
    (hw' : (t.vacateAt i).Wf h) (hkey : (t.entryAt i).key ≠ .nil) (c : KeyForm × UInt32) :
    (t.vacateAt i).find h c =
      if placeForm h (t.entryAt i).key = some c then some .nil else t.find h c := by
  rw [hw.find_set hw' hi rfl c]
  by_cases hc : placeForm h (t.entryAt i).key = some c <;> simp [hkey, hc]

theorem Probed.find_held
    (hprobed : Probed h t key i) (hkey : (t.entryAt i).key ≠ .nil) :
    ∃ c, placeForm h (t.entryAt i).key = some c ∧ placeForm h key = some c ∧
      t.find h c = some (t.entryAt i).value := by
  cases hprobed with
  | held _ hform =>
    obtain ⟨c, hc, hkc⟩ := hform
    exact ⟨c, hc, hkc, hw.find_entryAt hi hkey hc⟩
  | absent hnil => exact absurd hnil hkey

end

theorem Probed.find_absent (hprobed : Probed h t key i)
    (hnil : (t.entryAt i).key = .nil) (hc : placeForm h key = some c) : t.find h c = none := by
  cases hprobed with
  | held hkey => exact absurd hnil hkey
  | absent _ _ hother =>
    exact hw.find_eq_none.2 fun entry hmem hne hentry =>
      hother entry hmem c (canonKey_entry.2 ⟨hne, hentry⟩) hc

end

theorem LhatTable.find_of_empty (he : t.entries = []) (c : KeyForm × UInt32) :
    t.find h c = none := by
  simp [LhatTable.find, he, OpenAddressing.SlotView.lookup]

theorem LhatTable.Wf.of_entries (hw : t.Wf h) (hentries : t'.entries = t.entries)
    (hcount : t'.entryCount = t.entryCount) (htombs : t'.entryTombs = t.entryTombs)
    (hdense : t'.array.length ≤ t'.arrayCapacity) (hbounded : t'.arrayCapacity * 8 < 2 ^ 63) :
    t'.Wf h := by
  have hkeys : t'.keys = t.keys := by rw [LhatTable.keys, LhatTable.keys, hentries]
  refine ⟨?_, ?_, ?_, ?_, ?_, ?_, ?_, hdense, hbounded⟩
  · rw [hentries]
    exact hw.placed
  · rw [hentries]
    exact hw.size
  · rw [hentries, hcount]
    exact hw.counted
  · rw [hentries, htombs]
    exact hw.tombs
  · rw [hentries, hcount, htombs]
    exact hw.load
  · rw [hkeys]
    exact hw.storable
  · rw [hkeys]
    exact hw.told

theorem LhatTable.Wf.touch (hw : t.Wf h) : t.touch.Wf h :=
  hw.of_entries rfl rfl rfl hw.dense hw.bounded

end Find

section Entries

variable {h : Heap} {t : LhatTable}

theorem KeyFits.grown {t' : LhatTable} (hfit : KeyFits h t key)
    (hg : Grown h t t') : KeyFits h t' key :=
  ⟨hfit.storable, fun held hmem => hfit.told held (hg.keys.1 hmem)⟩

theorem LhatTable.Wf.makeEntryRoom (hw : t.Wf h) (m : Memory) :
    ∃ made, makeEntryRoom h m t = some made ∧ made.refused = false ∧
      (made.memory.refused = false → made.ok = true ∧ m.refused = false) ∧
      (made.ok = false ∧ made.table = t ∨ made.ok = true ∧ Grown h t made.table) := by
  unfold Lhat.makeEntryRoom
  split
  · exact hw.growEntries m
  · next hroom =>
      have hg : Grown h t t :=
        ⟨hw, rfl, rfl, List.ne_nil_of_length_pos (by omega), by omega, fun _ _ => Iff.rfl⟩
      exact ⟨_, rfl, rfl, fun hr => ⟨rfl, hr⟩, Or.inr ⟨rfl, hg⟩⟩

/-- What a write among the entries leaves: `g` is what is found then. -/
structure Written (h : Heap) (t t' : LhatTable) (key : LhatValue)
    (g : KeyForm × UInt32 → Option LhatValue) : Prop where
  wf : t'.Wf h
  array : t'.array = t.array
  arrayCapacity : t'.arrayCapacity = t.arrayCapacity
  find : t'.find h = g
  keys : ∀ held ∈ t'.keys, held ∈ t.keys ∨ held = key

theorem LhatTable.Wf.written (hw : t.Wf h) (key : LhatValue) : Written h t t key (t.find h) :=
  ⟨hw, rfl, rfl, rfl, fun _ hmem => Or.inl hmem⟩

theorem Written.put (hw : t.Wf h) (hg : Grown h t t₁)
    (hfit : KeyFits h t key) (hi : i < t₁.entries.length) (hprobed : Probed h t₁ key i)
    (hnil : (t₁.entryAt i).key = .nil) (value : LhatValue) :
    Written h t (t₁.put i key value) key fun c =>
      if placeForm h key = some c then some value else t.find h c := by
  have hwf := hg.wf.put hi (hfit.grown hg) hprobed hnil (by have := hg.room; omega) value
  refine ⟨hwf, hg.array, hg.arrayCapacity, funext fun c => ?_, fun held hmem => ?_⟩
  · rw [hg.wf.find_put hi hwf hfit.storable.ne_nil hnil, hg.find hw]
  · rcases LhatTable.keys_set (t := t₁) rfl hmem with hin | hnew
    · exact Or.inl (hg.keys.1 hin)
    · exact Or.inr (entryKey_eq_some.1 hnew).1.symm

theorem Written.overwrite (hw : t.Wf h) (hg : Grown h t t₁)
    (hfit : KeyFits h t key) (hi : i < t₁.entries.length) (hprobed : Probed h t₁ key i)
    (hkey : (t₁.entryAt i).key ≠ .nil) (value : LhatValue) :
    Written h t (t₁.overwrite i key value) key fun c =>
      if placeForm h key = some c then some value else t.find h c := by
  obtain ⟨c, hc, hkc, -⟩ := hprobed.find_held hg.wf hi hkey
  have hwf := hg.wf.overwrite hi (hfit.grown hg) hkey ⟨c, hc, hkc⟩ value
  refine ⟨hwf, hg.array, hg.arrayCapacity, funext fun c' => ?_, fun held hmem => ?_⟩
  · rw [hg.wf.find_overwrite hi hwf hfit.storable.ne_nil ⟨c, hc, hkc⟩, hg.find hw]
  · rcases LhatTable.keys_set (t := t₁) rfl hmem with hin | hnew
    · exact Or.inl (hg.keys.1 hin)
    · exact Or.inr (entryKey_eq_some.1 hnew).1.symm

theorem Written.bury (hw : t.Wf h) (hi : i < t.entries.length)
    (hprobed : Probed h t key i) (hkey : (t.entryAt i).key ≠ .nil) :
    Written h t (t.bury i) key fun c =>
      if placeForm h key = some c then none else t.find h c := by
  obtain ⟨c, hc, hkc, -⟩ := hprobed.find_held hw hi hkey
  have hwf := hw.bury hi hkey
  refine ⟨hwf, rfl, rfl, funext fun c' => ?_, fun held hmem => ?_⟩
  · rw [hw.find_bury hi hwf hkey, hc, hkc]
  · rcases LhatTable.keys_set (t := t) rfl hmem with hin | hnew
    · exact Or.inl hin
    · cases hnew

theorem Written.touch {g : KeyForm × UInt32 → Option LhatValue}
    (hwritten : Written h t t₁ key g) : Written h t t₁.touch key g :=
  ⟨hwritten.wf.touch, hwritten.array, hwritten.arrayCapacity, hwritten.find, hwritten.keys⟩

/-- What is found after `setEntry`. -/
noncomputable def setFound (h : Heap) (t : LhatTable) (key value : LhatValue)
    (c : KeyForm × UInt32) : Option LhatValue :=
  if placeForm h key = some c then if value.isNil then none else some value else t.find h c

theorem LhatTable.Wf.setEntry (hw : t.Wf h) (m : Memory)
    (hfit : KeyFits h t key) (value : LhatValue) :
    ∃ made, setEntry h m t key value = some made ∧ made.refused = false ∧
      (made.memory.refused = false → made.ok = true ∧ m.refused = false) ∧
      (made.ok = false ∧ made.table = t ∨
        made.ok = true ∧ Written h t made.table key (setFound h t key value)) := by
  unfold Lhat.setEntry
  cases hv : value.isNil with
  | true =>
    by_cases he : t.entries = []
    · refine ⟨_, by rw [if_pos rfl, if_pos (by simp [he])], rfl, fun hr => ⟨rfl, hr⟩,
        Or.inr ⟨rfl, ?_⟩⟩
      have hfound : setFound h t key value = t.find h := by
        funext c
        simp [setFound, hv, LhatTable.find_of_empty he]
      rw [hfound]
      exact hw.written key
    · obtain ⟨i, hi, hprobe, hprobed⟩ := hw.probe_spec he hfit
      refine ⟨_, by rw [if_pos rfl, if_neg (by simp [he]), hprobe, Option.map_some], rfl,
        fun hr => ⟨rfl, hr⟩, Or.inr ⟨rfl, ?_⟩⟩
      by_cases hkey : (t.entryAt i).key = .nil
      · have hfound : setFound h t key value = t.find h := by
          funext c
          simp only [setFound, hv, if_true, ite_eq_right_iff]
          exact fun hc => (hprobed.find_absent hw hkey hc).symm
        rw [hfound]
        simpa [hkey] using hw.written key
      · have hfound : setFound h t key value =
            fun c => if placeForm h key = some c then none else t.find h c := by
          funext c
          simp [setFound, hv]
        rw [hfound]
        simpa [hkey] using (Written.bury hw hi hprobed hkey).touch
  | false =>
    obtain ⟨room, hroom, hflag, href, hmade⟩ := hw.makeEntryRoom m
    have hfound : setFound h t key value =
        fun c => if placeForm h key = some c then some value else t.find h c := by
      funext c
      simp [setFound, hv]
    rw [hfound]
    rcases hmade with ⟨hok, htable⟩ | ⟨hok, hg⟩
    · exact ⟨room, by simp [hroom, hok], hflag, href, Or.inl ⟨hok, htable⟩⟩
    · obtain ⟨i, hi, hprobe, hprobed⟩ := hg.wf.probe_spec hg.nonempty (hfit.grown hg)
      refine ⟨{ room with
        table :=
          if (room.table.entryAt i).key.isNil then room.table.put i key value
          else room.table.overwrite i key value }, ?_, hflag, href, Or.inr ⟨hok, ?_⟩⟩
      · simp [hroom, hok, hprobe]
      · by_cases hkey : (room.table.entryAt i).key = .nil
        · simpa [hkey] using Written.put hw hg hfit hi hprobed hkey value
        · simpa [hkey] using Written.overwrite hw hg hfit hi hprobed hkey value

/-- What is found after `lhatTableReserve`. -/
noncomputable def reserveFound (h : Heap) (t : LhatTable) (key : LhatValue)
    (c : KeyForm × UInt32) : Option LhatValue :=
  if placeForm h key = some c then some ((t.find h c).getD .nil) else t.find h c

/-- What is found after `lhatTableVacate`. -/
noncomputable def vacateFound (h : Heap) (t : LhatTable) (key : LhatValue)
    (c : KeyForm × UInt32) : Option LhatValue :=
  if placeForm h key = some c then (t.find h c).map fun _ => .nil else t.find h c

theorem LhatTable.Wf.reserve (hw : t.Wf h) (m : Memory) (hu : usableKey key = true)
    (hindex : arrayIndex t (normaliseKey key) = none) (hfit : KeyFits h t (normaliseKey key)) :
    ∃ made, lhatTableReserve h m t key = some made ∧ made.refused = false ∧
      (made.memory.refused = false → made.ok = true ∧ m.refused = false) ∧
      (made.ok = false ∧ made.table = t ∨
        made.ok = true ∧
          Written h t made.table (normaliseKey key) (reserveFound h t (normaliseKey key))) := by
  have hlay : (∀ c, placeForm h (normaliseKey key) = some c → t.find h c = none) →
      ∃ made, (do
          let room ← Lhat.makeEntryRoom h m t
          if room.ok then
            let i ← probe h room.table.entries (normaliseKey key) (hashKey h (normaliseKey key))
            return { room with table := room.table.put i (normaliseKey key) .nil }
          else return room) = some made ∧ made.refused = false ∧
        (made.memory.refused = false → made.ok = true ∧ m.refused = false) ∧
        (made.ok = false ∧ made.table = t ∨
          made.ok = true ∧
            Written h t made.table (normaliseKey key) (reserveFound h t (normaliseKey key))) := by
    intro habsent
    obtain ⟨room, hroom, hflag, href, hmade⟩ := hw.makeEntryRoom m
    rcases hmade with ⟨hok, htable⟩ | ⟨hok, hg⟩
    · exact ⟨room, by simp [hroom, hok], hflag, href, Or.inl ⟨hok, htable⟩⟩
    · obtain ⟨i, hi, hprobe, hprobed⟩ := hg.wf.probe_spec hg.nonempty (hfit.grown hg)
      refine ⟨{ room with table := room.table.put i (normaliseKey key) .nil }, ?_, hflag, href,
        Or.inr ⟨hok, ?_⟩⟩
      · simp [hroom, hok, hprobe]
      · have hnil : (room.table.entryAt i).key = .nil := by
          by_contra hkey
          obtain ⟨c, -, hkc, hfind⟩ := hprobed.find_held hg.wf hi hkey
          rw [hg.find hw, habsent c hkc] at hfind
          cases hfind
        have hfound : reserveFound h t (normaliseKey key) =
            fun c => if placeForm h (normaliseKey key) = some c then some .nil else t.find h c := by
          funext c
          unfold reserveFound
          split
          · next hc => rw [habsent c hc, Option.getD_none]
          · rfl
        rw [hfound]
        exact Written.put hw hg hfit hi hprobed hnil .nil
  unfold lhatTableReserve
  rw [if_neg (by simp [hu])]
  simp only [hindex, Option.isSome_none, Bool.false_eq_true, if_false]
  by_cases he : t.entries = []
  · simpa [he] using hlay fun c _ => LhatTable.find_of_empty he c
  · obtain ⟨i, hi, hprobe, hprobed⟩ := hw.probe_spec he hfit
    by_cases hkey : (t.entryAt i).key = .nil
    · simpa [he, hprobe, hkey] using hlay fun c hc => hprobed.find_absent hw hkey hc
    · obtain ⟨c, -, hkc, hfind⟩ := hprobed.find_held hw hi hkey
      refine ⟨{ ok := true, table := t, memory := m }, by simp [he, hprobe, hkey], rfl,
        fun hr => ⟨rfl, hr⟩, Or.inr ⟨rfl, ?_⟩⟩
      have hfound : reserveFound h t (normaliseKey key) = t.find h := by
        funext c'
        unfold reserveFound
        split
        · next hc' =>
            obtain rfl : c = c' := Option.some.inj (hkc.symm.trans hc')
            rw [hfind, Option.getD_some]
        · rfl
      rw [hfound]
      exact hw.written _

theorem LhatTable.Wf.vacate (hw : t.Wf h) (hu : usableKey key = true)
    (hfit : KeyFits h t (normaliseKey key)) :
    ∃ left, lhatTableVacate h t key = some left ∧
      Written h t left (normaliseKey key) (vacateFound h t (normaliseKey key)) := by
  unfold lhatTableVacate
  by_cases he : t.entries = []
  · refine ⟨t, by simp [he], ?_⟩
    have hfound : vacateFound h t (normaliseKey key) = t.find h := by
      funext c
      simp [vacateFound, LhatTable.find_of_empty he]
    rw [hfound]
    exact hw.written _
  · obtain ⟨i, hi, hprobe, hprobed⟩ := hw.probe_spec he hfit
    rw [if_neg (by simp [hu, he])]
    simp only [hprobe, Option.map_some]
    refine ⟨_, rfl, ?_⟩
    by_cases hkey : (t.entryAt i).key = .nil
    · have hfound : vacateFound h t (normaliseKey key) = t.find h := by
        funext c
        unfold vacateFound
        split
        · next hc => rw [hprobed.find_absent hw hkey hc, Option.map_none]
        · rfl
      rw [hfound, if_pos (LhatValue.isNil_iff.2 hkey)]
      exact hw.written _
    · rw [if_neg (by simpa using hkey)]
      obtain ⟨c, hc, hkc, hfind⟩ := hprobed.find_held hw hi hkey
      have hwf := (hw.vacateAt hi hkey).1
      refine ⟨hwf, rfl, rfl, funext fun c' => ?_, fun held hmem => ?_⟩
      · rw [hw.find_vacateAt hi hwf hkey, hc, vacateFound, hkc]
        split
        · next hcc =>
            obtain rfl : c = c' := Option.some.inj hcc
            rw [hfind, Option.map_some]
        · rfl
      · rcases LhatTable.keys_set (t := t) rfl hmem with hin | hnew
        · exact Or.inl hin
        · obtain ⟨rfl, -⟩ := entryKey_eq_some.1 hnew
          exact Or.inl (LhatTable.mem_keys.2 ⟨hkey, _, LhatTable.entryAt_mem hi, rfl⟩)

end Entries

end Lhat
