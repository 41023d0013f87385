import Lhat.Table.Basic

/-!
# The invariant of a table

`LhatTable.Wf` is what every operation on a table keeps: the counters say how many
slots hold a key and bound how many are tombstones, a quarter of the slots is left
free, and the entries are placed as open addressing needs them. The operations
write an entry in three ways, `put`, `overwrite` and `bury`, and read one by
`probe`; each has one lemma here, and nothing else looks at slots.

A key may be written when it is told from every key the table holds
(`KeyFits`). Every key is, but for a runtime type that is equal to another one
which hashes elsewhere.
-/

namespace Lhat

variable {key : LhatValue} {i : Nat} {entry : LhatTableEntry} {t t' : LhatTable}

/-- What a key is looked for by: its form and its hash. -/
def placeForm (h : Heap) (key : LhatValue) : Option (KeyForm × UInt32) :=
  (keyForm h key).map fun form => (form, hashKey h key)

theorem placeForm_eq_some {h : Heap} {c : KeyForm × UInt32} :
    placeForm h key = some c ↔ keyForm h key = some c.1 ∧ hashKey h key = c.2 := by
  obtain ⟨form, hash⟩ := c
  simp only [placeForm, Option.map_eq_some_iff, Prod.mk.injEq]
  constructor
  · rintro ⟨form', hform, rfl, hhash⟩
    exact ⟨hform, hhash⟩
  · rintro ⟨hform, hhash⟩
    exact ⟨form, hform, rfl, hhash⟩

@[simp] theorem entryKey_eq_none : entryKey entry = none ↔ entry.key = .nil := by
  simp [entryKey]

@[simp] theorem entryKey_eq_some : entryKey entry = some key ↔ entry.key = key ∧ key ≠ .nil := by
  unfold entryKey
  split
  · next hnil =>
      rw [LhatValue.isNil_iff] at hnil
      simp only [reduceCtorEq, false_iff, not_and, hnil]
      exact fun heq hne => hne heq.symm
  · next hnil =>
      rw [Bool.not_eq_true, LhatValue.isNil_eq_false_iff] at hnil
      simp only [Option.some.injEq]
      exact ⟨fun heq => ⟨heq, heq ▸ hnil⟩, fun hand => hand.1⟩

/-- Entries as slots of open addressing. -/
def entryView (h : Heap) : OpenAddressing.SlotView LhatTableEntry LhatValue (KeyForm × UInt32) where
  key := entryKey
  free := entryIsFree
  keyless := entryIsTombstone
  home key := (hashKey h key).toNat
  canon := placeForm h
  key_of_free entry hfree := by
    simp only [entryIsFree, Bool.and_eq_true, LhatValue.isNil_iff] at hfree
    simp [hfree.1]
  keyless_iff entry hused := by
    rw [entryKey_eq_none]
    cases hk : entry.key.isNil <;> cases hv : entry.value.isNil <;>
      simp_all [entryIsFree, entryIsTombstone]
  home_congr k l c hk hl := by
    rw [(placeForm_eq_some.1 hk).2, (placeForm_eq_some.1 hl).2]

/-- The keys a table holds entries for, seats among them. -/
def LhatTable.keys (t : LhatTable) : List LhatValue := t.entries.filterMap entryKey

theorem LhatTable.mem_keys : key ∈ t.keys ↔ key ≠ .nil ∧ ∃ entry ∈ t.entries, entry.key = key := by
  simp only [LhatTable.keys, List.mem_filterMap, entryKey_eq_some]
  constructor
  · rintro ⟨entry, hmem, hkey, hne⟩
    exact ⟨hne, entry, hmem, hkey⟩
  · rintro ⟨hne, entry, hmem, hkey⟩
    exact ⟨entry, hmem, hkey, hne⟩

/-- A key in the shape a table holds it. -/
structure Storable (key : LhatValue) : Prop where
  normal : NormalKey key
  usable : usableKey key = true

theorem Storable.ne_nil (hs : Storable key) : key ≠ .nil := by
  rintro rfl
  exact absurd hs.usable (by decide)

theorem storable_normaliseKey (hu : usableKey key = true) : Storable (normaliseKey key) :=
  ⟨normaliseKey_normal key, normaliseKey_usable hu⟩

/-- A key that may be looked for and written among the entries of a table. -/
structure KeyFits (h : Heap) (t : LhatTable) (key : LhatValue) : Prop where
  storable : Storable key
  told : ∀ held ∈ t.keys, KeysTold h held key

/-- What every operation keeps. -/
structure LhatTable.Wf (h : Heap) (t : LhatTable) : Prop where
  placed : t.entries ≠ [] → (entryView h).Placed t.entries
  size : t.entries ≠ [] → 4 ≤ t.entries.length
  counted : t.entryCount = t.entries.countP fun entry => (entryKey entry).isSome
  tombs : t.entries.countP entryIsTombstone ≤ t.entryTombs
  load : t.entryCount + t.entryTombs ≤ t.entries.length - t.entries.length / 4
  storable : ∀ key ∈ t.keys, Storable key
  told : ∀ key ∈ t.keys, ∀ held ∈ t.keys, KeysTold h held key
  dense : t.array.length ≤ t.arrayCapacity
  bounded : t.arrayCapacity * 8 < 2 ^ 63

theorem countP_used (entries : List LhatTableEntry) :
    entries.countP (fun entry => !entryIsFree entry) =
      entries.countP (fun entry => (entryKey entry).isSome) + entries.countP entryIsTombstone := by
  induction entries with
  | nil => rfl
  | cons entry entries ih =>
    simp only [List.countP_cons, ih]
    cases hk : entry.key.isNil <;> cases hv : entry.value.isNil <;>
      simp [entryIsFree, entryIsTombstone, entryKey, hk, hv] <;> omega

theorem exists_free_entry (h : Heap) {entries : List LhatTableEntry} {count tombs : Nat}
    (hsize : 4 ≤ entries.length)
    (hcount : entries.countP (fun entry => (entryKey entry).isSome) ≤ count)
    (htombs : entries.countP entryIsTombstone ≤ tombs)
    (hload : count + tombs ≤ entries.length - entries.length / 4) :
    ∃ entry ∈ entries, entryIsFree entry = true := by
  have hused := countP_used entries
  have hlt : entries.countP (fun entry => !entryIsFree entry) < entries.length := by omega
  exact OpenAddressing.SlotView.exists_free (V := entryView h) hlt

section Probe

variable {h : Heap} {t : LhatTable}

theorem KeyFits.answers (hfit : KeyFits h t key)
    (hstorable : ∀ held ∈ t.keys, Storable held) :
    (entryView h).Answers t.entries key fun entry => lhatValueEqual h entry.key key := by
  intro entry hmem held hheld
  obtain ⟨rfl, hne⟩ := entryKey_eq_some.1 hheld
  have hin : entry.key ∈ t.keys := LhatTable.mem_keys.2 ⟨hne, entry, hmem, rfl⟩
  have hs := hstorable _ hin
  obtain ⟨r, hr, hhash⟩ := (hfit.told _ hin).1
  have hiff := lhatValueEqual_decides hs.normal hfit.storable.normal hs.usable r hr
  cases r with
  | true =>
    obtain ⟨form, hheld, hkey⟩ := hiff.1 rfl
    refine Or.inl ⟨hr, (form, hashKey h key), ?_, ?_⟩
    · exact placeForm_eq_some.2 ⟨hheld, hhash rfl⟩
    · exact placeForm_eq_some.2 ⟨hkey, rfl⟩
  | false =>
    refine Or.inr ⟨hr, ?_⟩
    rintro ⟨c, hheld, hkey⟩
    exact Bool.false_ne_true (hiff.2 ⟨c.1, (placeForm_eq_some.1 hheld).1,
      (placeForm_eq_some.1 hkey).1⟩)

/-- The two places a probe ends at: the entry of the key, or a slot without one
that the key may be put in. -/
inductive Probed (h : Heap) (t : LhatTable) (key : LhatValue) (i : Nat) : Prop
  | held (hkey : (t.entryAt i).key ≠ .nil)
      (hform : ∃ c, placeForm h (t.entryAt i).key = some c ∧ placeForm h key = some c)
  | absent (hkey : (t.entryAt i).key = .nil)
      (hreach : (entryView h).Reached t.entries (hashKey h key).toNat i)
      (hother : ∀ entry ∈ t.entries, ∀ c, (entryView h).canonKey entry = some c →
        placeForm h key ≠ some c)

theorem LhatTable.entryAt_eq (hi : t.entries[i]? = some entry) : t.entryAt i = entry := by
  simp [LhatTable.entryAt, List.getD, hi]

theorem LhatTable.getElem?_entryAt (hi : i < t.entries.length) :
    t.entries[i]? = some (t.entryAt i) := by
  simp [LhatTable.entryAt, List.getD, List.getElem?_eq_getElem hi]

theorem LhatTable.entryAt_mem (hi : i < t.entries.length) : t.entryAt i ∈ t.entries :=
  List.mem_of_getElem? (LhatTable.getElem?_entryAt hi)

theorem LhatTable.Wf.probe_spec (hw : t.Wf h) (hne : t.entries ≠ []) (hfit : KeyFits h t key) :
    ∃ i < t.entries.length, probe h t.entries key (hashKey h key) = some i ∧ Probed h t key i := by
  have hp := hw.placed hne
  obtain ⟨e, hpow⟩ := hp.capacity
  have hans := hfit.answers hw.storable
  unfold probe probeSpelt
  simp only [OpenAddressing.and_capacity hpow]
  by_cases hheld : ∃ entry ∈ t.entries, ∃ c, (entryView h).canonKey entry = some c ∧
      placeForm h key = some c
  · obtain ⟨entry, hmem, c, hentry, hkey⟩ := hheld
    obtain ⟨i, hi, rfl⟩ := List.getElem_of_mem hmem
    refine ⟨i, hi, hp.search_held hans (List.getElem?_eq_getElem hi) hentry hkey, ?_⟩
    obtain ⟨held, hheld, hcanon⟩ := OpenAddressing.SlotView.canonKey_eq_some.1 hentry
    obtain ⟨rfl, hnil⟩ := entryKey_eq_some.1 hheld
    have hat : t.entryAt i = t.entries[i] := LhatTable.entryAt_eq (List.getElem?_eq_getElem hi)
    exact Probed.held (by rwa [hat]) ⟨c, by rwa [hat], hkey⟩
  · have habs : ∀ entry ∈ t.entries, ∀ c, (entryView h).canonKey entry = some c →
        placeForm h key ≠ some c :=
      fun entry hmem c hentry hkey => hheld ⟨entry, hmem, c, hentry, hkey⟩
    obtain ⟨i, entry, hsearch, hi, hkey, hreach⟩ := hp.search_absent hans.tells habs
    refine ⟨i, (List.getElem?_eq_some_iff.1 hi).1, hsearch, Probed.absent ?_ hreach habs⟩
    rw [LhatTable.entryAt_eq hi]
    exact entryKey_eq_none.1 hkey

end Probe

section Write

variable {h : Heap} {t : LhatTable}

theorem LhatTable.keys_set (hset : t'.entries = t.entries.set i entry) (hmem : key ∈ t'.keys) :
    key ∈ t.keys ∨ entryKey entry = some key := by
  obtain ⟨hne, held, hheld, rfl⟩ := LhatTable.mem_keys.1 hmem
  rw [hset] at hheld
  rcases List.mem_or_eq_of_mem_set hheld with hin | rfl
  · exact Or.inl (LhatTable.mem_keys.2 ⟨hne, held, hin, rfl⟩)
  · exact Or.inr (entryKey_eq_some.2 ⟨rfl, hne⟩)

theorem LhatTable.Wf.write (hw : t.Wf h)
    (hi : i < t.entries.length) (hset : t'.entries = t.entries.set i entry)
    (harray : t'.array = t.array) (hcapacity : t'.arrayCapacity = t.arrayCapacity)
    (hused : entryIsFree entry = false)
    (hkey : ∀ key, entryKey entry = some key → KeyFits h t key ∧
      (entryView h).Reached t.entries (hashKey h key).toNat i ∧
      ∀ (j : Nat) s c, j ≠ i → t.entries[j]? = some s → (entryView h).canonKey s = some c →
        placeForm h key ≠ some c)
    (hcount : t'.entryCount =
      (t.entries.set i entry).countP fun entry => (entryKey entry).isSome)
    (htombs : (t.entries.set i entry).countP entryIsTombstone ≤ t'.entryTombs)
    (hload : t'.entryCount + t'.entryTombs ≤ t.entries.length - t.entries.length / 4) :
    t'.Wf h := by
  have hne : t.entries ≠ [] := List.ne_nil_of_length_pos (by omega)
  have hlen : (t.entries.set i entry).length = t.entries.length := List.length_set
  have hsize := hw.size hne
  refine ⟨fun _ => ?_, fun _ => ?_, ?_, ?_, ?_, ?_, ?_, ?_, ?_⟩
  · rw [hset]
    refine (hw.placed hne).set hused ?_ fun key hk => (hkey key hk).2
    exact exists_free_entry h (by rw [hlen]; exact hsize) hcount.ge htombs (by rw [hlen]; exact hload)
  · rw [hset, hlen]
    exact hsize
  · rw [hset]
    exact hcount
  · rw [hset]
    exact htombs
  · rw [hset, hlen]
    exact hload
  · intro key hmem
    rcases LhatTable.keys_set hset hmem with hin | hnew
    · exact hw.storable key hin
    · exact (hkey key hnew).1.storable
  · intro key hmem held hheld
    rcases LhatTable.keys_set hset hmem with hin | hnew <;>
      rcases LhatTable.keys_set hset hheld with hin' | hnew'
    · exact hw.told key hin held hin'
    · exact ((hkey held hnew').1.told key hin).symm
    · exact (hkey key hnew).1.told held hin'
    · obtain rfl : key = held := Option.some.inj (hnew.symm.trans hnew')
      exact keysTold_self h key
  · rw [harray, hcapacity]
    exact hw.dense
  · rw [hcapacity]
    exact hw.bounded

theorem countP_set_entry (p : LhatTableEntry → Bool) (hi : i < t.entries.length)
    (entry : LhatTableEntry) :
    (t.entries.set i entry).countP p + (if p (t.entryAt i) then 1 else 0) =
      t.entries.countP p + if p entry then 1 else 0 := by
  have hat : t.entries[i] = t.entryAt i :=
    (LhatTable.entryAt_eq (List.getElem?_eq_getElem hi)).symm
  have hmem : p (t.entryAt i) = true → 0 < t.entries.countP p := fun hp =>
    List.countP_pos_iff.2 ⟨_, LhatTable.entryAt_mem hi, hp⟩
  rw [List.countP_set hi, hat]
  split <;> split <;> simp_all

theorem entryKey_of_nil (hnil : entry.key = .nil) : entryKey entry = none :=
  entryKey_eq_none.2 hnil

theorem entryIsTombstone_of_nil (hnil : entry.key = .nil) :
    entryIsTombstone entry = !entry.value.isNil := by
  simp [entryIsTombstone, hnil, LhatValue.isNil_iff.2 rfl]

theorem entryIsTombstone_of_keyed (e : LhatTableEntry) (hne : e.key ≠ .nil) :
    entryIsTombstone e = false := by
  simp [entryIsTombstone, LhatValue.isNil_eq_false_iff.2 hne]

theorem entryIsFree_of_keyed (hne : entry.key ≠ .nil) : entryIsFree entry = false := by
  simp [entryIsFree, LhatValue.isNil_eq_false_iff.2 hne]

theorem LhatTable.Wf.put (hw : t.Wf h) (hi : i < t.entries.length)
    (hfit : KeyFits h t key) (hprobed : Probed h t key i) (hnil : (t.entryAt i).key = .nil)
    (hroom : t.entryCount + t.entryTombs + 1 ≤ t.entries.length - t.entries.length / 4)
    (value : LhatValue) : (t.put i key value).Wf h := by
  have hkne := hfit.storable.ne_nil
  have hkeyed := countP_set_entry (fun entry => (entryKey entry).isSome) hi { key, value }
  have htombs := countP_set_entry entryIsTombstone hi { key, value }
  have hw' := hw.tombs
  have hc := hw.counted
  have hnew : entryKey { key, value } = some key := entryKey_eq_some.2 ⟨rfl, hkne⟩
  simp only [entryKey_of_nil hnil, hnew, Option.isSome_none, Option.isSome_some,
    Bool.false_eq_true, if_false, if_true] at hkeyed
  rw [entryIsTombstone_of_nil hnil,
    entryIsTombstone_of_keyed { key, value } hkne] at htombs
  refine hw.write hi rfl rfl rfl (entryIsFree_of_keyed hkne) ?_ ?_ ?_ ?_
  · intro key' hkey'
    obtain rfl : key = key' := Option.some.inj (hnew.symm.trans hkey')
    cases hprobed with
    | held hkey => exact absurd hnil hkey
    | absent _ hreach hother =>
      exact ⟨hfit, hreach, fun j s c _ hs => hother s (List.mem_of_getElem? hs) c⟩
  · simp only [LhatTable.put]
    omega
  · simp only [LhatTable.put]
    cases hv : (t.entryAt i).value.isNil <;>
      simp only [hv, Bool.not_false, Bool.not_true, Bool.false_eq_true, if_true, if_false]
        at htombs ⊢ <;> omega
  · simp only [LhatTable.put]
    split <;> omega

theorem LhatTable.Wf.reached (hw : t.Wf h) (hi : i < t.entries.length)
    (hkey : (t.entryAt i).key ≠ .nil) :
    (entryView h).Reached t.entries (hashKey h (t.entryAt i).key).toNat i :=
  (hw.placed (List.ne_nil_of_length_pos (by omega))).reached i (t.entryAt i) _
    (LhatTable.getElem?_entryAt hi) (entryKey_eq_some.2 ⟨rfl, hkey⟩)

theorem LhatTable.Wf.overwrite (hw : t.Wf h) (hi : i < t.entries.length) (hfit : KeyFits h t key) (hkey : (t.entryAt i).key ≠ .nil)
    (hform : ∃ c, placeForm h (t.entryAt i).key = some c ∧ placeForm h key = some c)
    (value : LhatValue) : (t.overwrite i key value).Wf h := by
  have hkne := hfit.storable.ne_nil
  have hkeyed := countP_set_entry (fun entry => (entryKey entry).isSome) hi { key, value }
  have htombs := countP_set_entry entryIsTombstone hi { key, value }
  have hnew : entryKey { key, value } = some key := entryKey_eq_some.2 ⟨rfl, hkne⟩
  have hold : entryKey (t.entryAt i) = some (t.entryAt i).key := entryKey_eq_some.2 ⟨rfl, hkey⟩
  simp only [hnew, hold, Option.isSome_some, if_true, Nat.add_right_cancel_iff] at hkeyed
  rw [entryIsTombstone_of_keyed _ hkey,
    entryIsTombstone_of_keyed { key, value } hkne] at htombs
  simp only [Bool.false_eq_true, if_false, Nat.add_zero] at htombs
  have hp := hw.placed (List.ne_nil_of_length_pos (by omega))
  obtain ⟨c, hc, hkc⟩ := hform
  refine hw.write hi rfl rfl rfl (entryIsFree_of_keyed hkne) ?_ ?_ ?_ hw.load
  · intro key' hkey'
    obtain rfl : key = key' := Option.some.inj (hnew.symm.trans hkey')
    refine ⟨hfit, ?_, fun j s c' hji hs hsc hkc' => hji ?_⟩
    · have hhash : hashKey h (t.entryAt i).key = hashKey h key := by
        rw [(placeForm_eq_some.1 hc).2, (placeForm_eq_some.1 hkc).2]
      rw [← hhash]
      exact hw.reached hi hkey
    · obtain rfl : c = c' := Option.some.inj (hkc.symm.trans hkc')
      exact hp.distinct j i s _ c hs (LhatTable.getElem?_entryAt hi) hsc
        (OpenAddressing.SlotView.canonKey_eq_some.2 ⟨_, hold, hc⟩)
  · exact hw.counted.trans hkeyed.symm
  · exact htombs.le.trans hw.tombs

theorem LhatTable.Wf.revalued (hw : t.Wf h)
    (hsame : t'.entries.map (fun entry => (entryKey entry, entryIsFree entry)) =
      t.entries.map fun entry => (entryKey entry, entryIsFree entry))
    (hcount : t'.entryCount = t.entryCount) (htombs : t'.entryTombs = t.entryTombs)
    (hdense : t'.array.length ≤ t'.arrayCapacity) (hbounded : t'.arrayCapacity * 8 < 2 ^ 63) :
    t'.Wf h ∧ t'.keys = t.keys := by
  have hlen : t'.entries.length = t.entries.length := by
    simpa using congrArg List.length hsame
  have hne : t'.entries ≠ [] → t.entries ≠ [] := by
    intro hsome he
    exact hsome (List.eq_nil_of_length_eq_zero (by rw [hlen, he]; rfl))
  have hkeys : t'.keys = t.keys := by
    have hmap := congrArg (List.filterMap Prod.fst) hsame
    simpa only [LhatTable.keys, List.filterMap_map, Function.comp_def] using hmap
  have hcountP : ∀ p : Option LhatValue × Bool → Bool,
      t'.entries.countP (fun entry => p (entryKey entry, entryIsFree entry)) =
        t.entries.countP fun entry => p (entryKey entry, entryIsFree entry) := by
    intro p
    have hmap := congrArg (List.countP p) hsame
    simpa only [List.countP_map, Function.comp_def] using hmap
  have htomb : entryIsTombstone = fun entry =>
      (fun kf : Option LhatValue × Bool => kf.1.isNone && !kf.2)
        (entryKey entry, entryIsFree entry) := by
    funext entry
    cases hk : entry.key.isNil <;> cases hv : entry.value.isNil <;>
      simp [entryIsTombstone, entryKey, entryIsFree, hk, hv]
  refine ⟨⟨fun hsome => (hw.placed (hne hsome)).congr hsame, fun hsome => ?_, ?_, ?_, ?_, ?_, ?_,
    hdense, hbounded⟩, hkeys⟩
  · rw [hlen]
    exact hw.size (hne hsome)
  · rw [hcount, hw.counted]
    exact (hcountP fun kf => kf.1.isSome).symm
  · have htombs' := hw.tombs
    rw [htomb] at htombs' ⊢
    rw [htombs]
    exact (hcountP fun kf => kf.1.isNone && !kf.2).le.trans htombs'
  · rw [hlen, hcount, htombs]
    exact hw.load
  · rw [hkeys]
    exact hw.storable
  · rw [hkeys]
    exact hw.told

theorem LhatTable.Wf.vacateAt (hw : t.Wf h) (hi : i < t.entries.length)
    (hkey : (t.entryAt i).key ≠ .nil) : (t.vacateAt i).Wf h ∧ (t.vacateAt i).keys = t.keys := by
  refine hw.revalued ?_ rfl rfl hw.dense hw.bounded
  have hat : t.entries[i] = t.entryAt i :=
    (LhatTable.entryAt_eq (List.getElem?_eq_getElem hi)).symm
  have hsame : (entryKey { t.entryAt i with value := .nil },
      entryIsFree { t.entryAt i with value := .nil }) =
        (entryKey (t.entryAt i), entryIsFree (t.entryAt i)) := by
    simp [entryKey, entryIsFree, LhatValue.isNil_eq_false_iff.2 hkey]
  rw [LhatTable.vacateAt, List.map_set, hsame, ← hat, ← List.map_set, List.set_getElem_self]

theorem LhatTable.Wf.bury (hw : t.Wf h) (hi : i < t.entries.length)
    (hkey : (t.entryAt i).key ≠ .nil) : (t.bury i).Wf h := by
  have hkeyed := countP_set_entry (fun entry => (entryKey entry).isSome) hi tombstone
  have htombs := countP_set_entry entryIsTombstone hi tombstone
  have hold : entryKey (t.entryAt i) = some (t.entryAt i).key := entryKey_eq_some.2 ⟨rfl, hkey⟩
  have hc := hw.counted
  have hw' := hw.tombs
  have hload := hw.load
  rw [hold, show entryKey tombstone = none from rfl] at hkeyed
  rw [entryIsTombstone_of_keyed _ hkey, show entryIsTombstone tombstone = true from rfl] at htombs
  simp only [Option.isSome_some, Option.isSome_none, if_true, Bool.false_eq_true, if_false]
    at hkeyed htombs
  refine hw.write hi rfl rfl rfl rfl (fun key hnew => by cases hnew) ?_ ?_ ?_
  · simp only [LhatTable.bury]
    omega
  · simp only [LhatTable.bury]
    omega
  · simp only [LhatTable.bury]
    omega

end Write

section Grow

variable {h : Heap} {t : LhatTable}

theorem fitCapacity_pow (need : Nat) : ∀ (fuel k : Nat),
    ∃ e, k ≤ e ∧ fitCapacity need fuel (2 ^ k) = 2 ^ e := by
  intro fuel
  induction fuel with
  | zero => exact fun k => ⟨k, le_refl k, rfl⟩
  | succ fuel ih =>
    intro k
    unfold fitCapacity
    split
    · obtain ⟨e, hle, he⟩ := ih (k + 1)
      exact ⟨e, by omega, by rw [← pow_succ, he]⟩
    · exact ⟨k, le_refl k, rfl⟩

theorem fitCapacity_fits (need : Nat) : ∀ (fuel capacity : Nat), 2 ≤ capacity →
    need ≤ capacity - capacity / 4 + fuel →
    need ≤ fitCapacity need fuel capacity - fitCapacity need fuel capacity / 4 := by
  intro fuel
  induction fuel with
  | zero => exact fun capacity _ hneed => by simpa [fitCapacity] using hneed
  | succ fuel ih =>
    intro capacity hcap hneed
    unfold fitCapacity
    split
    · exact ih (capacity * 2) (by omega) (by omega)
    · omega

theorem fitCapacity_spec (count : Nat) :
    ∃ e, 3 ≤ e ∧ fitCapacity (count + 1) (count + 1) 8 = 2 ^ e ∧ count + 1 ≤ 2 ^ e - 2 ^ e / 4 := by
  obtain ⟨e, hle, he⟩ := fitCapacity_pow (count + 1) (count + 1) 3
  have hfits := fitCapacity_fits (count + 1) (count + 1) 8 (by omega) (by omega)
  rw [show (8 : Nat) = 2 ^ 3 by rfl, he] at hfits
  exact ⟨e, hle, by rw [show (8 : Nat) = 2 ^ 3 by rfl, he], hfits⟩

theorem entryKey_replicate (p : LhatTableEntry → Bool) (hp : p {} = false) (n : Nat) :
    (List.replicate n ({} : LhatTableEntry)).countP p = 0 := by
  simp [List.countP_replicate, hp]

theorem LhatTable.Wf.keyFits (hw : t.Wf h) (hin : key ∈ t.keys) : KeyFits h t key :=
  ⟨hw.storable key hin, hw.told key hin⟩

theorem Memory.refused_request {m : Memory} {bytes : Nat} :
    (m.request bytes).refused = false ↔ m.refused = false ∧ m.granted bytes = true := by
  simp [Memory.request]

/-- What growing leaves: every entry and no tombstone, with room for one key more. -/
structure Grown (h : Heap) (t t' : LhatTable) : Prop where
  wf : t'.Wf h
  array : t'.array = t.array
  arrayCapacity : t'.arrayCapacity = t.arrayCapacity
  nonempty : t'.entries ≠ []
  room : t'.entryCount + t'.entryTombs + 1 ≤ t'.entries.length - t'.entries.length / 4
  same : ∀ entry : LhatTableEntry, entry.key ≠ .nil → (entry ∈ t'.entries ↔ entry ∈ t.entries)

theorem Grown.keys (hg : Grown h t t') : key ∈ t'.keys ↔ key ∈ t.keys := by
  simp only [LhatTable.mem_keys]
  constructor
  · rintro ⟨hne, entry, hmem, rfl⟩
    exact ⟨hne, entry, (hg.same entry hne).1 hmem, rfl⟩
  · rintro ⟨hne, entry, hmem, rfl⟩
    exact ⟨hne, entry, (hg.same entry hne).2 hmem, rfl⟩

theorem LhatTable.Wf.growEntries (hw : t.Wf h) (m : Memory) :
    ∃ made, growEntries h m t = some made ∧ made.refused = false ∧
      (made.memory.refused = false → made.ok = true ∧ m.refused = false) ∧
      (made.ok = false ∧ made.table = t ∨ made.ok = true ∧ Grown h t made.table) := by
  obtain ⟨e, he, hcap, hfits⟩ := fitCapacity_spec t.entryCount
  unfold Lhat.growEntries
  simp only [hcap]
  cases hgrant : m.granted (2 ^ e * entrySize) with
  | false =>
    exact ⟨_, rfl, rfl, fun hr => by simp [Memory.refused_request, hgrant] at hr, Or.inl ⟨rfl, rfl⟩⟩
  | true =>
    have hpe : (8 : Nat) ≤ 2 ^ e := by
      rw [show (8 : Nat) = 2 ^ 3 by rfl]
      exact Nat.pow_le_pow_right (by omega) he
    obtain ⟨out, hout, hplaced, hlen, hfrom, hkept, hcount⟩ :=
      OpenAddressing.SlotView.rehash_replicate (V := entryView h)
        (fun key entry => lhatValueEqual h entry.key key) t.entries {} e rfl hw.placed
        (fun s hs key hkey => by
          obtain ⟨rfl, hne⟩ := entryKey_eq_some.1 hkey
          have hfits := hw.keyFits (LhatTable.mem_keys.2 ⟨hne, s, hs, rfl⟩)
          exact (hfits.answers hw.storable).tells)
        (by
          have := hw.counted
          show t.entries.countP (fun entry => (entryKey entry).isSome) < _
          omega)
    have hrehash : OpenAddressing.rehash entryIsFree entryIsTombstone entryKey
        (fun key => (hashKey h key).toNat) (fun key entry => lhatValueEqual h entry.key key)
        t.entries (List.replicate (2 ^ e) {}) 0 = some (out, t.entryCount) := by
      rw [hw.counted]
      exact hout
    have hsame : ∀ entry : LhatTableEntry, entry.key ≠ .nil →
        (entry ∈ out ↔ entry ∈ t.entries) :=
      fun entry hne => hkept entry (by simpa [entryView] using hne)
    have htombs : out.countP entryIsTombstone = 0 := by
      refine List.countP_eq_zero.2 fun entry hmem => ?_
      rcases hfrom entry hmem with rfl | hkeyed
      · decide
      · have hne : entry.key ≠ .nil := by simpa [entryView] using hkeyed
        simp [entryIsTombstone_of_keyed _ hne]
    have hout_ne : out ≠ [] := List.ne_nil_of_length_pos (by omega)
    refine ⟨_, by rw [if_pos rfl, hrehash], rfl, fun hr => ⟨rfl, (Memory.refused_request.1 hr).1⟩,
      Or.inr ⟨rfl, ?_⟩⟩
    have hkeys : ∀ key, key ∈ out.filterMap entryKey → key ∈ t.keys := by
      intro key hmem
      obtain ⟨entry, hin, hkey⟩ := List.mem_filterMap.1 hmem
      obtain ⟨rfl, hne⟩ := entryKey_eq_some.1 hkey
      exact LhatTable.mem_keys.2 ⟨hne, entry, (hsame entry hne).1 hin, rfl⟩
    refine ⟨⟨fun _ => hplaced, fun _ => ?_, ?_, ?_, ?_, ?_, ?_, hw.dense, hw.bounded⟩, rfl, rfl,
      hout_ne, ?_, hsame⟩
    · show 4 ≤ out.length
      omega
    · show t.entryCount = out.countP fun entry => (entryKey entry).isSome
      rw [hw.counted]
      exact hcount.symm
    · exact htombs.le
    · show t.entryCount + 0 ≤ out.length - out.length / 4
      omega
    · exact fun key hmem => hw.storable key (hkeys key hmem)
    · exact fun key hmem held hheld => hw.told key (hkeys key hmem) held (hkeys held hheld)
    · show t.entryCount + 0 + 1 ≤ out.length - out.length / 4
      omega

end Grow

end Lhat
