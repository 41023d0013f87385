import Lhat.Table.Content

/-!
# The dense half of a table

The dense half grows by one position at a time and takes in the keys that follow
it. `Absorbs` is that taking in, read off the sequence and the map the table
holds, and `LhatTable.Wf.drain` says that the loop of `drain_into_array` is it,
short of memory running out. A position is an integer key, so it always fits.
-/

namespace Lhat

open scoped Classical

/-- What the integer key of a position is looked for by. -/
def position (n : Nat) : KeyForm × UInt32 :=
  (.integer (Int64.ofNat n), fold64 (Int64.ofNat n).toUInt64)

theorem placeForm_integer (h : Heap) (n : Nat) :
    placeForm h (.integer (Int64.ofNat n)) = some (position n) := rfl

theorem int64_ofNat_inj {m n : Nat} (hm : m < 2 ^ 63) (hn : n < 2 ^ 63)
    (heq : Int64.ofNat m = Int64.ofNat n) : m = n := by
  have := congrArg Int64.toInt heq
  rw [Int64.toInt_ofNat_of_lt hm, Int64.toInt_ofNat_of_lt hn] at this
  exact_mod_cast this

theorem position_inj {m n : Nat} (hm : m < 2 ^ 63) (hn : n < 2 ^ 63)
    (heq : position m = position n) : m = n := by
  simp only [position, Prod.mk.injEq, KeyForm.integer.injEq] at heq
  exact int64_ofNat_inj hm hn heq.1

/-- A map without a key. -/
noncomputable def without (g : KeyForm × UInt32 → Option LhatValue) (c : KeyForm × UInt32) :
    KeyForm × UInt32 → Option LhatValue :=
  fun c' => if c = c' then none else g c'

/-- The sequence takes in the keys that follow it, until one is not held. -/
inductive Absorbs : List LhatValue → (KeyForm × UInt32 → Option LhatValue) → List LhatValue →
    (KeyForm × UInt32 → Option LhatValue) → Prop
  | done {seq g} (hnone : g (position seq.length) = none) : Absorbs seq g seq g
  | take {seq g seq' g'} {value : LhatValue} (hsome : g (position seq.length) = some value)
      (hrest : Absorbs (seq ++ [value]) (without g (position seq.length)) seq' g') :
      Absorbs seq g seq' g'

/-- What lengthening leaves of a sequence and of the map beside it. -/
noncomputable def lengthened (fill : LhatValue) : Nat → List LhatValue →
    (KeyForm × UInt32 → Option LhatValue) → List LhatValue × (KeyForm × UInt32 → Option LhatValue)
  | 0, seq, g => (seq, g)
  | missing + 1, seq, g =>
    lengthened fill missing (seq ++ [(g (position seq.length)).getD fill])
      (without g (position seq.length))

section Dense

variable {h : Heap} {t : LhatTable}

theorem not_isType_integer (i : Int64) : ¬IsType h (.integer i) := by
  rintro ⟨o, s, heq, -⟩
  cases heq

section

variable (hw : t.Wf h)
include hw

theorem LhatTable.Wf.keyFits_of_not_type {key : LhatValue} (hs : Storable key)
    (hne : ¬IsType h key) : KeyFits h t key :=
  ⟨hs, fun held hmem => keysTold_of_not_type (hw.storable held hmem).normal hs.normal
    (hw.storable held hmem).usable hs.usable fun hand => hne hand.2⟩

theorem LhatTable.Wf.keyFits_integer (i : Int64) : KeyFits h t (.integer i) :=
  hw.keyFits_of_not_type ⟨rfl, rfl⟩ (not_isType_integer i)

theorem LhatTable.Wf.length_lt : t.array.length < 2 ^ 60 := by
  have := hw.dense
  have := hw.bounded
  omega

theorem LhatTable.Wf.findEntry (n : Nat) :
    ∃ r, findEntry h t n = some r ∧
      (r = none ∧ t.find h (position n) = none ∨
        ∃ i < t.entries.length, r = some i ∧ (t.entryAt i).key ≠ .nil ∧
          placeForm h (t.entryAt i).key = some (position n) ∧
          t.find h (position n) = some (t.entryAt i).value) := by
  unfold Lhat.findEntry
  by_cases hcount : t.entryCount = 0
  · refine ⟨none, if_pos hcount, Or.inl ⟨rfl, hw.find_eq_none.2 fun entry hmem hne => ?_⟩⟩
    have hzero := hw.counted.symm.trans hcount
    rw [List.countP_eq_zero] at hzero
    exact absurd (by simpa using hzero entry hmem) hne
  · rw [if_neg hcount]
    have hne : t.entries ≠ [] := by
      intro he
      rw [hw.counted, he] at hcount
      exact hcount rfl
    obtain ⟨i, hi, hprobe, hprobed⟩ := hw.probe_spec hne (hw.keyFits_integer (Int64.ofNat n))
    simp only [hprobe]
    refine ⟨_, rfl, ?_⟩
    by_cases hkey : (t.entryAt i).key = .nil
    · rw [if_pos (LhatValue.isNil_iff.2 hkey)]
      exact Or.inl ⟨rfl, hprobed.find_absent hw hkey (placeForm_integer h n)⟩
    · rw [if_neg (by simpa using hkey)]
      obtain ⟨c, hc, hkc, hfind⟩ := hprobed.find_held hw hi hkey
      obtain rfl : position n = c := Option.some.inj hkc
      exact Or.inr ⟨i, hi, rfl, hkey, hc, hfind⟩

theorem LhatTable.Wf.makeRoom (m : Memory) :
    (makeRoom m t).refused = false ∧
      ((makeRoom m t).memory.refused = false → (makeRoom m t).ok = true ∧ m.refused = false) ∧
      ((makeRoom m t).ok = false ∧ (makeRoom m t).table = t ∨
        (makeRoom m t).ok = true ∧ ∃ capacity, (makeRoom m t).table = { t with
          arrayCapacity := capacity } ∧ t.array.length < capacity ∧ capacity * 8 < 2 ^ 63) := by
  have hdense := hw.dense
  unfold Lhat.makeRoom
  split
  · next hfull =>
      unfold growArray
      obtain ⟨capacity, hcapacity⟩ :
          ∃ capacity, capacity = if t.arrayCapacity = 0 then 8 else t.arrayCapacity * 2 := ⟨_, rfl⟩
      have hlt : t.array.length < capacity := by
        rw [hcapacity]
        split <;> omega
      simp only [← hcapacity]
      cases hv : m.granted (capacity * 8) with
      | false =>
        exact ⟨rfl, fun hr => by simp [Memory.refused_request, hv] at hr, Or.inl ⟨rfl, rfl⟩⟩
      | true =>
        have hbytes : capacity * 8 < 2 ^ 63 := by
          simp only [Memory.granted, Bool.and_eq_true, decide_eq_true_eq] at hv
          exact hv.2
        cases ht : (m.request (capacity * 8)).granted capacity with
        | false =>
          exact ⟨rfl, fun hr => by simp [Memory.refused_request, ht] at hr, Or.inl ⟨rfl, rfl⟩⟩
        | true =>
          refine ⟨rfl, fun hr => ⟨rfl, ?_⟩, Or.inr ⟨rfl, capacity, rfl, hlt, hbytes⟩⟩
          exact (Memory.refused_request.1 (Memory.refused_request.1 hr).1).1
  · next hroom =>
      exact ⟨rfl, fun hr => ⟨rfl, hr⟩, Or.inr ⟨rfl, t.arrayCapacity, rfl, by omega, hw.bounded⟩⟩

theorem LhatTable.Wf.append (capacity : Nat) (hlt : t.array.length < capacity)
    (hbytes : capacity * 8 < 2 ^ 63) (value : LhatValue) :
    ({ t with arrayCapacity := capacity }.append value).Wf h :=
  hw.of_entries rfl rfl rfl (by simp [LhatTable.append]; omega) hbytes

theorem LhatTable.Wf.take {i n : Nat} (hi : i < t.entries.length)
    (hkey : (t.entryAt i).key ≠ .nil) (hplace : placeForm h (t.entryAt i).key = some (position n)) :
    (t.bury i).touch.Wf h ∧ (t.bury i).touch.find h = without (t.find h) (position n) ∧
      ∀ held ∈ (t.bury i).touch.keys, held ∈ t.keys := by
  have hwf := hw.bury hi hkey
  refine ⟨hwf.touch, funext fun c => ?_, fun held hmem => ?_⟩
  · show (t.bury i).find h c = _
    rw [hw.find_bury hi hwf hkey, hplace, without]
    simp only [Option.some.injEq]
  · rcases LhatTable.keys_set (t := t) rfl hmem with hin | hnew
    · exact hin
    · cases hnew

/-- The loop of `drain_into_array` ends, and but for memory it takes in what
follows the sequence. -/
theorem LhatTable.Wf.drain {fuel : Nat} (m : Memory) (hfuel : t.entryCount < fuel) :
    ∃ t' m', drain h fuel m t = some (t', m') ∧ t'.Wf h ∧ (∀ key ∈ t'.keys, key ∈ t.keys) ∧
      (m'.refused = false → m.refused = false ∧
        Absorbs t.array (t.find h) t'.array (t'.find h)) := by
  induction fuel generalizing m t with
  | zero => omega
  | succ fuel ih =>
    obtain ⟨r, hr, hfound⟩ := hw.findEntry t.array.length
    unfold Lhat.drain
    rcases hfound with ⟨rfl, hnone⟩ | ⟨i, hi, rfl, hkey, hplace, hsome⟩
    · exact ⟨t, m, by simp only [hr], hw, fun _ hmem => hmem, fun href => ⟨href,
        Absorbs.done hnone⟩⟩
    · obtain ⟨-, href, hroom⟩ := hw.makeRoom m
      simp only [hr]
      rcases hroom with ⟨hok, htable⟩ | ⟨hok, capacity, htable, hlt, hbytes⟩
      · refine ⟨t, (Lhat.makeRoom m t).memory, by simp [hok, htable], hw, fun _ hmem => hmem,
          fun hrefused => ?_⟩
        rw [hok] at href
        exact absurd (href hrefused).1 Bool.false_ne_true
      · obtain ⟨hwb, hfind, hkeys⟩ := hw.take hi hkey hplace
        have hwa := hwb.append capacity hlt hbytes (t.entryAt i).value
        have hpos : 0 < t.entryCount := by
          rw [hw.counted, List.countP_pos_iff]
          exact ⟨_, LhatTable.entryAt_mem hi, by rw [entryKey_eq_some.2 ⟨rfl, hkey⟩]; rfl⟩
        have hcount : ({ (t.bury i).touch with arrayCapacity := capacity }.append
            (t.entryAt i).value).entryCount < fuel := by
          show t.entryCount - 1 < fuel
          omega
        obtain ⟨t', m', hdrain, hw', hkeys', habsorb⟩ := ih hwa (Lhat.makeRoom m t).memory hcount
        refine ⟨t', m', ?_, hw', fun key hmem => hkeys key (hkeys' key hmem), fun hrefused => ?_⟩
        · rw [if_pos hok, ← hdrain, htable]
          rfl
        · obtain ⟨hroomed, habs⟩ := habsorb hrefused
          refine ⟨(href hroomed).2, Absorbs.take hsome ?_⟩
          rw [← hfind]
          exact habs

theorem LhatTable.Wf.drainIntoArray (m : Memory) :
    ∃ t' m', drainIntoArray h m t = some (t', m') ∧ t'.Wf h ∧ (∀ key ∈ t'.keys, key ∈ t.keys) ∧
      (m'.refused = false → m.refused = false ∧
        Absorbs t.array (t.find h) t'.array (t'.find h)) :=
  hw.drain m (Nat.lt_succ_self _)

end

theorem without_of_none {g : KeyForm × UInt32 → Option LhatValue} {c : KeyForm × UInt32}
    (hnone : g c = none) : without g c = g := by
  funext c'
  unfold without
  split
  · next hcc => rw [← hcc, hnone]
  · rfl

theorem LhatTable.Wf.lengthen (fill : LhatValue) (missing : Nat) (hw : t.Wf h) (m : Memory) :
    ∃ made, lengthen h fill missing m t = some made ∧ made.refused = false ∧ made.table.Wf h ∧
      (∀ key ∈ made.table.keys, key ∈ t.keys) ∧
      (made.memory.refused = false → made.ok = true ∧ m.refused = false ∧
        (made.table.array, made.table.find h) = lengthened fill missing t.array (t.find h)) := by
  induction missing generalizing m t with
  | zero => exact ⟨_, rfl, rfl, hw, fun _ hmem => hmem, fun hr => ⟨rfl, hr, rfl⟩⟩
  | succ missing ih =>
    obtain ⟨hflag, href, hroom⟩ := hw.makeRoom m
    unfold Lhat.lengthen
    rcases hroom with ⟨hok, htable⟩ | ⟨hok, capacity, htable, hlt, hbytes⟩
    · refine ⟨Lhat.makeRoom m t, by simp [hok], hflag, by rwa [htable], by simp [htable],
        fun hr => ?_⟩
      rw [hok] at href
      exact absurd (href hr).1 Bool.false_ne_true
    · have hwr : ({ t with arrayCapacity := capacity } : LhatTable).Wf h :=
        hw.of_entries rfl rfl rfl hlt.le hbytes
      obtain ⟨r, hr, hfound⟩ := hwr.findEntry t.array.length
      rcases hfound with ⟨rfl, hnone⟩ | ⟨i, hi, rfl, hkey, hplace, hsome⟩
      · obtain ⟨made, hmade, hmf, hwm, hkeys, hsaid⟩ :=
          ih (hw.append _ hlt hbytes fill) (Lhat.makeRoom m t).memory
        refine ⟨made, ?_, hmf, hwm, hkeys, fun hrefused => ?_⟩
        · simp only [hok, if_true, htable, hr]
          exact hmade
        · obtain ⟨hmok, hroomed, heq⟩ := hsaid hrefused
          refine ⟨hmok, (href hroomed).2, ?_⟩
          have hnone' : t.find h (position t.array.length) = none := hnone
          rw [heq, lengthened, hnone', Option.getD_none, without_of_none hnone']
          rfl
      · have hkey' : (t.entryAt i).key ≠ .nil := hkey
        obtain ⟨hwb, hfind, htaken⟩ := hw.take hi hkey' hplace
        obtain ⟨made, hmade, hmf, hwm, hkeys, hsaid⟩ :=
          ih (hwb.append capacity hlt hbytes (t.entryAt i).value)
            (Lhat.makeRoom m t).memory
        refine ⟨made, ?_, hmf, hwm, fun key hmem => htaken key (hkeys key hmem),
          fun hrefused => ?_⟩
        · simp only [hok, if_true, htable, hr]
          exact hmade
        · obtain ⟨hmok, hroomed, heq⟩ := hsaid hrefused
          refine ⟨hmok, (href hroomed).2, ?_⟩
          have hsome' : t.find h (position t.array.length) = some (t.entryAt i).value := hsome
          rw [heq, lengthened, hsome', Option.getD_some, ← hfind]
          rfl

theorem LhatTable.Wf.shorten (hw : t.Wf h) (length : Nat) :
    ({ t with array := t.array.take length } : LhatTable).Wf h := by
  refine hw.of_entries rfl rfl rfl ?_ hw.bounded
  have := hw.dense
  simp only [List.length_take]
  omega

/-- `lhat_table_resize` ends; but for memory the sequence is cut or filled to the
length, and takes in what follows. -/
theorem LhatTable.Wf.resize (hw : t.Wf h) (m : Memory) (length : Nat) (fill : LhatValue) :
    ∃ made, lhatTableResize h m t length fill = some made ∧ made.refused = false ∧
      made.table.Wf h ∧ (∀ key ∈ made.table.keys, key ∈ t.keys) ∧
      (made.memory.refused = false → made.ok = true ∧ m.refused = false ∧
        ∃ seq g, lengthened fill (length - (t.array.take length).length) (t.array.take length)
            (t.find h) = (seq, g) ∧
          Absorbs seq g made.table.array (made.table.find h)) := by
  obtain ⟨made, hmade, hflag, hwm, hkeys, hsaid⟩ :=
    (hw.shorten length).lengthen fill (length - (t.array.take length).length) m
  unfold lhatTableResize
  simp only [hmade]
  cases hok : made.ok with
  | false =>
    refine ⟨made, by simp, hflag, hwm, hkeys, fun hr => ?_⟩
    rw [hok] at hsaid
    exact absurd (hsaid hr).1 Bool.false_ne_true
  | true =>
    obtain ⟨t', m', hdrain, hw', hkeys', habsorb⟩ := hwm.drainIntoArray made.memory
    refine ⟨{ ok := true, table := t', memory := m' }, by simp [hdrain], rfl, hw',
      fun key hmem => hkeys key (hkeys' key hmem), fun hr => ?_⟩
    obtain ⟨hroomed, habs⟩ := habsorb hr
    obtain ⟨-, hmr, heq⟩ := hsaid hroomed
    exact ⟨rfl, hmr, _, _, heq.symm, habs⟩

/-- What a write under a normalised key leaves, short of memory running out. -/
def SetTo (h : Heap) (t : LhatTable) (key value : LhatValue) (t' : LhatTable) : Prop :=
  match arrayIndex t key with
  | some index => t'.array = t.array.set index value ∧ t'.find h = t.find h
  | none =>
    if namesNext t key then Absorbs (t.array ++ [value]) (t.find h) t'.array (t'.find h)
    else t'.array = t.array ∧ t'.find h = setFound h t key value

theorem LhatTable.Wf.set (hw : t.Wf h) (m : Memory) {key : LhatValue}
    (hkey : refusedKey h key = false) (hfit : KeyFits h t (normaliseKey key)) (value : LhatValue) :
    ∃ made, lhatTableSet h m t key value = some made ∧ made.refused = false ∧ made.table.Wf h ∧
      (∀ held ∈ made.table.keys, held ∈ t.keys ∨ held = normaliseKey key) ∧
      (made.memory.refused = false → made.ok = true ∧ m.refused = false ∧
        SetTo h t (normaliseKey key) value made.table) := by
  unfold lhatTableSet SetTo
  simp only [hkey, Bool.false_eq_true, if_false]
  cases hindex : arrayIndex t (normaliseKey key) with
  | some index =>
    refine ⟨_, rfl, rfl, hw.of_entries rfl rfl rfl ?_ hw.bounded, fun _ hmem => Or.inl hmem,
      fun hr => ⟨rfl, hr, rfl, rfl⟩⟩
    simpa using hw.dense
  | none =>
    simp only []
    cases hnext : namesNext t (normaliseKey key) with
    | true =>
      obtain ⟨hflag, href, hroom⟩ := hw.makeRoom m
      simp only [if_true]
      rcases hroom with ⟨hok, htable⟩ | ⟨hok, capacity, htable, hlt, hbytes⟩
      · refine ⟨Lhat.makeRoom m t, by simp [hok], hflag, by rwa [htable], ?_, fun hr => ?_⟩
        · rw [htable]
          exact fun _ hmem => Or.inl hmem
        · rw [hok] at href
          exact absurd (href hr).1 Bool.false_ne_true
      · obtain ⟨t', m', hdrain, hw', hkeys, habsorb⟩ :=
          (hw.append _ hlt hbytes value).drainIntoArray (Lhat.makeRoom m t).memory
        refine ⟨{ ok := true, table := t', memory := m' }, ?_, rfl, hw', fun key hmem =>
          Or.inl (hkeys key hmem), fun hr => ?_⟩
        · rw [if_pos hok, htable, hdrain, Option.map_some]
        · obtain ⟨hroomed, habs⟩ := habsorb hr
          exact ⟨rfl, (href hroomed).2, habs⟩
    | false =>
      obtain ⟨made, hmade, hflag, href, hwritten⟩ := hw.setEntry m hfit value
      simp only [Bool.false_eq_true, if_false]
      rcases hwritten with ⟨hok, htable⟩ | ⟨hok, hwritten⟩
      · refine ⟨made, hmade, hflag, by rwa [htable], ?_, fun hr => ?_⟩
        · rw [htable]
          exact fun _ hmem => Or.inl hmem
        · rw [hok] at href
          exact absurd (href hr).1 Bool.false_ne_true
      · exact ⟨made, hmade, hflag, hwritten.wf, hwritten.keys, fun hr =>
          ⟨hok, (href hr).2, hwritten.array, hwritten.find⟩⟩

theorem wf_new (h : Heap) : lhatTableNew.Wf h := by
  refine ⟨fun hne => absurd rfl hne, fun hne => absurd rfl hne, rfl, le_refl _, le_refl _, ?_, ?_,
    le_refl _, by decide⟩
  · intro key hmem
    cases hmem
  · intro key hmem
    cases hmem

theorem reservedCapacity_pow {need : Nat} {fuel k capacity : Nat}
    (hcap : reservedCapacity need fuel (2 ^ k) = some capacity) : ∃ e, k ≤ e ∧ capacity = 2 ^ e := by
  induction fuel generalizing k with
  | zero => cases hcap
  | succ fuel ih =>
    unfold reservedCapacity at hcap
    split at hcap
    · split at hcap
      · cases hcap
      · rw [← pow_succ] at hcap
        obtain ⟨e, hle, he⟩ := ih hcap
        exact ⟨e, by omega, he⟩
    · exact ⟨k, le_refl k, (Option.some.inj hcap).symm⟩

/-- A table as the allocator hands it out. -/
inductive Fresh : LhatTable → Prop
  | new : Fresh lhatTableNew
  | reserved {m : Memory} {hashEntries : Nat} {t : LhatTable}
      (hmade : lhatTableNewReserved m hashEntries = some t) : Fresh t

theorem Fresh.entries {t : LhatTable} (hfresh : Fresh t) :
    ∃ n, t = { entries := List.replicate n {} } ∧ (n = 0 ∨ ∃ e, 2 ≤ e ∧ n = 2 ^ e) := by
  cases hfresh with
  | new => exact ⟨0, rfl, Or.inl rfl⟩
  | reserved hmade =>
    unfold lhatTableNewReserved at hmade
    split at hmade
    · split at hmade
      · obtain rfl := Option.some.inj hmade
        exact ⟨0, rfl, Or.inl rfl⟩
      · cases hmade
    · split at hmade
      · cases hmade
      · next capacity hcap =>
          split at hmade
          · cases hmade
          · split at hmade
            · obtain rfl := Option.some.inj hmade
              obtain ⟨e, hle, rfl⟩ := reservedCapacity_pow (k := 2) hcap
              exact ⟨2 ^ e, rfl, Or.inr ⟨e, hle, rfl⟩⟩
            · cases hmade

theorem LhatTable.find_of_blank {n : Nat} (hw : t.Wf h) (he : t.entries = List.replicate n {})
    (c : KeyForm × UInt32) : t.find h c = none := by
  refine hw.find_eq_none.2 fun entry hmem hne => ?_
  rw [he] at hmem
  rw [List.eq_of_mem_replicate hmem] at hne
  exact absurd rfl hne

theorem Fresh.wf (h : Heap) {t : LhatTable} (hfresh : Fresh t) : t.Wf h := by
  obtain ⟨n, rfl, rfl | ⟨e, he, rfl⟩⟩ := hfresh.entries
  · exact wf_new h
  · have hfour : 4 ≤ 2 ^ e := by
      rw [show (4 : Nat) = 2 ^ 2 by rfl]
      exact Nat.pow_le_pow_right (by omega) he
    have hkeys : ∀ key : LhatValue,
        key ∉ LhatTable.keys { entries := List.replicate (2 ^ e) {} } := by
      intro key hmem
      obtain ⟨hne, entry, hin, hkey⟩ := LhatTable.mem_keys.1 hmem
      rw [List.eq_of_mem_replicate hin] at hkey
      exact hne hkey.symm
    refine ⟨fun _ => OpenAddressing.SlotView.placed_replicate rfl e, fun _ => by simpa using hfour, ?_, ?_, ?_,
      fun key hmem => absurd hmem (hkeys key), fun key hmem => absurd hmem (hkeys key), le_refl _,
      Nat.two_pow_pos 63⟩
    · exact (entryKey_replicate _ rfl _).symm
    · exact (entryKey_replicate _ rfl _).le
    · exact Nat.zero_le _

end Dense

end Lhat
