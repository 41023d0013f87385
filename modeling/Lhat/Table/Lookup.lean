import Lhat.Table.Sequence

/-!
# Looking a key up

`lhatTableGet` reads the table itself before its definitions and its delegates,
so what the table holds under a key is answered whatever stands behind it
(`lhatTableGet_of_ownRead`). With nothing behind it, a key it does not hold is
`nil` (`lhatTableGet_plain`).

The equality a key is found by has to agree with the hash it is looked for by.
`hashContract_iff` says for which equal keys it does: all but two runtime types
at addresses that fold to different hashes.
-/

namespace Lhat

variable {key a b other : LhatValue} {m : Memory} {t : LhatTable} {made : Outcome}

section Get

variable {h : Heap} {s : Store} {node : Address} {t : LhatTable}

theorem address_ne_zero (hobject : h.object node = some .table) : node ≠ 0 := by
  rintro rfl
  rw [h.object_null] at hobject
  cases hobject

theorem membersTableOf_table (hobject : h.object node = some .table) :
    membersTableOf h (.object node) = node := by
  simp [membersTableOf, hobject]

theorem lhatTableGet_of_ownRead (slot : Option Nat) (hobject : h.object node = some .table)
    (htable : s.table node = some t) {value : LhatValue}
    (hu : usableKey key = true)
    (hread : ownRead h t (normaliseKey key) none (hashKey h (normaliseKey key)) =
      some (some (value, slot))) :
    lhatTableGet h s node key = some value := by
  have hne := address_ne_zero hobject
  unfold lhatTableGet tableGetIn
  simp only [hne, hu, Option.isNone_none, if_true, false_or, true_and, Bool.true_eq_false,
    if_false]
  unfold readDelegates
  simp only [hne, List.not_mem_nil, or_self, if_false, membersTableOf_table hobject, htable,
    Option.bind_eq_bind, Option.bind_some, bne_self_eq_false]
  unfold readDefinitions
  simp only [hne, if_false, htable, hread, Bool.and_false, Bool.or_self, Bool.false_eq_true]
  cases slot <;> simp

theorem lhatTableGet_plain (hobject : h.object node = some .table) (htable : s.table node = some t)
    (hdefinition : t.definition = 0) (hu : usableKey key = true)
    (hread : ownRead h t (normaliseKey key) none (hashKey h (normaliseKey key)) = some none) :
    lhatTableGet h s node key = some .nil := by
  have hne := address_ne_zero hobject
  have hnext : delegateNext h s node = some 0 := by
    simp [delegateNext, hobject, htable, hdefinition]
  unfold lhatTableGet tableGetIn
  simp only [hne, hu, Option.isNone_none, if_true, false_or, true_and, Bool.true_eq_false,
    if_false]
  unfold readDelegates
  simp only [hne, List.not_mem_nil, or_self, if_false, membersTableOf_table hobject, htable,
    Option.bind_eq_bind, Option.bind_some, bne_self_eq_false]
  unfold readDefinitions
  simp only [hne, if_false, htable, hread, hdefinition]
  cases hlen : s.length with
  | zero =>
    have : s = [] := List.eq_nil_of_length_eq_zero hlen
    simp [this, Store.table] at htable
  | succ n =>
    unfold readDefinitions
    simp only [if_true, Option.bind_some, hnext]
    unfold readDelegates
    simp

end Get

section Contract

variable {h : Heap} {t : LhatTable}

/-- What a table keeps whatever its keys are. -/
structure Held (t : LhatTable) : Prop where
  storable : ∀ key ∈ t.keys, Storable key
  bounded : t.array.length < 2 ^ 63

/-- Every key of the table, and `key` itself, is compared with the two by walks
that end. -/
def Compared (h : Heap) (t : LhatTable) (key other : LhatValue) : Prop :=
  ∀ held, held ∈ t.keys ∨ held = key →
    (∃ r, lhatValueEqual h held key = some r) ∧ ∃ r, lhatValueEqual h held other = some r

/-- The contract of a hash and an equality, for one pair of keys: they hash alike,
and what is set under one is answered under the other. -/
def HashContract (h : Heap) (a b : LhatValue) : Prop :=
  hashKey h (normaliseKey a) = hashKey h (normaliseKey b) ∧
    ∀ (m : Memory) (t : LhatTable) (value : LhatValue) (made : Outcome), Held t → value ≠ .nil →
      Compared h t (normaliseKey a) (normaliseKey b) →
      lhatTableSet h m t a value = some made → made.ok = true → made.refused = false →
      ∀ (s : Store) (node : Address), h.object node = some .table →
        s.table node = some made.table → lhatTableGet h s node b = some value

theorem growEntries_keys (hmade : growEntries h m t = some made) (hmem : key ∈ made.table.keys) : key ∈ t.keys := by
  unfold growEntries at hmade
  simp only at hmade
  split at hmade
  · split at hmade
    · cases hmade
    · next entries moved hrehash =>
        obtain rfl := Option.some.inj hmade
        obtain ⟨hne, entry, hin, rfl⟩ := LhatTable.mem_keys.1 hmem
        rcases OpenAddressing.mem_rehash hrehash hin with hblank | hold
        · rw [List.eq_of_mem_replicate hblank] at hne
          exact absurd rfl hne
        · exact LhatTable.mem_keys.2 ⟨hne, entry, hold, rfl⟩
  · obtain rfl := Option.some.inj hmade
    exact hmem

theorem growEntries_array (hmade : growEntries h m t = some made) : made.table.array = t.array := by
  unfold growEntries at hmade
  simp only at hmade
  split at hmade
  · split at hmade
    · cases hmade
    · obtain rfl := Option.some.inj hmade
      rfl
  · obtain rfl := Option.some.inj hmade
    rfl

theorem makeEntryRoom_same (hmade : makeEntryRoom h m t = some made) :
    made.table.array = t.array ∧ ∀ key ∈ made.table.keys, key ∈ t.keys := by
  unfold makeEntryRoom at hmade
  split at hmade
  · exact ⟨growEntries_array hmade, fun key hmem => growEntries_keys hmade hmem⟩
  · obtain rfl := Option.some.inj hmade
    exact ⟨rfl, fun key hmem => hmem⟩

theorem lhatValueEqual_congr {held : LhatValue} {c : KeyForm} (hheld : Storable held)
    (ha : NormalKey a) (hb : NormalKey b) (hca : keyForm h a = some c) (hcb : keyForm h b = some c)
    {r r' : Bool} (hr : lhatValueEqual h held a = some r) (hr' : lhatValueEqual h held b = some r') :
    r' = r := by
  have hiff := lhatValueEqual_decides hheld.normal ha hheld.usable r hr
  have hiff' := lhatValueEqual_decides hheld.normal hb hheld.usable r' hr'
  rw [Bool.eq_iff_iff, hiff, hiff', hca, hcb]

/-- Two keys looked for alike: of one form and one hash, and naming one position. -/
structure SoughtAlike (h : Heap) (key other : LhatValue) : Prop where
  storable : Storable key
  other_storable : Storable other
  form : ∃ c, keyForm h key = some c ∧ keyForm h other = some c
  hash : hashKey h key = hashKey h other
  index : ∀ t, arrayIndex t other = arrayIndex t key

theorem lhatValueEqual_nil (hne : key ≠ .nil) : lhatValueEqual h .nil key = some false := by
  cases key <;> simp [lhatValueEqual] at hne ⊢

theorem SoughtAlike.equal (halike : SoughtAlike h key other)
    {r : Bool} (hr : lhatValueEqual h key other = some r) : r = true :=
  (lhatValueEqual_decides halike.storable.normal halike.other_storable.normal
    halike.storable.usable r hr).2 halike.form

theorem SoughtAlike.probe_set (halike : SoughtAlike h key other)
    (value : LhatValue)
    {entries : List LhatTableEntry} {i : Nat}
    (hcompared : ∀ entry ∈ entries, entry.key ≠ .nil → Storable entry.key ∧
      (∃ r, lhatValueEqual h entry.key key = some r) ∧
      ∃ r, lhatValueEqual h entry.key other = some r)
    (hself : ∃ r, lhatValueEqual h key other = some r)
    (hprobe : probe h entries key (hashKey h key) = some i) :
    probeSpelt h (entries.set i { key, value }) other none (hashKey h other) = some i ∧
      i < entries.length := by
  unfold probe probeSpelt at hprobe
  unfold probeSpelt
  rw [← halike.hash, List.length_set]
  refine ⟨OpenAddressing.search_set entryIsFree entryIsTombstone _ entries ?_ ?_ ?_ ?_
      (fun i hi => by cases hi) hprobe, OpenAddressing.search_lt _ _ _ entries (fun i hi => by cases hi) hprobe⟩
  · intro entry hmem
    by_cases hnil : entry.key = .nil
    · simp only [hnil]
      rw [lhatValueEqual_nil halike.storable.ne_nil, lhatValueEqual_nil halike.other_storable.ne_nil]
    · obtain ⟨hs, ⟨r, hr⟩, r', hr'⟩ := hcompared entry hmem hnil
      obtain ⟨c, hca, hcb⟩ := halike.form
      simp only [hr, hr']
      rw [lhatValueEqual_congr hs halike.storable.normal halike.other_storable.normal hca hcb hr hr']
  · exact entryIsFree_of_keyed halike.storable.ne_nil
  · exact entryIsTombstone_of_keyed _ halike.storable.ne_nil
  · obtain ⟨r, hr⟩ := hself
    simp only [hr, halike.equal hr]

theorem makeRoom_table (m : Memory) (t : LhatTable) :
    ∃ capacity, (makeRoom m t).table = { t with arrayCapacity := capacity } := by
  unfold makeRoom growArray
  by_cases hfull : t.array.length = t.arrayCapacity
  · simp only [if_pos hfull]
    split_ifs
    all_goals exact ⟨_, rfl⟩
  · simp only [if_neg hfull]
    exact ⟨t.arrayCapacity, rfl⟩

theorem drain_prefix {fuel : Nat} {m' : Memory} {t' : LhatTable}
    (hdrain : drain h fuel m t = some (t', m')) : t.array <+: t'.array := by
  induction fuel generalizing m t with
  | zero => cases hdrain
  | succ fuel ih =>
    unfold drain at hdrain
    split at hdrain
    · cases hdrain
    · simp only [Option.some.injEq, Prod.mk.injEq] at hdrain
      exact hdrain.1 ▸ List.prefix_refl _
    · obtain ⟨capacity, htable⟩ := makeRoom_table m t
      simp only [htable] at hdrain
      split at hdrain
      · exact (List.prefix_append t.array _).trans (ih hdrain)
      · simp only [Option.some.injEq, Prod.mk.injEq] at hdrain
        exact hdrain.1 ▸ List.prefix_refl _

theorem arrayIndex_lt {i : Nat} (hindex : arrayIndex t key = some i) : i < t.array.length := by
  unfold arrayIndex at hindex
  simp only at hindex
  split at hindex
  · split at hindex
    · cases hindex
    · obtain rfl := Option.some.inj hindex
      omega
  · split at hindex
    · split at hindex
      · cases hindex
      · obtain rfl := Option.some.inj hindex
        omega
    · cases hindex
  · cases hindex

theorem arrayIndex_congr {t' : LhatTable} (hlen : t'.array.length = t.array.length)
    (key : LhatValue) : arrayIndex t' key = arrayIndex t key := by
  unfold arrayIndex
  simp only [hlen]

theorem namesNext_iff : namesNext t key = true ↔ key = .integer (Int64.ofNat t.array.length) := by
  cases key with
  | integer i =>
    simp only [namesNext, beq_iff_eq, LhatValue.integer.injEq]
    constructor
    · intro heq
      have := congrArg UInt64.toInt64 heq
      simpa using this
    · rintro rfl
      simp
  | _ => simp [namesNext]

theorem arrayIndex_position {n : Nat} (hn : n < t.array.length)
    (hlen : n < 2 ^ 63) : arrayIndex t (.integer (Int64.ofNat n)) = some n := by
  simp only [arrayIndex, Int64.toInt_ofNat_of_lt hlen]
  rw [if_neg (by omega)]
  simp

theorem SoughtAlike.ownRead_set {value : LhatValue} (halike : SoughtAlike h (normaliseKey a) other)
    (hheld : Held t) (hvalue : value ≠ .nil) (hcompared : Compared h t (normaliseKey a) other)
    (hmade : lhatTableSet h m t a value = some made) (hok : made.ok = true)
    (hrefused : made.refused = false) :
    ∃ slot, ownRead h made.table other none (hashKey h other) = some (some (value, slot)) := by
  unfold lhatTableSet at hmade
  split at hmade
  · obtain rfl := Option.some.inj hmade
    cases hrefused
  simp only at hmade
  unfold ownRead
  simp only [Option.isNone_none, if_true, halike.index]
  split at hmade
  · next index hindex =>
      obtain rfl := Option.some.inj hmade
      have hlt := arrayIndex_lt hindex
      rw [arrayIndex_congr (t := t) (List.length_set) (normaliseKey a), hindex]
      exact ⟨none, by simp [List.getD, hlt]⟩
  · next hindex =>
      split at hmade
      · next hnext =>
          rw [namesNext_iff] at hnext
          obtain ⟨capacity, htable⟩ := makeRoom_table m t
          simp only [htable] at hmade
          split at hmade
          · obtain ⟨⟨t', m'⟩, hdrain, rfl⟩ := Option.map_eq_some_iff.1 hmade
            obtain ⟨suffix, hsuffix⟩ := drain_prefix hdrain
            have harray : t'.array = (t.array ++ [value]) ++ suffix := hsuffix.symm
            have hlt : t.array.length < t'.array.length := by
              rw [harray]
              simp
            simp only [hnext, arrayIndex_position hlt hheld.bounded]
            exact ⟨none, by simp [harray, List.getD]⟩
          · next hroom =>
              obtain rfl := Option.some.inj hmade
              exact absurd hok hroom
      · unfold setEntry at hmade
        rw [if_neg (by simpa using hvalue)] at hmade
        simp only [Option.bind_eq_bind, Option.bind_eq_some_iff] at hmade
        obtain ⟨room, hroom, hmade⟩ := hmade
        obtain ⟨harray, hkeys⟩ := makeEntryRoom_same hroom
        split at hmade
        · obtain ⟨i, hprobe, hmade⟩ := Option.bind_eq_some_iff.1 hmade
          obtain rfl := Option.some.inj hmade
          have hcomp : ∀ entry ∈ room.table.entries, entry.key ≠ .nil → Storable entry.key ∧
              (∃ r, lhatValueEqual h entry.key (normaliseKey a) = some r) ∧
              ∃ r, lhatValueEqual h entry.key other = some r := by
            intro entry hmem hne
            have hin := hkeys _ (LhatTable.mem_keys.2 ⟨hne, entry, hmem, rfl⟩)
            exact ⟨hheld.storable _ hin, hcompared _ (Or.inl hin)⟩
          obtain ⟨hfound, hlt⟩ := halike.probe_set value hcomp
            (hcompared _ (Or.inr rfl)).2 hprobe
          obtain ⟨made, hset, hsame⟩ : ∃ made : LhatTable,
              made.entries = room.table.entries.set i { key := normaliseKey a, value } ∧
                made = (if (room.table.entryAt i).key.isNil = true
                  then room.table.put i (normaliseKey a) value
                  else room.table.overwrite i (normaliseKey a) value) ∧
                made.array = room.table.array := by
            refine ⟨_, ?_, rfl, ?_⟩ <;> split <;> rfl
          have hne : made.entries ≠ [] := by
            rw [hset]
            exact List.ne_nil_of_length_pos (by rw [List.length_set]; omega)
          have hat : made.entryAt i = { key := normaliseKey a, value } := by
            refine LhatTable.entryAt_eq ?_
            rw [hset, List.getElem?_set_self hlt]
          have hlen : made.array.length = t.array.length := by rw [hsame.2, harray]
          rw [← hset] at hfound
          simp only [← hsame.1]
          rw [arrayIndex_congr hlen, hindex]
          exact ⟨some i, by simp [hne, hfound, hat, hvalue, halike.storable.ne_nil]⟩
        · next hroom =>
            obtain rfl := Option.some.inj hmade
            exact absurd hok hroom

/-- The keys the contract fails of: two runtime types whose addresses fold to two
hashes. -/
def HashedApart (h : Heap) (a b : LhatValue) : Prop :=
  ∃ o p s t, a = .object o ∧ b = .object p ∧ h.object o = some (.type s) ∧
    h.object p = some (.type t) ∧ fold64 o ≠ fold64 p

theorem hashObject_type {o : Address} {s : LhatRuntimeType} (ho : h.object o = some (.type s)) :
    hashObject h o = fold64 o := by
  simp [hashObject, ho]

theorem keyForm_of_equal (hua : usableKey a = true)
    (heq : lhatValueEqual h a b = some true) : ∃ c, keyForm h (normaliseKey a) = some c := by
  cases a with
  | bool | integer | object => exact ⟨_, rfl⟩
  | real d =>
    simp only [normaliseKey]
    split
    · exact ⟨_, rfl⟩
    · have hnan : d.isNan = false := by simpa [usableKey, Binary64.eq] using hua
      exact ⟨.real d, by simp [keyForm, hnan]⟩
  | nil | hostvalue => exact absurd hua (by simp [usableKey])
  | cont | run => cases b <;> simp [lhatValueEqual] at heq

theorem soughtAlike_of_equal (hua : usableKey a = true)
    (hub : usableKey b = true) (heq : lhatValueEqual h a b = some true)
    (hapart : ¬HashedApart h a b) : SoughtAlike h (normaliseKey a) (normaliseKey b) := by
  have hsa := storable_normaliseKey hua
  have hsb := storable_normaliseKey hub
  rcases normaliseKey_of_equal hua heq with hsame | ⟨o, p, rfl, rfl⟩
  · obtain ⟨c, hc⟩ := keyForm_of_equal hua heq
    refine ⟨hsa, hsb, ⟨c, hc, by rwa [← hsame]⟩, by rw [hsame], fun t => by rw [hsame]⟩
  · have hform : objectForm h o = objectForm h p := (objectEqual_decides h o p true heq).1 rfl
    refine ⟨hsa, hsb, ⟨_, rfl, by rw [hform]; rfl⟩, ?_, fun t => rfl⟩
    by_cases htype : IsType h (.object o)
    · have htypes := isType_of_form (b := .object p) rfl (by rw [hform]; rfl) htype
      obtain ⟨_, s, ho, hs⟩ := htype
      obtain ⟨_, t, hp, ht⟩ := htypes
      cases ho
      cases hp
      by_contra hne
      refine hapart ⟨o, p, s, t, rfl, rfl, hs, ht, fun hfold => hne ?_⟩
      show hashObject h o = hashObject h p
      rw [hashObject_type hs, hashObject_type ht, hfold]
    · exact hashKey_congr htype rfl (by rw [hform]; rfl)

/-- The contract holds of two equal keys exactly when they are not hashed apart. -/
theorem hashContract_iff {a b : LhatValue} (hua : usableKey a = true) (hub : usableKey b = true)
    (heq : lhatValueEqual h a b = some true) : HashContract h a b ↔ ¬HashedApart h a b := by
  constructor
  · rintro ⟨hhash, -⟩ ⟨o, p, s, t, rfl, rfl, hs, ht, hne⟩
    refine hne ?_
    rwa [show hashKey h (normaliseKey (.object o)) = hashObject h o from rfl,
      show hashKey h (normaliseKey (.object p)) = hashObject h p from rfl, hashObject_type hs,
      hashObject_type ht] at hhash
  · intro hapart
    have halike := soughtAlike_of_equal hua hub heq hapart
    refine ⟨halike.hash, fun m t value made hheld hvalue hcompared hmade hok hrefused s node
      hobject htable => ?_⟩
    obtain ⟨slot, hread⟩ := halike.ownRead_set hheld hvalue hcompared hmade hok hrefused
    exact lhatTableGet_of_ownRead _ hobject htable hub hread

end Contract

/-- A heap with one table and two runtime types that say the same, which is `any^`. -/
def twoTypes : Heap where
  object a := if a = 16 ∨ a = 32 then some (.type {}) else if a = 48 then some .table else none
  depth := 8
  scratch _ := true
  object_null := rfl

/-- The contract of `2` and `2.0`, which are equal. -/
theorem hashContract_iff_two :
    HashContract twoTypes (.integer 2) (.real ⟨0x4000000000000000⟩) ↔
      ¬HashedApart twoTypes (.integer 2) (.real ⟨0x4000000000000000⟩) :=
  hashContract_iff rfl (by decide +kernel) (by decide +kernel)

/-- The two are equal keys of two hashes, and a table with room for forty keys
does not find under one what was set under the other. -/
theorem hashContract_fails :
    usableKey (.object 16) = true ∧ usableKey (.object 32) = true ∧
      lhatValueEqual twoTypes (.object 16) (.object 32) = some true ∧
      hashKey twoTypes (normaliseKey (.object 16)) ≠ hashKey twoTypes (normaliseKey (.object 32)) ∧
      (do
        let t ← lhatTableNewReserved { grants := fun _ => true } 40
        let made ← lhatTableSet twoTypes { grants := fun _ => true } t (.object 16) (.bool true)
        lhatTableGet twoTypes [(48, made.table)] 48 (.object 32)) = some .nil := by
  decide +kernel

end Lhat
