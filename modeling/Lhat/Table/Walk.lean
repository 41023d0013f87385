import Lhat.Table.Reference
import Lhat.Table.Upkeep

/-!
# Walking a table

A cursor goes along the sequence and then along the entries, past the slots that
hold no key. What a whole walk yields is the positions followed by the keyed
entries (`walkAll_eq`).

A real is a position as soon as the sequence covers the one it rounds to, and no
longer the key of its entry. `walk_reads` is that this is the only way in which the
walk and the lookup part, over runs that lay no key down twice: neither one that
equals a held key under another hash, nor one past the end that an entry still
stands under because memory stopped the sequence from taking it in.
-/

namespace Lhat

variable {i capacity : Nat} {m : Memory} {key : LhatValue} {made : Outcome} {s : Store}
  {node : Address} {t' : LhatTable}

/-! ### The cursor -/

/-- `LhatWalkPart`. -/
inductive LhatWalkPart where
  | pair | keys | values | range | reverse
deriving DecidableEq, Repr

/-- `LhatWalkCursor`. -/
structure LhatWalkCursor where
  walking : Address
  atArray : Nat := 0
  atEntry : Nat := 0
  part : LhatWalkPart := .pair

/-- The loop over the entries: the next keyed one of so many, and the slot past it. -/
def nextKeyed (t : LhatTable) : Nat → Nat → Option (LhatValue × LhatValue) × Nat
  | 0, i => (none, i)
  | left + 1, i =>
    let entry := t.entryAt i
    if entry.key.isNil then nextKeyed t left (i + 1) else (some (entry.key, entry.value), i + 1)

/-- `lhat_table_walk`: the pair that is yielded, if one is, and the cursor after. -/
def lhatTableWalk (s : Store) (walk : LhatWalkCursor) :
    Option (LhatValue × LhatValue) × LhatWalkCursor :=
  match s.table walk.walking with
  | none => (none, walk)
  | some t =>
    match walk.part with
    | .reverse =>
      let atArray := min walk.atArray t.array.length
      if atArray ≤ walk.atEntry then (none, { walk with atArray := atArray })
      else
        (some (.integer (Int64.ofNat (atArray - 1)), t.slot (atArray - 1)),
          { walk with atArray := atArray - 1 })
    | .range =>
      if walk.atEntry ≤ walk.atArray ∨ t.array.length ≤ walk.atArray then (none, walk)
      else
        (some (.integer (Int64.ofNat walk.atArray), t.slot walk.atArray),
          { walk with atArray := walk.atArray + 1 })
    | .pair | .keys | .values =>
      if walk.atArray < t.array.length then
        (some (.integer (Int64.ofNat walk.atArray), t.slot walk.atArray),
          { walk with atArray := walk.atArray + 1 })
      else
        let (found, i) := nextKeyed t (t.entries.length - walk.atEntry) walk.atEntry
        (found, { walk with atEntry := i })

/-- What a walk yields, over at most so many steps. -/
def walkAll (s : Store) : Nat → LhatWalkCursor → List (LhatValue × LhatValue)
  | 0, _ => []
  | fuel + 1, walk =>
    match lhatTableWalk s walk with
    | (none, _) => []
    | (some pair, walk) => pair :: walkAll s fuel walk

/-- The keyed entries. -/
def keyedPairs (entries : List LhatTableEntry) : List (LhatValue × LhatValue) :=
  entries.filterMap fun entry => if entry.key.isNil then none else some (entry.key, entry.value)

/-- The positions from one on. -/
def positionPairs (t : LhatTable) (first : Nat) : List (LhatValue × LhatValue) :=
  (List.range' first (t.array.length - first)).map fun i => (.integer (Int64.ofNat i), t.slot i)

section Walk

variable {t : LhatTable}

theorem drop_eq_entryAt_cons (hi : i < t.entries.length) :
    t.entries.drop i = t.entryAt i :: t.entries.drop (i + 1) := by
  rw [List.drop_eq_getElem_cons hi, LhatTable.entryAt_eq (List.getElem?_eq_getElem hi)]

theorem nextKeyed_spec (left : Nat) (hleft : i + left = t.entries.length) :
    (nextKeyed t left i).2 ≤ t.entries.length ∧
      ((nextKeyed t left i).1 = none ∧ keyedPairs (t.entries.drop i) = [] ∨
        ∃ pair, (nextKeyed t left i).1 = some pair ∧ i < (nextKeyed t left i).2 ∧
          keyedPairs (t.entries.drop i) =
            pair :: keyedPairs (t.entries.drop (nextKeyed t left i).2)) := by
  induction left generalizing i with
  | zero =>
    have hdrop : t.entries.drop i = [] := List.drop_of_length_le (by omega)
    exact ⟨by simp only [nextKeyed]; omega, Or.inl ⟨rfl, by rw [hdrop]; rfl⟩⟩
  | succ left ih =>
    have hdrop := drop_eq_entryAt_cons (show i < t.entries.length by omega)
    unfold nextKeyed
    simp only
    cases hkey : (t.entryAt i).key.isNil with
    | true =>
      have hsame : keyedPairs (t.entries.drop i) = keyedPairs (t.entries.drop (i + 1)) := by
        rw [hdrop, keyedPairs, List.filterMap_cons, hkey]
        rfl
      obtain ⟨hle, hnone | ⟨pair, hpair, hlt, hrest⟩⟩ :=
        ih (show i + 1 + left = t.entries.length by omega)
      · exact ⟨hle, Or.inl ⟨hnone.1, hsame.trans hnone.2⟩⟩
      · exact ⟨hle, Or.inr ⟨pair, hpair, by simp only [if_true]; omega, hsame.trans hrest⟩⟩
    | false =>
      refine ⟨by simp only [Bool.false_eq_true, if_false]; omega,
        Or.inr ⟨_, rfl, by simp, ?_⟩⟩
      rw [hdrop, keyedPairs, List.filterMap_cons, hkey]
      rfl

theorem walkAll_from (htable : s.table node = some t) (fuel : Nat)
    {first next : Nat} (hnext : next ≤ t.entries.length)
    (hfuel : t.array.length - first + (t.entries.length - next) < fuel) :
    walkAll s fuel { walking := node, atArray := first, atEntry := next } =
      positionPairs t first ++ keyedPairs (t.entries.drop next) := by
  induction fuel generalizing first next with
  | zero => omega
  | succ fuel ih =>
    unfold walkAll lhatTableWalk
    simp only [htable]
    by_cases hlt : first < t.array.length
    · have hpos : positionPairs t first =
          (.integer (Int64.ofNat first), t.slot first) :: positionPairs t (first + 1) := by
        unfold positionPairs
        rw [show t.array.length - first = t.array.length - (first + 1) + 1 by omega,
          List.range'_succ, List.map_cons]
      rw [if_pos hlt, hpos]
      simp only [List.cons_append, List.cons.injEq, true_and]
      exact ih hnext (by omega)
    · have hpos : positionPairs t first = [] := by
        unfold positionPairs
        rw [show t.array.length - first = 0 by omega]
        rfl
      rw [if_neg hlt, hpos, List.nil_append]
      obtain ⟨hle, ⟨hnone, hempty⟩ | ⟨pair, hpair, hless, hrest⟩⟩ :=
        nextKeyed_spec (t.entries.length - next)
          (show next + (t.entries.length - next) = t.entries.length by omega)
      · simp only [hnone, hempty]
      · simp only [hpair, hrest]
        rw [ih hle (by omega), hpos, List.nil_append]

theorem walkAll_eq (htable : s.table node = some t) {fuel : Nat}
    (hfuel : t.array.length + t.entries.length < fuel) :
    walkAll s fuel { walking := node } = positionPairs t 0 ++ keyedPairs t.entries :=
  walkAll_from htable fuel (Nat.zero_le _) (by simpa using hfuel)

end Walk

/-! ### Runs -/

/-- A value of the language, and not one of the tags of the machine's own slots. -/
def isSpoken : LhatValue → Bool
  | .cont _ | .run _ => false
  | _ => true

/-- The calls of a run that lays no key down twice. -/
def TableOp.Steady (h : Heap) (t : LhatTable) : TableOp → Prop
  | .set key value =>
    (value ≠ .nil → usableKey key = true →
      isSpoken key = true ∧ ∀ held ∈ t.keys, KeysTold h held (normaliseKey key)) ∧
    (namesNext t (normaliseKey key) = true → findEntry h t t.array.length = some none)
  | .resize _ _ => True
  | .reserve _ | .vacate _ => False

def SteadyRun (h : Heap) : Memory → LhatTable → List TableOp → Prop
  | _, _, [] => True
  | m, t, op :: ops =>
    op.Steady h t ∧ ∀ made, op.run h m t = some made → SteadyRun h made.memory made.table ops

/-- What such runs keep: no entry stands under a position of the sequence, every
entry has a value, and every key is one of the language. -/
structure Unshadowed (h : Heap) (t : LhatTable) : Prop where
  wf : t.Wf h
  clear : ∀ n < t.array.length, t.find h (position n) = none
  filled : ∀ c value, t.find h c = some value → value ≠ .nil
  formed : ∀ key ∈ t.keys, ∃ c, keyForm h key = some c

section Runs

variable {h : Heap} {t : LhatTable}

section

variable (hs : Unshadowed h t)
include hs

theorem Unshadowed.less (hwf : t'.Wf h)
    (hlen : t'.array.length = t.array.length)
    (hfind : ∀ c value, t'.find h c = some value → t.find h c = some value)
    (hkeys : ∀ key ∈ t'.keys, key ∈ t.keys) : Unshadowed h t' := by
  refine ⟨hwf, fun n hn => ?_, fun c value hvalue => hs.filled c value (hfind c value hvalue),
    fun key hmem => hs.formed key (hkeys key hmem)⟩
  cases hvalue : t'.find h (position n) with
  | none => rfl
  | some value =>
    have := hfind _ _ hvalue
    rw [hs.clear n (hlen ▸ hn)] at this
    cases this

theorem Unshadowed.append (hlt : t.array.length < capacity)
    (hbytes : capacity * 8 < 2 ^ 63) (hnone : t.find h (position t.array.length) = none)
    (value : LhatValue) : Unshadowed h ({ t with arrayCapacity := capacity }.append value) := by
  refine ⟨hs.wf.append capacity hlt hbytes value, fun n hn => ?_, hs.filled, hs.formed⟩
  have hn' : n < t.array.length + 1 := by simpa [LhatTable.append] using hn
  rcases Nat.lt_succ_iff_lt_or_eq.1 hn' with hlt | rfl
  · exact hs.clear n hlt
  · exact hnone

theorem Unshadowed.take
    (hlt : t.array.length < capacity) (hbytes : capacity * 8 < 2 ^ 63)
    (hi : i < t.entries.length) (hkey : (t.entryAt i).key ≠ .nil)
    (hplace : placeForm h (t.entryAt i).key = some (position t.array.length))
    (value : LhatValue) :
    Unshadowed h ({ (t.bury i).touch with arrayCapacity := capacity }.append value) := by
  obtain ⟨hwf, hfind, hkeys⟩ := hs.wf.take hi hkey hplace
  have hless : Unshadowed h (t.bury i).touch := by
    refine hs.less hwf rfl (fun c value hvalue => ?_) hkeys
    rw [hfind] at hvalue
    unfold without at hvalue
    split at hvalue
    · cases hvalue
    · exact hvalue
  refine hless.append hlt hbytes ?_ value
  show (t.bury i).touch.find h (position t.array.length) = none
  rw [hfind, without, if_pos rfl]

theorem Unshadowed.room (hlt : t.array.length < capacity)
    (hbytes : capacity * 8 < 2 ^ 63) :
    Unshadowed h { t with arrayCapacity := capacity } :=
  hs.less (hs.wf.of_entries rfl rfl rfl hlt.le hbytes) rfl (fun _ _ hvalue => hvalue)
    fun _ hmem => hmem

theorem Unshadowed.drain {fuel : Nat} {m' : Memory}
    (hdrain : drain h fuel m t = some (t', m')) : Unshadowed h t' := by
  induction fuel generalizing m t with
  | zero => cases hdrain
  | succ fuel ih =>
    obtain ⟨r, hr, hfound⟩ := hs.wf.findEntry t.array.length
    unfold Lhat.drain at hdrain
    simp only [hr] at hdrain
    rcases hfound with ⟨rfl, -⟩ | ⟨i, hi, rfl, hkey, hplace, -⟩
    · cases hdrain
      exact hs
    · obtain ⟨-, -, ⟨hok, htable⟩ | ⟨hok, capacity, htable, hlt, hbytes⟩⟩ := hs.wf.makeRoom m
      · simp only [hok, Bool.false_eq_true, if_false, htable] at hdrain
        cases hdrain
        exact hs
      · simp only [hok, if_true, htable] at hdrain
        exact ih (hs.take hlt hbytes hi hkey hplace _) hdrain

end

theorem Unshadowed.lengthen (fill : LhatValue) (missing : Nat) (hs : Unshadowed h t) (hmade : lengthen h fill missing m t = some made) :
    Unshadowed h made.table := by
  induction missing generalizing m t with
  | zero =>
    cases hmade
    exact hs
  | succ missing ih =>
    unfold Lhat.lengthen at hmade
    obtain ⟨-, -, ⟨hok, htable⟩ | ⟨hok, capacity, htable, hlt, hbytes⟩⟩ := hs.wf.makeRoom m
    · simp only [hok, Bool.false_eq_true, if_false] at hmade
      cases hmade
      rwa [htable]
    · obtain ⟨r, hr, hfound⟩ := (hs.room hlt hbytes).wf.findEntry t.array.length
      simp only [hok, if_true, htable, hr] at hmade
      rcases hfound with ⟨rfl, hnone⟩ | ⟨i, hi, rfl, hkey, hplace, -⟩
      · exact ih (hs.append hlt hbytes hnone fill) hmade
      · exact ih (hs.take hlt hbytes hi hkey hplace _) hmade

theorem Unshadowed.resize (hs : Unshadowed h t) {length : Nat} {fill : LhatValue} (hmade : lhatTableResize h m t length fill = some made) :
    Unshadowed h made.table := by
  have hshort : Unshadowed h { t with array := t.array.take length } := by
    refine ⟨hs.wf.shorten length, fun n hn => hs.clear n ?_, hs.filled, hs.formed⟩
    simp only [List.length_take] at hn
    omega
  unfold lhatTableResize at hmade
  simp only at hmade
  split at hmade
  · cases hmade
  · next longer hlonger =>
      have hl := hshort.lengthen fill _ hlonger
      split at hmade
      · split at hmade
        · cases hmade
        · next t' m' hdrain =>
            cases hmade
            exact hl.drain hdrain
      · cases hmade
        exact hl

theorem keyForm_of_spoken (husable : usableKey key = true)
    (hspoken : isSpoken key = true) : ∃ c, keyForm h (normaliseKey key) = some c := by
  cases key with
  | bool | integer | object => exact ⟨_, rfl⟩
  | real d =>
    simp only [normaliseKey]
    split
    · exact ⟨_, rfl⟩
    · have hnan : d.isNan = false := by simpa [usableKey, Binary64.eq] using husable
      exact ⟨.real d, by simp [keyForm, hnan]⟩
  | nil | hostvalue => exact absurd husable (by simp [usableKey])
  | cont | run => exact absurd hspoken (by simp [isSpoken])

theorem Unshadowed.setEntry (hs : Unshadowed h t) {value : LhatValue}
    (hindex : arrayIndex t key = none) (hnext : namesNext t key = false)
    (hfit : value ≠ .nil → KeyFits h t key ∧ ∃ c, keyForm h key = some c)
    (hmade : setEntry h m t key value = some made) : Unshadowed h made.table := by
  by_cases hvalue : value = .nil
  · subst hvalue
    unfold Lhat.setEntry at hmade
    rw [if_pos (LhatValue.isNil_iff.2 rfl)] at hmade
    split at hmade
    · cases hmade
      exact hs
    · obtain ⟨i, -, rfl⟩ := Option.map_eq_some_iff.1 hmade
      simp only
      split
      · exact hs
      · next hnil =>
          have hkey : (t.entryAt i).key ≠ .nil := by simpa using hnil
          have hi := LhatTable.lt_of_key_ne_nil hkey
          have hwf := hs.wf.bury hi hkey
          refine hs.less hwf.touch rfl (fun c value hfound => ?_) fun held hmem => ?_
          · have hfound' : (t.bury i).find h c = some value := hfound
            rw [hs.wf.find_bury hi hwf hkey] at hfound'
            split at hfound'
            · cases hfound'
            · exact hfound'
          · rcases LhatTable.keys_set (t := t) rfl hmem with hin | hnew
            · exact hin
            · cases hnew
  · obtain ⟨hfits, c, hc⟩ := hfit hvalue
    obtain ⟨made', hmade', -, -, ⟨-, htable⟩ | ⟨-, hwritten⟩⟩ := hs.wf.setEntry m hfits value
    · obtain rfl := Option.some.inj (hmade.symm.trans hmade')
      rwa [htable]
    · obtain rfl := Option.some.inj (hmade.symm.trans hmade')
      refine ⟨hwritten.wf, fun n hn => ?_, fun c' value' hfound => ?_, fun held hmem => ?_⟩
      · rw [hwritten.array] at hn
        rw [hwritten.find, setFound,
          if_neg (placeForm_ne_position hindex hnext hs.wf.length_lt hn.le)]
        exact hs.clear n hn
      · rw [hwritten.find, setFound] at hfound
        split at hfound
        · rw [if_neg (by simpa using hvalue)] at hfound
          rwa [← Option.some.inj hfound]
        · exact hs.filled c' value' hfound
      · rcases hwritten.keys held hmem with hin | rfl
        · exact hs.formed held hin
        · exact ⟨c, hc⟩

theorem Unshadowed.set (hs : Unshadowed h t) {value : LhatValue}
    (hsteady : (TableOp.set key value).Steady h t)
    (hmade : lhatTableSet h m t key value = some made) : Unshadowed h made.table := by
  obtain ⟨hlaid, hnextnone⟩ := hsteady
  unfold lhatTableSet at hmade
  split at hmade
  · cases hmade
    exact hs
  · next hrefused =>
      have husable : usableKey key = true := by
        unfold refusedKey at hrefused
        cases hk : usableKey key with
        | true => rfl
        | false => simp [hk] at hrefused
      simp only at hmade
      split at hmade
      · cases hmade
        refine hs.less (hs.wf.of_entries rfl rfl rfl ?_ hs.wf.bounded) List.length_set
          (fun _ _ hfound => hfound) fun _ hmem => hmem
        rw [List.length_set]
        exact hs.wf.dense
      · next hindex =>
          split at hmade
          · next hnext =>
              obtain ⟨-, -, ⟨hok, htable⟩ | ⟨hok, capacity, htable, hlt, hbytes⟩⟩ :=
                hs.wf.makeRoom m
              · simp only [hok, Bool.false_eq_true, if_false] at hmade
                cases hmade
                rwa [htable]
              · have hnone : t.find h (position t.array.length) = none := by
                  obtain ⟨r, hr, ⟨-, hnone⟩ | ⟨i, -, rfl, -⟩⟩ := hs.wf.findEntry t.array.length
                  · exact hnone
                  · rw [hnextnone hnext] at hr
                    cases hr
                simp only [hok, if_true, htable] at hmade
                obtain ⟨⟨t', m'⟩, hdrain, rfl⟩ := Option.map_eq_some_iff.1 hmade
                exact (hs.append hlt hbytes hnone value).drain hdrain
          · next hnext =>
              refine hs.setEntry hindex (by simpa using hnext) (fun hvalue => ?_) hmade
              obtain ⟨hspoken, htold⟩ := hlaid hvalue husable
              exact ⟨⟨storable_normaliseKey husable, htold⟩, keyForm_of_spoken husable hspoken⟩

theorem Unshadowed.run {ops : List TableOp} (hs : Unshadowed h t) {m' : Memory} (hsteady : SteadyRun h m t ops) (hrun : runOps h m t ops = some (t', m')) :
    Unshadowed h t' := by
  induction ops generalizing m t with
  | nil =>
    cases hrun
    exact hs
  | cons op ops ih =>
    unfold runOps at hrun
    split at hrun
    · cases hrun
    · next made hmade =>
        refine ih ?_ (hsteady.2 made hmade) hrun
        cases op with
        | set key value => exact hs.set hsteady.1 hmade
        | resize length fill => exact hs.resize hmade
        | reserve key => exact absurd hsteady.1 id
        | vacate key => exact absurd hsteady.1 id

theorem Fresh.unshadowed (h : Heap) (hfresh : Fresh t) : Unshadowed h t := by
  have hwf := hfresh.wf h
  obtain ⟨n, rfl, -⟩ := hfresh.entries
  refine ⟨hwf, fun n hn => absurd hn (Nat.not_lt_zero n), fun c value hvalue => ?_,
    fun key hmem => ?_⟩
  · rw [LhatTable.find_of_blank hwf (n := n) rfl] at hvalue
    cases hvalue
  · obtain ⟨hne, entry, hin, rfl⟩ := LhatTable.mem_keys.1 hmem
    rw [List.eq_of_mem_replicate hin] at hne
    exact absurd rfl hne

end Runs

/-! ### What a walk yields is what is read -/

/-- A real that names a position of the sequence. -/
def Rounds (t : LhatTable) (key : LhatValue) : Prop := ∃ d i, key = .real d ∧ arrayIndex t key = some i

/-- Where the lookup of a normalised key ends in the table itself: at a position, at
an entry or nowhere. Two keys it ends at one place for are one key to it. -/
def ownSlot (h : Heap) (t : LhatTable) (key : LhatValue) : Option (Option (Nat ⊕ Nat)) :=
  match arrayIndex t key with
  | some i => some (some (.inl i))
  | none =>
    if t.entries.isEmpty then some none
    else (probe h t.entries key (hashKey h key)).map fun i =>
      if (t.entryAt i).key.isNil then none else some (.inr i)

section Reads

variable {h : Heap} {t : LhatTable}

theorem ownRead_of_ownSlot_entry
    (hslot : ownSlot h t key = some (some (.inr i))) (hvalue : (t.entryAt i).value ≠ .nil) :
    ownRead h t key none (hashKey h key) = some (some ((t.entryAt i).value, some i)) := by
  unfold ownSlot at hslot
  unfold ownRead
  simp only [Option.isNone_none, if_true]
  cases hindex : arrayIndex t key with
  | some j =>
    rw [hindex] at hslot
    cases hslot
  | none =>
    simp only [hindex] at hslot ⊢
    split at hslot
    · cases hslot
    · next hsome =>
        obtain ⟨j, hj, heq⟩ := Option.map_eq_some_iff.1 hslot
        rw [if_neg hsome]
        split at heq
        · cases heq
        · next hkey =>
            cases heq
            rw [← probe, hj]
            simp [hkey, hvalue]

theorem Unshadowed.ownSlot (hs : Unshadowed h t) {entry : LhatTableEntry}
    (hmem : entry ∈ t.entries) (hkey : entry.key ≠ .nil) (hround : ¬Rounds t entry.key) :
    ∃ i c, ownSlot h t entry.key = some (some (.inr i)) ∧ t.entryAt i = entry ∧
      placeForm h entry.key = some c := by
  have hin : entry.key ∈ t.keys := LhatTable.mem_keys.2 ⟨hkey, entry, hmem, rfl⟩
  obtain ⟨form, hform⟩ := hs.formed _ hin
  have hplace : placeForm h entry.key = some (form, hashKey h entry.key) :=
    placeForm_eq_some.2 ⟨hform, rfl⟩
  have hindex : arrayIndex t entry.key = none := by
    cases hindex : arrayIndex t entry.key with
    | none => rfl
    | some i =>
      cases hk : entry.key with
      | real d => exact absurd ⟨d, i, hk, hindex⟩ hround
      | integer j =>
        have hlt := arrayIndex_lt hindex
        rw [hk] at hindex
        have hj : j = Int64.ofNat i := by
          have hlen := hs.wf.length_lt
          simp only [arrayIndex] at hindex
          split at hindex
          · cases hindex
          · cases hindex
            rw [← Int64.toInt_inj, Int64.toInt_ofNat_of_lt (by omega)]
            omega
        have hnone := hs.wf.find_eq_none.1 (hs.clear i hlt) entry hmem hkey
        rw [hk, hj] at hnone
        exact absurd (placeForm_integer h i) hnone
      | nil | bool | object | hostvalue | cont | run =>
        rw [hk] at hindex
        cases hindex
  have hne := List.ne_nil_of_mem hmem
  obtain ⟨i, hi, hprobe, hprobed⟩ := hs.wf.probe_spec hne (hs.wf.keyFits hin)
  cases hprobed with
  | held hheld hsame =>
    obtain ⟨c, hc, hkc⟩ := hsame
    have hat : t.entryAt i = entry := by
      obtain ⟨j, hj⟩ := List.getElem?_of_mem hmem
      have hij := (hs.wf.placed hne).distinct i j _ _ c (LhatTable.getElem?_entryAt hi) hj
        (canonKey_entry.2 ⟨hheld, hc⟩) (canonKey_entry.2 ⟨hkey, hkc⟩)
      rw [hij]
      exact LhatTable.entryAt_eq hj
    refine ⟨i, c, ?_, hat, hkc⟩
    unfold Lhat.ownSlot
    simp [hindex, hne, hprobe, hheld]
  | absent _ _ hother =>
    exact absurd hplace (hother entry hmem _ (canonKey_entry.2 ⟨hkey, hplace⟩))

theorem mem_keyedPairs {entries : List LhatTableEntry} {pair : LhatValue × LhatValue} :
    pair ∈ keyedPairs entries ↔ ∃ entry ∈ entries, entry.key ≠ .nil ∧
      pair = (entry.key, entry.value) := by
  unfold keyedPairs
  rw [List.mem_filterMap]
  refine exists_congr fun entry => and_congr_right fun _ => ?_
  split
  · next hnil => simp [LhatValue.isNil_iff.1 hnil]
  · next hnil =>
      rw [Option.some.injEq, eq_comm]
      simp [by simpa using hnil]

theorem mem_positionPairs {pair : LhatValue × LhatValue} :
    pair ∈ positionPairs t 0 ↔
      ∃ i < t.array.length, pair = (.integer (Int64.ofNat i), t.slot i) := by
  simp [positionPairs, List.mem_map, eq_comm]

theorem ownSlot_position (hlen : t.array.length < 2 ^ 60) (hi : i < t.array.length) :
    ownSlot h t (.integer (Int64.ofNat i)) = some (some (.inl i)) := by
  unfold ownSlot
  rw [arrayIndex_position hi (by omega)]

theorem lhatTableGet_of_arrayIndex (hobject : h.object node = some .table)
    (htable : s.table node = some t) (hs : Storable key) (hindex : arrayIndex t key = some i) :
    lhatTableGet h s node key = some (t.slot i) := by
  refine lhatTableGet_of_ownRead none hobject htable hs.usable ?_
  rw [hs.normal]
  unfold ownRead
  simp only [Option.isNone_none, if_true, hindex]
  rfl

/-- What the walk yields is what is read under its key, but for a real that names a
position, which reads the position. Two keys it yields are two keys to the lookup,
but for such reals. -/
theorem walk_reads {t₀ : LhatTable} (hfresh : Fresh t₀) {m m' : Memory} {ops : List TableOp}
    (hsteady : SteadyRun h m t₀ ops) (hrun : runOps h m t₀ ops = some (t, m')) {s : Store}
    {node : Address} (hobject : h.object node = some .table) (htable : s.table node = some t)
    {fuel : Nat} (hfuel : t.array.length + t.entries.length < fuel) :
    (∀ pair ∈ walkAll s fuel { walking := node }, ¬Rounds t pair.1 →
      lhatTableGet h s node pair.1 = some pair.2) ∧
    (∀ pair ∈ walkAll s fuel { walking := node }, ∀ i, arrayIndex t pair.1 = some i →
      lhatTableGet h s node pair.1 = some (t.slot i)) ∧
    (walkAll s fuel { walking := node }).Pairwise fun pair other =>
      ¬Rounds t pair.1 → ¬Rounds t other.1 → ownSlot h t pair.1 ≠ ownSlot h t other.1 := by
  have hs : Unshadowed h t := (hfresh.unshadowed h).run hsteady hrun
  have hlen := hs.wf.length_lt
  have hstorable : ∀ pair ∈ walkAll s fuel { walking := node }, Storable pair.1 := by
    intro pair hmem
    rw [walkAll_eq htable hfuel, List.mem_append] at hmem
    rcases hmem with hmem | hmem
    · obtain ⟨i, -, rfl⟩ := mem_positionPairs.1 hmem
      exact ⟨rfl, rfl⟩
    · obtain ⟨entry, hin, hkey, rfl⟩ := mem_keyedPairs.1 hmem
      exact hs.wf.storable _ (LhatTable.mem_keys.2 ⟨hkey, entry, hin, rfl⟩)
  refine ⟨fun pair hmem hround => ?_, fun pair hmem i hindex =>
    lhatTableGet_of_arrayIndex hobject htable (hstorable pair hmem) hindex, ?_⟩
  · have hst := hstorable pair hmem
    rw [walkAll_eq htable hfuel, List.mem_append] at hmem
    rcases hmem with hmem | hmem
    · obtain ⟨i, hi, rfl⟩ := mem_positionPairs.1 hmem
      exact lhatTableGet_of_arrayIndex hobject htable hst (arrayIndex_position hi (by omega))
    · obtain ⟨entry, hin, hkey, rfl⟩ := mem_keyedPairs.1 hmem
      obtain ⟨i, c, hslot, hat, hplace⟩ := hs.ownSlot hin hkey hround
      have hvalue : entry.value ≠ .nil :=
        hs.filled c _ (hs.wf.find_eq_some.2 ⟨entry, hin, hkey, hplace, rfl⟩)
      refine lhatTableGet_of_ownRead (some i) hobject htable hst.usable ?_
      rw [hst.normal, ownRead_of_ownSlot_entry hslot (by rwa [hat]), hat]
  · rw [walkAll_eq htable hfuel, List.pairwise_append]
    refine ⟨?_, ?_, fun pair hpair other hother _ hround heq => ?_⟩
    · unfold positionPairs
      rw [List.pairwise_map]
      refine List.Pairwise.imp_of_mem ?_ List.nodup_range'
      intro i j hi hj hij _ _ heq
      refine hij ?_
      simp only [List.mem_range'_1] at hi hj
      rw [ownSlot_position hlen (by omega), ownSlot_position hlen (by omega)] at heq
      simpa using heq
    · unfold keyedPairs
      rw [List.pairwise_filterMap]
      by_cases hne : t.entries = []
      · rw [hne]
        exact List.Pairwise.nil
      · refine (hs.wf.placed hne).apart.imp_of_mem fun {entry other} hin hin' hapart => ?_
        intro pair hpair pair' hpair' hround hround' heq
        split at hpair
        · cases hpair
        · next hkey =>
            split at hpair'
            · cases hpair'
            · next hkey' =>
                cases hpair
                cases hpair'
                have hne₁ : entry.key ≠ .nil := by simpa using hkey
                have hne₂ : other.key ≠ .nil := by simpa using hkey'
                obtain ⟨i, c, hslot, hat, hplace⟩ := hs.ownSlot hin hne₁ hround
                obtain ⟨j, c', hslot', hat', hplace'⟩ := hs.ownSlot hin' hne₂ hround'
                rw [hslot, hslot'] at heq
                simp only [Option.some.injEq, Sum.inr.injEq] at heq
                rw [heq, hat'] at hat
                subst hat
                exact hapart c' (canonKey_entry.2 ⟨hne₂, hplace'⟩)
                  (canonKey_entry.2 ⟨hne₂, hplace'⟩)
    · obtain ⟨i, hi, rfl⟩ := mem_positionPairs.1 hpair
      obtain ⟨entry, hin, hkey, rfl⟩ := mem_keyedPairs.1 hother
      obtain ⟨j, c, hslot, -⟩ := hs.ownSlot hin hkey hround
      rw [ownSlot_position hlen hi, hslot] at heq
      simp at heq

end Reads

/-! ### Two runs -/

/-- A keyed entry and a sequence beside it. -/
theorem walk_reads_beside : ∃ t m', runOps twoTypes { grants := fun _ => true } lhatTableNew
      [.set (.bool true) (.integer 7), .resize 2 (.bool false)] = some (t, m') ∧
    (∀ pair ∈ walkAll [(48, t)] 64 { walking := 48 }, ¬Rounds t pair.1 →
      lhatTableGet twoTypes [(48, t)] 48 pair.1 = some pair.2) ∧
    (∀ pair ∈ walkAll [(48, t)] 64 { walking := 48 }, ∀ i, arrayIndex t pair.1 = some i →
      lhatTableGet twoTypes [(48, t)] 48 pair.1 = some (t.slot i)) ∧
    (walkAll [(48, t)] 64 { walking := 48 }).Pairwise fun pair other =>
      ¬Rounds t pair.1 → ¬Rounds t other.1 →
        ownSlot twoTypes t pair.1 ≠ ownSlot twoTypes t other.1 := by
  have hsizes : (runOps twoTypes { grants := fun _ => true } lhatTableNew
      [.set (.bool true) (.integer 7), .resize 2 (.bool false)]).map
        (fun left => (left.1.array.length, left.1.entries.length)) = some (2, 8) := by
    decide_cbv
  obtain ⟨⟨t, m'⟩, hrun, hsize⟩ := Option.map_eq_some_iff.1 hsizes
  have hsteady : SteadyRun twoTypes { grants := fun _ => true } lhatTableNew
      [.set (.bool true) (.integer 7), .resize 2 (.bool false)] := by
    refine ⟨⟨fun _ _ => ⟨rfl, fun held hmem => ?_⟩, fun hnext => ?_⟩, fun _ _ =>
      ⟨trivial, fun _ _ => trivial⟩⟩
    · cases hmem
    · cases hnext
  obtain ⟨harray, hentries⟩ := Prod.mk.inj hsize
  exact ⟨t, m', hrun, walk_reads Fresh.new hsteady hrun rfl rfl
    (by rw [harray, hentries]; norm_num)⟩

/-- A key of `2.5`, laid down before the sequence comes to cover the position it
rounds to, is yielded with its value and reads the position. -/
theorem walk_reads_fails : ∃ t m', runOps twoTypes { grants := fun _ => true } lhatTableNew
      [.set (.real ⟨0x4004000000000000⟩) (.bool true), .resize 4 (.bool false)] = some (t, m') ∧
    (.real ⟨0x4004000000000000⟩, .bool true) ∈ walkAll [(48, t)] 64 { walking := 48 } ∧
    lhatTableGet twoTypes [(48, t)] 48 (.real ⟨0x4004000000000000⟩) = some (.bool false) := by
  have hread : (runOps twoTypes { grants := fun _ => true } lhatTableNew
      [.set (.real ⟨0x4004000000000000⟩) (.bool true), .resize 4 (.bool false)]).map
        (fun left => (decide ((.real ⟨0x4004000000000000⟩, .bool true) ∈
            walkAll [(48, left.1)] 64 { walking := 48 }),
          lhatTableGet twoTypes [(48, left.1)] 48 (.real ⟨0x4004000000000000⟩))) =
      some (true, some (.bool false)) := by decide +kernel
  obtain ⟨⟨t, m'⟩, hrun, hsaid⟩ := Option.map_eq_some_iff.1 hread
  obtain ⟨hyielded, hgot⟩ := Prod.mk.inj hsaid
  exact ⟨t, m', hrun, of_decide_eq_true hyielded, hgot⟩

end Lhat
