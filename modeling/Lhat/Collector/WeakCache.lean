import Lhat.Collector.Basic
import Lhat.Foundation.OpenAddressing

/-!
# The weak cache

A host keeps values under addresses of its own without keeping them alive. The slots are an open
addressing, and the collector takes entries out of it from outside: what is left is a slot that
is neither free nor held. Two counters say when it is made anew. It is the map of what was put
and has not been taken back or collected since.
-/

namespace Lhat.Gc

open OpenAddressing

/-- What of a machine is its weak cache. The capacity is the number of slots. -/
structure WeakCache where
  weak : List LhatWeakEntry := []
  weakUsed : Nat := 0
  weakCount : Nat := 0

/-- `weak_hash`. -/
def weakHash (key : UInt64) : UInt64 :=
  let bits := (key ^^^ (key >>> 33)) * 0xff51afd7ed558ccd
  bits ^^^ (bits >>> 29)

/-- The loop of `weak_slot`, with so many steps left. -/
def weakProbe (entries : List LhatWeakEntry) (key : UInt64) (start : Nat) :
    Nat → Nat → Option Nat → Option Nat
  | 0, _, gone => gone
  | left + 1, step, gone =>
    let i := (start + step) &&& (entries.length - 1)
    match entries[i]? with
    | none => none
    | some entry =>
      if entry.key = key then some i
      else if entry.key = 0 then some (gone.getD i)
      else weakProbe entries key start left (step + 1)
        (if entry.key = weakGone ∧ gone = none then some i else gone)

/-- `weak_slot`. -/
def weakSlot (entries : List LhatWeakEntry) (key : UInt64) : Option Nat :=
  if entries.length = 0 then none
  else weakProbe entries key ((weakHash key).toNat &&& (entries.length - 1)) entries.length 0 none

/-- The loop of `weak_rehash`. A slot that is `NULL` is written to where there is no answer. -/
def weakMove : List LhatWeakEntry → List LhatWeakEntry → Option (List LhatWeakEntry)
  | [], bigger => some bigger
  | entry :: rest, bigger =>
    if entry.key = 0 ∨ entry.key = weakGone then weakMove rest bigger
    else (weakSlot bigger entry.key).bind fun into => weakMove rest (bigger.set into entry)

namespace WeakCache

/-- The capacity that `weak_rehash` asks for. -/
def wanted (m : WeakCache) : Nat :=
  let wanted := if 0 < m.weak.length then m.weak.length else 16
  if wanted ≤ (m.weakCount + 1) * 2 then wanted * 2 else wanted

/-- `weak_rehash`. -/
def rehash (granted : Bool) (m : WeakCache) : Option (Bool × WeakCache) :=
  if granted then
    (weakMove m.weak (List.replicate m.wanted {})).map fun bigger =>
      (true, { weak := bigger, weakUsed := m.weakCount, weakCount := m.weakCount })
  else some (false, m)

/-- `lhat_machine_weak_cache_get`. -/
def get (m : WeakCache) (key : UInt64) : LhatValue :=
  if key = 0 ∨ key = weakGone then .nil
  else match weakSlot m.weak key with
    | none => .nil
    | some i => if (m.weak.getD i {}).key ≠ key then .nil else (m.weak.getD i {}).value

/-- `lhat_machine_weak_cache_forget`. -/
def forget (m : WeakCache) (key : UInt64) : WeakCache :=
  if key = 0 ∨ key = weakGone then m
  else match weakSlot m.weak key with
    | none => m
    | some i =>
      if (m.weak.getD i {}).key ≠ key then m
      else { m with weak := m.weak.set i { key := weakGone }, weakCount := m.weakCount - 1 }

/-- `lhat_machine_weak_cache_put`, past its first tests. -/
def enter (m : WeakCache) (key : UInt64) (value : LhatValue) : Bool × WeakCache :=
  match weakSlot m.weak key with
  | none => (false, m)
  | some i =>
    let weak := m.weak.set i { key := key, value := value }
    if (m.weak.getD i {}).key ≠ key then
      (true, { weak := weak, weakCount := m.weakCount + 1
               weakUsed := if (m.weak.getD i {}).key = 0 then m.weakUsed + 1 else m.weakUsed })
    else (true, { m with weak := weak })

/-- `lhat_machine_weak_cache_put`. -/
def put (granted : Bool) (m : WeakCache) (key : UInt64) (value : LhatValue) :
    Option (Bool × WeakCache) :=
  if key = 0 ∨ key = weakGone then some (false, m)
  else if value = .nil then some (true, m.forget key)
  else if m.weak.length * 3 ≤ (m.weakUsed + 1) * 4 then
    (m.rehash granted).map fun (ok, m) => if ok then m.enter key value else (false, m)
  else some (m.enter key value)

/-- What the collector does to the cache of a machine. -/
def collect (c : WeakCache) (m : Machine) : WeakCache :=
  let m := { m with weak := c.weak, weakCount := c.weakCount }.clearWeak
  { c with weak := m.weak, weakCount := m.weakCount }

end WeakCache

/-- What happens to a cache: calls of the host, and collections of the machine as it then is. -/
inductive WeakEvent where
  | put (granted : Bool) (key : UInt64) (value : LhatValue)
  | forget (key : UInt64)
  | collect (m : Machine)

/-- The cache, and beside it what was last put under a key and has survived since. -/
def WeakEvent.step : WeakCache × (UInt64 → LhatValue) → WeakEvent →
    Option (WeakCache × (UInt64 → LhatValue))
  | (c, map), .put granted key value => (c.put granted key value).map fun (ok, c) =>
    (c, if ok then Function.update map key value else map)
  | (c, map), .forget key => some (c.forget key, Function.update map key .nil)
  | (c, map), .collect m =>
    some (c.collect m, fun key => if m.whiteAt (objectOf (map key)) then .nil else map key)

/-! ### The slots -/

/-- The entries as slots of open addressing. -/
def weakView : SlotView LhatWeakEntry UInt64 UInt64 where
  key entry := if entry.key = 0 ∨ entry.key = weakGone then none else some entry.key
  free entry := entry.key == 0
  keyless entry := entry.key == weakGone
  home key := (weakHash key).toNat
  canon := some
  key_of_free entry h := if_pos (.inl (eq_of_beq h))
  keyless_iff entry h := by simp_all
  home_congr k l c hk hl := by rw [Option.some.inj (hk.trans hl.symm)]

/-- The comparison of the loop. -/
def weakHit (key : UInt64) (entry : LhatWeakEntry) : Option Bool := some (decide (entry.key = key))

variable {entries : List LhatWeakEntry} {entry : LhatWeakEntry} {key l : UInt64} {i k : Nat}

theorem weakView_home : weakView.home key = (weakHash key).toNat := rfl

@[simp] theorem weakView_free : weakView.free entry = (entry.key == 0) := rfl

@[simp] theorem weakView_key : weakView.key entry =
    if entry.key = 0 ∨ entry.key = weakGone then none else some entry.key := rfl

theorem weakView_canonKey : weakView.canonKey entry = some key ↔
    entry.key = key ∧ key ≠ 0 ∧ key ≠ weakGone := by
  rw [SlotView.canonKey_eq_some]
  simp only [weakView, Option.some.injEq, exists_eq_right]
  split <;> simp_all <;> aesop

theorem weakView_answers (entries : List LhatWeakEntry) (key : UInt64) :
    weakView.Answers entries key (weakHit key) := by
  intro entry _ l hl
  obtain rfl : entry.key = l := by
    simp only [weakView_key] at hl
    split at hl
    · cases hl
    · exact Option.some.inj hl
  by_cases h : entry.key = key
  · exact .inl ⟨by simp [weakHit, h], key, congrArg some h, rfl⟩
  · refine .inr ⟨by simp [weakHit, h], ?_⟩
    rintro ⟨c, hc, hkey⟩
    exact h (Option.some.inj (hc.trans hkey.symm))

theorem weakProbe_of_search (hpow : entries.length = 2 ^ k) (hkey : key ≠ 0 ∧ key ≠ weakGone)
    (home left : Nat) : ∀ step gone, search weakView.free weakView.keyless (weakHit key) entries
        left ((home + step) % entries.length) gone = some i →
      weakProbe entries key (home &&& (entries.length - 1)) left step gone = some i := by
  induction left with
  | zero => exact fun _ _ h => nomatch h
  | succ left ih =>
    intro step gone h
    have hat : ((home &&& (entries.length - 1)) + step) &&& (entries.length - 1) =
        (home + step) % entries.length := by
      rw [and_capacity hpow, and_capacity hpow, Nat.mod_add_mod]
    simp only [search, and_capacity hpow, Nat.mod_add_mod, Nat.add_assoc] at h
    simp only [weakProbe, hat]
    cases hentry : entries[(home + step) % entries.length]? with
    | none => simp [hentry] at h
    | some entry =>
      simp only [hentry] at h
      have hne : weakGone ≠ 0 := by decide
      by_cases hfree : entry.key = 0
      · simpa [weakView, hfree, hkey.1.symm] using h
      by_cases hgone : entry.key = weakGone
      · simp only [weakView, hgone, beq_iff_eq, hne, if_false, if_true] at h
        have := ih (step + 1) _ h
        simp only [hgone, hkey.2.symm, hne, if_false, true_and]
        cases gone <;> simpa using this
      · simp only [weakView, hfree, hgone, beq_iff_eq, if_false, weakHit] at h
        by_cases hhit : entry.key = key
        · simpa [hhit] using h
        · simp only [hhit, decide_false] at h
          simpa [hhit, hfree, hgone] using ih (step + 1) _ h

theorem weakSlot_of_search (hpow : entries.length = 2 ^ k) (hkey : key ≠ 0 ∧ key ≠ weakGone)
    (h : search weakView.free weakView.keyless (weakHit key) entries entries.length
      (weakView.home key % entries.length) none = some i) : weakSlot entries key = some i := by
  rw [weakSlot, if_neg (by rw [hpow]; exact (Nat.two_pow_pos k).ne')]
  rw [weakView_home, ← Nat.add_zero (weakHash key).toNat] at h
  exact weakProbe_of_search hpow hkey _ _ 0 none h

theorem weakSlot_spec (hp : weakView.Placed entries) (hkey : key ≠ 0 ∧ key ≠ weakGone) :
    ∃ i entry, weakSlot entries key = some i ∧ entries[i]? = some entry ∧
      weakView.Reached entries (weakView.home key) i ∧
      (entry.key = key ∧ weakView.lookup entries key = some entry ∨
        weakView.key entry = none ∧ weakView.lookup entries key = none) := by
  obtain ⟨e, hpow⟩ := hp.capacity
  have hans := weakView_answers entries key
  cases hfound : weakView.lookup entries key with
  | some entry =>
    obtain ⟨hmem, hcanon⟩ := hp.lookup_eq_some.1 hfound
    obtain ⟨i, hi⟩ := List.mem_iff_getElem?.1 hmem
    have hheld := (weakView_canonKey.1 hcanon).1
    have hreach := hp.reached i entry key hi (by simp [hheld, hkey])
    exact ⟨i, entry, weakSlot_of_search hpow hkey (hp.search_held hans hi hcanon rfl), hi, hreach,
      .inl ⟨hheld, rfl⟩⟩
  | none =>
    obtain ⟨i, entry, hsearch, hi, hnone, hreach⟩ := hp.search_absent hans.tells
      fun entry hmem c hc hkc => SlotView.lookup_eq_none.1 hfound entry hmem (hc.trans hkc.symm)
    exact ⟨i, entry, weakSlot_of_search hpow hkey hsearch, hi, hreach, .inr ⟨hnone, rfl⟩⟩

theorem weakMove_of_rehash {into out : List LhatWeakEntry} (hpow : into.length = 2 ^ k)
    {moved n : Nat} (h : OpenAddressing.rehash weakView.free weakView.keyless weakView.key
      weakView.home weakHit entries into moved = some (out, n)) :
    weakMove entries into = some out := by
  induction entries generalizing into moved with
  | nil =>
    cases h
    rfl
  | cons entry rest ih =>
    rw [weakMove]
    rw [OpenAddressing.rehash] at h
    by_cases hkey : entry.key = 0 ∨ entry.key = weakGone
    · rw [show weakView.key entry = none from if_pos hkey] at h
      rw [if_pos hkey]
      exact ih hpow h
    · rw [show weakView.key entry = some entry.key from if_neg hkey] at h
      rw [if_neg hkey]
      rw [not_or] at hkey
      simp only [and_capacity hpow] at h
      split at h
      · cases h
      · next i hsearch =>
          rw [weakSlot_of_search hpow hkey hsearch]
          exact ih (by rw [List.length_set, hpow]) h

/-- What the collector leaves in a slot. -/
def Machine.cleared (m : Machine) (entry : LhatWeakEntry) : LhatWeakEntry :=
  if m.forgets entry then { key := weakGone } else entry

/-! ### The cache as a map -/

/-- A cache in good order: a quarter of its slots is free, and its counters count. -/
structure WeakCache.Inv (c : WeakCache) : Prop where
  placed : c.weak ≠ [] → weakView.Placed c.weak
  room : c.weak ≠ [] → c.weakUsed * 4 < c.weak.length * 3
  used : c.weakUsed = c.weak.countP (!weakView.free ·)
  count : c.weakCount = c.weak.countP fun entry => (weakView.key entry).isSome

/-- What a cache holds under a key. -/
def WeakCache.read (c : WeakCache) (key : UInt64) : LhatValue :=
  (weakView.lookup c.weak key).elim .nil (·.value)

namespace WeakCache.Inv

variable {c : WeakCache}

theorem lookup_eq_some (h : c.Inv) : weakView.lookup c.weak key = some entry ↔
    entry ∈ c.weak ∧ weakView.canonKey entry = some key := by
  by_cases hnil : c.weak = []
  · simp [hnil, SlotView.lookup]
  · exact (h.placed hnil).lookup_eq_some

theorem lookup_keyless (hkey : key = 0 ∨ key = weakGone) :
    weakView.lookup c.weak key = none := by
  refine SlotView.lookup_eq_none.2 fun entry _ hc => ?_
  obtain ⟨-, hz, hg⟩ := weakView_canonKey.1 hc
  exact hkey.elim hz hg

theorem get_eq (h : c.Inv) (key : UInt64) : c.get key = c.read key := by
  unfold WeakCache.get WeakCache.read
  split
  · next hkey => rw [lookup_keyless hkey]; rfl
  · next hkey =>
      rw [not_or] at hkey
      by_cases hnil : c.weak = []
      · simp [hnil, weakSlot, SlotView.lookup]
      obtain ⟨i, entry, hslot, hi, -, ⟨hheld, hfound⟩ | ⟨hnone, hfound⟩⟩ :=
        weakSlot_spec (h.placed hnil) hkey
      · simp [hslot, hi, hheld, hfound]
      · have hne : entry.key ≠ key := by
          rintro rfl
          simp [hkey] at hnone
        simp [hslot, hi, hne, hfound]

theorem rehash (h : c.Inv) : ∃ c', c.rehash true = some (true, c') ∧ c'.Inv ∧ c'.read = c.read ∧
    c'.weak ≠ [] ∧ (c'.weakUsed + 1) * 4 < c'.weak.length * 3 := by
  have hle : c.weak.countP (fun entry => (weakView.key entry).isSome) ≤
      c.weak.countP (!weakView.free ·) := List.countP_mono_left fun entry _ hsome => by
    obtain ⟨key, hkey⟩ := Option.isSome_iff_exists.1 hsome
    rw [SlotView.free_eq_false hkey]
    rfl
  have hcount := h.count
  have hused := h.used
  obtain ⟨k, hk, hroom⟩ : ∃ k, c.wanted = 2 ^ k ∧ (c.weakCount + 1) * 4 < c.wanted * 3 := by
    unfold WeakCache.wanted
    by_cases hnil : c.weak = []
    · have : c.weakCount = 0 := by rw [hcount, hnil]; rfl
      exact ⟨4, by simp [hnil, this], by simp [hnil, this]⟩
    · obtain ⟨k, hk⟩ := (h.placed hnil).capacity
      have := h.room hnil
      have hpos := (h.placed hnil).length_pos
      simp only [hpos, if_true]
      split
      · refine ⟨k + 1, by rw [hk, Nat.pow_succ], ?_⟩
        rcases Nat.lt_or_ge 1 c.weak.length with hmany | hone <;> omega
      · exact ⟨k, hk, by omega⟩
  obtain ⟨out, hrehash, hp, houtlen, hfrom, hsame, houtcount⟩ :=
    SlotView.rehash_replicate weakHit c.weak {} k (by decide) h.placed
      (fun _ _ key _ => (weakView_answers _ key).tells) (by omega)
  have houtused : out.countP (!weakView.free ·) = c.weakCount := by
    rw [hcount, ← houtcount]
    refine List.countP_congr fun entry hmem => ?_
    rcases hfrom entry hmem with rfl | hsome
    · decide
    · obtain ⟨key, hkey⟩ := Option.ne_none_iff_exists'.1 hsome
      rw [SlotView.free_eq_false hkey, hkey]
      exact iff_of_true rfl rfl
  have hwide : (c.weakCount + 1) * 4 < out.length * 3 := by
    rwa [houtlen, ← hk]
  have hinv : WeakCache.Inv ⟨out, c.weakCount, c.weakCount⟩ := by
    refine ⟨fun _ => hp, fun _ => ?_, houtused.symm, ?_⟩
    · show c.weakCount * 4 < out.length * 3
      omega
    · exact hcount.trans houtcount.symm
  refine ⟨⟨out, c.weakCount, c.weakCount⟩, ?_, hinv, funext fun key => ?_, ?_, hwide⟩
  · simp only [WeakCache.rehash, if_true]
    rw [hk, weakMove_of_rehash List.length_replicate hrehash]
    rfl
  · refine congrArg (Option.elim · LhatValue.nil LhatWeakEntry.value) (Option.ext fun entry => ?_)
    rw [hp.lookup_eq_some, h.lookup_eq_some]
    refine and_congr_left fun hc => hsame entry fun hnone => ?_
    rw [SlotView.canonKey, hnone] at hc
    cases hc
  · rintro rfl
    simp at hwide

theorem enter (h : c.Inv) (hnil : c.weak ≠ []) (hroom : (c.weakUsed + 1) * 4 < c.weak.length * 3)
    (hkey : key ≠ 0 ∧ key ≠ weakGone) (value : LhatValue) :
    ∃ c', c.enter key value = (true, c') ∧ c'.Inv ∧
      c'.read = Function.update c.read key value := by
  have hp := h.placed hnil
  obtain ⟨i, entry, hslot, hi, hreach, hcase⟩ := weakSlot_spec hp hkey
  obtain ⟨hlt, hget⟩ := List.getElem?_eq_some_iff.1 hi
  have hother : ∀ l, l ≠ key → weakView.canonKey entry ≠ some l := by
    intro l hl hc
    obtain rfl := (weakView_canonKey.1 hc).1
    rcases hcase with ⟨hheld, -⟩ | ⟨hnone, -⟩
    · exact hl hheld
    · rw [SlotView.canonKey, hnone] at hc
      cases hc
  have hset : weakView.Placed (c.weak.set i ⟨key, value⟩) := by
    refine hp.set (by simp [hkey]) (SlotView.exists_free ?_) fun l hl => ?_
    · have := SlotView.countP_used_set (V := weakView) c.weak i ⟨key, value⟩
      rw [List.length_set]
      have := h.used
      omega
    · obtain rfl : key = l := by simpa [hkey] using hl
      refine ⟨hreach, fun j other m hj hother hm hkm => ?_⟩
      obtain rfl : key = m := Option.some.inj hkm
      rcases hcase with ⟨hheld, -⟩ | ⟨-, hfound⟩
      · exact hj (hp.distinct j i other entry key hother hi hm
          (weakView_canonKey.2 ⟨hheld, hkey⟩))
      · exact SlotView.lookup_eq_none.1 hfound other (List.mem_of_getElem? hother) hm
  have hread : ∀ c' : WeakCache, c'.weak = c.weak.set i ⟨key, value⟩ →
      c'.read = Function.update c.read key value := by
    intro c' hc'
    funext l
    rw [WeakCache.read, hc', hp.lookup_set hi hset]
    by_cases hl : l = key
    · simp [hl, weakView_canonKey, hkey]
    · rw [if_neg (by rw [weakView_canonKey]; exact fun h => hl h.1.symm), if_neg (hother l hl),
        Function.update_of_ne hl]
      rfl
  have hwas : entry.key = key ∨ entry.key ≠ key ∧ (entry.key = 0 ∨ entry.key = weakGone) := by
    rcases hcase with ⟨hheld, -⟩ | ⟨hnone, -⟩
    · exact .inl hheld
    · have hkeyless : entry.key = 0 ∨ entry.key = weakGone :=
        by_contra fun h => by simp [h] at hnone
      exact .inr ⟨fun heq => (heq ▸ hkeyless).elim hkey.1 hkey.2, hkeyless⟩
  have hused : (c.weak.set i ⟨key, value⟩).countP (!weakView.free ·) =
      if entry.key = 0 then c.weakUsed + 1 else c.weakUsed := by
    rw [List.countP_set hlt, hget, h.used]
    by_cases hz : entry.key = 0
    · simp [hz, hkey]
    · rw [if_pos (by simp [hz]), if_pos (by simp [hkey]), if_neg hz, Nat.sub_add_cancel
        (List.countP_pos_iff.2 ⟨entry, List.mem_of_getElem? hi, by simp [hz]⟩)]
  have hcount : (c.weak.set i ⟨key, value⟩).countP (fun e => (weakView.key e).isSome) =
      if entry.key = key then c.weakCount else c.weakCount + 1 := by
    rw [List.countP_set hlt, hget, h.count]
    rcases hwas with hheld | ⟨hne, hkeyless⟩
    · rw [if_pos (by simp [hheld, hkey]), if_pos (by simp [hkey]), if_pos hheld, Nat.sub_add_cancel
        (List.countP_pos_iff.2 ⟨entry, List.mem_of_getElem? hi, by simp [hheld, hkey]⟩)]
    · rw [if_neg (by simp [hkeyless]), if_pos (by simp [hkey]), if_neg hne]
      rfl
  rcases hwas with hheld | ⟨hne, -⟩
  · refine ⟨{ c with weak := c.weak.set i ⟨key, value⟩ },
      by simp [WeakCache.enter, hslot, hi, hheld], ⟨fun _ => hset, fun _ => ?_, ?_, ?_⟩, hread _ rfl⟩
    · simpa using h.room hnil
    · exact (hused.trans (if_neg (hheld ▸ hkey.1))).symm
    · exact (hcount.trans (if_pos hheld)).symm
  · refine ⟨⟨c.weak.set i ⟨key, value⟩, if entry.key = 0 then c.weakUsed + 1 else c.weakUsed,
      c.weakCount + 1⟩, by simp [WeakCache.enter, hslot, hi, hne],
      ⟨fun _ => hset, fun _ => ?_, hused.symm, (hcount.trans (if_neg hne)).symm⟩, hread _ rfl⟩
    simp only [List.length_set]
    split <;> omega

theorem forget (h : c.Inv) (key : UInt64) :
    (c.forget key).Inv ∧ (c.forget key).read = Function.update c.read key .nil := by
  have hsame : weakView.lookup c.weak key = none →
      c.Inv ∧ c.read = Function.update c.read key .nil := fun hnone =>
    ⟨h, (Function.update_eq_self_iff.2 (by simp [WeakCache.read, hnone])).symm⟩
  unfold WeakCache.forget
  split
  · next hkey => exact hsame (lookup_keyless hkey)
  next hkey =>
  rw [not_or] at hkey
  by_cases hnil : c.weak = []
  · simpa [hnil, weakSlot] using hsame (by simp [hnil, SlotView.lookup])
  have hp := h.placed hnil
  obtain ⟨i, entry, hslot, hi, -, ⟨hheld, -⟩ | ⟨hnone, hfound⟩⟩ := weakSlot_spec hp hkey
  · obtain ⟨hlt, hget⟩ := List.getElem?_eq_some_iff.1 hi
    have hused : (c.weak.set i ⟨weakGone, .nil⟩).countP (!weakView.free ·) = c.weakUsed := by
      rw [List.countP_set hlt, hget, if_pos (by simp [hheld, hkey]), if_pos (by decide),
        Nat.sub_add_cancel
          (List.countP_pos_iff.2 ⟨entry, List.mem_of_getElem? hi, by simp [hheld, hkey]⟩), h.used]
    have hset : weakView.Placed (c.weak.set i ⟨weakGone, .nil⟩) := by
      refine hp.set (by decide) (SlotView.exists_free ?_) fun l hl => by simp at hl
      have := h.room hnil
      rw [hused, List.length_set]
      omega
    simp only [hslot, List.getD_eq_getElem?_getD, hi, Option.getD_some, hheld, ne_eq, not_true,
      if_false]
    refine ⟨⟨fun _ => hset, fun _ => by simpa using h.room hnil, hused.symm, ?_⟩,
      funext fun l => ?_⟩
    · rw [List.countP_set hlt, hget, if_pos (by simp [hheld, hkey]), if_neg (by simp), h.count]
      rfl
    · simp only [WeakCache.read]
      rw [hp.lookup_set hi hset, if_neg (by simp [SlotView.canonKey])]
      by_cases hl : l = key
      · simp [hl, weakView_canonKey, hheld, hkey]
      · rw [if_neg (by rw [weakView_canonKey]; exact fun h => hl (h.1.symm.trans hheld)),
          Function.update_of_ne hl]
        rfl
  · have hne : entry.key ≠ key := by
      rintro rfl
      simp [hkey] at hnone
    simpa [hslot, hi, hne] using hsame hfound

theorem forgets_iff (m : Machine) : m.forgets entry = true ↔
    (weakView.key entry).isSome ∧ m.whiteAt (objectOf entry.value) = true := by
  simp [Machine.forgets]

theorem cleared_cases (m : Machine) (entry : LhatWeakEntry) : m.cleared entry = entry ∨
    weakView.free entry = false ∧ weakView.free (m.cleared entry) = false ∧
      weakView.key (m.cleared entry) = none := by
  by_cases hg : m.forgets entry
  · obtain ⟨key, hkey⟩ := Option.isSome_iff_exists.1 ((forgets_iff m).1 hg).1
    rw [show m.cleared entry = ⟨weakGone, .nil⟩ from if_pos hg]
    exact .inr ⟨SlotView.free_eq_false hkey, by decide, by simp⟩
  · exact .inl (if_neg hg)

theorem countP_cleared (m : Machine) (entries : List LhatWeakEntry) : entries.countP m.forgets +
    (entries.map m.cleared).countP (fun entry => (weakView.key entry).isSome) =
      entries.countP fun entry => (weakView.key entry).isSome := by
  induction entries with
  | nil => rfl
  | cons entry rest ih =>
    rw [List.map_cons, List.countP_cons, List.countP_cons, List.countP_cons, ← ih]
    by_cases hg : m.forgets entry
    · rw [show m.cleared entry = ⟨weakGone, .nil⟩ from if_pos hg, if_pos hg, if_neg (by simp),
        if_pos ((forgets_iff m).1 hg).1]
      omega
    · rw [if_neg hg, show m.cleared entry = entry from if_neg hg]
      omega

theorem collect (h : c.Inv) (m : Machine) : (c.collect m).Inv ∧ (c.collect m).read =
    fun key => if m.whiteAt (objectOf (c.read key)) then .nil else c.read key := by
  have hcollect : c.collect m = ⟨c.weak.map m.cleared, c.weakUsed,
    c.weakCount - c.weak.countP m.forgets⟩ := rfl
  rw [hcollect]
  have hplaced : c.weak ≠ [] → weakView.Placed (c.weak.map m.cleared) := fun hnil =>
    (h.placed hnil).map fun entry _ => cleared_cases m entry
  have hnil : c.weak.map m.cleared ≠ [] → c.weak ≠ [] := mt List.map_eq_nil_iff.2
  refine ⟨⟨fun hne => hplaced (hnil hne), fun hne => ?_, ?_, ?_⟩, funext fun key => ?_⟩
  · simpa using h.room (hnil hne)
  · refine h.used.trans (Eq.trans (List.countP_congr fun entry _ => ?_) List.countP_map.symm)
    rcases cleared_cases m entry with heq | ⟨hused, hstays, -⟩
    · rw [Function.comp_apply, heq]
    · rw [Function.comp_apply, hused, hstays]
  · rw [h.count, ← countP_cleared m, Nat.add_sub_cancel_left]
  have hread : weakView.lookup (c.weak.map m.cleared) key = (weakView.lookup c.weak key).filter
      fun entry => (weakView.key (m.cleared entry)).isSome := by
    by_cases hempty : c.weak = []
    · simp [hempty, SlotView.lookup]
    · exact (h.placed hempty).lookup_map (hplaced hempty)
        (fun entry _ => (cleared_cases m entry).imp_right (·.2.2)) key
  refine (congrArg (Option.elim · LhatValue.nil LhatWeakEntry.value) hread).trans ?_
  cases hfound : weakView.lookup c.weak key with
  | none =>
    rw [show c.read key = .nil by rw [WeakCache.read, hfound]; rfl]
    exact (ite_self _).symm
  | some entry =>
    rw [show c.read key = entry.value by rw [WeakCache.read, hfound]; rfl]
    have hheld := weakView_canonKey.1 (h.lookup_eq_some.1 hfound).2
    have hsome : (weakView.key entry).isSome := by simp [hheld]
    by_cases hg : m.forgets entry
    · have hleft : m.cleared entry = ⟨weakGone, .nil⟩ := if_pos hg
      simp [Option.filter, hleft, ((forgets_iff m).1 hg).2]
    · have hleft : m.cleared entry = entry := if_neg hg
      have hstays : m.whiteAt (objectOf entry.value) = false :=
        Bool.eq_false_iff.2 fun hw => hg ((forgets_iff m).2 ⟨hsome, hw⟩)
      simp only [Option.filter, hleft, hsome, if_true, Option.elim_some, hstays, if_false,
        Bool.false_eq_true]

theorem put (h : c.Inv) (granted : Bool) (key : UInt64) (value : LhatValue) :
    ∃ ok c', c.put granted key value = some (ok, c') ∧ c'.Inv ∧
      c'.read = if ok then Function.update c.read key value else c.read := by
  unfold WeakCache.put
  split
  · exact ⟨false, c, rfl, h, rfl⟩
  next hkey =>
  rw [not_or] at hkey
  split
  · next hvalue =>
      obtain rfl := hvalue
      exact ⟨true, _, rfl, h.forget key⟩
  split
  · cases granted with
    | false => exact ⟨false, c, by simp [WeakCache.rehash], h, rfl⟩
    | true =>
      obtain ⟨c₁, hrehash, h₁, hread, hnil, hroom⟩ := h.rehash
      obtain ⟨c₂, henter, h₂, hwritten⟩ := h₁.enter hnil hroom hkey value
      exact ⟨true, c₂, by simp [hrehash, henter], h₂, by rw [hwritten, hread]; rfl⟩
  · next hroom =>
      obtain ⟨c', henter, h', hwritten⟩ := h.enter (by rintro heq; simp [heq] at hroom)
        (Nat.lt_of_not_le hroom) hkey value
      exact ⟨true, c', congrArg some henter, h', hwritten⟩

theorem step (h : c.Inv) (event : WeakEvent) :
    ∃ c' : WeakCache, event.step (c, c.read) = some (c', c'.read) ∧ c'.Inv := by
  cases event with
  | put granted key value =>
    obtain ⟨ok, c', hput, h', hread⟩ := h.put granted key value
    exact ⟨c', by simp [WeakEvent.step, hput, hread], h'⟩
  | forget key => exact ⟨_, by rw [WeakEvent.step, (h.forget key).2], (h.forget key).1⟩
  | collect m => exact ⟨_, by rw [WeakEvent.step, (h.collect m).2], (h.collect m).1⟩

theorem run (h : c.Inv) (events : List WeakEvent) :
    ∃ c' : WeakCache, events.foldlM WeakEvent.step (c, c.read) = some (c', c'.read) ∧ c'.Inv := by
  induction events generalizing c with
  | nil => exact ⟨c, rfl, h⟩
  | cons event rest ih =>
    obtain ⟨c₁, hstep, h₁⟩ := h.step event
    obtain ⟨c', hrest, h'⟩ := ih h₁
    exact ⟨c', by rw [List.foldlM_cons, hstep]; exact hrest, h'⟩

end WeakCache.Inv

end Lhat.Gc
