import Mathlib.Data.List.Basic
import Mathlib.Data.Nat.ModEq
import Mathlib.Tactic.Cases
import Mathlib.Tactic.Linarith

/-!
# Open addressing with linear probing

A probe over a ring of slots starts at a home slot and steps by one, masked by
the capacity less one, until it meets a free slot or a hit. The first slot that
holds no key without being free is remembered, so that a key which is not there
can be put into it. `search` is that loop with a bound on its steps; running out
of steps means that the ring holds neither a hit nor a free slot, where the loop
it stands for would go round for ever.

`Placed` is the invariant the loop needs: the capacity is a power of two, a free
slot is left, every held key is reached from its home without crossing a free
slot, and no two slots hold one key. Whether two keys are one is read off a
partial canonical form, so a key without one is equal to nothing, itself
included.
-/

namespace OpenAddressing

variable {k m j n : Nat}

/-- The loop: at a free slot it answers the remembered slot, or that one; it
remembers the first keyless slot it crosses and stops at a hit. A `hit` that
does not answer leaves the loop without an answer too. -/
def search {S : Type*} (free keyless : S → Bool) (hit : S → Option Bool) (slots : List S) :
    Nat → Nat → Option Nat → Option Nat
  | 0, _, _ => none
  | fuel + 1, index, mark =>
    match slots[index]? with
    | none => none
    | some s =>
      if free s then some (mark.getD index)
      else if keyless s then
        search free keyless hit slots fuel ((index + 1) &&& (slots.length - 1))
          (mark.orElse fun _ => some index)
      else match hit s with
        | none => none
        | some true => some index
        | some false =>
          search free keyless hit slots fuel ((index + 1) &&& (slots.length - 1)) mark

/-- Stepping in a ring of a power of two many slots is stepping modulo the
capacity. -/
theorem and_capacity (hn : n = 2 ^ k) (x : Nat) : x &&& (n - 1) = x % n := by
  rw [hn]
  exact Nat.and_two_pow_sub_one_eq_mod x k

section Search

variable {S : Type*} (free keyless : S → Bool) (hit : S → Option Bool) (slots : List S)

/-- A slot the loop steps over. -/
def Crossed (s : S) : Prop :=
  free s = false ∧ (keyless s = true ∨ hit s = some false)

section

variable (hpow : slots.length = 2 ^ k)
include hpow

/-- With a free slot left and every comparison answering, the loop ends from
wherever it begins. -/
theorem search_ends :
    ∀ (fuel h : Nat) (mark : Option Nat), m < fuel →
      (∀ s ∈ slots, free s = false → keyless s = false → ∃ r, hit s = some r) →
      (∃ s, slots[(h + m) % slots.length]? = some s ∧ free s = true) →
      ∃ i, search free keyless hit slots fuel (h % slots.length) mark = some i := by
  induction m with
  | zero =>
    intro fuel h mark hfuel _ hend
    obtain ⟨s, hs, hfree⟩ := hend
    obtain ⟨fuel, rfl⟩ := Nat.exists_eq_succ_of_ne_zero (by omega : fuel ≠ 0)
    simp only [Nat.add_zero] at hs
    exact ⟨mark.getD (h % slots.length), by simp [search, hs, hfree]⟩
  | succ m ih =>
    intro fuel h mark hfuel hans hend
    obtain ⟨fuel, rfl⟩ := Nat.exists_eq_succ_of_ne_zero (by omega : fuel ≠ 0)
    have hnext : ∀ mark', ∃ i, search free keyless hit slots fuel
        ((h % slots.length + 1) &&& (slots.length - 1)) mark' = some i := by
      intro mark'
      rw [and_capacity hpow, Nat.mod_add_mod]
      exact ih fuel (h + 1) mark' (by omega) hans
        (by rwa [show h + (m + 1) = h + 1 + m by omega] at hend)
    have hlen : 0 < slots.length := by
      rw [hpow]
      exact Nat.two_pow_pos k
    obtain ⟨s, hs⟩ : ∃ s, slots[h % slots.length]? = some s :=
      ⟨_, List.getElem?_eq_getElem (Nat.mod_lt h hlen)⟩
    simp only [search, hs]
    cases hfree : free s with
    | true => exact ⟨_, if_pos rfl⟩
    | false =>
      cases hkey : keyless s with
      | true => exact hnext _
      | false =>
        obtain ⟨r, hr⟩ := hans s (List.mem_of_getElem? hs) hfree hkey
        simp only [Bool.false_eq_true, if_false, hr]
        cases r with
        | true => exact ⟨_, rfl⟩
        | false => exact hnext mark

/-- One slot is stepped over. A keyless one is remembered where nothing was before. -/
theorem search_step {h : Nat} (fuel : Nat)
    (mark : Option Nat) {s : S} (hs : slots[h % slots.length]? = some s) (hcross : Crossed free keyless hit s) :
    ∃ mark', search free keyless hit slots (fuel + 1) (h % slots.length) mark =
        search free keyless hit slots fuel ((h + 1) % slots.length) mark' ∧
      (∀ j, mark = some j → mark' = some j) ∧
        (∀ j, mark = none → mark' = some j → j = h % slots.length ∧ keyless s = true) := by
  obtain ⟨hfree, hcross⟩ := hcross
  by_cases hkey : keyless s = true
  · refine ⟨mark.orElse fun _ => some (h % slots.length), ?_, ?_, ?_⟩
    · simp [search, hs, hfree, hkey, and_capacity hpow, Nat.mod_add_mod]
    · rintro j rfl
      rfl
    · rintro j rfl hj
      exact ⟨(Option.some.inj hj).symm, hkey⟩
  · have hh : hit s = some false := hcross.resolve_left hkey
    refine ⟨mark, ?_, fun j hj => hj, fun j hnone hj => ?_⟩
    · simp [search, hs, hfree, hkey, hh, and_capacity hpow, Nat.mod_add_mod]
    · cases hnone.symm.trans hj

/-- Slots are stepped over, one after another. -/
theorem search_crosses :
    ∀ (fuel h : Nat) (mark : Option Nat),
      (∀ d < m, ∃ s, slots[(h + d) % slots.length]? = some s ∧ Crossed free keyless hit s) →
      ∃ mark', search free keyless hit slots (m + fuel) (h % slots.length) mark =
          search free keyless hit slots fuel ((h + m) % slots.length) mark' ∧
        (∀ j, mark = some j → mark' = some j) ∧
          ∀ j, mark = none → mark' = some j → ∃ d < m, j = (h + d) % slots.length ∧
            ∃ s, slots[(h + d) % slots.length]? = some s ∧ keyless s = true := by
  induction m with
  | zero =>
    intro fuel h mark _
    exact ⟨mark, by rw [Nat.zero_add, Nat.add_zero], fun j hj => hj,
      fun j hnone hj => by cases hnone.symm.trans hj⟩
  | succ m ih =>
    intro fuel h mark hskip
    obtain ⟨s, hs, hcross⟩ := hskip 0 (Nat.succ_pos m)
    obtain ⟨mark₁, hstep, hkept, hfirst⟩ :=
      search_step free keyless hit slots hpow (m + fuel) mark hs hcross
    obtain ⟨mark', hrest, hkept', hlater⟩ :=
      ih fuel (h + 1) mark₁ fun d hd => by
        have := hskip (d + 1) (by omega)
        rwa [show h + (d + 1) = h + 1 + d by omega] at this
    refine ⟨mark', ?_, fun j hj => hkept' j (hkept j hj), fun j hnone hj => ?_⟩
    · rw [show m + 1 + fuel = m + fuel + 1 by omega, show h + (m + 1) = h + 1 + m by omega]
      exact hstep.trans hrest
    · cases hmark : mark₁ with
      | none =>
        obtain ⟨d, hd, hplace, hkey⟩ := hlater j hmark hj
        rw [show h + 1 + d = h + (d + 1) by omega] at hplace hkey
        exact ⟨d + 1, by omega, hplace, hkey⟩
      | some i =>
        obtain ⟨hi, hkey⟩ := hfirst i hnone hmark
        obtain rfl := Option.some.inj ((hkept' i hmark).symm.trans hj)
        exact ⟨0, Nat.succ_pos m, hi, s, hs, hkey⟩

/-- Past slots that are all stepped over, the loop stops at a hit. -/
theorem search_hit (fuel h : Nat)
    (mark : Option Nat) (hfuel : m < fuel)
    (hskip : ∀ d < m, ∃ s, slots[(h + d) % slots.length]? = some s ∧ Crossed free keyless hit s)
    (hhit : ∃ s, slots[(h + m) % slots.length]? = some s ∧ free s = false ∧ keyless s = false ∧
      hit s = some true) :
    search free keyless hit slots fuel (h % slots.length) mark =
      some ((h + m) % slots.length) := by
  obtain ⟨s, hs, hfree, hkey, hh⟩ := hhit
  obtain ⟨fuel, rfl⟩ : ∃ fuel', fuel = m + (fuel' + 1) := ⟨fuel - m - 1, by omega⟩
  obtain ⟨mark', hsearch, -⟩ := search_crosses free keyless hit slots hpow (fuel + 1) h mark hskip
  rw [hsearch]
  simp [search, hs, hfree, hkey, hh]

/-- Past slots that are all stepped over, a loop that has remembered nothing
stops at a free slot and answers the first keyless one: a slot without a key,
all of whose predecessors on the way are stepped over. -/
theorem search_free (fuel h : Nat) (hfuel : m < fuel)
    (hskip : ∀ d < m, ∃ s, slots[(h + d) % slots.length]? = some s ∧ Crossed free keyless hit s)
    (hend : ∃ s, slots[(h + m) % slots.length]? = some s ∧ free s = true) :
    ∃ e ≤ m, search free keyless hit slots fuel (h % slots.length) none =
        some ((h + e) % slots.length) ∧
      ∃ s, slots[(h + e) % slots.length]? = some s ∧ (keyless s = true ∨ free s = true) := by
  obtain ⟨s, hs, hfree⟩ := hend
  obtain ⟨fuel, rfl⟩ : ∃ fuel', fuel = m + (fuel' + 1) := ⟨fuel - m - 1, by omega⟩
  obtain ⟨mark, hsearch, -, hmark⟩ :=
    search_crosses free keyless hit slots hpow (fuel + 1) h none hskip
  rw [hsearch]
  cases mark with
  | none => exact ⟨m, le_refl m, by simp [search, hs, hfree], s, hs, .inr hfree⟩
  | some j =>
    obtain ⟨d, hd, rfl, t, ht, hkey⟩ := hmark j rfl rfl
    exact ⟨d, hd.le, by simp [search, hs, hfree], t, ht, .inl hkey⟩

end

/-- A slot put where the loop stopped is found there, by a loop over the same
hits, the tombstone it remembered aside. -/
theorem search_set {hit' : S → Option Bool} (hagree : ∀ s ∈ slots, hit' s = hit s) {s' : S} (hused : free s' = false) (hkeyed : keyless s' = false)
    (hhit : hit' s' = some true) {fuel : Nat} :
    ∀ {index : Nat} {mark : Option Nat}, (∀ i, mark = some i → j ≠ i) →
      search free keyless hit slots fuel index mark = some j →
        search free keyless hit' (slots.set j s') fuel index mark = some j := by
  induction fuel with
  | zero =>
    intro index mark _ hsearch
    cases hsearch
  | succ fuel ih =>
    intro index mark hmark hsearch
    unfold search at hsearch ⊢
    cases hs : slots[index]? with
    | none => simp [hs] at hsearch
    | some s =>
      simp only [hs] at hsearch
      have hlt : index < slots.length := (List.getElem?_eq_some_iff.1 hs).1
      by_cases hij : index = j
      · subst hij
        simp [List.getElem?_set_self hlt, hused, hkeyed, hhit]
      · have hset : (slots.set j s')[index]? = some s := by
          rw [List.getElem?_set_ne (fun heq => hij heq.symm), hs]
        simp only [hset, List.length_set, hagree s (List.mem_of_getElem? hs)]
        split at hsearch
        · cases mark with
          | none => exact absurd (Option.some.inj hsearch) hij
          | some i => exact absurd (Option.some.inj hsearch).symm (hmark i rfl)
        · next hfree =>
            rw [if_neg hfree]
            split at hsearch
            · next hk =>
                rw [if_pos hk]
                refine ih (fun i hi => ?_) hsearch
                cases mark with
                | none => exact Option.some.inj hi ▸ fun heq => hij heq.symm
                | some l => exact hmark i hi
            · next hk =>
                rw [if_neg hk]
                cases hh : hit s with
                | none => simp [hh] at hsearch
                | some r =>
                  cases r with
                  | true =>
                    simp only [hh, Option.some.injEq] at hsearch
                    exact absurd hsearch hij
                  | false =>
                    simp only [hh] at hsearch
                    exact ih hmark hsearch

theorem search_lt {fuel : Nat} : ∀ {index j : Nat} {mark : Option Nat},
    (∀ i, mark = some i → i < slots.length) →
      search free keyless hit slots fuel index mark = some j → j < slots.length := by
  induction fuel with
  | zero =>
    intro index j mark _ hsearch
    cases hsearch
  | succ fuel ih =>
    intro index j mark hmark hsearch
    unfold search at hsearch
    cases hs : slots[index]? with
    | none => simp [hs] at hsearch
    | some s =>
      simp only [hs] at hsearch
      have hlt : index < slots.length := (List.getElem?_eq_some_iff.1 hs).1
      split at hsearch
      · cases mark with
        | none => exact Option.some.inj hsearch ▸ hlt
        | some i => exact Option.some.inj hsearch ▸ hmark i rfl
      · split at hsearch
        · refine ih (fun i hi => ?_) hsearch
          cases mark with
          | none => exact Option.some.inj hi ▸ hlt
          | some i' => exact Option.some.inj hi ▸ hmark i' rfl
        · cases hh : hit s with
          | none => simp [hh] at hsearch
          | some r =>
            cases r with
            | true => 
              simp only [hh, Option.some.injEq] at hsearch
              exact hsearch ▸ hlt
            | false =>
              simp only [hh] at hsearch
              exact ih hmark hsearch

end Search

/-- Moving held slots over: each one that holds a key is put where the loop
answers, and counted. -/
def rehash {S K : Type*} (free keyless : S → Bool) (key : S → Option K) (home : K → Nat)
    (hit : K → S → Option Bool) : List S → List S → Nat → Option (List S × Nat)
  | [], into, moved => some (into, moved)
  | s :: rest, into, moved =>
    match key s with
    | none => rehash free keyless key home hit rest into moved
    | some k =>
      match search free keyless (hit k) into into.length
          (home k &&& (into.length - 1)) none with
      | none => none
      | some j => rehash free keyless key home hit rest (into.set j s) (moved + 1)

/-- Nothing comes into a ring but what was in it or is moved. -/
theorem mem_rehash {S K : Type*} {free keyless : S → Bool} {key : S → Option K} {home : K → Nat}
    {hit : K → S → Option Bool} {old into out : List S} {moved count : Nat}
    (hout : rehash free keyless key home hit old into moved = some (out, count)) {s : S}
    (hs : s ∈ out) : s ∈ into ∨ s ∈ old := by
  induction old generalizing into moved with
  | nil =>
    simp only [rehash, Option.some.injEq, Prod.mk.injEq] at hout
    exact Or.inl (hout.1 ▸ hs)
  | cons t rest ih =>
    unfold rehash at hout
    split at hout
    · exact (ih hout).imp id (List.mem_cons_of_mem t)
    · split at hout
      · cases hout
      · rcases ih hout with hin | hin
        · rcases List.mem_or_eq_of_mem_set hin with hin | rfl
          · exact Or.inl hin
          · exact Or.inr List.mem_cons_self
        · exact Or.inr (List.mem_cons_of_mem t hin)

/-- How slots hold keys: the key of a slot, the tests the loop makes of one, the
home of a key and the partial canonical form that says when two keys are one. -/
structure SlotView (S K C : Type*) where
  key : S → Option K
  free : S → Bool
  keyless : S → Bool
  home : K → Nat
  canon : K → Option C
  key_of_free : ∀ s, free s = true → key s = none
  keyless_iff : ∀ s, free s = false → (keyless s = true ↔ key s = none)
  home_congr : ∀ k l c, canon k = some c → canon l = some c → home k = home l

namespace SlotView

variable {S K C : Type*} (V : SlotView S K C)

/-- The canonical form of the key a slot holds. -/
def canonKey (s : S) : Option C := (V.key s).bind V.canon

/-- Slot `i` is met from home `h` without crossing a free slot. -/
def Reached (slots : List S) (h i : Nat) : Prop :=
  ∃ m < slots.length, i = (h + m) % slots.length ∧
    ∀ d < m, ∀ s, slots[(h + d) % slots.length]? = some s → V.free s = false

/-- The comparison with `k` answers, and answers by canonical form. -/
def Answers (slots : List S) (k : K) (hit : S → Option Bool) : Prop :=
  ∀ s ∈ slots, ∀ l, V.key s = some l →
    (hit s = some true ∧ ∃ c, V.canon l = some c ∧ V.canon k = some c) ∨
    (hit s = some false ∧ ¬ ∃ c, V.canon l = some c ∧ V.canon k = some c)

/-- The comparison with `k` refuses every key of another canonical form. -/
def Tells (slots : List S) (k : K) (hit : S → Option Bool) : Prop :=
  ∀ s ∈ slots, ∀ l, V.key s = some l → (¬ ∃ c, V.canon l = some c ∧ V.canon k = some c) →
    hit s = some false

variable {V} in
theorem Answers.tells {slots : List S} {k : K} {hit : S → Option Bool}
    (hans : V.Answers slots k hit) : V.Tells slots k hit := by
  intro s hs l hl hne
  rcases hans s hs l hl with ⟨_, hsame⟩ | ⟨hh, _⟩
  · exact absurd hsame hne
  · exact hh

/-- The invariant of a ring the loop runs over. -/
structure Placed (slots : List S) : Prop where
  capacity : ∃ k, slots.length = 2 ^ k
  room : ∃ s ∈ slots, V.free s = true
  reached : ∀ (i : Nat) s k, slots[i]? = some s → V.key s = some k → V.Reached slots (V.home k) i
  distinct : ∀ (i j : Nat) s t c, slots[i]? = some s → slots[j]? = some t →
    V.canonKey s = some c → V.canonKey t = some c → i = j

variable {V} {slots : List S}

theorem canonKey_eq_some {s : S} {c : C} :
    V.canonKey s = some c ↔ ∃ k, V.key s = some k ∧ V.canon k = some c := by
  simp [canonKey, Option.bind_eq_some_iff]

theorem Placed.length_pos (hp : V.Placed slots) : 0 < slots.length := by
  obtain ⟨k, hk⟩ := hp.capacity
  rw [hk]
  exact Nat.two_pow_pos k

theorem exists_steps (h : Nat) {i : Nat} (hi : i < n) : ∃ m < n, (h + m) % n = i := by
  have hn : 0 < n := by omega
  have hlt : h % n < n := Nat.mod_lt h hn
  rcases Nat.lt_or_ge i (h % n) with hih | hih
  · refine ⟨i + n - h % n, by omega, ?_⟩
    rw [Nat.add_mod, Nat.mod_eq_of_lt (by omega : i + n - h % n < n),
      show h % n + (i + n - h % n) = i + n by omega, Nat.add_mod_right]
    exact Nat.mod_eq_of_lt hi
  · refine ⟨i - h % n, by omega, ?_⟩
    rw [Nat.add_mod, Nat.mod_eq_of_lt (by omega : i - h % n < n),
      show h % n + (i - h % n) = i by omega]
    exact Nat.mod_eq_of_lt hi

theorem ring_slot (slots : List S) (h : Nat) (hlen : 0 < slots.length) (d : Nat) :
    ∃ s, slots[(h + d) % slots.length]? = some s :=
  ⟨_, List.getElem?_eq_getElem (Nat.mod_lt _ hlen)⟩

/-- A slot holding a key other than the one asked for is stepped over. -/
theorem crossed_of_other {k : K} {hit : S → Option Bool} (htells : V.Tells slots k hit)
    {s : S} (hs : s ∈ slots) (hfree : V.free s = false)
    (hother : ∀ c, V.canonKey s = some c → V.canon k ≠ some c) :
    Crossed V.free V.keyless hit s := by
  refine ⟨hfree, ?_⟩
  cases hkey : V.key s with
  | none => exact Or.inl ((V.keyless_iff s hfree).2 hkey)
  | some l =>
    refine Or.inr (htells s hs l hkey ?_)
    rintro ⟨c, hl, hk⟩
    exact hother c (canonKey_eq_some.2 ⟨l, hkey, hl⟩) hk

theorem Placed.search_held (hp : V.Placed slots) {k : K} {hit : S → Option Bool}
    (hans : V.Answers slots k hit) {i : Nat} {s : S} {c : C} (hs : slots[i]? = some s)
    (hsc : V.canonKey s = some c) (hk : V.canon k = some c) :
    search V.free V.keyless hit slots slots.length (V.home k % slots.length) none = some i := by
  obtain ⟨e, hpow⟩ := hp.capacity
  obtain ⟨l, hl, hlc⟩ := canonKey_eq_some.1 hsc
  obtain ⟨m, hm, rfl, hfree⟩ := hp.reached i s l hs hl
  rw [V.home_congr l k c hlc hk] at hs hfree ⊢
  apply search_hit V.free V.keyless hit slots hpow slots.length (V.home k) none hm
  · intro d hd
    obtain ⟨t, ht⟩ := ring_slot slots (V.home k) hp.length_pos d
    refine ⟨t, ht, crossed_of_other hans.tells (List.mem_of_getElem? ht) (hfree d hd t ht) ?_⟩
    intro c' htc hkc
    have hcc : c' = c := Option.some.inj (hkc.symm.trans hk)
    subst hcc
    have hij := hp.distinct _ _ t s c' ht hs htc hsc
    have hinj := (Nat.ModEq.add_left_cancel' (V.home k)
      (show V.home k + d ≡ V.home k + m [MOD slots.length] from hij))
    have : d = m := Nat.ModEq.eq_of_lt_of_lt hinj (by omega) hm
    omega
  · have hnf : V.free s = false := by
      cases hf : V.free s with
      | false => rfl
      | true => simp [V.key_of_free s hf] at hl
    have hkl : V.keyless s = false := by
      cases hf : V.keyless s with
      | false => rfl
      | true => simp [(V.keyless_iff s hnf).1 hf] at hl
    rcases hans s (List.mem_of_getElem? hs) l hl with ⟨hh, _⟩ | ⟨_, hne⟩
    · exact ⟨s, hs, hnf, hkl, hh⟩
    · exact absurd ⟨c, hlc, hk⟩ hne

/-- For a key that no slot holds, the loop answers a keyless slot reached from
the key's home. -/
theorem Placed.search_absent (hp : V.Placed slots) {k : K} {hit : S → Option Bool}
    (htells : V.Tells slots k hit)
    (habs : ∀ s ∈ slots, ∀ c, V.canonKey s = some c → V.canon k ≠ some c) :
    ∃ j s, search V.free V.keyless hit slots slots.length (V.home k % slots.length) none =
        some j ∧ slots[j]? = some s ∧ V.key s = none ∧ V.Reached slots (V.home k) j := by
  classical
  obtain ⟨e, hpow⟩ := hp.capacity
  have hfirst : ∃ m, m < slots.length ∧
      ∃ s, slots[(V.home k + m) % slots.length]? = some s ∧ V.free s = true := by
    obtain ⟨s, hs, hfree⟩ := hp.room
    obtain ⟨i, hi, rfl⟩ := List.getElem_of_mem hs
    obtain ⟨m, hm, hmi⟩ := exists_steps (V.home k) hi
    exact ⟨m, hm, slots[i], by rw [hmi, List.getElem?_eq_getElem hi], hfree⟩
  obtain ⟨hm, hend⟩ := Nat.find_spec hfirst
  have hfree : ∀ d < Nat.find hfirst, ∀ s,
      slots[(V.home k + d) % slots.length]? = some s → V.free s = false := by
    intro d hd s hs
    cases hf : V.free s with
    | false => rfl
    | true => exact absurd ⟨by omega, s, hs, hf⟩ (Nat.find_min hfirst hd)
  obtain ⟨e', he, hsearch, s, hs, hkey⟩ := search_free V.free V.keyless hit slots hpow
    slots.length (V.home k) hm
    (fun d hd => by
      obtain ⟨t, ht⟩ := ring_slot slots (V.home k) hp.length_pos d
      exact ⟨t, ht, crossed_of_other htells (List.mem_of_getElem? ht) (hfree d hd t ht)
        (habs t (List.mem_of_getElem? ht))⟩) hend
  refine ⟨_, s, hsearch, hs, ?_, e', by omega, rfl, fun d hd => hfree d (by omega)⟩
  cases hf : V.free s with
  | true => exact V.key_of_free s hf
  | false => exact (V.keyless_iff s hf).1 (hkey.resolve_right (by simp [hf]))

/-- Writing a slot that stays used keeps the invariant when a free slot is left
and the key it then holds, if any, is reached there and held nowhere else. It is
putting a key, writing one over and taking one away. -/
theorem Placed.set (hp : V.Placed slots) {s' : S} (hused : V.free s' = false)
    (hroom : ∃ s ∈ slots.set j s', V.free s = true)
    (hkey : ∀ k, V.key s' = some k → V.Reached slots (V.home k) j ∧
      ∀ (i : Nat) s c, i ≠ j → slots[i]? = some s → V.canonKey s = some c →
        V.canon k ≠ some c) :
    V.Placed (slots.set j s') := by
  have hget : ∀ i s, (slots.set j s')[i]? = some s →
      (i = j ∧ s = s') ∨ (i ≠ j ∧ slots[i]? = some s) := by
    intro i s h
    rw [List.getElem?_set] at h
    split at h
    · next hji =>
        split at h
        · exact Or.inl ⟨hji.symm, (Option.some.inj h).symm⟩
        · cases h
    · next hji => exact Or.inr ⟨fun hij => hji hij.symm, h⟩
  have hreach : ∀ h i, V.Reached slots h i → V.Reached (slots.set j s') h i := by
    rintro h i ⟨m, hm, hi, hfree⟩
    refine ⟨m, by simpa using hm, by simpa using hi, fun d hd s hs => ?_⟩
    rw [List.length_set] at hs
    rcases hget _ s hs with ⟨_, rfl⟩ | ⟨_, hs⟩
    · exact hused
    · exact hfree d hd s hs
  have hapart : ∀ i s c, i ≠ j → slots[i]? = some s → V.canonKey s = some c →
      V.canonKey s' ≠ some c := by
    intro i s c hij hs hsc hc
    obtain ⟨k, hk, hkc⟩ := canonKey_eq_some.1 hc
    exact (hkey k hk).2 i s c hij hs hsc hkc
  refine ⟨by simpa using hp.capacity, hroom, ?_, ?_⟩
  · intro i s k hs hk
    rcases hget i s hs with ⟨rfl, rfl⟩ | ⟨_, hs⟩
    · exact hreach _ _ (hkey k hk).1
    · exact hreach _ _ (hp.reached i s k hs hk)
  · intro i i' s t c hs ht hsc htc
    rcases hget i s hs with ⟨hi, hss⟩ | ⟨hi, hs'⟩ <;>
      rcases hget i' t ht with ⟨hi', htt⟩ | ⟨hi', ht'⟩
    · rw [hi, hi']
    · exact absurd (hss ▸ hsc) (hapart i' t c hi' ht' htc)
    · exact absurd (htt ▸ htc) (hapart i s c hi hs' hsc)
    · exact hp.distinct i i' s t c hs' ht' hsc htc

/-- Keys may be taken out of any number of slots at once, as long as these stay used. -/
theorem Placed.map (hp : V.Placed slots) {f : S → S}
    (hf : ∀ s ∈ slots, f s = s ∨ V.free s = false ∧ V.free (f s) = false ∧ V.key (f s) = none) :
    V.Placed (slots.map f) := by
  have hget : ∀ {i : Nat} {t}, (slots.map f)[i]? = some t → ∃ s, slots[i]? = some s ∧
      (V.free s = false → V.free t = false) ∧ (V.key t ≠ none → t = s) := by
    intro i t ht
    rw [List.getElem?_map, Option.map_eq_some_iff] at ht
    obtain ⟨s, hs, rfl⟩ := ht
    refine ⟨s, hs, ?_⟩
    rcases hf s (List.mem_of_getElem? hs) with heq | ⟨-, hused, hnone⟩
    · exact ⟨fun h => heq.symm ▸ h, fun _ => heq⟩
    · exact ⟨fun _ => hused, fun h => absurd hnone h⟩
  refine ⟨by simpa using hp.capacity, ?_, fun i t k ht hk => ?_, fun i j t u c ht hu htc huc => ?_⟩
  · obtain ⟨s, hs, hfree⟩ := hp.room
    rcases hf s hs with heq | ⟨hused, -⟩
    · exact ⟨s, heq ▸ List.mem_map_of_mem hs, hfree⟩
    · exact absurd hfree (by simp [hused])
  · obtain ⟨s, hs, -, heq⟩ := hget ht
    obtain rfl := heq (by simp [hk])
    obtain ⟨m, hm, hi, hfree⟩ := hp.reached i t k hs hk
    refine ⟨m, by simpa using hm, by simpa using hi, fun d hd u hu => ?_⟩
    rw [List.length_map] at hu
    obtain ⟨v, hv, hstays, -⟩ := hget hu
    exact hstays (hfree d hd v hv)
  · have hkeyed : ∀ {s}, V.canonKey s = some c → V.key s ≠ none := by
      intro s hs hnone
      simp [canonKey, hnone] at hs
    obtain ⟨s, hs, -, heq⟩ := hget ht
    obtain ⟨v, hv, -, heq'⟩ := hget hu
    obtain rfl := heq (hkeyed htc)
    obtain rfl := heq' (hkeyed huc)
    exact hp.distinct i j _ _ c hs hv htc huc

section Lookup

theorem Placed.congr (hp : V.Placed slots) {slots' : List S}
    (hsame : slots'.map (fun s => (V.key s, V.free s)) = slots.map fun s => (V.key s, V.free s)) :
    V.Placed slots' := by
  have hlen : slots'.length = slots.length := by
    simpa using congrArg List.length hsame
  have hback : ∀ (i : Nat) s', slots'[i]? = some s' →
      ∃ s, slots[i]? = some s ∧ V.key s = V.key s' ∧ V.free s = V.free s' := by
    intro i s' hs'
    have hi := congrArg (fun l => l[i]?) hsame
    simp only [List.getElem?_map, hs', Option.map_some] at hi
    obtain ⟨s, hs, heq⟩ := Option.map_eq_some_iff.1 hi.symm
    exact ⟨s, hs, congrArg Prod.fst heq, congrArg Prod.snd heq⟩
  have hcanon : ∀ s s', V.key s = V.key s' → V.canonKey s' = V.canonKey s := by
    intro s s' hkey
    rw [canonKey, canonKey, hkey]
  refine ⟨by rw [hlen]; exact hp.capacity, ?_, ?_, ?_⟩
  · obtain ⟨s, hs, hfree⟩ := hp.room
    have hmem : (V.key s, V.free s) ∈ slots'.map fun s => (V.key s, V.free s) := by
      rw [hsame]
      exact List.mem_map_of_mem hs
    obtain ⟨s', hs', heq⟩ := List.mem_map.1 hmem
    exact ⟨s', hs', (congrArg Prod.snd heq).trans hfree⟩
  · intro i s' k hs' hk
    obtain ⟨s, hs, hkey, -⟩ := hback i s' hs'
    obtain ⟨m, hm, hi, hcrossed⟩ := hp.reached i s k hs (hkey.trans hk)
    refine ⟨m, by omega, by rw [hlen]; exact hi, fun d hd u' hu' => ?_⟩
    rw [hlen] at hu'
    obtain ⟨u, hu, -, hfree⟩ := hback _ u' hu'
    rw [← hfree]
    exact hcrossed d hd u hu
  · intro i j s' u' c hs' hu' hsc huc
    obtain ⟨s, hs, hskey, -⟩ := hback i s' hs'
    obtain ⟨u, hu, hukey, -⟩ := hback j u' hu'
    rw [hcanon s s' hskey] at hsc
    rw [hcanon u u' hukey] at huc
    exact hp.distinct i j s u c hs hu hsc huc

variable [DecidableEq C]

variable (V slots) in
/-- The slot holding the key with canonical form `c`. -/
def lookup (c : C) : Option S := slots.find? fun s => decide (V.canonKey s = some c)

theorem Placed.lookup_eq_some (hp : V.Placed slots) {c : C} {s : S} :
    V.lookup slots c = some s ↔ s ∈ slots ∧ V.canonKey s = some c := by
  constructor
  · intro h
    exact ⟨List.mem_of_find?_eq_some h, by simpa using List.find?_some h⟩
  · rintro ⟨hs, hc⟩
    cases hfind : V.lookup slots c with
    | none => exact absurd hc (by simpa using List.find?_eq_none.1 hfind s hs)
    | some t =>
      have ht := List.mem_of_find?_eq_some hfind
      have htc : V.canonKey t = some c := by simpa using List.find?_some hfind
      obtain ⟨i, hi, rfl⟩ := List.getElem_of_mem hs
      obtain ⟨i', hi', rfl⟩ := List.getElem_of_mem ht
      have hii := hp.distinct i i' _ _ c (List.getElem?_eq_getElem hi)
        (List.getElem?_eq_getElem hi') hc htc
      subst hii
      rfl

theorem lookup_eq_none {c : C} : V.lookup slots c = none ↔ ∀ s ∈ slots, V.canonKey s ≠ some c := by
  simp [lookup, List.find?_eq_none]

/-- After a write to slot `j` the key it then holds is found there, the key it
held before is gone, and every other lookup is as it was. -/
theorem Placed.lookup_set (hp : V.Placed slots) {s₀ s' : S}
    (hj : slots[j]? = some s₀) (hp' : V.Placed (slots.set j s')) (c : C) :
    V.lookup (slots.set j s') c =
      if V.canonKey s' = some c then some s'
      else if V.canonKey s₀ = some c then none
      else V.lookup slots c := by
  have hlt : j < slots.length := (List.getElem?_eq_some_iff.1 hj).1
  split
  · next hc => exact hp'.lookup_eq_some.2 ⟨List.mem_set hlt s', hc⟩
  · next hc =>
      have hmem : ∀ s, s ∈ slots.set j s' → V.canonKey s = some c → s ∈ slots := by
        intro s hs hsc
        rcases List.mem_or_eq_of_mem_set hs with h | rfl
        · exact h
        · exact absurd hsc hc
      split
      · next h₀ =>
          refine lookup_eq_none.2 fun s hs hsc => ?_
          obtain ⟨i, hi, rfl⟩ := List.getElem_of_mem hs
          have hi' : i < slots.length := by simpa using hi
          by_cases hij : j = i
          · subst hij
            rw [List.getElem_set_self] at hsc
            exact hc hsc
          · rw [List.getElem_set_of_ne hij] at hsc
            exact hij (hp.distinct j i _ _ c hj (List.getElem?_eq_getElem hi') h₀ hsc)
      · next h₀ =>
          cases hold : V.lookup slots c with
          | none =>
            exact lookup_eq_none.2 fun s hs hsc =>
              lookup_eq_none.1 hold s (hmem s hs hsc) hsc
          | some s =>
            obtain ⟨hs, hsc⟩ := hp.lookup_eq_some.1 hold
            refine hp'.lookup_eq_some.2 ⟨?_, hsc⟩
            obtain ⟨i, hi, rfl⟩ := List.getElem_of_mem hs
            have hij : j ≠ i := by
              rintro rfl
              rw [List.getElem?_eq_getElem hi] at hj
              exact h₀ (Option.some.inj hj ▸ hsc)
            rw [← List.getElem_set_of_ne hij s' (by simpa using hi)]
            exact List.getElem_mem _

/-- A key is then found where it was, unless it was taken out. -/
theorem Placed.lookup_map (hp : V.Placed slots) {f : S → S}
    (hp' : V.Placed (slots.map f)) (hf : ∀ s ∈ slots, f s = s ∨ V.key (f s) = none) (c : C) :
    V.lookup (slots.map f) c = (V.lookup slots c).filter fun s => (V.key (f s)).isSome := by
  have hkeyed : ∀ {s}, V.canonKey s = some c → (V.key s).isSome := by
    intro s hs
    cases h : V.key s with
    | none => simp [canonKey, h] at hs
    | some k => rfl
  refine Option.ext fun t => ?_
  rw [hp'.lookup_eq_some, Option.filter_eq_some_iff, hp.lookup_eq_some, List.mem_map]
  constructor
  · rintro ⟨⟨s, hs, rfl⟩, hc⟩
    rcases hf s hs with heq | hnone
    · rw [heq] at hc ⊢
      exact ⟨⟨hs, hc⟩, heq.symm ▸ hkeyed hc⟩
    · exact absurd (hkeyed hc) (by simp [hnone])
  · rintro ⟨⟨hs, hc⟩, hsome⟩
    have heq := (hf t hs).resolve_right fun hnone => by simp [hnone] at hsome
    exact ⟨⟨t, hs, heq⟩, hc⟩

end Lookup

section Rehash

variable (V) in
/-- No slot of the list shares its key with a later one. -/
def Apart (slots : List S) : Prop :=
  slots.Pairwise fun s t => ∀ c, V.canonKey s = some c → V.canonKey t ≠ some c

theorem Placed.apart (hp : V.Placed slots) : V.Apart slots := by
  refine List.pairwise_iff_getElem.2 fun i j hi hj hij c hs ht => ?_
  have := hp.distinct i j _ _ c (List.getElem?_eq_getElem hi) (List.getElem?_eq_getElem hj) hs ht
  omega

theorem exists_free (h : slots.countP (fun s => !V.free s) < slots.length) :
    ∃ s ∈ slots, V.free s = true := by
  by_contra hno
  have hall : ∀ s ∈ slots, (!V.free s) = true := by
    intro s hs
    cases hf : V.free s with
    | false => rfl
    | true => exact absurd ⟨s, hs, hf⟩ hno
  rw [List.countP_eq_length.2 hall] at h
  exact absurd h (lt_irrefl _)

theorem free_eq_false {s : S} {k : K} (hk : V.key s = some k) : V.free s = false := by
  cases hf : V.free s with
  | false => rfl
  | true => simp [V.key_of_free s hf] at hk

theorem countP_key_set {s₀ s' : S} (hj : slots[j]? = some s₀) (h₀ : V.key s₀ = none)
    {k : K} (hk : V.key s' = some k) :
    (slots.set j s').countP (fun s => (V.key s).isSome) =
      slots.countP (fun s => (V.key s).isSome) + 1 := by
  obtain ⟨hlt, hget⟩ := List.getElem?_eq_some_iff.1 hj
  rw [List.countP_set hlt, hget]
  simp [h₀, hk]

theorem countP_used_set (slots : List S) (j : Nat) (s' : S) :
    (slots.set j s').countP (fun s => !V.free s) ≤ slots.countP (fun s => !V.free s) + 1 := by
  by_cases hlt : j < slots.length
  · rw [List.countP_set hlt]
    split <;> split <;> omega
  · rw [List.set_eq_of_length_le (by omega)]
    omega

/-- Moving held slots into a ring with room for all of them keeps every one,
and nothing else comes in. -/
theorem rehash_placed (hit : K → S → Option Bool) :
    ∀ (old into : List S) (moved : Nat), V.Placed into → V.Apart old →
      (∀ s ∈ old, ∀ t ∈ into, ∀ c, V.canonKey s = some c → V.canonKey t ≠ some c) →
      (∀ s ∈ old, ∀ k, V.key s = some k → V.Tells (old ++ into) k (hit k)) →
      into.countP (fun s => !V.free s) + old.countP (fun s => (V.key s).isSome) <
        into.length →
      ∃ out, rehash V.free V.keyless V.key V.home hit old into moved =
          some (out, moved + old.countP fun s => (V.key s).isSome) ∧
        V.Placed out ∧ out.length = into.length ∧
        (∀ s ∈ out, s ∈ into ∨ s ∈ old ∧ V.key s ≠ none) ∧
        (∀ s, V.key s ≠ none → s ∈ into ∨ s ∈ old → s ∈ out) ∧
        out.countP (fun s => (V.key s).isSome) =
          into.countP (fun s => (V.key s).isSome) + old.countP fun s => (V.key s).isSome := by
  intro old
  induction old with
  | nil =>
    intro into moved hp _ _ _ _
    exact ⟨into, by simp [rehash], hp, rfl, fun s hs => Or.inl hs,
      fun s _ hs => hs.resolve_right (by simp), by simp⟩
  | cons s rest ih =>
    intro into moved hp hapart hcross hans hroom
    obtain ⟨hhead, hrest⟩ := List.pairwise_cons.1 hapart
    cases hk : V.key s with
    | none =>
      simp only [List.countP_cons, hk, Option.isSome_none, Bool.false_eq_true, if_false,
        Nat.add_zero] at hroom ⊢
      obtain ⟨out, hout, hpo, hlen, hfrom, hkeep, hcount⟩ := ih into moved hp hrest
        (fun t ht => hcross t (List.mem_cons_of_mem s ht))
        (fun t ht k htk u hu => hans t (List.mem_cons_of_mem s ht) k htk u
          (by simp only [List.cons_append, List.mem_cons]; exact Or.inr hu)) hroom
      refine ⟨out, by simp [rehash, hk, hout], hpo, hlen, fun t ht => ?_, fun t ht hmem => ?_,
        hcount⟩
      · exact (hfrom t ht).imp id fun hold => ⟨List.mem_cons_of_mem s hold.1, hold.2⟩
      · refine hkeep t ht (hmem.imp id fun h => ?_)
        rcases List.mem_cons.1 h with rfl | h
        · exact absurd hk ht
        · exact h
    | some k =>
      simp only [List.countP_cons, hk, Option.isSome_some, if_true] at hroom ⊢
      have htells : V.Tells into k (hit k) := fun t ht =>
        hans s List.mem_cons_self k hk t (List.mem_append_right _ ht)
      have habsent : ∀ t ∈ into, ∀ c, V.canonKey t = some c → V.canon k ≠ some c := by
        intro t ht c htc hkc
        exact hcross s List.mem_cons_self t ht c (canonKey_eq_some.2 ⟨k, hk, hkc⟩) htc
      obtain ⟨j, s₀, hsearch, hj, h₀, hreach⟩ := hp.search_absent htells habsent
      have hlt : j < into.length := (List.getElem?_eq_some_iff.1 hj).1
      have hused := countP_used_set (V := V) into j s
      have hmem : ∀ t, t ∈ into.set j s → t ∈ into ∨ t = s :=
        fun t ht => List.mem_or_eq_of_mem_set ht
      have hset : V.Placed (into.set j s) := by
        refine hp.set (free_eq_false hk) (exists_free ?_) fun l hl => ?_
        · rw [List.length_set]
          omega
        · obtain rfl : k = l := Option.some.inj (hk.symm.trans hl)
          exact ⟨hreach, fun i t c _ ht => habsent t (List.mem_of_getElem? ht) c⟩
      obtain ⟨out, hout, hpo, hlen, hfrom, hkeep, hcount⟩ := ih (into.set j s) (moved + 1)
        hset hrest
        (fun t ht u hu c htc => by
          rcases hmem u hu with hu | rfl
          · exact hcross t (List.mem_cons_of_mem s ht) u hu c htc
          · exact fun huc => hhead t ht c huc htc)
        (fun t ht l htl u hu => by
          refine hans t (List.mem_cons_of_mem s ht) l htl u ?_
          rcases List.mem_append.1 hu with hu | hu
          · exact List.mem_append_left _ (List.mem_cons_of_mem s hu)
          · rcases hmem u hu with hu | rfl
            · exact List.mem_append_right _ hu
            · exact List.mem_append_left _ List.mem_cons_self)
        (by rw [List.length_set]; omega)
      obtain ⟨e, hpow⟩ := hp.capacity
      refine ⟨out, ?_, hpo, by simpa using hlen, fun t ht => ?_, fun t ht hor => ?_, ?_⟩
      · simp only [rehash, hk, and_capacity hpow, hsearch, hout]
        congr 2
        omega
      · rcases hfrom t ht with h | ⟨h, hkt⟩
        · rcases hmem t h with h | rfl
          · exact Or.inl h
          · exact Or.inr ⟨List.mem_cons_self, by simp [hk]⟩
        · exact Or.inr ⟨List.mem_cons_of_mem s h, hkt⟩
      · rcases hor with h | h
        · refine hkeep t ht (Or.inl ?_)
          obtain ⟨i, hi, rfl⟩ := List.getElem_of_mem h
          have hij : j ≠ i := by
            rintro rfl
            rw [List.getElem?_eq_getElem hi] at hj
            exact ht (Option.some.inj hj ▸ h₀)
          rw [← List.getElem_set_of_ne hij s (by simpa using hi)]
          exact List.getElem_mem _
        · rcases List.mem_cons.1 h with rfl | h
          · exact hkeep t ht (Or.inl (List.mem_set hlt t))
          · exact hkeep t ht (Or.inr h)
      · rw [hcount, countP_key_set hj h₀ hk]
        omega

/-- A ring of free slots. -/
theorem placed_replicate {blank : S} (hblank : V.free blank = true) (e : Nat) :
    V.Placed (List.replicate (2 ^ e) blank) := by
  have hnone : ∀ {i : Nat} {s}, (List.replicate (2 ^ e) blank)[i]? = some s → V.key s = none := by
    intro i s hs
    rw [List.eq_of_mem_replicate (List.mem_of_getElem? hs)]
    exact V.key_of_free blank hblank
  refine ⟨⟨e, List.length_replicate⟩, ⟨blank, ?_, hblank⟩, fun i s k hs hk => ?_,
    fun i j s t c hs _ hc _ => ?_⟩
  · exact List.mem_replicate.2 ⟨(Nat.two_pow_pos e).ne', rfl⟩
  · cases (hnone hs).symm.trans hk
  · rw [canonKey, hnone hs] at hc
    cases hc

/-- Moving a ring into a fresh one leaves what holds a key, and free slots beside it. -/
theorem rehash_replicate (hit : K → S → Option Bool) (old : List S) (blank : S) (e : Nat)
    (hblank : V.free blank = true) (hold : old ≠ [] → V.Placed old)
    (htells : ∀ s ∈ old, ∀ k, V.key s = some k → V.Tells old k (hit k))
    (hroom : old.countP (fun s => (V.key s).isSome) < 2 ^ e) :
    ∃ out, rehash V.free V.keyless V.key V.home hit old (List.replicate (2 ^ e) blank) 0 =
        some (out, old.countP fun s => (V.key s).isSome) ∧ V.Placed out ∧ out.length = 2 ^ e ∧
      (∀ s ∈ out, s = blank ∨ V.key s ≠ none) ∧ (∀ s, V.key s ≠ none → (s ∈ out ↔ s ∈ old)) ∧
      out.countP (fun s => (V.key s).isSome) = old.countP fun s => (V.key s).isSome := by
  have hnone := V.key_of_free blank hblank
  have hfresh : ∀ s ∈ List.replicate (2 ^ e) blank, s = blank :=
    fun s hs => List.eq_of_mem_replicate hs
  have hapart : V.Apart old := by
    by_cases hnil : old = []
    · rw [hnil]
      exact List.Pairwise.nil
    · exact (hold hnil).apart
  have hkeyless : ∀ t ∈ List.replicate (2 ^ e) blank, ∀ c, V.canonKey t ≠ some c := by
    intro t ht c hc
    rw [canonKey, hfresh t ht, hnone] at hc
    cases hc
  obtain ⟨out, hout, hp, hlen, hfrom, hkeep, hcount⟩ := rehash_placed hit old
    (List.replicate (2 ^ e) blank) 0 (placed_replicate hblank e) hapart
    (fun _ _ t ht c _ => hkeyless t ht c)
    (fun s hs k hk t ht l hl => (List.mem_append.1 ht).elim (fun ht => htells s hs k hk t ht l hl)
      fun ht => by
        rw [hfresh t ht, hnone] at hl
        cases hl)
    (by simpa [List.countP_replicate, hblank] using hroom)
  refine ⟨out, by rw [hout, Nat.zero_add], hp, by simpa using hlen, fun s hs => ?_, fun s hk => ?_,
    by simpa [List.countP_replicate, hnone] using hcount⟩
  · exact (hfrom s hs).imp (hfresh s) And.right
  · refine ⟨fun hs => ?_, fun hs => hkeep s hk (.inr hs)⟩
    exact (hfrom s hs).elim (fun hs => absurd (hfresh s hs ▸ hnone) hk) And.left

end Rehash

end SlotView

end OpenAddressing
