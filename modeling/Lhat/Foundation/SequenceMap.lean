import Mathlib.Data.List.AList
import Mathlib.Data.Set.Function
import Mathlib.Order.Interval.Set.Defs

/-!
# A map with a sequence in it

A map some of whose keys are the positions of a sequence. The sequence holds the
positions below its length, and `rest` every other key. Writing the position
right past the end lengthens the sequence, which then takes in the positions that
follow for as long as they are held (`absorb`). A key may be held without a value
of its own, which reads as `nil`.

Positions are told apart as far as the sequence reaches, and no further
(`get_set`).
-/

/-- A sequence, and the keys held beside it. -/
structure SequenceMap (K V : Type*) where
  seq : List V
  rest : AList fun _ : K => V

namespace SequenceMap

variable {K V : Type*} [DecidableEq K] (pos : Nat → K) (nil : V)

def empty : SequenceMap K V := ⟨[], ∅⟩

theorem erase_keys_lt {rest : AList fun _ : K => V} {k : K} {v : V}
    (hsome : rest.lookup k = some v) : (rest.erase k).keys.length < rest.keys.length := by
  have hmem : k ∈ rest.keys := AList.mem_keys.1 (AList.lookup_isSome.1 (by rw [hsome]; rfl))
  rw [AList.keys_erase, List.length_erase_of_mem hmem]
  have := List.length_pos_of_mem hmem
  omega

/-- The sequence takes in the positions that follow it, for as long as they are
held. -/
def absorb (s : SequenceMap K V) : SequenceMap K V :=
  match _hheld : s.rest.lookup (pos s.seq.length) with
  | none => s
  | some v => absorb ⟨s.seq ++ [v], s.rest.erase (pos s.seq.length)⟩
termination_by s.rest.keys.length
decreasing_by exact erase_keys_lt _hheld

/-- The position of the sequence that a key is. -/
def index (s : SequenceMap K V) (k : K) : Option Nat :=
  (List.range s.seq.length).find? fun i => pos i = k

def get (s : SequenceMap K V) (k : K) : V :=
  match s.index pos k with
  | some i => s.seq.getD i nil
  | none => (s.rest.lookup k).getD nil

/-- Writing `nil` beside the sequence takes the key away; inside the sequence it is
a value like any other. -/
def set [DecidableEq V] (s : SequenceMap K V) (k : K) (v : V) : SequenceMap K V :=
  match s.index pos k with
  | some i => { s with seq := s.seq.set i v }
  | none =>
    if pos s.seq.length = k then absorb pos ⟨s.seq ++ [v], s.rest.erase k⟩
    else if v = nil then { s with rest := s.rest.erase k }
    else { s with rest := s.rest.insert k v }

/-- A key held without a value, if it was not held. -/
def reserve (s : SequenceMap K V) (k : K) : SequenceMap K V :=
  match s.index pos k with
  | some _ => s
  | none => { s with rest := s.rest.insert k ((s.rest.lookup k).getD nil) }

/-- The value of a held key taken away. -/
def vacate (s : SequenceMap K V) (k : K) : SequenceMap K V :=
  match s.rest.lookup k with
  | none => s
  | some _ => { s with rest := s.rest.insert k nil }

/-- So many positions more, each with what was held there or else with `fill`. -/
def lengthen (fill : V) : Nat → SequenceMap K V → SequenceMap K V
  | 0, s => s
  | n + 1, s =>
    lengthen fill n ⟨s.seq ++ [(s.rest.lookup (pos s.seq.length)).getD fill],
      s.rest.erase (pos s.seq.length)⟩

def resize (s : SequenceMap K V) (length : Nat) (fill : V) : SequenceMap K V :=
  absorb pos (lengthen pos fill (length - (s.seq.take length).length) ⟨s.seq.take length, s.rest⟩)

section Read

variable {pos nil} {s : SequenceMap K V}

theorem absorb_of_none (hnone : s.rest.lookup (pos s.seq.length) = none) : absorb pos s = s := by
  unfold absorb
  split
  · rfl
  · next v hsome =>
      rw [hnone] at hsome
      cases hsome

theorem absorb_of_some {v : V} (hsome : s.rest.lookup (pos s.seq.length) = some v) :
    absorb pos s = absorb pos ⟨s.seq ++ [v], s.rest.erase (pos s.seq.length)⟩ := by
  rw [absorb]
  split
  · next hnone =>
      rw [hsome] at hnone
      cases hnone
  · next w hw =>
      obtain rfl : v = w := Option.some.inj (hsome.symm.trans hw)
      rfl

theorem length_le_absorb (pos : Nat → K) (s : SequenceMap K V) :
    s.seq.length ≤ (absorb pos s).seq.length := by
  induction s using absorb.induct pos with
  | case1 s hnone => rw [absorb_of_none hnone]
  | case2 s v hsome ih =>
    rw [absorb_of_some hsome]
    simp only [List.length_append, List.length_singleton] at ih
    omega

theorem index_eq_some {k : K} {i : Nat} (hindex : s.index pos k = some i) :
    i < s.seq.length ∧ pos i = k := by
  refine ⟨?_, by simpa using List.find?_some hindex⟩
  exact List.mem_range.1 (List.mem_of_find?_eq_some hindex)

theorem index_eq_none {k : K} : s.index pos k = none ↔ ∀ i < s.seq.length, pos i ≠ k := by
  simp [index, List.find?_eq_none]

theorem index_pos {n : Nat} (hinj : Set.InjOn pos (Set.Iic n)) (hlen : s.seq.length ≤ n + 1)
    {i : Nat} (hi : i < s.seq.length) : s.index pos (pos i) = some i := by
  cases hindex : s.index pos (pos i) with
  | none => exact absurd rfl (index_eq_none.1 hindex i hi)
  | some j =>
    obtain ⟨hj, heq⟩ := index_eq_some hindex
    rw [hinj (Set.mem_Iic.2 (by omega)) (Set.mem_Iic.2 (by omega)) heq]

theorem get_snoc {n : Nat} (hinj : Set.InjOn pos (Set.Iic n)) (hlen : s.seq.length ≤ n) (v : V)
    (k : K) :
    get pos nil ⟨s.seq ++ [v], s.rest.erase (pos s.seq.length)⟩ k =
      if pos s.seq.length = k then v else get pos nil s k := by
  have hlast : (s.seq ++ [v]).length = s.seq.length + 1 := by simp
  have hlen' : (s.seq ++ [v]).length ≤ n + 1 := by omega
  split
  · next heq =>
      subst heq
      have hindex := index_pos (s := ⟨s.seq ++ [v], s.rest.erase (pos s.seq.length)⟩) hinj hlen'
        (i := s.seq.length) (by simp)
      simp [get, hindex, List.getD]
  · next hne =>
      cases hindex : s.index pos k with
      | some i =>
        obtain ⟨hi, rfl⟩ := index_eq_some hindex
        have hindex' := index_pos (s := ⟨s.seq ++ [v], s.rest.erase (pos s.seq.length)⟩) hinj
          hlen' (i := i) (by rw [hlast]; omega)
        simp [get, hindex, hindex', List.getD, List.getElem?_append_left hi]
      | none =>
        have hindex' : (⟨s.seq ++ [v], s.rest.erase (pos s.seq.length)⟩ :
            SequenceMap K V).index pos k = none := by
          refine index_eq_none.2 fun i hi => ?_
          rcases Nat.lt_succ_iff_lt_or_eq.1 (hlast ▸ hi) with hlt | rfl
          · exact index_eq_none.1 hindex i hlt
          · exact hne
        simp only [get, hindex, hindex']
        rw [AList.lookup_erase_ne fun heq => hne heq.symm]

theorem get_absorb {n : Nat} (hinj : Set.InjOn pos (Set.Iic n))
    (hlen : (absorb pos s).seq.length ≤ n) (k : K) :
    get pos nil (absorb pos s) k = get pos nil s k := by
  induction s using absorb.induct pos with
  | case1 s hnone => rw [absorb_of_none hnone]
  | case2 s v hsome ih =>
    have hle := length_le_absorb pos s
    rw [absorb_of_some hsome] at hlen ⊢
    rw [ih hlen, get_snoc hinj (by rw [absorb_of_some hsome] at hle; omega)]
    split
    · next heq =>
        subst heq
        have hindex : s.index pos (pos s.seq.length) = none := by
          refine index_eq_none.2 fun i hi heq => ?_
          have hn : s.seq.length ≤ n := by
            rw [absorb_of_some hsome] at hle
            omega
          have := hinj (Set.mem_Iic.2 (by omega)) (Set.mem_Iic.2 hn) heq
          omega
        simp [get, hindex, hsome]
    · rfl

theorem get_set [DecidableEq V] {n : Nat} (hinj : Set.InjOn pos (Set.Iic n)) {k : K} {v : V}
    (hlen : (s.set pos nil k v).seq.length ≤ n) (k' : K) :
    get pos nil (s.set pos nil k v) k' = if k = k' then v else get pos nil s k' := by
  unfold set at hlen ⊢
  cases hindex : s.index pos k with
  | some i =>
    obtain ⟨hi, rfl⟩ := index_eq_some hindex
    simp only [hindex, List.length_set] at hlen ⊢
    have hsame : ∀ k, (⟨s.seq.set i v, s.rest⟩ : SequenceMap K V).index pos k =
        s.index pos k := by
      intro k
      simp only [index, List.length_set]
    split
    · next heq =>
        subst heq
        simp [get, hsame, hindex, List.getD, hi]
    · next hne =>
        simp only [get, hsame]
        cases hindex' : s.index pos k' with
        | none => rfl
        | some j =>
          obtain ⟨-, rfl⟩ := index_eq_some hindex'
          have hij : i ≠ j := fun heq => hne (congrArg pos heq)
          simp [List.getD, List.getElem?_set_ne hij]
  | none =>
    simp only [hindex] at hlen ⊢
    by_cases hnext : pos s.seq.length = k
    · subst hnext
      simp only [if_true] at hlen ⊢
      have hle := length_le_absorb pos
        (⟨s.seq ++ [v], s.rest.erase (pos s.seq.length)⟩ : SequenceMap K V)
      simp only [List.length_append, List.length_singleton] at hle
      rw [get_absorb hinj hlen, get_snoc (s := s) hinj (by omega)]
    · simp only [hnext, if_false]
      have hsame : ∀ rest : AList fun _ : K => V,
          (⟨s.seq, rest⟩ : SequenceMap K V).index pos = s.index pos := fun rest => rfl
      by_cases hv : v = nil
      · simp only [hv, if_true, get, hsame]
        by_cases heq : k = k'
        · subst heq
          simp [hindex]
        · rw [if_neg heq, AList.lookup_erase_ne fun h => heq h.symm]
      · simp only [hv, if_false, get, hsame]
        by_cases heq : k = k'
        · subst heq
          simp [hindex]
        · rw [if_neg heq, AList.lookup_insert_ne fun h => heq h.symm]

end Read

end SequenceMap
