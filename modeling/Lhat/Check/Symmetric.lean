import Lhat.Check.Disjoint
import Mathlib

/-!
# Asking the other way round

`disjoint_in` walks the first of two types and looks the second up, and where both are
unions, or both intersections, it takes the first apart before the second. The answer is the
same the other way round where a member that two tables share has one name in both, and
where the arms that are taken apart are neither hidden nor without a value.
-/

namespace Lhat.Check

open Lexing (Text)

variable {n : Nat} {a u z : TypeRef} {t : LhatType} {kind : LhatTypeKind}

variable {arena : LhatTypeArena}

/-- The type behind an argument. -/
def At (arena : LhatTypeArena) (z a : TypeRef) (ta : LhatType) : Prop :=
  arena.argumentBound z = a ∧ arena.type a = some ta

/-- Some finite derivation keeps two types apart. -/
def KeptApart (arena : LhatTypeArena) (z y : TypeRef) : Prop := ∃ n, Separate arena n (z, y)

/-! ## Only errors -/

/-- A step of `only_errors`. -/
def OnlyErrorsStep (arena : LhatTypeArena) (sub : TypeRef → Prop) (a : TypeRef) : Prop :=
  ∃ t, arena.type a = some t ∧
    (t.isErrorType = true ∨ t.kind = .union ∧ ∀ arm ∈ t.arms, sub arm)

/-- The types that are there. -/
def present (arena : LhatTypeArena) (a : TypeRef) : Option TypeRef :=
  if (arena.type a).isSome then some a else none

theorem present_eq (ht : arena.type a = some t) : present arena a = some a := by
  unfold present
  rw [ht]
  rfl

theorem onlyErrorsIn_succ :
    arena.onlyErrorsIn (n + 1) a = true ↔
      OnlyErrorsStep arena (fun arm => arena.onlyErrorsIn n arm = true) a := by
  rw [LhatTypeArena.onlyErrorsIn]
  unfold OnlyErrorsStep
  cases arena.type a with
  | none => simp
  | some t =>
    simp only [Option.some.injEq, exists_eq_left']
    split
    · next herror => simp [herror]
    · next herror =>
        split
        · next hunion => simp [herror, hunion]
        · next hunion => simp [herror, hunion]

theorem onlyErrorsIn_iff :
    arena.onlyErrorsIn n a = true ↔
      PathSearch.Derives (present arena) (OnlyErrorsStep arena) n a := by
  induction n generalizing a with
  | zero => exact iff_of_false nofun id
  | succ n ih =>
    rw [onlyErrorsIn_succ, funext fun arm => propext (@ih arm)]
    constructor
    · rintro ⟨t, ht, hone⟩
      exact ⟨a, present_eq ht, t, ht, hone⟩
    · rintro ⟨a', ha', t, ht, hone⟩
      unfold present at ha'
      split at ha'
      · cases ha'
        exact ⟨t, ht, hone⟩
      · cases ha'

theorem OnlyErrorsStep.mono {S T : TypeRef → Prop} (h : ∀ a, S a → T a)
    (hstep : OnlyErrorsStep arena S a) : OnlyErrorsStep arena T a := by
  obtain ⟨t, ht, hone⟩ := hstep
  exact ⟨t, ht, hone.imp_right fun ⟨hunion, harms⟩ => ⟨hunion, fun arm harm => h arm
    (harms arm harm)⟩⟩

theorem onlyErrors_of_in (h : arena.onlyErrorsIn n a = true) : arena.onlyErrors a = true := by
  have hpresent : ∀ a a', present arena a = some a' → a' ∈ Finset.Icc 1 arena.length := by
    intro a a' ha
    unfold present at ha
    split at ha
    · next hsome =>
        cases ha
        exact mem_of_type hsome
    · cases ha
  have hbound := @PathSearch.Derives.bounded _ _ _ (OnlyErrorsStep arena) _
    (fun h _ => OnlyErrorsStep.mono h) _ hpresent _ _ (onlyErrorsIn_iff.1 h)
  rw [Nat.card_Icc, Nat.add_sub_cancel] at hbound
  exact onlyErrorsIn_iff.2 hbound

theorem onlyErrors_iff :
    arena.onlyErrors a = true ↔ OnlyErrorsStep arena (fun arm => arena.onlyErrors arm = true) a :=
      by
  constructor
  · intro h
    exact (onlyErrorsIn_succ.1 h).mono fun arm harm => onlyErrors_of_in harm
  · intro h
    exact onlyErrors_of_in (onlyErrorsIn_succ.2 h)

theorem onlyErrors_union (ht : arena.type a = some t) (hunion : t.kind = .union) :
    arena.onlyErrors a = true ↔ ∀ arm ∈ t.arms, arena.onlyErrors arm = true := by
  have hnot : t.isErrorType ≠ true := by simp [LhatType.isErrorType, hunion]
  rw [onlyErrors_iff]
  unfold OnlyErrorsStep
  simp [ht, hunion, hnot]

theorem onlyErrors_plain (ht : arena.type a = some t)
    (hunion : t.kind ≠ .union) : arena.onlyErrors a = true ↔ t.isErrorType = true := by
  rw [onlyErrors_iff]
  unfold OnlyErrorsStep
  simp [ht, hunion]

/-! ## Questions -/

theorem At.unique {b : TypeRef} {ta tb : LhatType} (ha : At arena z a ta)
    (hb : At arena z b tb) : a = b ∧ ta = tb := by
  obtain rfl : a = b := ha.1.symm.trans hb.1
  exact ⟨rfl, Option.some.inj (ha.2.symm.trans hb.2)⟩

theorem entered_iff {y : TypeRef} {q : Pair} :
    entered arena (z, y) = some q ↔ ∃ ta tb, At arena z q.1 ta ∧ At arena y q.2 tb := by
  obtain ⟨a, b⟩ := q
  unfold entered At
  simp only
  constructor
  · intro h
    split at h
    · next hsome =>
        cases h
        rw [Bool.and_eq_true, Option.isSome_iff_exists, Option.isSome_iff_exists] at hsome
        obtain ⟨⟨ta, hta⟩, tb, htb⟩ := hsome
        exact ⟨ta, tb, ⟨rfl, hta⟩, rfl, htb⟩
    · cases h
  · rintro ⟨ta, tb, ⟨rfl, hta⟩, rfl, htb⟩
    rw [hta, htb]
    rfl

theorem Question.Holds.bounded {asked : Question} (h :
    asked.Holds fun p => KeptApart arena p.1 p.2) :
    ∃ n, asked.Holds (Separate arena n) := by
  cases asked with
  | settled answer => exact ⟨0, h⟩
  | any pairs after =>
    obtain ⟨p, hp, n, hn⟩ | hafter := h
    · exact ⟨n, .inl ⟨p, hp, hn⟩⟩
    · exact ⟨0, .inr hafter⟩
  | all pairs =>
    have hall : ∀ pairs : List Pair, (∀ p ∈ pairs, KeptApart arena p.1 p.2) →
        ∃ n, ∀ p ∈ pairs, Separate arena n p := by
      intro pairs hpairs
      induction pairs with
      | nil => exact ⟨0, nofun⟩
      | cons p pairs ih =>
        obtain ⟨m, hm⟩ := hpairs p (by simp)
        obtain ⟨n, hn⟩ := ih fun p hp => hpairs p (by simp [hp])
        refine ⟨max m n, fun p' hp' => ?_⟩
        obtain rfl | hp' := List.mem_cons.1 hp'
        · exact hm.mono disjoint_decides (le_max_left _ _)
        · exact (hn p' hp').mono disjoint_decides (le_max_right _ _)
    exact hall pairs h

section Unfold

variable {z y a b : TypeRef} {ta tb : LhatType}

theorem separate_succ (hz : At arena z a ta) (hy : At arena y b tb) :
    Separate arena (n + 1) (z, y) ↔ (question arena a b ta tb).Holds (Separate arena n) := by
  constructor
  · rintro ⟨⟨a', b'⟩, hentered, ta', tb', hta', htb', hholds⟩
    obtain ⟨sa, sb, hsa, hsb⟩ := entered_iff.1 hentered
    obtain ⟨rfl, rfl⟩ := hz.unique hsa
    obtain ⟨rfl, rfl⟩ := hy.unique hsb
    obtain rfl := Option.some.inj (hta'.symm.trans hz.2)
    obtain rfl := Option.some.inj (htb'.symm.trans hy.2)
    exact hholds
  · intro hholds
    exact ⟨(a, b), entered_iff.2 ⟨ta, tb, hz, hy⟩, ta, tb, hz.2, hy.2, hholds⟩

theorem apart_of_holds (hz : At arena z a ta) (hy : At arena y b tb)
    (h : (question arena a b ta tb).Holds fun p => KeptApart arena p.1 p.2) :
    KeptApart arena z y := by
  obtain ⟨n, hn⟩ := h.bounded
  exact ⟨n + 1, (separate_succ hz hy).2 hn⟩

/-- One of the two excludes errors, and the other is nothing else. -/
abbrev Excluded (arena : LhatTypeArena) (a b : TypeRef) (ta tb : LhatType) : Prop :=
  ta.excludesError = true ∧ arena.onlyErrors b = true ∨
    tb.excludesError = true ∧ arena.onlyErrors a = true

theorem Excluded.symm (h : Excluded arena a b ta tb) : Excluded arena b a tb ta := Or.symm h

/-- Nothing about the two on the face of it settles the question. -/
structure Unsettled (arena : LhatTypeArena) (a b : TypeRef) (ta tb : LhatType) : Prop where
  excluded : ¬Excluded arena a b ta tb
  gap : ta.isGap = false
  gap' : tb.isGap = false
  none : ta.kind ≠ .none
  none' : tb.kind ≠ .none

theorem Unsettled.question (h : Unsettled arena a b ta tb) :
    question arena a b ta tb = compositeQuestion arena a b ta tb := by
  unfold Lhat.Check.question
  rw [if_neg h.excluded, if_neg (by simp [h.gap, h.gap']), if_neg (by simp [h.none, h.none'])]

theorem question_excluded (h : Excluded arena a b ta tb) :
    question arena a b ta tb = .settled true := by
  unfold question
  rw [if_pos h]

theorem question_gap (h : ¬Excluded arena a b ta tb) (hgap : ta.isGap = true ∨ tb.isGap = true) :
    question arena a b ta tb = .settled false := by
  unfold question
  rw [if_neg h, if_pos hgap]

theorem question_none (h : ¬Excluded arena a b ta tb) (hgap : ta.isGap = false)
    (hgap' : tb.isGap = false) (hnone : ta.kind = .none ∨ tb.kind = .none) :
    question arena a b ta tb = .settled true := by
  unfold question
  rw [if_neg h, if_neg (by simp [hgap, hgap']), if_pos hnone]

theorem cases_of_separate (hz : At arena z a ta) (hy : At arena y b tb)
    (h : Separate arena n (z, y)) :
    Excluded arena a b ta tb ∨
      (ta.isGap = false ∧ tb.isGap = false ∧ (ta.kind = .none ∨ tb.kind = .none)) ∨
      Unsettled arena a b ta tb ∧
        ∃ m, n = m + 1 ∧ (compositeQuestion arena a b ta tb).Holds (Separate arena m) := by
  obtain ⟨m, rfl⟩ : ∃ m, n = m + 1 := by
    cases n with
    | zero => exact h.elim
    | succ m => exact ⟨m, rfl⟩
  have hholds := (separate_succ hz hy).1 h
  by_cases hexcluded : Excluded arena a b ta tb
  · exact .inl hexcluded
  · refine .inr ?_
    by_cases hgap : ta.isGap = true ∨ tb.isGap = true
    · rw [question_gap hexcluded hgap] at hholds
      cases hholds
    · rw [not_or, Bool.not_eq_true, Bool.not_eq_true] at hgap
      by_cases hnone : ta.kind = .none ∨ tb.kind = .none
      · exact .inl ⟨hgap.1, hgap.2, hnone⟩
      · rw [not_or] at hnone
        have hopen : Unsettled arena a b ta tb := ⟨hexcluded, hgap.1, hgap.2, hnone.1, hnone.2⟩
        rw [hopen.question] at hholds
        exact .inr ⟨hopen, m, rfl, hholds⟩

theorem keptApart_of_excluded (hz : At arena z a ta) (hy : At arena y b tb)
    (h : Excluded arena a b ta tb) : KeptApart arena z y := by
  apply apart_of_holds hz hy
  rw [question_excluded h]
  rfl

theorem keptApart_of_composite (hz : At arena z a ta) (hy : At arena y b tb)
    (hgap : ta.isGap = false) (hgap' : tb.isGap = false)
    (h : Unsettled arena a b ta tb →
      (compositeQuestion arena a b ta tb).Holds fun p => KeptApart arena p.1 p.2) :
    KeptApart arena z y := by
  apply apart_of_holds hz hy
  by_cases hexcluded : Excluded arena a b ta tb
  · rw [question_excluded hexcluded]
    rfl
  · by_cases hnone : ta.kind = .none ∨ tb.kind = .none
    · rw [question_none hexcluded hgap hgap' hnone]
      rfl
    · rw [not_or] at hnone
      have hopen : Unsettled arena a b ta tb := ⟨hexcluded, hgap, hgap', hnone.1, hnone.2⟩
      rw [hopen.question]
      exact h hopen

theorem composite_union (h : ta.kind = .union) :
    compositeQuestion arena a b ta tb = .all (ta.arms.map fun arm => (arm, b)) := by
  unfold compositeQuestion
  rw [if_pos h]

theorem composite_union_right (h : ta.kind ≠ .union) (h' : tb.kind = .union) :
    compositeQuestion arena a b ta tb = .any [(b, a)] false := by
  unfold compositeQuestion
  rw [if_neg h, if_pos h']

theorem composite_intersect (h : ta.kind = .intersect) (h' : tb.kind ≠ .union) :
    compositeQuestion arena a b ta tb = .any (ta.arms.map fun arm => (arm, b)) false := by
  unfold compositeQuestion
  rw [if_neg (by rw [h]; decide), if_neg h', if_pos h]

theorem composite_intersect_right (h : ta.kind ≠ .union) (hnot : ta.kind ≠ .intersect)
    (h' : tb.kind = .intersect) : compositeQuestion arena a b ta tb = .any [(b, a)] false := by
  unfold compositeQuestion
  rw [if_neg h, if_neg (by rw [h']; decide), if_neg hnot, if_pos h']

theorem composite_plain (h : ta.kind ≠ .union) (hnot : ta.kind ≠ .intersect)
    (h' : tb.kind ≠ .union) (hnot' : tb.kind ≠ .intersect) :
    compositeQuestion arena a b ta tb = plainQuestion arena a b ta tb := by
  unfold compositeQuestion
  rw [if_neg h, if_neg h', if_neg hnot, if_neg hnot']

end Unfold

/-! ## What is built -/

/-- What the constructors see to: no argument stands for an argument, and no union holds
itself. -/
structure Grounded (arena : LhatTypeArena) : Prop where
  bound : ∀ z a ta, At arena z a ta → ta.kind ≠ .argument
  rank : ∃ rank : TypeRef → Nat, ∀ a ta, arena.type a = some ta → ta.kind = .union →
    ∀ arm ∈ ta.arms, ∀ c tc, At arena arm c tc → rank c < rank a

theorem Grounded.at_self (hg : Grounded arena) {ta : LhatType}
    (hz : At arena z a ta) : At arena a a ta := by
  refine ⟨?_, hz.2⟩
  unfold LhatTypeArena.argumentBound
  rw [hz.2]
  exact if_neg (hg.bound z a ta hz)

/-- The types that are asked about where a pair is, from either side. -/
inductive Reached (arena : LhatTypeArena) (start : Pair) : Pair → Prop
  | start : Reached arena start start
  | swap {z y : TypeRef} : Reached arena start (z, y) → Reached arena start (y, z)
  | bound {z y a b : TypeRef} {ta tb : LhatType} : Reached arena start (z, y) →
      At arena z a ta → At arena y b tb → Reached arena start (a, b)
  | arm {z y a arm : TypeRef} {ta : LhatType} : Reached arena start (z, y) → At arena z a ta →
      ta.kind = .union ∨ ta.kind = .intersect → arm ∈ ta.arms → Reached arena start (arm, y)
  | plain {z y a b : TypeRef} {ta tb : LhatType} {pairs : List Pair} {after : Bool} {p : Pair} :
      Reached arena start (z, y) → At arena z a ta → At arena y b tb →
      plainQuestion arena a b ta tb = .any pairs after → p ∈ pairs → Reached arena start p

/-- What two types have to be for their question to be the same from the other side: unions
have arms, each with a value and none an error only through an argument; intersections have
no unions in them; and a member that two tables share has one name in both. -/
structure Even (arena : LhatTypeArena) (a b : TypeRef) (ta tb : LhatType) : Prop where
  unions : ta.kind = .union → tb.kind = .union → ta.arms ≠ [] ∧ ta.excludesError = false ∧
    ∀ arm ∈ ta.arms, ∀ c tc, At arena arm c tc →
      tc.kind ≠ .none ∧ (arena.onlyErrors c = true → arena.onlyErrors arm = true)
  intersections : ta.kind = .intersect → tb.kind = .intersect → ta.excludesError = false ∧
    ∀ arm ∈ ta.arms, ∀ c tc, At arena arm c tc →
      tc.kind ≠ .union ∧ tc.kind ≠ .none ∧ tc.excludesError = false
  names : ta.kind = .table → tb.kind = .table → ¬(ta.nominal = true ∧ tb.nominal = true) →
    ∀ m other, m.member.ambiguous = false → other.member.ambiguous = false →
      arena.findMember a m.member.name = some m →
      arena.findMember b m.member.name = some other → other.member.name = m.member.name

def EvenPair (arena : LhatTypeArena) (p : Pair) : Prop :=
  ∀ a b ta tb, At arena p.1 a ta → At arena p.2 b tb → Even arena a b ta tb

section Rules

variable {z y a b : TypeRef} {ta tb : LhatType} (hg : Grounded arena)
include hg

theorem separate_left (hz : At arena z a ta) :
    Separate arena n (a, y) ↔ Separate arena n (z, y) := by
  have hentered : entered arena (a, y) = entered arena (z, y) := by
    unfold entered
    rw [(hg.at_self hz).1, hz.1]
  cases n with
  | zero => exact Iff.rfl
  | succ n =>
    unfold Separate PathSearch.Derives
    rw [hentered]

theorem separate_right (hy : At arena y b tb) :
    Separate arena n (z, b) ↔ Separate arena n (z, y) := by
  have hentered : entered arena (z, b) = entered arena (z, y) := by
    unfold entered
    rw [(hg.at_self hy).1, hy.1]
  cases n with
  | zero => exact Iff.rfl
  | succ n =>
    unfold Separate PathSearch.Derives
    rw [hentered]

theorem keptApart_left (hz : At arena z a ta) : KeptApart arena a y ↔ KeptApart arena z y :=
  exists_congr fun _ => separate_left hg hz

theorem keptApart_right (hy : At arena y b tb) : KeptApart arena z b ↔ KeptApart arena z y :=
  exists_congr fun _ => separate_right hg hy

omit hg in
theorem KeptApart.at (h : KeptApart arena z y) :
    ∃ a b ta tb, At arena z a ta ∧ At arena y b tb := by
  obtain ⟨n, hn⟩ := h
  obtain ⟨m, ⟨a, b⟩, -, hentered, -⟩ := hn.entered
  obtain ⟨ta, tb, hz, hy⟩ := entered_iff.1 hentered
  exact ⟨a, b, ta, tb, hz, hy⟩

theorem KeptApart.swap (hz : At arena z a ta) (hy : At arena y b tb) (h : KeptApart arena z y)
    (hasked : compositeQuestion arena b a tb ta = .any [(a, b)] false) : KeptApart arena y z := by
  obtain ⟨n, hn⟩ := h
  obtain hexcluded | ⟨hgap, hgap', hnone⟩ | ⟨hopen, -⟩ := cases_of_separate hz hy hn
  · exact keptApart_of_excluded hy hz hexcluded.symm
  · exact keptApart_of_composite hy hz hgap' hgap fun hopen =>
      hnone.elim (fun h => absurd h hopen.none') fun h => absurd h hopen.none
  · refine keptApart_of_composite hy hz hopen.gap' hopen.gap fun _ => ?_
    rw [hasked]
    exact .inl ⟨(a, b), by simp, (keptApart_left hg hz).2 ((keptApart_right hg hy).2 ⟨n, hn⟩)⟩

theorem keptApart_union (hz : At arena z a ta) (hy : At arena y b tb) (hunion : ta.kind = .union)
    (hsome : tb.isGap = true → ta.arms ≠ [] ∧ ∀ arm ∈ ta.arms, ∀ c tc, At arena arm c tc →
      arena.onlyErrors c = true → arena.onlyErrors arm = true)
    (harms : ∀ arm ∈ ta.arms, KeptApart arena arm y) : KeptApart arena z y := by
  have hnot : ta.isGap = false := by simp [LhatType.isGap, hunion]
  by_cases hgap : tb.isGap = true
  · obtain ⟨hne, hraw⟩ := hsome hgap
    -- a gap is apart from errors only, and only where it excludes them
    have hone : ∀ arm ∈ ta.arms, tb.excludesError = true ∧ arena.onlyErrors arm = true := by
      intro arm harm
      obtain ⟨c, b', tc, tb', hc, hb'⟩ := (harms arm harm).at
      obtain ⟨rfl, rfl⟩ := hy.unique hb'
      obtain ⟨n, hn⟩ := harms arm harm
      obtain (⟨-, herrors⟩ | ⟨hexcludes, herrors⟩) | ⟨-, hgap', -⟩ | ⟨hopen, -⟩ :=
        cases_of_separate hc hy hn
      · rw [onlyErrors_plain hy.2 (by rintro hkind; simp [LhatType.isGap,
          hkind] at hgap)] at herrors
        simp [LhatType.isGap] at hgap
        simp [LhatType.isErrorType] at herrors
        rcases hgap with hkind | hkind | hkind <;> simp [hkind] at herrors
      · exact ⟨hexcludes, hraw arm harm c tc hc herrors⟩
      · rw [hgap'] at hgap
        cases hgap
      · rw [hopen.gap'] at hgap
        cases hgap
    obtain ⟨arm, harm⟩ := List.exists_mem_of_ne_nil _ hne
    exact keptApart_of_excluded hz hy (.inr ⟨(hone arm harm).1,
      (onlyErrors_union hz.2 hunion).2 fun arm harm => (hone arm harm).2⟩)
  · refine keptApart_of_composite hz hy hnot (by simpa using hgap) fun _ => ?_
    rw [composite_union hunion]
    intro p hp
    obtain ⟨arm, harm, rfl⟩ := List.mem_map.1 hp
    exact (keptApart_right hg hy).2 (harms arm harm)

theorem keptApart_intersect (hz : At arena z a ta) (hy : At arena y b tb)
    (hintersect : ta.kind = .intersect) (hunion : tb.kind ≠ .union) (hgap : tb.isGap = false)
    {arm : TypeRef} (harm : arm ∈ ta.arms) (hone : KeptApart arena arm y) :
    KeptApart arena z y := by
  have hnot : ta.isGap = false := by simp [LhatType.isGap, hintersect]
  refine keptApart_of_composite hz hy hnot hgap fun _ => ?_
  rw [composite_intersect hintersect hunion]
  exact .inl ⟨(arm, b), List.mem_map_of_mem harm, (keptApart_right hg hy).2 hone⟩

/-- Each from the other. -/
def Both (arena : LhatTypeArena) (z y : TypeRef) : Prop := KeptApart arena z y ∧ KeptApart arena y z

omit hg in
theorem Both.symm (h : Both arena z y) : Both arena y z := ⟨h.2, h.1⟩

end Rules

/-! ## Unions -/

/-- What a union, or an intersection, is taken apart into, itself among it. -/
inductive Within (arena : LhatTypeArena) (kind : LhatTypeKind) (y : TypeRef) : TypeRef → Prop
  | self : Within arena kind y y
  | arm {u b arm : TypeRef} {tb : LhatType} : Within arena kind y u → At arena u b tb →
      tb.kind = kind → arm ∈ tb.arms → Within arena kind y arm

/-- No union in it excludes errors itself. -/
def Clean (arena : LhatTypeArena) (y : TypeRef) : Prop :=
  ∀ u, Within arena .union y u → ∀ b tb, At arena u b tb → tb.kind = .union →
    tb.excludesError = false

/-- What a derivation gives from the other side, for the second type and for what it is
taken apart into. -/
def Swaps (arena : LhatTypeArena) (z y : TypeRef) : Prop :=
  KeptApart arena y z ∧ ((∀ a ta, At arena z a ta → ta.kind ≠ .none) → Clean arena y →
    ∀ y', Within arena .union y y' → Both arena z y')

section Unions

variable {start : Pair} {z y a b : TypeRef} {ta tb : LhatType}

theorem Reached.within (h : Reached arena start (z, y)) (hkind : kind = .union ∨ kind = .intersect)
    {y' : TypeRef} (hy' : Within arena kind y y') : Reached arena start (z, y') := by
  induction hy' with
  | self => exact h
  | arm _ hu hu' harm ih => exact (ih.swap.arm hu (hu' ▸ hkind) harm).swap

theorem Within.eq_self (hy : At arena y b tb) (hnot : tb.kind ≠ kind)
    {y' : TypeRef} (h : Within arena kind y y') : y' = y := by
  induction h with
  | self => rfl
  | arm _ hu hunion _ ih =>
    obtain rfl := ih
    obtain ⟨-, rfl⟩ := hy.unique hu
    exact absurd hunion hnot

theorem swaps_of_both (hy : At arena y b tb) (hnot : tb.kind ≠ .union)
    (h : Both arena z y) : Swaps arena z y := by
  refine ⟨h.2, fun _ _ y' hy' => ?_⟩
  obtain rfl := hy'.eq_self hy hnot
  exact h

theorem at_of_onlyErrors {arm : TypeRef} (h : arena.onlyErrors arm = true) :
    ∃ t, At arena arm arm t := by
  obtain ⟨t, ht, hone⟩ := onlyErrors_iff.1 h
  refine ⟨t, ?_, ht⟩
  unfold LhatTypeArena.argumentBound
  rw [ht]
  refine if_neg fun hkind => ?_
  simp [LhatType.isErrorType, hkind] at hone

theorem Separate.at_left (h : Separate arena n (z, y)) : ∃ a ta, At arena z a ta := by
  obtain ⟨a, -, ta, -, hz, -⟩ := KeptApart.at ⟨n, h⟩
  exact ⟨a, ta, hz⟩

variable (hg : Grounded arena)
include hg

theorem both_of_arms (hz : At arena z a ta) (hunion : ta.kind = .union) (hne : ta.arms ≠ [])
    (hraw : ∀ arm ∈ ta.arms, ∀ c tc, At arena arm c tc →
      arena.onlyErrors c = true → arena.onlyErrors arm = true)
    (harms : ∀ arm ∈ ta.arms, ∀ y', Within arena .union y y' → Both arena arm y') :
    ∀ y', Within arena .union y y' → Both arena z y' := by
  obtain ⟨rank, hrank⟩ := hg.rank
  obtain ⟨first, hfirst⟩ := List.exists_mem_of_ne_nil _ hne
  have hfound : ∀ y', Within arena .union y y' → ∃ b tb, At arena y' b tb := fun y' hy' => by
    obtain ⟨-, b, -, tb, -, hb⟩ := (harms first hfirst y' hy').1.at
    exact ⟨b, tb, hb⟩
  -- a union in the second is apart from the first where its arms are, which are lower
  have hall : ∀ r y' b tb, rank b = r → At arena y' b tb → Within arena .union y y' →
    Both arena z y' := by
    intro r
    induction r using Nat.strong_induction_on with
    | _ r ih =>
      intro y' b tb hr hb hy'
      have hto : KeptApart arena z y' := keptApart_union hg hz hb hunion
        (fun _ => ⟨hne, hraw⟩) fun arm harm => (harms arm harm y' hy').1
      refine ⟨hto, ?_⟩
      by_cases hunion' : tb.kind = .union
      · refine keptApart_union hg hb hz hunion' (fun hgap => ?_) fun arm harm => ?_
        · simp [LhatType.isGap, hunion] at hgap
        · have hwithin := hy'.arm hb hunion' harm
          obtain ⟨c, tc, hc⟩ := hfound arm hwithin
          exact (ih (rank c) (hr ▸ hrank b tb hb.2 hunion' arm harm c tc hc) arm c tc rfl hc
            hwithin).2
      · exact hto.swap hg hz hb (composite_union_right hunion' hunion)
  intro y' hy'
  obtain ⟨b, tb, hb⟩ := hfound y' hy'
  exact hall (rank b) y' b tb rfl hb hy'

omit hg in
theorem keptApart_of_none (hz : At arena z a ta) (hy : At arena y b tb) (hgap : ta.isGap = false)
    (hgap' : tb.isGap = false) (hnone : ta.kind = .none ∨ tb.kind = .none) : KeptApart arena z y :=
  keptApart_of_composite hz hy hgap hgap' fun hopen =>
    hnone.elim (fun h => absurd h hopen.none) fun h => absurd h hopen.none'

omit hg in
omit hg in
theorem both_of_excluded (hz : At arena z a ta) (hy : At arena y b tb)
    (h : Excluded arena a b ta tb) : Both arena z y :=
  ⟨keptApart_of_excluded hz hy h, keptApart_of_excluded hy hz h.symm⟩

theorem asked_of_separate (hz : At arena z a ta) (hy : At arena y b tb)
    (hasked : compositeQuestion arena a b ta tb = .any [(b, a)] false)
    (hn : Separate arena n (z, y)) :
    Excluded arena a b ta tb ∨
      (ta.isGap = false ∧ tb.isGap = false ∧ (ta.kind = .none ∨ tb.kind = .none)) ∨
      ∃ m < n, Separate arena m (y, z) := by
  obtain hexcluded | hnone | ⟨-, m, rfl, hholds⟩ := cases_of_separate hz hy hn
  · exact .inl hexcluded
  · exact .inr (.inl hnone)
  · rw [hasked] at hholds
    obtain ⟨p, hp, hone⟩ | hafter := hholds
    · obtain rfl := List.mem_singleton.1 hp
      exact .inr (.inr ⟨m, Nat.lt_succ_self m,
        (separate_left hg hy).1 ((separate_right hg hz).1 hone)⟩)
    · cases hafter

theorem swap_of_asked (hz : At arena z a ta) (hy : At arena y b tb)
    (hasked : compositeQuestion arena a b ta tb = .any [(b, a)] false)
    (hn : Separate arena n (z, y)) : KeptApart arena y z := by
  obtain hexcluded | ⟨hgap, hgap', hnone⟩ | ⟨m, -, hone⟩ := asked_of_separate hg hz hy hasked hn
  · exact keptApart_of_excluded hy hz hexcluded.symm
  · exact keptApart_of_none hy hz hgap' hgap hnone.symm
  · exact ⟨m, hone⟩

variable (hall : ∀ p, Reached arena start p → EvenPair arena p) {n : Nat}
  (ih : ∀ m < n, ∀ z y, Reached arena start (z, y) → Separate arena m (z, y) → Swaps arena z y)

include hall

omit hg in
theorem clean_of_even (hr : Reached arena start (z, y)) (hz : At arena z a ta)
    (hunion : ta.kind = .union) : Clean arena y := by
  intro u hu b tb hb hunion'
  exact ((hall _ (hr.within (.inl rfl) hu).swap b a tb ta hb hz).unions hunion' hunion).2.1

include ih

theorem swaps_union (hr : Reached arena start (z, y)) (hz : At arena z a ta) (hy : At arena y b tb)
    (hunion : ta.kind = .union) (hn : Separate arena n (z, y)) : Swaps arena z y := by
  by_cases hunion' : tb.kind = .union
  · obtain ⟨hne, hplain, harms⟩ := (hall _ hr a b ta tb hz hy).unions hunion hunion'
    obtain ⟨-, hplain', -⟩ := (hall _ hr.swap b a tb ta hy hz).unions hunion' hunion
    have hclean := clean_of_even hall hr hz hunion
    suffices h : ∀ y', Within arena .union y y' → Both arena z y' from
      ⟨(h y .self).2, fun _ _ => h⟩
    obtain (⟨hexcludes, -⟩ | ⟨hexcludes, -⟩) | ⟨-, -, hnone⟩ | ⟨-, m, rfl, hholds⟩ :=
      cases_of_separate hz hy hn
    · rw [hplain] at hexcludes
      cases hexcludes
    · rw [hplain'] at hexcludes
      cases hexcludes
    · rw [hunion, hunion'] at hnone
      simp at hnone
    · rw [composite_union hunion] at hholds
      refine both_of_arms hg hz hunion hne (fun arm harm c tc hc => (harms arm harm c tc hc).2)
        fun arm harm => ?_
      have harm' : Separate arena m (arm, y) :=
        (separate_right hg hy).1 (hholds _ (List.mem_map_of_mem harm))
      exact (ih m (Nat.lt_succ_self m) arm y (hr.arm hz (.inl hunion) harm) harm').2
        (fun c tc hc => (harms arm harm c tc hc).1) hclean
  · have hto : KeptApart arena z y := ⟨n, hn⟩
    exact swaps_of_both hy hunion' ⟨hto, hto.swap hg hz hy (composite_union_right hunion' hunion)⟩

omit hall in
theorem swaps_right (hr : Reached arena start (z, y)) (hz : At arena z a ta)
    (hy : At arena y b tb) (hunion : ta.kind ≠ .union) (hunion' : tb.kind = .union)
    (hn : Separate arena n (z, y)) : Swaps arena z y := by
  refine ⟨swap_of_asked hg hz hy (composite_union_right hunion hunion') hn, ?_⟩
  · intro hvalue hclean
    -- a union in it that errors do not settle is taken apart
    have harms : ∀ {u c : TypeRef} {tc : LhatType} {k : Nat}, Within arena .union y u →
      At arena u c tc →
        tc.kind = .union → Separate arena k (u, z) → ta.excludesError = true ∧
          arena.onlyErrors c = true ∨ ∃ m < k, ∀ arm ∈ tc.arms, Separate arena m (arm, z) := by
      intro u c tc k hu hc hkind hk
      obtain (⟨hexcludes, -⟩ | hexcluded) | ⟨-, -, hnone⟩ | ⟨-, m, rfl, hholds⟩ :=
        cases_of_separate hc hz hk
      · rw [hclean u hu c tc hc hkind] at hexcludes
        cases hexcludes
      · exact .inl hexcluded
      · rw [hkind] at hnone
        exact absurd (hnone.resolve_left (by decide)) (hvalue a ta hz)
      · rw [composite_union hkind] at hholds
        exact .inr ⟨m, Nat.lt_succ_self m, fun arm harm =>
          (separate_right hg hz).1 (hholds _ (List.mem_map_of_mem harm))⟩
    have hasked : ∀ y', Within arena .union y y' → ∃ c tc, At arena y' c tc ∧
        (ta.excludesError = true ∧ arena.onlyErrors c = true ∨
          ∃ k < n, Separate arena k (y', z)) := by
      intro y' hy'
      induction hy' with
      | self =>
        refine ⟨b, tb, hy, ?_⟩
        obtain (hexcluded | ⟨hexcludes, -⟩) | ⟨-, -, hnone⟩ | hone :=
          asked_of_separate hg hz hy (composite_union_right hunion hunion') hn
        · exact .inl hexcluded
        · rw [hclean y .self b tb hy hunion'] at hexcludes
          cases hexcludes
        · rw [hunion'] at hnone
          exact absurd (hnone.resolve_right (by decide)) (hvalue a ta hz)
        · exact .inr hone
      | @arm u c arm tc hu hc hkind harm ih =>
        have hone : ta.excludesError = true ∧ arena.onlyErrors arm = true ∨
            ∃ k < n, Separate arena k (arm, z) := by
          have hraw (herrors : arena.onlyErrors c = true) : arena.onlyErrors arm = true :=
            (onlyErrors_union hc.2 hkind).1 herrors arm harm
          obtain ⟨c', tc', hc', hone⟩ := ih
          obtain ⟨rfl, rfl⟩ := hc.unique hc'
          obtain ⟨hexcludes, herrors⟩ | ⟨k, hk, hone⟩ := hone
          · exact .inl ⟨hexcludes, hraw herrors⟩
          · obtain ⟨hexcludes, herrors⟩ | ⟨m, hm, hrest⟩ := harms hu hc hkind hone
            · exact .inl ⟨hexcludes, hraw herrors⟩
            · exact .inr ⟨m, hm.trans hk, hrest arm harm⟩
        obtain ⟨hexcludes, herrors⟩ | ⟨k, hk, hone⟩ := hone
        · obtain ⟨t, ht⟩ := at_of_onlyErrors herrors
          exact ⟨arm, t, ht, .inl ⟨hexcludes, herrors⟩⟩
        · obtain ⟨c', tc', hc'⟩ := Separate.at_left hone
          exact ⟨c', tc', hc', .inr ⟨k, hk, hone⟩⟩
    intro y' hy'
    obtain ⟨b', tb', hb', hexcluded | ⟨k, hk, hone⟩⟩ := hasked y' hy'
    · exact both_of_excluded hz hb' (.inl hexcluded)
    · exact ⟨(ih k hk y' z (hr.within (.inl rfl) hy').swap hone).1, ⟨k, hone⟩⟩

end Unions

/-! ## Intersections -/

/-- No union in it, nothing without a value and nothing that excludes errors. -/
def Sound (arena : LhatTypeArena) (y : TypeRef) : Prop :=
  ∀ u, Within arena .intersect y u → ∀ b tb, At arena u b tb →
    tb.excludesError = false ∧ tb.kind ≠ .union ∧ tb.kind ≠ .none

/-- What is not taken apart further. -/
def Leaf (arena : LhatTypeArena) (u : TypeRef) : Prop :=
  ∀ c tc, At arena u c tc → tc.kind ≠ .intersect

section Intersections

variable {start : Pair} {z y a b : TypeRef} {ta tb : LhatType}

theorem Within.trans {v : TypeRef} (h : Within arena kind z u)
    (h' : Within arena kind u v) : Within arena kind z v := by
  induction h' with
  | self => exact h
  | arm _ hc hkind harm ih => exact ih.arm hc hkind harm

theorem Sound.within (h : Sound arena z) (hu : Within arena .intersect z u) :
    Sound arena u := fun v hv => h v (hu.trans hv)

theorem not_excluded (hz : ta.excludesError = false) (hy : tb.excludesError = false) :
    ¬Excluded arena a b ta tb := by
  rintro (⟨h, -⟩ | ⟨h, -⟩)
  · rw [hz] at h
    cases h
  · rw [hy] at h
    cases h

theorem isGap_of_separate (hz : At arena z a ta) (hy : At arena y b tb)
    (hn : Separate arena n (z, y)) (h : ¬Excluded arena a b ta tb) :
    ta.isGap = false ∧ tb.isGap = false := by
  obtain hexcluded | ⟨hgap, hgap', -⟩ | ⟨hopen, -⟩ := cases_of_separate hz hy hn
  · exact absurd hexcluded h
  · exact ⟨hgap, hgap'⟩
  · exact ⟨hopen.gap, hopen.gap'⟩

theorem separate_composite (hz : At arena z a ta) (hy : At arena y b tb)
    (hn : Separate arena n (z, y)) (h : ¬Excluded arena a b ta tb) (hnone : ta.kind ≠ .none)
    (hnone' : tb.kind ≠ .none) :
    ∃ m, n = m + 1 ∧ (compositeQuestion arena a b ta tb).Holds (Separate arena m) := by
  obtain hexcluded | ⟨-, -, hnone''⟩ | ⟨-, hrest⟩ := cases_of_separate hz hy hn
  · exact absurd hexcluded h
  · exact absurd hnone'' (by simp [hnone, hnone'])
  · exact hrest

variable (hg : Grounded arena)
include hg

theorem keptApart_within (hu : Within arena .intersect z u) (hy : At arena y b tb)
    (hunion : tb.kind ≠ .union) (hgap : tb.isGap = false) (h : KeptApart arena u y) :
    KeptApart arena z y := by
  induction hu with
  | self => exact h
  | arm _ hc hkind harm ih => exact ih (keptApart_intersect hg hc hy hkind hunion hgap harm h)

variable {n : Nat}
  (ih : ∀ m < n, ∀ z y, Reached arena start (z, y) → Separate arena m (z, y) → Swaps arena z y)
include ih

theorem exists_leaves {m : Nat} (hm : m < n) : ∀ z y, Reached arena start (z, y) →
    Sound arena z → Sound arena y → Separate arena m (z, y) →
    ∃ u v, Within arena .intersect z u ∧ Within arena .intersect y v ∧ Leaf arena u ∧
      Leaf arena v ∧ Both arena u v := by
  induction m using Nat.strong_induction_on with
  | _ m ihm =>
    intro z y hr hsz hsy hone
    obtain ⟨a, b, ta, tb, hz, hy⟩ := KeptApart.at ⟨m, hone⟩
    obtain ⟨hplain, hunion, hnone⟩ := hsz z .self a ta hz
    obtain ⟨hplain', hunion', hnone'⟩ := hsy y .self b tb hy
    obtain ⟨k, rfl, hholds⟩ :=
      separate_composite hz hy hone (not_excluded hplain hplain') hnone hnone'
    by_cases hintersect : ta.kind = .intersect
    · rw [composite_intersect hintersect hunion'] at hholds
      obtain ⟨p, hp, harm⟩ | hafter := hholds
      · obtain ⟨arm, hmem, rfl⟩ := List.mem_map.1 hp
        have hwithin : Within arena .intersect z arm := Within.self.arm hz hintersect hmem
        obtain ⟨u, v, hu, hv, hrest⟩ := ihm k (Nat.lt_succ_self k) (by omega) arm y
          (hr.arm hz (.inr hintersect) hmem) (hsz.within hwithin) hsy
          ((separate_right hg hy).1 harm)
        exact ⟨u, v, hwithin.trans hu, hv, hrest⟩
      · cases hafter
    · by_cases hintersect' : tb.kind = .intersect
      · rw [composite_intersect_right hunion hintersect hintersect'] at hholds
        obtain ⟨p, hp, hone⟩ | hafter := hholds
        · obtain rfl := List.mem_singleton.1 hp
          obtain ⟨v, u, hv, hu, hleaf, hleaf', hboth⟩ := ihm k (Nat.lt_succ_self k) (by omega)
            y z hr.swap hsy hsz ((separate_left hg hy).1 ((separate_right hg hz).1 hone))
          exact ⟨u, v, hu, hv, hleaf', hleaf, hboth.symm⟩
        · cases hafter
      · refine ⟨z, y, .self, .self, fun c tc hc => ?_, fun c tc hc => ?_, ⟨k + 1, hone⟩,
          (ih (k + 1) hm z y hr hone).1⟩
        · rw [← (hz.unique hc).2]
          exact hintersect
        · rw [← (hy.unique hc).2]
          exact hintersect'

omit ih in
theorem keptApart_of_leaves {v : TypeRef} (hz : At arena z a ta) (hsz : Sound arena z)
    (hsy : Sound arena y) (hu : Within arena .intersect z u) (hv : Within arena .intersect y v)
    (hleaf : Leaf arena v) (hboth : Both arena u v) : KeptApart arena y z := by
  obtain ⟨c, d, tc, td, hc, hd⟩ := hboth.1.at
  obtain ⟨hplain, hunion, -⟩ := hsz z .self a ta hz
  obtain ⟨hplain', hunion', -⟩ := hsy v hv d td hd
  have hapart : ∀ {e te w}, At arena w e te → te.excludesError = false → KeptApart arena w v →
      te.isGap = false ∧ td.isGap = false := fun hw hte ⟨n, hn⟩ =>
    isGap_of_separate hw hd hn (not_excluded hte hplain')
  have hzv : KeptApart arena z v := keptApart_within hg hu hd hunion'
    (hapart hc (hsz u hu c tc hc).1 hboth.1).2 hboth.1
  have hvz : KeptApart arena v z := by
    by_cases hintersect : ta.kind = .intersect
    · exact hzv.swap hg hz hd (composite_intersect_right hunion' (hleaf d td hd) hintersect)
    · obtain rfl := hu.eq_self hz hintersect
      exact hboth.2
  exact keptApart_within hg hv hz hunion (hapart hz hplain hzv).1 hvz

variable (hall : ∀ p, Reached arena start p → EvenPair arena p)
include hall

omit hg ih in
theorem sound_of_even (hr : Reached arena start (z, y)) (hz : At arena z a ta)
    (hy : At arena y b tb) (hintersect : ta.kind = .intersect) (hintersect' : tb.kind = .intersect)
    : Sound arena z := by
  intro u hu
  induction hu with
  | self =>
    intro c tc hc
    obtain ⟨-, rfl⟩ := hz.unique hc
    exact ⟨((hall _ hr a b ta tb hz hy).intersections hintersect hintersect').1,
      by rw [hintersect]; decide, by rw [hintersect]; decide⟩
  | arm hu hc hkind harm ih =>
    intro e te he
    obtain ⟨-, harms⟩ := ((hall _ (hr.swap.within
      (.inr rfl) hu).swap _ b _ tb hc hy).intersections
      hkind hintersect')
    obtain ⟨hunion, hnone, hplain⟩ := harms _ harm e te he
    exact ⟨hplain, hunion, hnone⟩

theorem swaps_intersect (hr : Reached arena start (z, y)) (hz : At arena z a ta)
    (hy : At arena y b tb) (hunion : ta.kind ≠ .union) (hunion' : tb.kind ≠ .union)
    (hone : ta.kind = .intersect ∨ tb.kind = .intersect) (hn : Separate arena n (z, y)) :
    Swaps arena z y := by
  have hto : KeptApart arena z y := ⟨n, hn⟩
  refine swaps_of_both hy hunion' ⟨hto, ?_⟩
  by_cases hintersect : ta.kind = .intersect
  · by_cases hintersect' : tb.kind = .intersect
    · have hsz := sound_of_even hall hr hz hy hintersect hintersect'
      have hsy := sound_of_even hall hr.swap hy hz hintersect' hintersect
      obtain ⟨hplain, -, hnone⟩ := hsz z .self a ta hz
      obtain ⟨hplain', -, hnone'⟩ := hsy y .self b tb hy
      obtain ⟨m, rfl, hholds⟩ :=
        separate_composite hz hy hn (not_excluded hplain hplain') hnone hnone'
      rw [composite_intersect hintersect hunion'] at hholds
      obtain ⟨p, hp, harm⟩ | hafter := hholds
      · obtain ⟨arm, hmem, rfl⟩ := List.mem_map.1 hp
        have hwithin : Within arena .intersect z arm := Within.self.arm hz hintersect hmem
        obtain ⟨u, v, hu, hv, -, hleaf, hboth⟩ := exists_leaves hg ih (Nat.lt_succ_self m) arm y
          (hr.arm hz (.inr hintersect) hmem) (hsz.within hwithin) hsy
          ((separate_right hg hy).1 harm)
        exact keptApart_of_leaves hg hz hsz hsy (hwithin.trans hu) hv hleaf hboth
      · cases hafter
    · exact hto.swap hg hz hy (composite_intersect_right hunion' hintersect' hintersect)
  · have hintersect' := hone.resolve_left hintersect
    exact swap_of_asked hg hz hy (composite_intersect_right hunion hintersect hintersect') hn

end Intersections

/-! ## Everything else -/

section Plain

variable {z y a b : TypeRef} {ta tb : LhatType}

theorem errorsDisjoint_comm (a b : TypeRef) (ta tb : LhatType) :
    errorsDisjoint b a tb ta = errorsDisjoint a b ta tb := by
  unfold errorsDisjoint
  simp only [ne_comm (a := b), ne_comm (a := tb.inLocal), or_comm (a := tb.kind = .error),
    or_comm (a := tb.kind = .errorSet), ne_comm (a := errorSetOf b tb), Bool.or_comm
      (!tb.isErrorType)]

theorem enumsDisjoint_comm (a b : TypeRef) (ta tb : LhatType) :
    enumsDisjoint b a tb ta = enumsDisjoint a b ta tb := by
  unfold enumsDisjoint
  simp only [ne_comm (a := b), or_comm (a := tb.kind = .enum), ne_comm (a := enumDeclOf b tb)]

theorem nominalsDisjoint_comm (a b : TypeRef) (ta tb : LhatType) :
    nominalsDisjoint b a tb ta = nominalsDisjoint a b ta tb := by
  unfold nominalsDisjoint
  rw [Bool.and_comm tb.isTypeinfo, Bool.and_assoc, Bool.and_assoc,
    Bool.and_comm (!tb.nominalIsA ta)]
  simp only [ne_comm (a := b)]

theorem sharedWith_swap {m : MemberPlace} {p : Pair}
    (heven : Even arena a b ta tb) (ha : ta.kind = .table) (hb : tb.kind = .table)
    (hnominal : ¬(ta.nominal = true ∧ tb.nominal = true)) (h : sharedWith arena a b m = some p) :
    ∃ other ∈ arena.chainPlaces b, sharedWith arena b a other = some p.swap := by
  unfold sharedWith at h
  split at h
  · cases h
  · next hseen =>
      rw [not_or, Bool.not_eq_true, not_not] at hseen
      cases hother : arena.findMember b m.member.name with
      | none =>
        rw [hother] at h
        cases h
      | some other =>
        rw [hother] at h
        simp only at h
        split at h
        · cases h
        · next hclear =>
            cases h
            rw [Bool.not_eq_true] at hclear
            have hname := heven.names ha hb hnominal m other hseen.1 hclear hseen.2 hother
            refine ⟨other, mem_chainPlaces hother, ?_⟩
            unfold sharedWith
            rw [hname, hother, hseen.2]
            simp [hclear, hseen.1]

theorem plainQuestion_swap {sub : Pair → Prop} {sub' : Pair → Prop} (heven : Even arena a b ta tb)
    (hasked : ∀ pairs after p, plainQuestion arena a b ta tb = .any pairs after → p ∈ pairs →
      sub p → sub' p.swap)
    (h : (plainQuestion arena a b ta tb).Holds sub) : (plainQuestion arena b a tb ta).Holds sub' :=
    by
  unfold plainQuestion at h hasked ⊢
  by_cases herror : ta.isErrorType = true ∨ tb.isErrorType = true
  · rw [if_pos herror] at h
    rw [if_pos herror.symm, errorsDisjoint_comm]
    exact h
  rw [if_neg herror] at h hasked
  rw [if_neg fun h => herror h.symm]
  by_cases henum : ta.isEnumType = true ∧ tb.isEnumType = true
  · rw [if_pos henum] at h
    rw [if_pos henum.symm, enumsDisjoint_comm]
    exact h
  rw [if_neg henum] at h hasked
  rw [if_neg fun h => henum h.symm]
  by_cases hkind : ta.kind ≠ tb.kind
  · rw [if_pos hkind.symm]
    rfl
  rw [if_neg hkind] at h hasked
  rw [if_neg fun h => hkind h.symm]
  rw [not_not] at hkind
  by_cases hbase : ta.specializationBase ≠ 0 ∨ tb.specializationBase ≠ 0
  · rw [if_pos hbase] at h hasked
    rw [if_pos hbase.symm]
    obtain ⟨p, hp, hone⟩ | hafter := h
    · obtain rfl := List.mem_singleton.1 hp
      exact .inl ⟨_, List.mem_singleton.2 rfl, hasked _ _ _ rfl (List.mem_singleton.2 rfl) hone⟩
    · cases hafter
  rw [if_neg hbase] at h hasked
  rw [if_neg fun h => hbase h.symm]
  by_cases hhost : ta.kind = .hostvalue ∨ ta.kind = .hostvalueBox
  · rw [if_pos hhost] at h
    rw [if_pos (hkind ▸ hhost)]
    exact decide_eq_true (of_decide_eq_true h).symm
  rw [if_neg hhost] at h hasked
  rw [if_neg (hkind ▸ hhost)]
  by_cases htuple : ta.kind = .tuple
  · rw [if_pos htuple] at h hasked
    rw [if_pos (hkind ▸ htuple)]
    obtain ⟨p, hp, hone⟩ | hafter := h
    · refine .inl ⟨p.swap, ?_, hasked _ _ _ rfl hp hone⟩
      rw [← List.zip_swap]
      exact List.mem_map_of_mem hp
    · exact .inr (decide_eq_true (of_decide_eq_true hafter).symm)
  rw [if_neg htuple] at h hasked
  rw [if_neg (hkind ▸ htuple)]
  by_cases htable : ta.kind = .table
  · rw [if_pos htable] at h hasked
    rw [if_pos (hkind ▸ htable)]
    by_cases hnominal : ta.nominal = true ∧ tb.nominal = true
    · rw [if_pos hnominal] at h
      rw [if_pos hnominal.symm, nominalsDisjoint_comm]
      exact h
    rw [if_neg hnominal] at h hasked
    rw [if_neg fun h => hnominal h.symm]
    obtain ⟨p, hp, hone⟩ | hafter := h
    · obtain ⟨m, -, hshared⟩ := List.mem_filterMap.1 hp
      obtain ⟨other, hother, hshared'⟩ :=
        sharedWith_swap heven htable (hkind ▸ htable) hnominal hshared
      exact .inl ⟨p.swap, List.mem_filterMap.2 ⟨other, hother, hshared'⟩, hasked _ _ _ rfl hp hone⟩
    · cases hafter
  · rw [if_neg htable] at h
    cases h

end Plain

section Symmetric

variable {start : Pair} (hg : Grounded arena)
  (hall : ∀ p, Reached arena start p → EvenPair arena p)
include hg hall

theorem separate_swaps (n : Nat) : ∀ z y, Reached arena start (z, y) →
    Separate arena n (z, y) → Swaps arena z y := by
  induction n using Nat.strong_induction_on with
  | _ n ih =>
    intro z y hr hn
    obtain ⟨a, b, ta, tb, hz, hy⟩ := KeptApart.at ⟨n, hn⟩
    by_cases hunion : ta.kind = .union
    · exact swaps_union hg hall ih hr hz hy hunion hn
    by_cases hunion' : tb.kind = .union
    · exact swaps_right hg ih hr hz hy hunion hunion' hn
    by_cases hintersect : ta.kind = .intersect ∨ tb.kind = .intersect
    · exact swaps_intersect hg ih hall hr hz hy hunion hunion' hintersect hn
    rw [not_or] at hintersect
    refine swaps_of_both hy hunion' ⟨⟨n, hn⟩, ?_⟩
    obtain hexcluded | ⟨hgap, hgap', hnone⟩ | ⟨hopen, m, rfl, hholds⟩ :=
      cases_of_separate hz hy hn
    · exact keptApart_of_excluded hy hz hexcluded.symm
    · exact keptApart_of_none hy hz hgap' hgap hnone.symm
    · rw [composite_plain hunion hintersect.1 hunion' hintersect.2] at hholds
      refine keptApart_of_composite hy hz hopen.gap' hopen.gap fun _ => ?_
      rw [composite_plain hunion' hintersect.2 hunion hintersect.1]
      refine plainQuestion_swap (hall _ hr a b ta tb hz hy)
        (fun pairs after p hasked hp hone => ?_)
        hholds
      exact (ih m (Nat.lt_succ_self m) p.1 p.2 (hr.plain hz hy hasked hp) hone).1

end Symmetric

/-- A number, a string, a table with a number in it and a definition with a string. -/
def numberAndString (name name' : Text) : LhatTypeArena :=
  [{ kind := .number }, { kind := .string },
    { kind := .table, members := [⟨name, 1, false⟩] },
    { kind := .table, isDefinition := true, members := [⟨name', 2, false⟩] }]

theorem numberAndString_type {name name' : Text}
    (h : (numberAndString name name').type a = some t) :
    a = 1 ∧ t.kind = .number ∨ a = 2 ∧ t.kind = .string ∨
      (a = 3 ∨ a = 4) ∧ t.kind = .table ∧ t.nominal = false := by
  unfold LhatTypeArena.type numberAndString at h
  rcases a with _ | _ | _ | _ | _ | a
  · cases h
  all_goals simp at h
  all_goals subst h
  all_goals simp

theorem numberAndString_grounded (name name' : Text) : Grounded (numberAndString name name') where
  bound z a ta hz := by
    rcases numberAndString_type hz.2 with ⟨-, hkind⟩ | ⟨-, hkind⟩ | ⟨-, hkind, -⟩ <;> simp [hkind]
  rank := ⟨fun _ => 0, fun a ta hta hunion => by
    rcases numberAndString_type hta with ⟨-, hkind⟩ | ⟨-, hkind⟩ | ⟨-, hkind, -⟩ <;>
      simp [hkind] at hunion⟩

/-- One name in both. -/
abbrev oneName : LhatTypeArena := numberAndString (Lexing.text "n") (Lexing.text "n")

theorem oneName_even {p : Pair} : EvenPair oneName p := by
  intro a b ta tb hz hy
  refine ⟨fun hkind => ?_, fun hkind => ?_, fun _ _ _ m other _ _ hm hother => ?_⟩
  · rcases numberAndString_type hz.2 with ⟨-, h⟩ | ⟨-, h⟩ | ⟨-, h, -⟩ <;> simp [h] at hkind
  · rcases numberAndString_type hz.2 with ⟨-, h⟩ | ⟨-, h⟩ | ⟨-, h, -⟩ <;> simp [h] at hkind
  · have hname : ∀ {a : TypeRef} {t : LhatType} {m : MemberPlace}, oneName.type a = some t →
        m ∈ oneName.chainPlaces a → m.member.name = Lexing.text "n" := by
      intro a t m ht hm
      have hall : ∀ a ∈ [1, 2, 3, 4], ∀ m ∈ oneName.chainPlaces a,
          m.member.name = Lexing.text "n" := by decide_cbv
      refine hall a ?_ m hm
      rcases numberAndString_type ht with ⟨rfl, -⟩ | ⟨rfl, -⟩ | ⟨rfl | rfl, -⟩ <;> decide
    rw [hname hz.2 (mem_chainPlaces hm), hname hy.2 (mem_chainPlaces hother)]

end Lhat.Check
