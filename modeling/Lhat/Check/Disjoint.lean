import Mathlib.Data.Finset.Prod
import Mathlib.Order.Interval.Finset.Nat
import Lhat.Foundation.PathSearch
import Lhat.Check.Types

/-!
# Whether no value inhabits two types

`disjoint_in`, with the pairs that are being asked about on its path: a pair that comes back
is answered no. What two types come to, a settled answer or the pairs that have to be asked
about, is separate from the asking. What is answered yes is what has a finite derivation.
-/

namespace Lhat.Check

open Lexing (Text)

/-- Two types that are asked about. -/
abbrev Pair := TypeRef × TypeRef

/-- What two types come to: an answer, or a loop over pairs that ends where one is not
separate, or where one is, with the answer that stands after the loop. -/
inductive Question where
  | settled (answer : Bool)
  | all (pairs : List Pair)
  | any (pairs : List Pair) (after : Bool)
deriving DecidableEq

section Disjoint

variable (arena : LhatTypeArena)

/-- Where one of the two is an error. -/
def errorsDisjoint (a b : TypeRef) (ta tb : LhatType) : Bool :=
  if !ta.isErrorType || !tb.isErrorType then true
  else if ta.inLocal ≠ tb.inLocal then true
  else if ta.kind = .error ∨ tb.kind = .error then false
  else if ta.kind = .errorSet ∨ tb.kind = .errorSet then errorSetOf a ta ≠ errorSetOf b tb
  else a ≠ b

/-- Where both are of an enumeration. -/
def enumsDisjoint (a b : TypeRef) (ta tb : LhatType) : Bool :=
  if ta.kind = .enum ∨ tb.kind = .enum then enumDeclOf a ta ≠ enumDeclOf b tb else a ≠ b

/-- Where both are registered types. -/
def nominalsDisjoint (a b : TypeRef) (ta tb : LhatType) : Bool :=
  if ta.isTypeinfo && tb.isTypeinfo then false
  else a ≠ b && !ta.nominalIsA tb && !tb.nominalIsA ta

/-- What is asked of a member of the first: the two types that have to meet. -/
def sharedWith (a b : TypeRef) (m : MemberPlace) : Option Pair :=
  if m.member.ambiguous ∨ arena.findMember a m.member.name ≠ some m then none
  else
    match arena.findMember b m.member.name with
    | some other => if other.member.ambiguous then none else some (m.member.type, other.member.type)
    | none => none

/-- What two types come to that are neither unions nor intersections. -/
def plainQuestion (a b : TypeRef) (ta tb : LhatType) : Question :=
  if ta.isErrorType ∨ tb.isErrorType then .settled (errorsDisjoint a b ta tb)
  else if ta.isEnumType ∧ tb.isEnumType then .settled (enumsDisjoint a b ta tb)
  else if ta.kind ≠ tb.kind then .settled true
  else if ta.specializationBase ≠ 0 ∨ tb.specializationBase ≠ 0 then
    .any [(arena.checkTypeBase a, arena.checkTypeBase b)] false
  else if ta.kind = .hostvalue ∨ ta.kind = .hostvalueBox then
    .settled (ta.hostvalueTag ≠ tb.hostvalueTag)
  else if ta.kind = .tuple then
    .any (ta.arms.zip tb.arms) (ta.arms.length ≠ tb.arms.length)
  else if ta.kind = .table then
    if ta.nominal ∧ tb.nominal then .settled (nominalsDisjoint a b ta tb)
    else .any ((arena.chainPlaces a).filterMap (sharedWith arena a b)) false
  else .settled false

/-- What two types come to that some value inhabits. -/
def compositeQuestion (a b : TypeRef) (ta tb : LhatType) : Question :=
  if ta.kind = .union then .all (ta.arms.map fun arm => (arm, b))
  else if tb.kind = .union then .any [(b, a)] false
  else if ta.kind = .intersect then .any (ta.arms.map fun arm => (arm, b)) false
  else if tb.kind = .intersect then .any [(b, a)] false
  else plainQuestion arena a b ta tb

def question (a b : TypeRef) (ta tb : LhatType) : Question :=
  if ta.excludesError ∧ arena.onlyErrors b ∨ tb.excludesError ∧
    arena.onlyErrors a then .settled true
  else if ta.isGap ∨ tb.isGap then .settled false
  else if ta.kind = .none ∨ tb.kind = .none then .settled true
  else compositeQuestion arena a b ta tb

/-- The types behind two arguments, where both are there. -/
def entered (p : Pair) : Option Pair :=
  let a := arena.argumentBound p.1
  let b := arena.argumentBound p.2
  if (arena.type a).isSome && (arena.type b).isSome then some (a, b) else none

/-- `disjoint_in`, of a pair that is not being asked about. -/
def disjointStep (ask : Pair → Option Bool) (q : Pair) : Option Bool :=
  match arena.type q.1, arena.type q.2 with
  | some ta, some tb =>
    match question arena q.1 q.2 ta tb with
    | .settled answer => some answer
    | .all pairs => pairs.allM ask
    | .any pairs after => do if ← pairs.anyM ask then return true else return after
  | _, _ => some false

/-- `disjoint_in`. -/
def disjointIn (fuel : Nat) (seen : List Pair) (a b : TypeRef) : Option Bool :=
  PathSearch.search (entered arena) (disjointStep arena) fuel seen (a, b)

/-- `lhat_type_disjoint`, with room for every pair of types on the path. -/
def lhatTypeDisjoint (a b : TypeRef) : Option Bool :=
  disjointIn arena (arena.length * arena.length + 1) [] a b

end Disjoint

/-! ## What is answered -/

/-- The answer to a question, where it is known of the pairs. -/
def Question.Holds (sub : Pair → Prop) : Question → Prop
  | settled answer => answer = true
  | all pairs => ∀ p ∈ pairs, sub p
  | any pairs after => (∃ p ∈ pairs, sub p) ∨ after = true

section Decides

variable (arena : LhatTypeArena)

/-- What keeps two types apart, where it is known of the types they hold. -/
def Apart (sub : Pair → Prop) (q : Pair) : Prop :=
  ∃ ta tb, arena.type q.1 = some ta ∧ arena.type q.2 = some tb ∧
    (question arena q.1 q.2 ta tb).Holds sub

/-- What two types are separate by, in so many steps. -/
abbrev Separate : Nat → Pair → Prop := PathSearch.Derives (entered arena) (Apart arena)

variable {arena}

theorem Question.Holds.mono {S T : Pair → Prop} (h : ∀ p, S p → T p) {asked : Question}
    (hasked : asked.Holds S) : asked.Holds T := by
  cases asked with
  | settled answer => exact hasked
  | all pairs => exact fun p hp => h p (hasked p hp)
  | any pairs after => exact hasked.imp_left fun ⟨p, hp, hone⟩ => ⟨p, hp, h p hone⟩

theorem disjoint_decides : PathSearch.Decides (Apart arena) (disjointStep arena) where
  mono h q := by
    rintro ⟨ta, tb, hta, htb, hholds⟩
    exact ⟨ta, tb, hta, htb, hholds.mono h⟩
  answers ask hask q := by
    unfold disjointStep Apart
    cases hta : arena.type q.1 with
    | none => exact ⟨false, rfl, by simp⟩
    | some ta =>
      cases htb : arena.type q.2 with
      | none => exact ⟨false, rfl, by simp⟩
      | some tb =>
        simp only [Option.some.injEq, exists_and_left, exists_eq_left']
        cases question arena q.1 q.2 ta tb with
        | settled answer => exact ⟨answer, rfl, Iff.rfl⟩
        | all pairs => exact PathSearch.allM_answers fun p _ => hask p
        | any pairs after =>
          obtain ⟨r, hr, hiff⟩ := @PathSearch.anyM_answers _ ask pairs fun p _ => hask p
          refine ⟨r || after, ?_, ?_⟩
          · simp only [hr]
            cases r <;> rfl
          · rw [Bool.or_eq_true, hiff]
            rfl

/-- The pairs of types of an arena. -/
def pairsOf (arena : LhatTypeArena) : Finset Pair :=
  Finset.Icc 1 arena.length ×ˢ Finset.Icc 1 arena.length

theorem mem_of_type {a : TypeRef} (h : (arena.type a).isSome) : a ∈ Finset.Icc 1 arena.length := by
  unfold LhatTypeArena.type at h
  split at h
  · cases h
  · next hne =>
      obtain ⟨t, ht⟩ := Option.isSome_iff_exists.1 h
      have hlt : Nat.sub a 1 < arena.length := (List.getElem?_eq_some_iff.1 ht).1
      have hpos : 0 < a := Nat.pos_of_ne_zero hne
      rw [Finset.mem_Icc]
      exact ⟨hpos, Nat.le_of_pred_lt hlt⟩

theorem entered_mem {p q : Pair} (h : entered arena p = some q) : q ∈ pairsOf arena := by
  unfold entered at h
  simp only at h
  split at h
  · next hsome =>
      cases h
      rw [Bool.and_eq_true] at hsome
      exact Finset.mem_product.2 ⟨mem_of_type hsome.1, mem_of_type hsome.2⟩
  · cases h

theorem lhatTypeDisjoint_iff (a b : TypeRef) :
    ∃ r, lhatTypeDisjoint arena a b = some r ∧ (r = true ↔ ∃ n, Separate arena n (a, b)) := by
  refine PathSearch.search_iff disjoint_decides (pairsOf arena) (fun _ _ => entered_mem) ?_ (a, b)
  rw [pairsOf, Finset.card_product, Nat.card_Icc, Nat.add_sub_cancel]
  exact Nat.lt_succ_self _

end Decides

end Lhat.Check
