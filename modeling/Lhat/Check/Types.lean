import Lhat.Lexing.Token

/-!
# The types of the checker

A type is a node of the arena and is compared by where it stands; a written `Self^` makes a
type that holds itself. What is modelled of a node is what the question of disjointness
reads. The index that a long list of members carries beside it is left out: it is built from
the list, and is there to answer the same sooner.
-/

namespace Lhat.Check

open Lexing (Text)

variable {name : Text} {place : MemberPlace}

/-- `LhatTypeKind`. -/
inductive LhatTypeKind where
  | unknown | none | any | nil | bool | number | string | costate | table | func | coro | tuple
  | hostvalue | hostvalueBox | error | errorSet | errorKind | enum | enumMember | union
  | intersect | pending | argument
deriving DecidableEq, Repr

/-- A type as it is pointed at; `0` is `NULL`. -/
abbrev TypeRef := Nat

/-- `LhatTypeMember`. -/
structure LhatTypeMember where
  name : Text
  type : TypeRef
  ambiguous : Bool := false
deriving DecidableEq, Repr

/-- `LhatType`. A tag of a host type is the list of what it was declared under, itself
first. -/
structure LhatType where
  kind : LhatTypeKind
  excludesError : Bool := false
  specializationBase : TypeRef := 0
  bound : TypeRef := 0
  arms : List TypeRef := []
  members : List LhatTypeMember := []
  base : TypeRef := 0
  delegate : TypeRef := 0
  isDefinition : Bool := false
  fromDefinition : Bool := false
  nominal : Bool := false
  isTypeinfo : Bool := false
  hostvalueTag : Nat := 0
  hostdataTag : List Nat := []
  inLocal : Bool := false
  set : TypeRef := 0
  takesSelf : Bool := false
deriving DecidableEq, Repr

/-- `LhatTypeArena`. -/
abbrev LhatTypeArena := List LhatType

/-- A member and where it stands: two members are one where they stand in one place. -/
structure MemberPlace where
  owner : TypeRef
  index : Nat
  member : LhatTypeMember
deriving DecidableEq

namespace LhatType

/-- `is_error_type`. -/
def isErrorType (t : LhatType) : Bool :=
  t.kind = .error ∨ t.kind = .errorSet ∨ t.kind = .errorKind

/-- `is_enum_type`. -/
def isEnumType (t : LhatType) : Bool := t.kind = .enum ∨ t.kind = .enumMember

/-- A gap in inference, or the top. -/
def isGap (t : LhatType) : Bool := t.kind = .unknown ∨ t.kind = .pending ∨ t.kind = .any

/-- What members are looked up in. -/
def holdsMembers (t : LhatType) : Bool := t.kind = .table ∨ t.kind = .hostvalue

/-- `writers_namespace`. -/
def writersNamespace (t : LhatType) : Bool :=
  t.kind = .table ∧ !t.isDefinition ∧ !t.fromDefinition ∧ !t.nominal

/-- `nominal_is_a`. -/
def nominalIsA (value target : LhatType) : Bool :=
  match target.hostdataTag with
  | [] => false
  | wanted :: _ => value.hostdataTag.contains wanted

end LhatType

/-- `lhat_member_held_as`. -/
def lhatMemberHeldAs (name : Text) : Text :=
  if name = Lexing.text "tostring^" then Lexing.text "tostring"
  else if name = Lexing.text "iterate^" then Lexing.text "iterate"
  else name

/-- `held_as`. -/
def heldAs (t : LhatType) (name : Text) : Text :=
  if !t.holdsMembers || t.writersNamespace then name else lhatMemberHeldAs name

/-- `error_set_of`, of the error type at a place. -/
def errorSetOf (a : TypeRef) (t : LhatType) : TypeRef :=
  if t.kind = .errorKind then t.set else if t.kind = .errorSet then a else 0

/-- `enum_decl_of`. -/
def enumDeclOf (a : TypeRef) (t : LhatType) : TypeRef := if t.kind = .enumMember then t.set else a

/-! ## Links -/

/-- What a walk along a chain visits: every node once, to the end or once around a ring. -/
def chainFrom (next : TypeRef → TypeRef) : Nat → List TypeRef → TypeRef → List TypeRef
  | 0, _, _ => []
  | left + 1, visited, current =>
    if current = 0 ∨ current ∈ visited then []
    else current :: chainFrom next left (current :: visited) (next current)

namespace LhatTypeArena

variable (arena : LhatTypeArena)

/-- The type at a place. -/
def type (a : TypeRef) : Option LhatType := if a = 0 then none else arena[a - 1]?

/-- `lhat_type_argument_bound`. -/
def argumentBound (a : TypeRef) : TypeRef :=
  match arena.type a with
  | some t => if t.kind = .argument then t.bound else a
  | none => a

/-- `lhat_check_type_base`. -/
def checkTypeBase (a : TypeRef) : TypeRef :=
  match arena.type a with
  | some t => if t.specializationBase ≠ 0 then t.specializationBase else a
  | none => a

/-- `type_next`. -/
def typeNext (a : TypeRef) : TypeRef :=
  match arena.type a with
  | some t => if t.holdsMembers then (if t.base ≠ 0 then t.base else t.delegate) else 0
  | none => 0

/-- `lhat_type_chain`, walked to its end. -/
def typeChain (table : TypeRef) : List TypeRef :=
  chainFrom arena.typeNext (arena.length + 2) [] table

/-- `only_errors`, of unions that do not hold themselves. -/
def onlyErrorsIn : Nat → TypeRef → Bool
  | 0, _ => false
  | left + 1, a =>
    match arena.type a with
    | none => false
    | some t =>
      if t.isErrorType then true
      else if t.kind = .union then t.arms.all (onlyErrorsIn left)
      else false

def onlyErrors (a : TypeRef) : Bool := arena.onlyErrorsIn (arena.length + 1) a

/-- `lhat_type_takes_receiver`, of intersections that do not hold themselves. -/
def takesReceiverIn : Nat → TypeRef → Bool
  | 0, _ => false
  | left + 1, a =>
    match arena.type a with
    | none => false
    | some t =>
      if t.kind = .func then t.takesSelf
      else if t.kind = .intersect then t.arms.any (takesReceiverIn left)
      else false

def takesReceiver (a : TypeRef) : Bool := arena.takesReceiverIn (arena.length + 1) a

/-! ## Members -/

/-- The members a type declares itself. -/
def ownPlaces (table : TypeRef) : List MemberPlace :=
  match arena.type table with
  | none => []
  | some t => t.members.zipIdx.map fun (member, index) => ⟨table, index, member⟩

/-- `lhat_type_own_member`. -/
def ownMember (table : TypeRef) (name : Text) : Option MemberPlace :=
  match arena.type table with
  | none => none
  | some t =>
    if t.holdsMembers then
      (arena.ownPlaces table).find? fun place => place.member.name = heldAs t name
    else none

/-- The walk of `lhat_type_find_member`: past a delegation link only what takes a receiver
is lent. -/
def findAlong (name : Text) : List TypeRef → Bool → Option MemberPlace
  | [], _ => none
  | up :: more, lent =>
    match arena.ownMember up name with
    | some place => if !lent || arena.takesReceiver place.member.type then some place else none
    | none =>
      match arena.type up with
      | some t => findAlong name more (lent || (t.base = 0 ∧ t.delegate ≠ 0))
      | none => findAlong name more lent

/-- `lhat_type_find_member`. -/
def findMember (table : TypeRef) (name : Text) : Option MemberPlace :=
  match arena.type table with
  | none => none
  | some t =>
    if t.holdsMembers then
      match arena.ownMember table name with
      | some place => some place
      | none => arena.findAlong name (arena.typeChain table) false
    else none

/-- The members of a type and of the types it is linked to. -/
def chainPlaces (table : TypeRef) : List MemberPlace :=
  (arena.typeChain table).flatMap arena.ownPlaces

end LhatTypeArena

/-! ## What is found -/

section Found

variable {arena : LhatTypeArena}

theorem mem_ownPlaces {table : TypeRef}
    (h : arena.ownMember table name = some place) : place ∈ arena.ownPlaces table := by
  unfold LhatTypeArena.ownMember at h
  split at h
  · cases h
  · split at h
    · exact List.mem_of_find?_eq_some h
    · cases h

theorem mem_chainPlaces_of_findAlong {chain : List TypeRef} {lent : Bool} (h : arena.findAlong name chain lent = some place) :
    place ∈ chain.flatMap arena.ownPlaces := by
  induction chain generalizing lent with
  | nil => cases h
  | cons up more ih =>
    rw [LhatTypeArena.findAlong] at h
    rw [List.flatMap_cons]
    cases hown : arena.ownMember up name with
    | some found =>
      rw [hown] at h
      simp only at h
      split at h
      · cases h
        exact List.mem_append_left _ (mem_ownPlaces hown)
      · cases h
    | none =>
      rw [hown] at h
      simp only at h
      split at h
      · exact List.mem_append_right _ (ih h)
      · exact List.mem_append_right _ (ih h)

theorem mem_chainPlaces {table : TypeRef}
    (h : arena.findMember table name = some place) : place ∈ arena.chainPlaces table := by
  unfold LhatTypeArena.findMember at h
  cases htype : arena.type table with
  | none =>
    rw [htype] at h
    cases h
  | some t =>
    rw [htype] at h
    simp only at h
    split at h
    · cases hown : arena.ownMember table name with
      | some found =>
        rw [hown] at h
        cases h
        have hsome : table ≠ 0 := by
          rintro rfl
          cases htype
        refine List.mem_flatMap.2 ⟨table, ?_, mem_ownPlaces hown⟩
        simp [LhatTypeArena.typeChain, chainFrom, hsome]
      | none =>
        rw [hown] at h
        exact mem_chainPlaces_of_findAlong h
    · cases h

end Found

end Lhat.Check
