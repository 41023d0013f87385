import Lhat.Foundation.Binary64
import Mathlib.Data.Option.Basic

/-!
# Values of the runtime

A value is a payload under a tag, and an object is reached through its address.
The heap is read here and never written: it says what stands at an address, and
it carries the two things a comparison of runtime types can run out of, the C
stack and the scratch array of a union.

`lhatValueEqual` is the equality a table key is matched by. It has an answer for
every pair of values except two runtime types whose walk outgrows the stack.
-/

namespace Lhat

/-- A pointer, as its bits. `NULL` is zero. -/
abbrev Address := UInt64

/-- `LhatValue`: the tags of `LhatValueTag`, each with its payload. -/
inductive LhatValue where
  | nil
  | bool (b : Bool)
  | integer (i : Int64)
  | real (d : Binary64)
  | object (o : Address)
  | hostvalue (tag : Address)
  | cont (bits : UInt64)
  | run (positions : Int64)
deriving DecidableEq, Repr

namespace LhatValue

def isNil : LhatValue → Bool
  | nil => true
  | _ => false

def isInteger : LhatValue → Bool
  | integer _ => true
  | _ => false

@[simp] theorem isNil_iff {v : LhatValue} : v.isNil = true ↔ v = nil := by
  cases v <;> simp [isNil]

@[simp] theorem isNil_eq_false_iff {v : LhatValue} : v.isNil = false ↔ v ≠ nil := by
  cases v <;> simp [isNil]

end LhatValue

/-- `lhat_string_hash`: FNV-1a over the bytes. -/
def lhatStringHash (text : List UInt8) : UInt32 :=
  text.foldl (fun hash byte => (hash ^^^ byte.toUInt32) * 16777619) 2166136261

/-- The bytes of a string and the hash they were given when it was made. -/
structure LhatString where
  text : List UInt8
  hash : UInt32
  hashed : hash = lhatStringHash text
deriving DecidableEq

/-- `lhat_string_new`. -/
def lhatStringNew (text : List UInt8) : LhatString := ⟨text, lhatStringHash text, rfl⟩

/-- `LhatRuntimeTypeKind`. -/
inductive LhatRuntimeTypeKind where
  | any | nil | bool | number | string | table | subroutine | coroutine | costate
  | error | errorKind | enum | enumMember | hostdata | hostvalue | hostvalueBox
  | union | intersect | self | tuple | unknown | typeinfo | applied
deriving DecidableEq, Repr

/-- What the equality of two `LhatRuntimeType`s reads of one. A `NULL` pointer
is `none`. -/
structure LhatRuntimeType where
  kind : LhatRuntimeTypeKind := .any
  errorKind : Address := 0
  enumDecl : Address := 0
  enumMemberIndex : Nat := 0
  errorLocal : Bool := false
  hostdataTag : Address := 0
  hostvalueTag : Address := 0
  parts : List (Option Address) := []
  result : Option Address := none
  isFunction : Bool := false
  takesSelf : Bool := false
  selfLast : Bool := false
  mutableSelf : Bool := false
  answersFresh : Bool := false
  receive : Option Address := none
  produce : Option Address := none
  endless : Bool := false
  coroutineTop : Bool := false
  receiveAny : Bool := false
  produceAny : Bool := false
  resultAny : Bool := false
  kindAny : Bool := false
  variadic : Option Address := none
  indexKey : Option Address := none
  indexValue : Option Address := none
  members : List (List UInt8 × Option Address) := []
  instanceType : Option Address := none
  levels : Nat := 0
deriving DecidableEq

/-- `LhatHostData`: the tag, the pointer of the host and the members table. -/
structure LhatHostData where
  tag : Address
  pointer : UInt64
  members : Address := 0
  released : Bool := false
deriving DecidableEq

/-- `LhatHostValueBox`: the tag its head slot names and the bytes after it. -/
structure LhatHostValueBox where
  tag : Address
  bytes : List UInt8
  isSealed : Bool := false
deriving DecidableEq

/-- `LhatObjectKind`. -/
inductive LhatObjectKind where
  | string | table | subroutine | coroutine | costate | error | errorKind | enum
  | enumerator | native | type | overload | upvalue | host | hostdata | hostvalueBox | script
deriving DecidableEq, Repr

/-- What stands at an address. A table's contents are kept apart from the heap,
since they are written; of the kinds gathered under `other` nothing but the kind
is read. -/
inductive LhatObject where
  | string (s : LhatString)
  | table
  | subroutine (takesSelf : Bool)
  | host (takesSelf : Bool)
  | overload (candidates : List LhatValue)
  | type (t : LhatRuntimeType)
  | hostdata (d : LhatHostData)
  | hostvalueBox (b : LhatHostValueBox)
  | error (fields : Address)
  | enum (members : Address)
  | other (kind : LhatObjectKind)

/-- The heap a comparison reads: `depth` nested calls fit the C stack, and
`scratch n` says whether an array of `n` flags is granted. -/
structure Heap where
  object : Address → Option LhatObject
  depth : Nat
  scratch : Nat → Bool
  object_null : object 0 = none

/-- The descriptor a pointer reaches; `NULL` is the blank one, which is `any^`. -/
def Heap.descriptor (h : Heap) : Option Address → Option LhatRuntimeType
  | none => some {}
  | some o =>
    match h.object o with
    | some (.type t) => some t
    | _ => none

section RuntimeTypes

variable (equal : Option Address → Option Address → Option Bool)

/-- Positionally, over two lists of one length. -/
def pairsEqual : List (Option Address) → List (Option Address) → Option Bool
  | a :: as, b :: bs => do
    if ← equal a b then pairsEqual as bs else some false
  | _, _ => some true

/-- The first of the arms left that is equal, taken out of them. -/
def takeMatch (a : Option Address) : List (Option Address) → Option (Option (List (Option Address)))
  | [] => some none
  | b :: bs => do
    if ← equal a b then some (some bs)
    else return (← takeMatch a bs).map (b :: ·)

/-- Each arm of one side matched by an arm of the other, each of those used at
most once. -/
def armsEqual : List (Option Address) → List (Option Address) → Option Bool
  | [], _ => some true
  | a :: as, bs => do
    match ← takeMatch equal a bs with
    | none => some false
    | some rest => armsEqual as rest

/-- Members that were sorted by name once, side by side. -/
def membersEqual :
    List (List UInt8 × Option Address) → List (List UInt8 × Option Address) → Option Bool
  | (an, a) :: as, (bn, b) :: bs => do
    if an ≠ bn then return false
    if ← equal a b then membersEqual as bs else some false
  | _, _ => some true

/-- The body of `lhat_runtime_type_equal` past the pointer test, for two
descriptors of one kind. -/
def descriptorsEqual (scratch : Nat → Bool) (a b : LhatRuntimeType) : Option Bool :=
  match a.kind with
  | .applied => do
    if a.parts.length ≠ b.parts.length then return false
    if !(← equal a.result b.result) then return false
    pairsEqual equal a.parts b.parts
  | .any | .nil | .bool | .number | .string | .costate | .unknown | .typeinfo => some true
  | .error => some (a.errorLocal == b.errorLocal)
  | .coroutine => do
    if a.coroutineTop || b.coroutineTop then return a.coroutineTop == b.coroutineTop
    if a.receiveAny != b.receiveAny || a.produceAny != b.produceAny ||
        a.resultAny != b.resultAny || a.kindAny != b.kindAny then return false
    if a.endless != b.endless || a.receive.isNone != b.receive.isNone ||
        a.result.isNone != b.result.isNone then return false
    if a.isFunction != b.isFunction then return false
    if !(← equal a.receive b.receive) then return false
    if !(← equal a.produce b.produce) then return false
    equal a.result b.result
  | .errorKind => some (a.errorKind == b.errorKind)
  | .hostdata => some (a.hostdataTag == b.hostdataTag)
  | .hostvalue | .hostvalueBox => some (a.hostvalueTag == b.hostvalueTag)
  | .union | .intersect =>
    if a.parts.length ≠ b.parts.length then some false
    else if !scratch b.parts.length then some false
    else armsEqual equal a.parts b.parts
  | .tuple =>
    if a.parts.length ≠ b.parts.length then some false
    else pairsEqual equal a.parts b.parts
  | .subroutine => do
    if a.isFunction != b.isFunction || a.takesSelf != b.takesSelf ||
        a.selfLast != b.selfLast || a.mutableSelf != b.mutableSelf ||
        a.answersFresh != b.answersFresh || a.parts.length != b.parts.length then return false
    if !(← pairsEqual equal a.parts b.parts) then return false
    if a.variadic.isNone != b.variadic.isNone then return false
    if a.variadic.isSome then
      if !(← equal a.variadic b.variadic) then return false
    if a.result.isNone != b.result.isNone then return false
    equal a.result b.result
  | .table => do
    if a.parts.length != b.parts.length || a.members.length != b.members.length ||
        a.hostdataTag != b.hostdataTag || a.variadic.isNone != b.variadic.isNone then
      return false
    if !(← equal a.variadic b.variadic) then return false
    if a.indexKey.isNone != b.indexKey.isNone then return false
    if !(← equal a.indexKey b.indexKey) then return false
    if !(← equal a.indexValue b.indexValue) then return false
    if !(← pairsEqual equal a.parts b.parts) then return false
    if !(← membersEqual equal a.members b.members) then return false
    equal a.instanceType b.instanceType
  | .self => some (a.levels == b.levels)
  | .enum => some (a.enumDecl == b.enumDecl)
  | .enumMember => some (a.enumDecl == b.enumDecl && a.enumMemberIndex == b.enumMemberIndex)

end RuntimeTypes

/-- `lhat_runtime_type_equal`, over at most so many nested calls. -/
def lhatRuntimeTypeEqual (h : Heap) : Nat → Option Address → Option Address → Option Bool
  | depth, a, b =>
    if a = b then some true
    else match depth with
      | 0 => none
      | depth + 1 =>
        match h.descriptor a, h.descriptor b with
        | some ta, some tb =>
          if ta.kind ≠ tb.kind then some false
          else descriptorsEqual (lhatRuntimeTypeEqual h depth) h.scratch ta tb
        | _, _ => none

@[simp] theorem lhatRuntimeTypeEqual_self (h : Heap) (depth : Nat) (a : Option Address) :
    lhatRuntimeTypeEqual h depth a a = some true := by
  unfold lhatRuntimeTypeEqual
  exact if_pos rfl

/-- `lhat_string_equal` of two strings at different addresses. -/
def lhatStringEqual (s t : LhatString) : Bool :=
  s.text.length == t.text.length && s.hash == t.hash && s.text == t.text

theorem lhatStringEqual_iff {s t : LhatString} : lhatStringEqual s t = true ↔ s.text = t.text := by
  unfold lhatStringEqual
  rw [s.hashed, t.hashed]
  constructor
  · intro heq
    simp only [Bool.and_eq_true, beq_iff_eq] at heq
    exact heq.2
  · intro htext
    simp [htext]

/-- `(LhatInteger)d`. Outside the range of the integers the conversion is
undefined, which is `none` here; x86-64 answers `INT64_MIN`, and the only two
places that can come here compare the answer with a positive integer. -/
def castToInteger (d : Binary64) : Option Int64 :=
  if d.isNan then none
  else if -2 ^ 63 ≤ d.truncate ∧ d.truncate < 2 ^ 63 then some (Int64.ofInt d.truncate)
  else none

/-- `(LhatReal)i == d && (LhatInteger)d == i`. -/
def integerEqualsReal (i : Int64) (d : Binary64) : Bool :=
  (Binary64.ofInt i.toInt).eq d && castToInteger d == some i

/-- `lhat_value_equal` on two objects. -/
def objectEqual (h : Heap) (o p : Address) : Option Bool :=
  match h.object o, h.object p with
  | some (.string s), some (.string t) => some (o == p || lhatStringEqual s t)
  | some (.type _), some (.type _) => lhatRuntimeTypeEqual h h.depth (some o) (some p)
  | some (.hostvalueBox left), some (.hostvalueBox right) =>
    some (o == p || left.tag != 0 && left.tag == right.tag && left.bytes == right.bytes)
  | some (.hostdata left), some (.hostdata right) =>
    some (o == p || left.tag != 0 && left.tag == right.tag && !left.released &&
      !right.released && left.pointer == right.pointer)
  | _, _ => some (o == p)

/-- `lhat_value_equal`. -/
def lhatValueEqual (h : Heap) : LhatValue → LhatValue → Option Bool
  | .nil, b => some b.isNil
  | .bool x, b =>
    match b with
    | .bool y => some (x == y)
    | _ => some false
  | .integer i, b =>
    match b with
    | .integer j => some (i == j)
    | .real d => some (integerEqualsReal i d)
    | _ => some false
  | .real c, b =>
    match b with
    | .integer i => some (integerEqualsReal i c)
    | .real d => some (c.eq d)
    | _ => some false
  | .object o, b =>
    match b with
    | .object p => objectEqual h o p
    | _ => some false
  | _, _ => some false

/-- `lhat_number_as_whole`. -/
def lhatNumberAsWhole : LhatValue → Option Int64
  | .integer i => some i
  | .real d =>
    if (Binary64.ofInt (-2 ^ 63)).le d && d.lt (Binary64.ofInt (2 ^ 63)) then
      match castToInteger d with
      | some i => if d.eq (Binary64.ofInt i.toInt) then some i else none
      | none => none
    else none
  | _ => none

end Lhat
