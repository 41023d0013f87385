import Lhat.Descriptor.Components

/-!
# Descriptors

A type of the checker is converted into descriptors on a heap. The structures on the way in are in
view, and one that is met again is pointed at or counted back to. What is converted with none of
its reach in view is remembered.

`none` is a conversion that does not come back.
-/

namespace Lhat.Descriptor

open Check (TypeRef MemberPlace)
open Lexing (Text)

/-- `LhatRuntimeTypeKind`. -/
inductive LhatRuntimeTypeKind where
  | any | nil | bool | number | string | table | subroutine | coroutine | costate | error
  | errorKind | enum | enumMember | hostdata | hostvalue | hostvalueBox | union | intersect | self
  | tuple | unknown | typeinfo | applied
deriving DecidableEq, Repr

/-- A descriptor as it is pointed at; `0` is `NULL`. -/
abbrev RuntimeRef := Nat

/-- `LhatRuntimeType`. -/
structure LhatRuntimeType where
  kind : LhatRuntimeTypeKind
  errorKind : Nat := 0
  enumDecl : TypeRef := 0
  enumMemberIndex : Nat := 0
  enumName : Option Text := none
  enumOwnerName : Option Text := none
  errorLocal : Bool := false
  hostdataTag : List Nat := []
  hostvalueTag : Nat := 0
  parts : List RuntimeRef := []
  result : RuntimeRef := 0
  isFunction : Bool := false
  takesSelf : Bool := false
  selfLast : Bool := false
  mutableSelf : Bool := false
  answersFresh : Bool := false
  receive : RuntimeRef := 0
  produce : RuntimeRef := 0
  endless : Bool := false
  coroutineTop : Bool := false
  receiveAny : Bool := false
  produceAny : Bool := false
  resultAny : Bool := false
  kindAny : Bool := false
  variadic : RuntimeRef := 0
  indexKey : RuntimeRef := 0
  indexValue : RuntimeRef := 0
  members : List (Text × RuntimeRef) := []
  instanceType : RuntimeRef := 0
  levels : Nat := 0

/-- The descriptor that is pointed at. -/
def descriptorAt (heap : List LhatRuntimeType) (rt : RuntimeRef) : Option LhatRuntimeType :=
  if rt = 0 then none else heap[rt - 1]?

/-- `RtSeen`. -/
structure RtSeen where
  type : TypeRef
  runtime : RuntimeRef := 0
  lent : Bool := false

/-- `RtBuild`, with the descriptors of the heap. The cache is one for the heap, and asks for memory
of its own. -/
structure RtBuild where
  heap : List LhatRuntimeType := []
  memory : Memory
  failed : Bool := false
  cache : Option LhatRtCache := none

namespace RtBuild

/-- `lhat_object_alloc`, of an object that is no descriptor. -/
def alloc (build : RtBuild) (bytes : Nat) : Bool × RtBuild :=
  (build.memory.granted bytes, { build with memory := build.memory.request bytes })

def runtimeTypeSize : Nat := 232

def stringSize : Nat := 40

/-- `lhat_type_rt_new`, and what is written to the descriptor then. -/
def rtNew (build : RtBuild) (node : LhatRuntimeType) : RtBuild × RuntimeRef :=
  match build.alloc runtimeTypeSize with
  | (false, build) => (build, 0)
  | (true, build) => ({ build with heap := build.heap ++ [node] }, build.heap.length + 1)

/-- `lhat_string_new`, and what is written of it to a descriptor. -/
def stringNew (build : RtBuild) (text : Text) : Bool × RtBuild :=
  build.alloc (stringSize + text.length + 1)

/-- A write to a descriptor. -/
def write (build : RtBuild) (rt : RuntimeRef) (f : LhatRuntimeType → LhatRuntimeType) : RtBuild :=
  { build with heap := build.heap.modify (rt - 1) f }

/-- `lhat_type_rt_add_part`. -/
def addPart (build : RtBuild) (rt part : RuntimeRef) : Bool × RtBuild :=
  let count := ((descriptorAt build.heap rt).map fun n => n.parts.length).getD 0
  match build.alloc ((count + 1) * pointerSize) with
  | (false, build) => (false, build)
  | (true, build) => (true, build.write rt fun n => { n with parts := n.parts ++ [part] })

/-- `lhat_type_rt_add_member`. -/
def addMember (build : RtBuild) (rt : RuntimeRef) (name : Text) (member : RuntimeRef) :
    Bool × RtBuild :=
  let count := ((descriptorAt build.heap rt).map fun n => n.members.length).getD 0
  match build.alloc ((count + 1) * (2 * pointerSize)) with
  | (false, build) => (false, build)
  | (true, build) => (true, build.write rt fun n => { n with members := n.members ++ [(name,
    member)] })

/-- `lhat_type_rt_sort_members`. -/
def sortMembers (build : RtBuild) (rt : RuntimeRef) : RtBuild :=
  build.write rt fun n =>
    { n with members := n.members.mergeSort fun left right => decide (left.1 ≤ right.1) }

end RtBuild

section Convert

variable (address : TypeRef → UInt64) (arena : CheckedArena)

/-! ### What is remembered -/

/-- The loop of `converts_alone` over what is in view. -/
def noneInReach (own : Nat) : List RtSeen → LhatRtCache → Option (LhatRtCache × Bool)
  | [], cache => some (cache, true)
  | s :: outer, cache =>
    match askComponent address arena cache s.type with
    | none => none
    | some (cache, none) => some (cache, false)
    | some (cache, some other) =>
      if s.lent then
        match askReaches address arena cache own other with
        | none => none
        | some (cache, true) => some (cache, false)
        | some (cache, false) => noneInReach own outer cache
      else if other = own then some (cache, false)
      else noneInReach own outer cache

/-- `converts_alone`. -/
def convertsAlone (cache : LhatRtCache) (type : TypeRef) (seen : List RtSeen) :
    Option (LhatRtCache × Bool) :=
  if seen.isEmpty then some (cache, !cache.broken)
  else
    match askComponent address arena cache type with
    | none => none
    | some (cache, none) => some (cache, false)
    | some (cache, some own) =>
      match noneInReach address arena own seen cache with
      | none => none
      | some (cache, alone) => some (cache, alone && !cache.broken)

/-- Whether a conversion is remembered, and the descriptor that is known of it. -/
def recalled (build : RtBuild) (type : TypeRef) (seen : List RtSeen) :
    Option (RtBuild × Bool × RuntimeRef) :=
  match build.cache with
  | none => some (build, false, 0)
  | some cache =>
    if type = 0 then some (build, false, 0)
    else
      match convertsAlone address arena cache type seen with
      | none => none
      | some (cache, false) => some ({ build with cache := some cache }, false, 0)
      | some (cache, true) =>
        match nodeFind address cache type with
        | none => none
        | some found => some ({ build with cache := some cache }, true, runtimeOf found)

/-- The end of `rt_from_checked`: what was converted is remembered. -/
def remember (build : RtBuild) (type : TypeRef) (rt : RuntimeRef) : Option RtBuild :=
  match build.cache with
  | none => some build
  | some cache =>
    match nodeAdd address cache type with
    | none => none
    | some (false, cache) => some { build with cache := some cache }
    | some (true, cache) =>
      (nodeWrite address cache type fun n => { n with runtime := rt }).map fun cache =>
        { build with cache := some cache }

/-! ### The conversion -/

-- `rt_from_checked`, with what is in view
variable (convert : RtBuild → TypeRef → List RtSeen → Option (RtBuild × RuntimeRef))

/-- A part of a descriptor is converted and written. -/
def convertInto (build : RtBuild) (rt : RuntimeRef) (type : TypeRef) (seen : List RtSeen)
    (f : RuntimeRef → LhatRuntimeType → LhatRuntimeType) : Option RtBuild :=
  (convert build type seen).map fun (build, child) => build.write rt (f child)

/-- A part that need not be there. -/
def convertIntoIf (build : RtBuild) (rt : RuntimeRef) (type : TypeRef) (seen : List RtSeen)
    (f : RuntimeRef → LhatRuntimeType → LhatRuntimeType) : Option RtBuild :=
  if type ≠ 0 then convertInto convert build rt type seen f else some build

/-- The types of the keys and the values of a table, where it has them. -/
def convertIndex (build : RtBuild) (rt : RuntimeRef) (t : CheckedType) (seen : List RtSeen) :
    Option RtBuild :=
  if t.indexKey ≠ 0 then
    (convertInto convert build rt t.indexKey seen fun c n => { n with indexKey := c }).bind
      fun build => convertInto convert build rt t.indexValue seen fun c n => { n with indexValue :=
        c }
  else some build

/-- The loop that adds parts. Where it is strict, none may be `NULL`. -/
def convertParts (rt : RuntimeRef) (strict : Bool) (seen : List RtSeen) :
    List TypeRef → RtBuild → Option (RtBuild × Bool)
  | [], build => some (build, true)
  | type :: more, build =>
    match convert build type seen with
    | none => none
    | some (build, part) =>
      if strict && part == 0 then some (build, false)
      else
        match build.addPart rt part with
        | (false, build) => some (build, false)
        | (true, build) => convertParts rt strict seen more build

/-- The loop that adds the members with a name. -/
def convertMembers (rt : RuntimeRef) (seen : List RtSeen) :
    List MemberPlace → RtBuild → Option (RtBuild × Bool)
  | [], build => some (build, true)
  | place :: more, build =>
    match build.stringNew place.member.name with
    | (false, build) => some (build, false)
    | (true, build) =>
      match convert build place.member.type seen with
      | none => none
      | some (build, member) =>
        match build.addMember rt place.member.name member with
        | (false, build) => some (build, false)
        | (true, build) => convertMembers rt seen more build

/-- The descriptor of a union, an intersection or a tuple. -/
def buildArms (kind : LhatRuntimeTypeKind) (build : RtBuild) (arms : List TypeRef)
    (seen : List RtSeen) : Option (RtBuild × RuntimeRef) :=
  match build.rtNew { kind := kind } with
  | (build, rt) =>
    if rt = 0 then some (build, 0)
    else (convertParts convert rt false seen arms build).map fun (build, ok) =>
      (build, if ok then rt else 0)

/-- The descriptor of a specialization. -/
def buildApplied (build : RtBuild) (t : CheckedType) (seen : List RtSeen) :
    Option (RtBuild × RuntimeRef) :=
  match build.rtNew { kind := .applied } with
  | (build, rt) =>
    if rt = 0 then some (build, 0)
    else
      match convert build t.specializationBase seen with
      | none => none
      | some (build, base) =>
        let build := build.write rt fun n => { n with result := base }
        if base = 0 then some (build, 0)
        else (convertParts convert rt true seen t.specializationArguments build).map
          fun (build, ok) => (build, if ok then rt else 0)

/-- The descriptor of a coroutine. -/
def buildCoro (build : RtBuild) (t : CheckedType) (seen : List RtSeen) :
    Option (RtBuild × RuntimeRef) :=
  match build.rtNew { kind := .coroutine } with
  | (build, rt) =>
    if rt = 0 then some (build, 0)
    else do
      let build ← convertInto convert build rt t.receive seen fun c n => { n with receive := c }
      let build ← convertInto convert build rt t.produce seen fun c n => { n with produce := c }
      let build ← convertInto convert build rt t.result seen fun c n => { n with result := c }
      return (build.write rt fun n =>
        { n with
          endless := t.endless, coroutineTop := t.coroutineTop, receiveAny := t.receiveAny
          produceAny := t.produceAny, resultAny := t.resultAny, kindAny := t.kindAny
          isFunction := t.isFunction }, rt)

/-- The descriptor of a signature, which is in view with it. -/
def buildFunc (build : RtBuild) (type : TypeRef) (t : CheckedType) (seen : List RtSeen) :
    Option (RtBuild × RuntimeRef) :=
  match build.rtNew
      { kind := .subroutine, isFunction := t.isFunction, takesSelf := t.takesSelf
        selfLast := t.selfLast, mutableSelf := t.mutableSelf, answersFresh := t.answersFresh } with
  | (build, rt) =>
    if rt = 0 then some (build, 0)
    else
      let seen := { type := type, runtime := rt } :: seen
      match convertParts convert rt false seen t.params build with
      | none => none
      | some (build, false) => some (build, 0)
      | some (build, true) => do
        let build ← convertIntoIf convert build rt t.variadic seen fun c n =>
          { n with variadic := c }
        let build ← convertInto convert build rt (CheckedArena.callAnswer t) seen fun c n =>
          { n with result := c }
        return (build, rt)

/-- The tag of the first type along a chain that a host declared. -/
def chainTag (type : TypeRef) : Option (List Nat) :=
  ((arena.types.typeChain type).drop (arena.ownChain type).length).head?.bind fun up =>
    (arena.type up).map fun t => t.hostdataTag

/-- The walk along the chain ends at a host type, whose tag is kept. -/
def tagTable (build : RtBuild) (rt : RuntimeRef) (type : TypeRef) : RtBuild :=
  match chainTag arena type with
  | some tag => build.write rt fun n => { n with hostdataTag := tag }
  | none => build

/-- The end of a table's descriptor. -/
def finishTable (build : RtBuild) (rt : RuntimeRef) (type : TypeRef) (t : CheckedType)
    (seen : List RtSeen) : Option (RtBuild × RuntimeRef) := do
  let build := tagTable arena build rt type
  let build ← convertIntoIf convert build rt t.variadic seen fun c n => { n with variadic := c }
  let build ← convertIndex convert build rt t seen
  return (build.sortMembers rt, rt)

/-- The descriptor of a table. The table itself is in view. -/
def buildTable (build : RtBuild) (type : TypeRef) (t : CheckedType) (seen : List RtSeen) :
    Option (RtBuild × RuntimeRef) :=
  if t.isTypeinfo then some (build.rtNew { kind := .typeinfo })
  else if t.hostdataTag ≠ [] then
    some (build.rtNew { kind := .hostdata, hostdataTag := t.hostdataTag })
  else
    match build.rtNew { kind := .table } with
    | (build, rt) =>
      if rt = 0 then some (build, 0)
      else do
        let build ← convertIntoIf convert build rt t.instanceType seen fun c n =>
          { n with instanceType := c }
        -- the instance is in view while the members are converted
        let seen :=
          if t.instanceType ≠ 0 then { type := t.instanceType, lent := true } :: seen else seen
        match ← convertParts convert rt false seen
            ((arena.positions type).map fun place => place.member.type) build with
        | (build, false) => return (build, 0)
        | (build, true) =>
          match ← convertMembers convert rt seen (arena.shownMembers type) build with
          | (build, false) => return (build, 0)
          | (build, true) => finishTable arena convert build rt type t seen

/-- The descriptor of an enumeration. -/
def buildEnum (build : RtBuild) (type : TypeRef) (t : CheckedType) : RtBuild × RuntimeRef :=
  match build.rtNew { kind := .enum, enumDecl := type } with
  | (build, rt) =>
    if rt = 0 then (build, 0)
    else
      match build.stringNew t.name with
      | (false, build) => (build, 0)
      | (true, build) => (build.write rt fun n => { n with enumName := some t.name }, rt)

/-- The descriptor of a member of an enumeration. -/
def buildEnumMember (build : RtBuild) (type : TypeRef) (t : CheckedType) : RtBuild × RuntimeRef :=
  match build.rtNew { kind := .enumMember, enumDecl := t.set } with
  | (build, rt) =>
    if rt = 0 then (build, 0)
    else
      match build.stringNew t.name with
      | (false, build) => (build, 0)
      | (true, build) =>
        let build := build.write rt fun n => { n with enumName := some t.name }
        match arena.type t.set with
        | none => (build, rt)
        | some set =>
          match build.stringNew set.name with
          | (false, build) => (build, 0)
          | (true, build) =>
            (build.write rt fun n =>
              { n with
                enumOwnerName := some set.name
                enumMemberIndex := ((set.kinds.idxOf? type).map (· + 1)).getD 0 }, rt)

/-- How many structures out a table that is in view is. -/
def levelOf (type : TypeRef) : List RtSeen → Nat → Option Nat
  | [], _ => none
  | s :: outer, level =>
    if s.type = type then some level
    else
      levelOf type outer
        (if ((arena.type s.type).map fun t => t.kind) = some .table then level + 1 else level)

/-- The kinds of `build_rt` that are one descriptor. -/
def leafOf (t : CheckedType) : Option LhatRuntimeType :=
  match t.kind with
  | .unknown | .pending => some { kind := .unknown }
  | .any => some { kind := .any }
  | .nil => some { kind := .nil }
  | .bool => some { kind := .bool }
  | .number => some { kind := .number }
  | .string => some { kind := .string }
  | .costate => some { kind := .costate }
  | .hostvalue => some { kind := .hostvalue, hostvalueTag := t.hostvalueTag }
  | .hostvalueBox => some { kind := .hostvalueBox, hostvalueTag := t.hostvalueTag }
  | .error | .errorSet | .errorKind =>
    some
      { kind := if t.runtimeKind ≠ 0 then .errorKind else .error
        errorLocal := t.inLocal, errorKind := t.runtimeKind }
  | _ => none

/-- `build_rt`. -/
def buildRt (build : RtBuild) (type : TypeRef) (seen : List RtSeen) :
    Option (RtBuild × RuntimeRef) :=
  match arena.type type with
  | none => some (build, 0)
  | some t =>
    match seen.find? fun s => s.type = type ∧ s.runtime ≠ 0 with
    | some s => some (build, s.runtime)
    | none =>
      if t.kind = .argument then convert build t.bound seen
      else if t.specializationBase ≠ 0 then buildApplied convert build t seen
      else
        match t.kind with
        | .table =>
          match levelOf arena type seen 1 with
          | some level => some (build.rtNew { kind := .self, levels := level })
          | none => buildTable arena convert build type t ({ type := type } :: seen)
        | .func => buildFunc convert build type t seen
        | .coro => buildCoro convert build t seen
        | .union => buildArms convert .union build t.arms seen
        | .intersect => buildArms convert .intersect build t.arms seen
        | .tuple => buildArms convert .tuple build t.arms seen
        | .enum => some (buildEnum build type t)
        | .enumMember => some (buildEnumMember arena build type t)
        | _ =>
          match leafOf t with
          | some node => some (build.rtNew node)
          | none => some (build, 0)

/-- Whether a type has a descriptor: there is nothing to ask of no value. -/
def describes (type : TypeRef) : Prop := ∃ t ∈ arena.type type, t.kind ≠ .none

instance (type : TypeRef) : Decidable (describes arena type) := by
  unfold describes
  infer_instance

/-- `rt_from_checked`. -/
def rtFromChecked : Nat → RtBuild → TypeRef → List RtSeen → Option (RtBuild × RuntimeRef)
  | 0, _, _, _ => none
  | fuel + 1, build, named, seen =>
    if build.failed then some (build, 0)
    else
      let type := arena.unwrapped named
      match recalled address arena build type seen with
      | none => none
      | some (build, remembered, known) =>
        if known ≠ 0 then some (build, known)
        else
          match buildRt arena (rtFromChecked fuel) build type seen with
          | none => none
          | some (build, rt) =>
            let build := if rt = 0 ∧ describes arena type then { build with failed :=
              true } else build
            if build.failed then some (build, 0)
            else if remembered then (remember address build type rt).map fun build => (build, rt)
            else some (build, rt)

/-- `lhat_rt_from_checked`. -/
def lhatRtFromChecked (fuel : Nat) (build : RtBuild) (type : TypeRef) :
    Option (RtBuild × RuntimeRef) :=
  rtFromChecked address arena fuel { build with failed := false } type []

end Convert

end Lhat.Descriptor
