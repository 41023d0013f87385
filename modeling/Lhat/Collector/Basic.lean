import Lhat.Table.Basic
import Mathlib.Logic.Function.Basic

/-!
# The collector

A mark and sweep that takes its work a piece at a time. An object is white (not
reached), gray (reached, and on the list threaded through the objects themselves)
or black (looked into). There are two whites, and the heap hands out one of them:
the sweep frees what wears the other.

The list of the machine's objects is kept in its order, and the sweep's cursor,
which is a link of that list, is the number of objects before it. What a chunk
owns stands in memory without being on the list.
-/

namespace Lhat.Gc

/-- `LHAT_GC_WHITE0` to `LHAT_GC_BLACK`. -/
inductive Color where
  | white0 | white1 | gray | black
deriving DecidableEq, Repr

/-- `lhat_gc_is_white`. -/
def Color.isWhite : Color → Bool
  | white0 | white1 => true
  | gray | black => false

/-- `lhat_gc_other_white`. -/
def Color.other : Color → Color
  | white0 => white1
  | white1 => white0
  | c => c

/-- Where the value of a capture stands: a slot of the stack, a saved register of
a suspended coroutine, or the capture itself. -/
inductive Place where
  | slot (i : Nat)
  | saved (co : Address) (i : Nat)
  | closed
deriving DecidableEq, Repr

/-- `LhatCoroutineState`. -/
inductive CoroutineState where
  | fresh | suspended | running | done
deriving DecidableEq, Repr

/-- `LhatCoroutineSource`. -/
inductive CoroutineSource where
  | body | table | host
deriving DecidableEq, Repr

/-- `LhatCoroutine`, with its `LhatCoroutineFrame`: `openCaptures` is the field
`open`. -/
structure LhatCoroutine where
  closure : Address := 0
  state : CoroutineState := .fresh
  registers : List LhatValue := []
  registerCapacity : Nat := 0
  cleanupCount : Nat := 0
  source : CoroutineSource := .body
  walking : Address := 0
  held : LhatValue := .nil
  openCaptures : List Address := []
deriving DecidableEq

/-- `LhatCostateEntry`. -/
structure LhatCostateEntry where
  coroutine : Address
  closure : Address
  registers : List LhatValue
  captures : List Address
deriving DecidableEq

/-- The pointers of a `LhatRuntimeType`. -/
structure TypeLinks where
  parts : List Address := []
  members : List (Address × Address) := []
  result : Address := 0
  receive : Address := 0
  produce : Address := 0
  variadic : Address := 0
  indexKey : Address := 0
  indexValue : Address := 0
  instanceType : Address := 0
  errorKind : Address := 0
  enumName : Address := 0
  enumOwnerName : Address := 0
  enumModule : Address := 0
  enumRequire : Address := 0
  enumQualifier : Address := 0
deriving DecidableEq

/-- `LhatProto`, as the collector goes through it: the objects its chunk owns. -/
inductive LhatProto where
  | node (protos : List LhatProto) (heap : List Address)

mutual

/-- `lhat_proto_give_objects`: what ends up before the receiving list, in its
order. -/
def LhatProto.objects : LhatProto → List Address
  | .node protos heap => heap ++ objectsOfAll protos []

/-- The nested protos first, each before what was given already. -/
def objectsOfAll : List LhatProto → List Address → List Address
  | [], given => given
  | proto :: protos, given => objectsOfAll protos (proto.objects ++ given)

end

/-- What stands behind an object's header. A table is `LhatTable` itself. -/
inductive Payload where
  | string
  | hostvalueBox
  | table (t : LhatTable)
  | error (kind fields : Address)
  | enum (name members decl : Address)
  | enumerator (owner name : Address) (value : LhatValue)
  | errorKind (group name : Address)
  | subroutine (upvalues : List Address) (owner : Address) (registers : Nat)
  | script (root : LhatProto)
  | upvalue (location : Option Place) (closedValue : LhatValue) (suspendedIn : Address)
  | coroutine (co : LhatCoroutine)
  | costate (entries : List LhatCostateEntry)
  | native (bound : LhatValue)
  | host (signature : Address) (bound : LhatValue) (parameterTypes : List Address)
  | hostdata (members : Address)
  | type (links : TypeLinks)
  | overload (candidates : List LhatValue)

/-- `LhatObject`, whose `next` is its place in the machine's list. -/
structure LhatObject where
  color : Color
  gclist : Address := 0
  payload : Payload

/-- `Frame`, as far as it holds anything: `width` is the registers of its closure's
proto, `answerRun` the positions of a tuple answer. -/
structure Frame where
  closure : Address
  coroutine : Address := 0
  answer : LhatValue := .nil
  answerRun : List LhatValue := []
  base : Nat
  width : Nat

/-- What the program writes without a barrier. -/
structure Roots where
  slots : Nat → LhatValue := fun _ => .nil
  frames : List Frame := []
  environment : Address := 0
  selfKey : Address := 0
  modules : Address := 0
  hostRoot : Address := 0
  hostvalueMembers : List Address := []
  faultValue : LhatValue := .nil
  nativeHold : List LhatValue := []
  tupleScratch : List LhatValue := []

/-- `LhatWeakEntry`. A free slot has the key 0, and one that a removal left the
key 1. -/
structure LhatWeakEntry where
  key : UInt64 := 0
  value : LhatValue := .nil

/-- `LHAT_WEAK_GONE`. -/
def weakGone : UInt64 := 1

/-- `LhatMemberCache`. -/
structure LhatMemberCache where
  answered : Address := 0
  receiver : Address := 0
  lender : Address := 0

/-- `LHAT_GC_PAUSE`, `LHAT_GC_PROPAGATE`, `LHAT_GC_SWEEP`. -/
inductive GcState where
  | pause | propagate | sweep
deriving DecidableEq, Repr

/-- `LhatMachine`, as the collector reads it. `sweep` counts the objects before
the cursor. -/
structure Machine where
  object : Address → Option LhatObject
  objects : List Address
  count : Nat
  white : Color
  gcstate : GcState := .pause
  gray : Address := 0
  sweep : Nat := 0
  roots : Roots
  spareCoroutines : List Address := []
  openUpvalues : List Address := []
  pendingDispose : List Address := []
  weak : List LhatWeakEntry := []
  weakCount : Nat := 0
  unboundNatives : List Address := []
  memberCaches : List LhatMemberCache := []
  collected : Nat := 0
  gcCycles : Nat := 0
  threshold : Nat := 0
  gcGrowth : Nat := 150
  gcStepmul : Nat := 800
  gcStepsize : Nat := 10
  gcPaused : Bool := false

/-- The object a value is. -/
def objectOf : LhatValue → Address
  | .object o => o
  | _ => 0

/-! ### The object graph -/

/-- `lhat_ref_get(upvalue->location)`. -/
def Machine.read (m : Machine) (closedValue : LhatValue) : Place → LhatValue
  | .slot i => m.roots.slots i
  | .saved co i =>
    match m.object co with
    | some { payload := .coroutine c, .. } => c.registers.getD i .nil
    | _ => .nil
  | .closed => closedValue

/-- What an object refers to on its own: a capture's place apart. -/
def Payload.links : Payload → List Address
  | .string | .hostvalueBox | .script _ => []
  | .table t =>
    t.array.map objectOf ++
      t.entries.flatMap (fun entry => [objectOf entry.key, objectOf entry.value]) ++
        [t.definition, objectOf t.delegateKey]
  | .error kind fields => [kind, fields]
  | .enum name members decl => [name, members, decl]
  | .enumerator owner name value => [owner, name, objectOf value]
  | .errorKind group name => [group, name]
  | .subroutine upvalues owner _ => upvalues ++ [owner]
  | .upvalue location closedValue suspendedIn =>
    (match location with
      | some .closed => [objectOf closedValue]
      | _ => []) ++ [suspendedIn]
  | .coroutine co => co.registers.map objectOf ++ [co.closure, co.walking, objectOf co.held]
  | .costate entries =>
    entries.flatMap fun entry =>
      [entry.coroutine, entry.closure] ++ entry.registers.map objectOf ++ entry.captures
  | .native bound => [objectOf bound]
  | .host signature bound parameterTypes => [signature, objectOf bound] ++ parameterTypes
  | .hostdata members => [members]
  | .type t =>
    t.parts ++ t.members.flatMap (fun member => [member.1, member.2]) ++
      [t.result, t.receive, t.produce, t.variadic, t.indexKey, t.indexValue, t.instanceType,
        t.errorKind, t.enumName, t.enumOwnerName, t.enumModule, t.enumRequire, t.enumQualifier]
  | .overload candidates => candidates.map objectOf

/-- `lhat_gc_children`: what is reached from an object, `NULL` among it. -/
def Machine.children (m : Machine) : Payload → List Address
  | .upvalue (some place) closedValue suspendedIn =>
    [objectOf (m.read closedValue place), suspendedIn]
  | payload => payload.links

/-- `reach`. -/
def Machine.reach (m : Machine) (a : Address) : Machine :=
  match m.object a with
  | none => m
  | some o =>
    if o.color.isWhite then
      { m with
        object := Function.update m.object a (some { o with color := .gray, gclist := m.gray })
        gray := a }
    else m

/-- `reach`, one after another. -/
def Machine.reachAll (m : Machine) (as : List Address) : Machine := as.foldl Machine.reach m

/-! ### The roots, and running a cycle -/

/-- The slots a frame's registers take. -/
def Frame.covers (f : Frame) (i : Nat) : Prop := f.base ≤ i ∧ i < f.base + f.width

/-- What `mark_roots` reaches of a frame. -/
def Roots.ofFrame (r : Roots) (f : Frame) : List Address :=
  [f.closure, f.coroutine, objectOf f.answer] ++
    (match f.answer with
      | .run _ => f.answerRun.map objectOf
      | _ => []) ++
      (List.range f.width).map fun i => objectOf (r.slots (f.base + i))

/-- What `mark_roots` reaches, in its order. -/
def Machine.rootList (m : Machine) : List Address :=
  [m.roots.environment, m.roots.selfKey, m.roots.modules, m.roots.hostRoot] ++
    m.roots.hostvalueMembers ++ m.spareCoroutines ++ m.roots.frames.flatMap m.roots.ofFrame ++
      [objectOf m.roots.faultValue] ++ m.roots.nativeHold.map objectOf ++
        m.roots.tupleScratch.map objectOf ++ m.openUpvalues ++ m.pendingDispose

/-- `mark_roots`. -/
def Machine.markRoots (m : Machine) : Machine := m.reachAll m.rootList

/-- `propagate_one`, on a machine whose list is not empty. -/
def Machine.propagateOne (m : Machine) : Machine :=
  match m.object m.gray with
  | none => m
  | some o =>
    let taken : Machine :=
      { m with
        object := Function.update m.object m.gray (some { o with color := .black, gclist := 0 })
        gray := o.gclist }
    taken.reachAll (taken.children o.payload)

/-- The loop of `follow_gray`, for so many turns. -/
def Machine.followFor : Nat → Machine → Machine
  | 0, m => m
  | turns + 1, m => if m.gray = 0 then m else followFor turns m.propagateOne

/-- `follow_gray`. An object is put on the list once for each time it is white,
and taken off it at most once more. -/
def Machine.followGray (m : Machine) : Machine := m.followFor (2 * m.objects.length + 1)

/-- A suspended body that has cleanups left. -/
def Payload.owes : Payload → Bool
  | .coroutine co =>
    decide (co.source = .body) && decide (co.state = .suspended) && co.cleanupCount != 0
  | _ => false

/-- What `hold_pending_disposals` asks of an object. -/
def owesCleanups (o : LhatObject) : Bool := o.color.isWhite && o.payload.owes

/-- One object of the loop of `hold_pending_disposals`. -/
def Machine.hold (m : Machine) (a : Address) : Machine :=
  match m.object a with
  | none => m
  | some o =>
    if owesCleanups o then
      { m.reach a with pendingDispose := a :: m.pendingDispose }
    else m

/-- `hold_pending_disposals`. -/
def Machine.holdPendingDisposals (m : Machine) : Machine := m.objects.foldl Machine.hold m

/-- Whether the marking decided against what a pointer names. -/
def Machine.whiteAt (m : Machine) (a : Address) : Bool :=
  match m.object a with
  | some o => o.color.isWhite
  | none => false

/-- Whether the weak cache lets go of an entry. -/
def Machine.forgets (m : Machine) (entry : LhatWeakEntry) : Bool :=
  !(entry.key == 0 || entry.key == weakGone) && m.whiteAt (objectOf entry.value)

/-- The weak cache, emptied of what the marking decided against. -/
def Machine.clearWeak (m : Machine) : Machine :=
  { m with
    weak := m.weak.map fun entry => if m.forgets entry then { key := weakGone } else entry
    weakCount := m.weakCount - m.weak.countP m.forgets }

/-- The built-ins without a receiver, likewise. -/
def Machine.clearNatives (m : Machine) : Machine :=
  { m with unboundNatives := m.unboundNatives.map fun a => if m.whiteAt a then 0 else a }

/-- Whether a member cache is invalidated. -/
def Machine.outdates (m : Machine) (cache : LhatMemberCache) : Bool :=
  cache.answered != 0 &&
    (m.whiteAt cache.answered || m.whiteAt cache.receiver || m.whiteAt cache.lender)

/-- The member caches, likewise. -/
def Machine.clearMembers (m : Machine) : Machine :=
  { m with
    memberCaches := m.memberCaches.map fun cache =>
      if m.outdates cache then { cache with answered := 0 } else cache }

/-- The marking `atomic` brings to its end. -/
def Machine.finishMarking (m : Machine) : Machine :=
  m.markRoots.followGray.holdPendingDisposals.followGray

/-- `atomic`. -/
def Machine.atomic (m : Machine) : Machine :=
  let marked := m.finishMarking.clearWeak.clearNatives.clearMembers
  { marked with white := marked.white.other, sweep := 0, gcstate := .sweep }

/-- An object put at the head of the list. The cursor stays where it points at the
head itself, and goes with its object otherwise. -/
def Machine.prepend (m : Machine) (as : List Address) : Machine :=
  { m with
    objects := as ++ m.objects
    count := m.count + as.length
    sweep := if m.sweep = 0 then 0 else m.sweep + as.length }

def Machine.recolor (m : Machine) (c : Color) (a : Address) : Machine :=
  match m.object a with
  | none => m
  | some o => { m with object := Function.update m.object a (some { o with color := c }) }

/-- What a freed script's constants become: the machine's, and of the living. -/
def Machine.giveObjects (m : Machine) (o : LhatObject) : Machine :=
  match o.payload with
  | .script root =>
    root.objects.foldl (fun given a => given.recolor m.white a) (m.prepend root.objects)
  | _ => m

/-- `lhat_object_free`, with the count. -/
def Machine.free (m : Machine) (a : Address) : Machine :=
  { m with
    object := Function.update m.object a none
    count := m.count - 1
    collected := m.collected + 1 }

/-- One turn of the loop of `sweep_some`. -/
def Machine.sweepOne (m : Machine) (a : Address) : Machine :=
  match m.object a with
  | none => m
  | some o =>
    if o.color ≠ m.white.other then
      { m.recolor m.white a with sweep := m.sweep + 1 }
    else
      ({ m with objects := m.objects.eraseIdx m.sweep }.giveObjects o).free a

/-- The loop of `sweep_some`, and how many it looked at. -/
def Machine.sweepFor : Nat → Machine → Machine × Nat
  | 0, m => (m, 0)
  | budget + 1, m =>
    match m.objects[m.sweep]? with
    | none => (m, 0)
    | some a =>
      let rest := sweepFor budget (m.sweepOne a)
      (rest.1, rest.2 + 1)

/-- `sweep_some`. -/
def Machine.sweepSome (m : Machine) (budget : Nat) : Machine × Nat :=
  let swept := m.sweepFor budget
  if swept.1.objects[swept.1.sweep]? = none then
    ({ swept.1 with gcstate := .pause, gcCycles := swept.1.gcCycles + 1, sweep := 0 }, swept.2)
  else swept

/-- `start_cycle`. -/
def Machine.startCycle (m : Machine) : Machine := { m.markRoots with gcstate := .propagate }

/-- `single_step`. -/
def Machine.singleStep (m : Machine) (budget : Nat) : Machine × Nat :=
  match m.gcstate with
  | .pause => (m.startCycle, 1)
  | .propagate => if m.gray ≠ 0 then (m.propagateOne, 1) else (m.atomic, budget)
  | .sweep => m.sweepSome budget

/-- `LHAT_GC_MIN_THRESHOLD`. -/
def gcMinThreshold : Nat := 64

/-- `lhat_gc_rearm`. -/
def Machine.lhatGcRearm (m : Machine) : Machine :=
  { m with
    threshold :=
      if m.gcPaused then 2 ^ 64 - 1
      else if m.gcstate = .pause then m.count * m.gcGrowth / 100 + gcMinThreshold
      else m.count + m.gcStepsize }

/-- The loop of `lhat_gc_advance` from `done` on. A turn that does nothing ends the
cycle. -/
def Machine.advanceFor (budget : Nat) : Nat → Nat → Machine → Machine × Bool
  | 0, _, m => (m, false)
  | turns + 1, done, m =>
    if done < budget then
      let stepped := m.singleStep (budget - done)
      if m.gcstate ≠ .pause ∧ stepped.1.gcstate = .pause then (stepped.1, true)
      else advanceFor budget turns (done + stepped.2) stepped.1
    else (m, false)

/-- `lhat_gc_advance`. -/
def Machine.lhatGcAdvance (m : Machine) (budget : Nat) : Machine × Bool :=
  let advanced := m.advanceFor budget (budget + 1) 0
  (advanced.1.lhatGcRearm, advanced.2)

/-- The loop of `lhat_gc_step` from `done` on. -/
def Machine.stepFor (budget : Nat) : Nat → Nat → Machine → Machine
  | 0, _, m => m
  | turns + 1, done, m =>
    let stepped := m.singleStep (budget - done)
    if done + stepped.2 < budget ∧ stepped.1.gcstate ≠ .pause then
      stepFor budget turns (done + stepped.2) stepped.1
    else stepped.1

/-- `lhat_gc_step`. -/
def Machine.lhatGcStep (m : Machine) : Machine :=
  let budget := m.gcStepsize * m.gcStepmul / 100
  (m.stepFor budget (budget + 1) 0).lhatGcRearm

/-- `SIZE_MAX`. -/
def sizeMax : Nat := 2 ^ 64 - 1

/-- The loop of `lhat_gc_collect`, for so many turns. -/
def Machine.finishFor : Nat → Machine → Machine
  | 0, m => m
  | turns + 1, m =>
    if m.gcstate = .pause then m else finishFor turns (m.singleStep sizeMax).1

/-- What an object hands over when it is freed. -/
def LhatObject.given (o : LhatObject) : List Address :=
  match o.payload with
  | .script root => root.objects
  | _ => []

def Machine.givenAt (m : Machine) (a : Address) : List Address :=
  match m.object a with
  | some o => o.given
  | none => []

/-- How much there is to sweep of some objects: each, and what it may hand over. -/
def Machine.weigh (m : Machine) (as : List Address) : Nat :=
  (as.map fun a => 1 + (m.givenAt a).length).sum

/-- `while (m->gcstate != LHAT_GC_PAUSE)`: at most a turn for each object that is
looked into, one for what is atomic, and one for each object that is swept. -/
def Machine.finishCycle (m : Machine) : Machine :=
  m.finishFor (m.objects.length + m.weigh m.objects + 2)

/-- `lhat_gc_collect`. -/
def Machine.lhatGcCollect (m : Machine) : Machine :=
  m.finishCycle.startCycle.finishCycle.lhatGcRearm

/-! ### The barriers -/

/-- `lhat_gc_barrier`. -/
def Machine.lhatGcBarrier (m : Machine) (parent value : Address) : Machine :=
  match m.object parent with
  | none => m
  | some o => if m.gcstate ≠ .propagate ∨ o.color ≠ .black then m else m.reach value

/-- `lhat_gc_barrier_back`. -/
def Machine.lhatGcBarrierBack (m : Machine) (parent value : Address) : Machine :=
  match m.object parent with
  | none => m
  | some o =>
    if m.gcstate ≠ .propagate ∨ o.color ≠ .black ∨ m.whiteAt value = false then m
    else
      { m with
        object := Function.update m.object parent (some { o with color := .gray, gclist := m.gray })
        gray := parent }

/-- `lhat_gc_take_pending`. -/
def Machine.lhatGcTakePending (m : Machine) : Machine :=
  { m with pendingDispose := m.pendingDispose.tail }

end Lhat.Gc
