import Lhat.Carry.Basic
import Mathlib.Logic.Function.Basic

/-!
# Putting a value back together

The nodes of a carried value become values of a machine, each at most once: `made` is
what came of a node, and `cells` the place that stands for one. A table and a closure
are there before what they hold is, and a coroutine comes after it.
-/

namespace Lhat

open Gc (LhatCoroutine)

/-- `lhat_object_alloc`: an object where the allocator puts it, which is never where
another one is. -/
def LhatMachine.objectAlloc (m : LhatMachine) (bytes : Nat) (o : LhatObject) :
    Option Address × LhatMachine :=
  let a := m.places m.memory.asked
  let memory := m.memory.request bytes
  if h : a ≠ 0 ∧ m.heap.object a = none ∧ m.memory.granted bytes then
    (some a, { m with
      memory := memory
      heap := { m.heap with
        object := Function.update m.heap.object a (some o)
        object_null := by rw [Function.update_of_ne h.1.symm]; exact m.heap.object_null } })
  else (none, { m with memory := memory })

namespace Carry

/-- `Builder`, with the calls that were made. -/
structure Builder where
  machine : LhatMachine
  made : Nat → LhatValue := fun _ => .nil
  built : Nat → Bool := fun _ => false
  cells : Nat → Address := fun _ => 0
  calls : List HoldCall := []

def Builder.onMachine (b : Builder) (f : LhatMachine → LhatMachine) : Builder :=
  { b with machine := f b.machine }

/-- A new object, or a failure. -/
def makeObject (bytes : Nat) (o : LhatObject) : Fallible Builder Address := fun b =>
  let (a, machine) := b.machine.objectAlloc bytes o
  some (a, { b with machine })

/-- Memory that holds no object. -/
def request (bytes : Nat) : Fallible Builder Unit := do
  if bytes = 0 then return ()
  else
    let b ← Fallible.get
    Fallible.modify fun b => b.onMachine fun m => { m with memory := m.memory.request bytes }
    if b.machine.memory.granted bytes then return () else Fallible.fail

/-! ### What a host may make -/

/-- `lhat_machine_make_string`. -/
def makeString (text : List UInt8) : Fallible Builder LhatValue := do
  let a ← makeObject (40 + text.length + 1) (.string (lhatStringNew text))
  return .object a

/-- `lhat_machine_make_table`. -/
def makeTable : Fallible Builder Address := do
  let a ← makeObject tableSize .table
  Fallible.modify fun b => b.onMachine fun m => { m with tables := (a, lhatTableNew) :: m.tables }
  return a

/-- `vm_set_key` on the machine: whether the write was refused. -/
def setKey (table : Address) (key value : LhatValue) : Fallible Builder Bool := fun b =>
  match vmSetKey b.machine.heap b.machine.writes ⟨b.machine.tables, b.machine.memory⟩ table key
      value with
  | none => none
  | some wrote =>
    some (if wrote.ok then some wrote.refused else none, b.onMachine fun m =>
      { m with tables := wrote.state.store, memory := wrote.state.memory })

/-- `lhat_machine_make_cell`, holding `nil`. -/
def makeCell : Fallible Builder Address := do
  let a ← makeObject 72 (.other .upvalue)
  Fallible.modify fun b => b.onMachine fun m =>
    { m with upvalues := Function.update m.upvalues a .nil }
  return a

/-- The write of a cell's value. -/
def fillCell (a : Address) (held : LhatValue) : Fallible Builder Unit :=
  Fallible.modify fun b => b.onMachine fun m =>
    { m with upvalues := Function.update m.upvalues a held }

variable (p : Program)

/-- `lhat_machine_make_closure_with`. -/
def makeClosureWith (proto : Address) (cells : List Address) : Fallible Builder LhatValue := do
  match p.proto proto with
  | none => Fallible.fail
  | some body =>
    if body.upvalueCount ≠ cells.length then Fallible.fail
    else
      let a ← makeObject 48 (.subroutine body.takesSelf)
      Fallible.modify fun b => b.onMachine fun m =>
        { m with closures := Function.update m.closures a { proto } }
      request (cells.length * 8)
      if 0 ∈ cells then Fallible.fail
      else
        Fallible.modify fun b => b.onMachine fun m =>
          { m with closures := Function.update m.closures a { proto, upvalues := cells } }
        return .object a

/-- `lhat_machine_make_coroutine_from`: as much of the image as there are registers. -/
def makeCoroutineFrom (closure : LhatValue) (slots : List LhatValue) :
    Fallible Builder LhatValue := do
  match closure with
  | .object c =>
    let b ← Fallible.get
    match p.proto (b.machine.closureProto c) with
    | none => Fallible.fail
    | some body =>
      if body.yields then
        let a ← makeObject 264 (.other .coroutine)
        let width := max body.registers 1
        let b ← Fallible.get
        let values := b.machine.memory.request (width * 8)
        Fallible.modify fun b => b.onMachine fun m => { m with memory := values.request width }
        if b.machine.memory.granted (width * 8) ∧ values.granted width then
          Fallible.modify fun b => b.onMachine fun m =>
            { m with
              coroutines := Function.update m.coroutines a {
                closure := c
                registers := slots.take body.registers ++
                  List.replicate (body.registers - slots.length) .nil
                registerCapacity := width } }
          return .object a
        else Fallible.fail
      else Fallible.fail
  | _ => Fallible.fail

/-- `reach_segment`. -/
def reachSegment (owner : Address) (segment : List UInt8) : Fallible Builder Address := do
  let b ← Fallible.get
  match lhatTableGetBytes b.machine.heap b.machine.tables owner segment with
  | none => Fallible.halt
  | some found =>
    let next := vmTableOf b.machine.heap found
    if next ≠ 0 then return next
    else if found.isNil then
      let key ← makeString segment
      let table ← makeTable
      if ← setKey owner key (.object table) then Fallible.fail else return table
    else Fallible.fail

/-- `reach_table`: the path is taken apart at its dots. -/
def reachTable (owner : Address) : List (List UInt8) → Fallible Builder Address
  | [] => pure owner
  | segment :: rest => do
    let next ← reachSegment owner segment
    reachTable next rest

/-- The segments of a path. -/
def segments (path : List UInt8) : List (List UInt8) := path.splitOn 46

/-- `lhat_machine_make_hostdata`. -/
def makeHostdata (tag : Address) (pointer : UInt64) : Fallible Builder LhatValue := do
  let b ← Fallible.get
  match p.hostDataTag tag with
  | none => Fallible.fail
  | some t =>
    if b.machine.modules = 0 then Fallible.fail
    else
      let module ← reachTable b.machine.modules (segments t.module)
      let members ← reachTable module (segments t.name)
      let a ← makeObject 56 (.hostdata { tag, pointer, members })
      return .object a

/-! ### Building -/

def Builder.memoise (b : Builder) (index : Nat) (value : LhatValue) : Builder :=
  { b with
    made := Function.update b.made index value
    built := Function.update b.built index true }

/-- What stands after the `switch` of `build`. -/
def finish (index : Nat) (value : LhatValue) : Fallible Builder LhatValue := do
  Fallible.modify fun b => b.memoise index value
  return value

/-- A cell's place, made where there is none yet. -/
def placeCell (cell : Nat) : Fallible Builder Address := do
  let b ← Fallible.get
  if b.cells cell = 0 then
    let a ← makeCell
    Fallible.modify fun b => { b with cells := Function.update b.cells cell a }
    return a
  else return b.cells cell

section Parts

variable (build : Nat → Fallible Builder LhatValue) (carried : LhatCarried)

/-- What the node of a cell says it holds. -/
def LhatCarried.heldBy (carried : LhatCarried) (cell : Nat) : Nat :=
  match carried.nodes[cell]? with
  | some (.cell held) => held
  | _ => 0

/-- A turn of the loop over a table's entries. -/
def buildEntry (table : Address) (entry : Nat × Nat) : Fallible Builder Unit := do
  let key ← build entry.1
  let held ← build entry.2
  let _ ← setKey table key held
  return ()

/-- The arm of `build` for a table. -/
def buildTable (index : Nat) (entries : List (Nat × Nat)) : Fallible Builder LhatValue := do
  let a ← makeTable
  Fallible.modify fun b => b.memoise index (.object a)
  let _ ← Fallible.each (buildEntry build a) entries
  return .object a

/-- A turn of the loop that fills the cells of a closure. -/
def buildHeld (cell : Nat) : Fallible Builder Unit := do
  let b ← Fallible.get
  if b.built cell then return ()
  else
    Fallible.modify fun b => { b with built := Function.update b.built cell true }
    let held ← build (carried.heldBy cell)
    let b ← Fallible.get
    fillCell (b.cells cell) held

/-- The arm of `build` for a closure. -/
def buildClosure (index : Nat) (proto : Address) (cells : List Nat) :
    Fallible Builder LhatValue := do
  request (cells.length * 8)
  let places ← Fallible.each placeCell cells
  let closure ← makeClosureWith p proto places
  Fallible.modify fun b => b.memoise index closure
  let _ ← Fallible.each (buildHeld build carried) cells
  return closure

/-- `build_cell`. It answers no value, so its caller's stays `nil`. -/
def buildCell (index : Nat) : Fallible Builder LhatValue := do
  let b ← Fallible.get
  if b.cells index ≠ 0 then return .nil
  else
    let a ← placeCell index
    let held ← build (carried.heldBy index)
    fillCell a held
    return .nil

/-- The arm of `build` for a coroutine. -/
def buildCoroutine (index : Nat) (ofClosure : Nat) (image : List Nat) :
    Fallible Builder LhatValue := do
  let closure ← build ofClosure
  request (image.length * 16)
  let slots ← Fallible.each build image
  let made ← makeCoroutineFrom p closure slots
  finish index made

/-- The arm of `build` for host data: a hold that no wrapper came of is given back. -/
def buildHostdata (index : Nat) (tag : Address) (pointer : UInt64) :
    Fallible Builder LhatValue := fun b =>
  match makeHostdata p tag pointer { b with calls := b.calls ++ hold p tag pointer } with
  | none => none
  | some (none, b) => some (none, { b with calls := b.calls ++ letGo p tag pointer })
  | some (some made, b) => finish index made b

/-- The `switch` of `build`. -/
def buildNode (index : Nat) : Node → Fallible Builder LhatValue
  | .nil => finish index .nil
  | .bool b => finish index (.bool b)
  | .int i => finish index (.integer i)
  | .real d => finish index (.real d)
  | .string text => do
    let made ← makeString text
    finish index made
  | .table entries => buildTable build index entries
  | .closure proto cells => buildClosure p build carried index proto cells
  | .cell _ => buildCell build carried index
  | .hostdata tag pointer => buildHostdata p index tag pointer
  | .coroutine ofClosure image => buildCoroutine p build index ofClosure image

end Parts

/-- `build`, over so many calls of itself. -/
def build (carried : LhatCarried) : Nat → Nat → Fallible Builder LhatValue
  | 0, _ => Fallible.halt
  | fuel + 1, index => do
    let b ← Fallible.get
    if b.built index then return b.made index
    else
      match carried.nodes[index]? with
      | none => Fallible.halt
      | some node => buildNode p (build carried fuel) carried index node

/-- What `lhat_uncarry` leaves: the value, if one was built, the machine, and the calls
made. -/
structure Uncarried where
  value : Option LhatValue
  machine : LhatMachine
  calls : List HoldCall

/-- A machine whose allocator was asked for the runs `made`, `built` and `cells`. -/
def askRuns (m : LhatMachine) (count : Nat) : LhatMachine :=
  { m with memory := ((m.memory.request (count * 16)).request count).request (count * 8) }

/-- Whether it grants all three. -/
def grantsRuns (m : Memory) (count : Nat) : Bool :=
  let made := m.request (count * 16)
  let built := made.request count
  m.granted (count * 16) && made.granted count && built.granted (count * 8)

/-- `lhat_uncarry`. The three runs are asked for before any of them is looked at. -/
def lhatUncarry (fuel : Nat) (m : LhatMachine) (carried : LhatCarried) : Option Uncarried :=
  let count := max carried.nodes.length 1
  if grantsRuns m.memory count then
    (build p carried fuel carried.root { machine := askRuns m count }).map fun (value, b) =>
      { value, machine := b.machine, calls := b.calls }
  else some { value := none, machine := askRuns m count, calls := [] }

end Carry

end Lhat
