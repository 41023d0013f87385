import Lhat.Carry.Memo
import Lhat.Collector.Basic
import Lhat.Foundation.Fallible
import Lhat.Table.Natives

/-!
# Taking a value apart

A value leaves its machine as a run of nodes that know each other by index. Every
object that was met is remembered by its address, so that a second way to it finds the
node of the first.

`none` is a walk that does not come back: the one over the memo where nothing is free,
and the one over the values, which is given so much fuel.
-/

namespace Lhat

open Gc (LhatCoroutine)

/-- `LhatProto`: what is read of one where a closure crosses. -/
structure LhatProto where
  isOwned : Bool := false
  yields : Bool := false
  takesSelf : Bool := false
  upvalueCount : Nat := 0
  registers : Nat := 0
deriving DecidableEq

/-- `LhatHostDataTag`. Of the two callbacks it is kept whether there is one. -/
structure LhatHostDataTag where
  module : List UInt8
  name : List UInt8
  isShared : Bool := false
  retain : Bool := false
  letGo : Bool := false
deriving DecidableEq

/-- What the machines of one process have in common. -/
structure Program where
  proto : Address → Option LhatProto
  hostDataTag : Address → Option LhatHostDataTag
  proto_null : proto 0 = none
  hostDataTag_null : hostDataTag 0 = none

/-- `LhatClosure`. -/
structure LhatClosure where
  proto : Address := 0
  upvalues : List Address := []
deriving DecidableEq

/-- `LhatMachine`. The heap says of an address which kind of object is there; what may
change in one stands beside it, under the same address. `places` is where the allocator
puts what it grants. -/
structure LhatMachine where
  heap : Heap
  tables : Store
  closures : Address → LhatClosure
  coroutines : Address → LhatCoroutine
  upvalues : Address → LhatValue
  modules : Address := 0
  writes : Machine
  memory : Memory
  places : Nat → Address

/-- A table of the machine. -/
def LhatMachine.table (m : LhatMachine) (a : Address) : LhatTable := (m.tables.table a).getD {}

/-- `lhat_closure_proto`, `NULL` where the value is no closure. -/
def LhatMachine.closureProto (m : LhatMachine) (a : Address) : Address :=
  match m.heap.object a with
  | some (.subroutine _) => (m.closures a).proto
  | _ => 0

/-- `lhat_closure_capture`, of the place at an address. -/
def LhatMachine.capture (m : LhatMachine) (place : Address) : LhatValue :=
  if place = 0 then .nil else m.upvalues place

/-- `lhat_coroutine_is_fresh_body`. -/
def isFreshBody (co : LhatCoroutine) : Bool :=
  co.state = .fresh && co.source = .body && co.closure ≠ 0

namespace Carry

/-- `Node`: the kind with what a node of that kind uses. -/
inductive Node where
  | nil
  | bool (b : Bool)
  | int (i : Int64)
  | real (d : Binary64)
  | string (bytes : List UInt8)
  | table (entries : List (Nat × Nat))
  | closure (proto : Address) (cells : List Nat)
  | cell (held : Nat)
  | hostdata (tag : Address) (pointer : UInt64)
  | coroutine (ofClosure : Nat) (image : List Nat)
deriving DecidableEq

/-- A call of `retain` or of `let_go`. -/
structure HoldCall where
  retained : Bool
  tag : Address
  pointer : UInt64
deriving DecidableEq

/-- `LhatCarried`. -/
structure LhatCarried where
  nodes : List Node
  root : Nat
deriving DecidableEq

variable (p : Program)

/-- `hold`: the calls that it makes. -/
def hold (tag : Address) (pointer : UInt64) : List HoldCall :=
  match p.hostDataTag tag with
  | some t => if t.retain then [⟨true, tag, pointer⟩] else []
  | none => []

/-- `let_go`. -/
def letGo (tag : Address) (pointer : UInt64) : List HoldCall :=
  match p.hostDataTag tag with
  | some t => if t.letGo then [⟨false, tag, pointer⟩] else []
  | none => []

/-- `Carrier`, with the allocator and the calls that were made. -/
structure Carrier where
  nodes : List Node := []
  capacity : Nat := 0
  memo : Memo := {}
  refused : Option String := none
  memory : Memory
  calls : List HoldCall := []

/-- `refuse`: the first reason is kept. -/
def refuse {α : Type} (why : String) : Fallible Carrier α := do
  Fallible.modify fun c => { c with refused := some (c.refused.getD why) }
  Fallible.fail

/-- So many bytes, asked for where they are any. -/
def allocate (bytes : Nat) : Fallible Carrier Unit := do
  if bytes = 0 then return ()
  else
    let c ← Fallible.get
    Fallible.modify fun c => { c with memory := c.memory.request bytes }
    if c.memory.granted bytes then return () else refuse "out of memory"

def nodeSize : Nat := 112

/-- `add_node`, of a node as it is once the caller has filled it in. -/
def addNode (node : Node) : Fallible Carrier Nat := do
  let c ← Fallible.get
  if c.nodes.length = c.capacity then
    let wider := if c.capacity = 0 then 32 else c.capacity * 2
    allocate (wider * nodeSize)
    Fallible.modify fun c => { c with capacity := wider, nodes := c.nodes ++ [node] }
    return c.nodes.length
  else
    Fallible.modify fun c => { c with nodes := c.nodes ++ [node] }
    return c.nodes.length

/-- A node written over. -/
def setNode (index : Nat) (node : Node) : Fallible Carrier Unit :=
  Fallible.modify fun c => { c with nodes := c.nodes.set index node }

/-- `memo_find` on the memo of the carrier. -/
def findMemo (key : Address) : Fallible Carrier (Option Nat) :=
  fun c => (memoFind c.memo key).map fun found => (some found, c)

/-- `memo_put` on the memo of the carrier. -/
def putMemo (key : Address) (index : Nat) : Fallible Carrier Bool :=
  fun c => (memoPut c.memo c.memory key index).map fun (ok, memo, memory) =>
    (some ok, { c with memo, memory })

/-- A node for an object that was not met before. -/
def enter (node : Node) (key : Address) : Fallible Carrier Nat := do
  let index ← addNode node
  if ← putMemo key index then return index else refuse "out of memory"

/-- The keys that cross. -/
def crossingKey (h : Heap) : LhatValue → Bool
  | .integer _ | .real _ | .bool _ => true
  | .object o =>
    match h.object o with
    | some (.string _) => true
    | _ => false
  | _ => false

section Parts

variable (carry : LhatValue → Fallible Carrier Nat) (m : LhatMachine)

/-- A turn of the first loop of `carry_table`. -/
def carryPosition (t : LhatTable) (i : Nat) : Fallible Carrier (Nat × Nat) := do
  let key ← carry (.integer (Int64.ofNat i))
  let held ← carry (t.array.getD i .nil)
  return (key, held)

/-- A turn of the second loop of `carry_table`, for an entry with a key. -/
def carryEntry (entry : LhatTableEntry) : Fallible Carrier (Nat × Nat) := do
  if crossingKey m.heap entry.key then
    let key ← carry entry.key
    let held ← carry entry.value
    return (key, held)
  else refuse "a key that is not a string, number or bool"

/-- The entries of a table that have a key. -/
def keyed (t : LhatTable) : List LhatTableEntry :=
  t.entries.filter fun entry => !entry.key.isNil

/-- `carry_table`. -/
def carryTable (a : Address) : Fallible Carrier Nat := do
  match ← findMemo a with
  | some index => return index
  | none =>
    let t := m.table a
    if t.definition ≠ 0 ∨ t.isDefinition then
      refuse "a def^ and its instances stay on their machine"
    else if t.isSealed then refuse "a module stays on its machine"
    else
      let index ← enter (.table []) a
      allocate ((t.array.length + t.entryCount) * 16)
      let positions ← Fallible.each (carryPosition carry t) (List.range t.array.length)
      let entries ← Fallible.each (carryEntry carry m) (keyed t)
      setNode index (.table (positions ++ entries))
      return index

/-- A turn of the loop of `carry_closure`. -/
def carryCell (place : Address) : Fallible Carrier Nat := do
  match ← findMemo place with
  | some cell => return cell
  | none =>
    let cell ← enter (.cell 0) place
    let held ← carry (m.capture place)
    setNode cell (.cell held)
    return cell

/-- `carry_closure`. -/
def carryClosure (a : Address) : Fallible Carrier Nat := do
  match ← findMemo a with
  | some index => return index
  | none =>
    match p.proto (m.closureProto a) with
    | none => refuse "not a closure"
    | some proto =>
      if proto.isOwned then refuse "a loaded script's body stays on its machine"
      else
        let index ← enter (.closure 0 []) a
        let places := (m.closures a).upvalues
        allocate (places.length * 8)
        let cells ← Fallible.each (carryCell carry m) places
        setNode index (.closure (m.closureProto a) cells)
        return index

/-- `carry_coroutine`. A memo that cannot grow gives no reason here. -/
def carryCoroutine (a : Address) : Fallible Carrier Nat := do
  let co := m.coroutines a
  if isFreshBody co then
    match ← findMemo a with
    | some index => return index
    | none =>
      let index ← addNode (.coroutine 0 [])
      if ← putMemo a index then
        let ofClosure ← carryClosure p carry m co.closure
        allocate (co.registers.length * 8)
        let image ← Fallible.each carry co.registers
        setNode index (.coroutine ofClosure image)
        return index
      else Fallible.fail
  else refuse "a coroutine that has started stays on its machine"

/-- The arm of `carry_value` for a type that may cross. -/
def carryHostdata (data : LhatHostData) : Fallible Carrier Nat := do
  match p.hostDataTag data.tag with
  | some tag =>
    if tag.isShared ∧ data.released = false then
      let index ← addNode (.hostdata data.tag data.pointer)
      Fallible.modify fun c => { c with calls := c.calls ++ hold p data.tag data.pointer }
      return index
    else refuse "a host's value stays on its machine"
  | none => refuse "a host's value stays on its machine"

/-- The arms of `carry_value` for an object. -/
def carryObject (a : Address) : Fallible Carrier Nat :=
  match m.heap.object a with
  | some (.string s) => do
    allocate s.text.length
    addNode (.string s.text)
  | some .table => carryTable carry m a
  | some (.subroutine _) => carryClosure p carry m a
  | some (.other .coroutine) => carryCoroutine p carry m a
  | some (.hostdata data) => carryHostdata p data
  | some (.hostvalueBox _) => refuse "a host's value stays on its machine"
  | some (.host _) | some (.other .native) => refuse "a host subroutine stays on its machine"
  | _ => refuse "a value of a kind that does not cross"

end Parts

/-- `carry_value`, over so many calls of itself. -/
def carryValue (m : LhatMachine) : Nat → LhatValue → Fallible Carrier Nat
  | 0, _ => Fallible.halt
  | fuel + 1, value =>
    match value with
    | .nil => addNode .nil
    | .bool b => addNode (.bool b)
    | .integer i => addNode (.int i)
    | .real d => addNode (.real d)
    | .object a => carryObject p (carryValue m fuel) m a
    | .hostvalue _ => refuse "a host's value stays on its machine"
    | .cont _ | .run _ => refuse "a value of a kind that does not cross"

/-- `lhat_carried_free`: the calls that it makes. -/
def lhatCarriedFree (nodes : List Node) : List HoldCall :=
  nodes.flatMap fun
    | .hostdata tag pointer => letGo p tag pointer
    | _ => []

def carriedSize : Nat := 32

/-- What `lhat_carry` leaves: the carried form or the reason, and the calls made. -/
structure Carriage where
  outcome : Except String LhatCarried
  calls : List HoldCall
  memory : Memory

/-- `lhat_carry`. -/
def lhatCarry (m : LhatMachine) (fuel : Nat) (memory : Memory) (value : LhatValue) :
    Option Carriage :=
  if memory.granted carriedSize then
    match carryValue p m fuel value { memory := memory.request carriedSize } with
    | none => none
    | some (some root, c) =>
      some { outcome := .ok { nodes := c.nodes, root }, calls := c.calls, memory := c.memory }
    | some (none, c) =>
      some {
        outcome := .error (c.refused.getD "out of memory")
        calls := c.calls ++ lhatCarriedFree p c.nodes
        memory := c.memory }
  else
    some {
      outcome := .error "out of memory", calls := [], memory := memory.request carriedSize }

end Carry

end Lhat
