import Lhat.Record.Chunks

/-!
# Records

A record is a table: how many positions and how many entries it has, the values of the positions
and then each key with its value. Tables in it are written where they stand, down to a depth, so
a table that is held twice is read as two.

The callbacks touch no table, so a table is the same from the first of its bytes to the last.
-/

namespace Lhat.Records

variable (limits : Limits) (write : List UInt8 → List UInt8 → Bool) (split : Splitting)

/-! ### Numbers -/

/-- The groups of seven bits that `put_var` lays out, all but the last marked. There is room for
ten. -/
def varBytes : Nat → Nat → List UInt8
  | 0, _ => []
  | room + 1, n =>
    let byte : UInt8 := .ofNat (n &&& 127 ||| if 127 < n then 128 else 0)
    if n >>> 7 = 0 then [byte] else byte :: varBytes room (n >>> 7)

def putVar (c : Writer) (n : Nat) : Except Status Writer := put limits write c (varBytes 10 n)

/-- The loop of `get_var`, from the `i`-th group on. -/
def varLoop : Nat → Nat → Nat → Reader → Except Status (Nat × Reader)
  | 0, _, _, _ => .error .malformed
  | turns + 1, i, n, c => do
    let (byte, c) ← get limits split c 1
    let b := (byte.getD 0 0).toNat
    if i = 9 ∧ 1 < b ∨ 0 < i ∧ b = 0 then throw .malformed
    let n := n ||| (b &&& 127) <<< (7 * i)
    if b &&& 128 = 0 then return (n, c)
    varLoop turns (i + 1) n c

def getVar (c : Reader) : Except Status (Nat × Reader) := varLoop limits split 10 0 0 c

/-- The eight bytes of a word, the lowest first. -/
def wordBytes (bits : Nat) : List UInt8 := (List.range 8).map fun i => .ofNat (bits >>> (8 * i))

def word (b : List UInt8) : Nat :=
  (List.range 8).foldl (fun bits i => bits ||| (b.getD i 0).toNat <<< (8 * i)) 0

/-- `count_entries`. -/
def countEntries (entries a b : Nat) : Except Status Nat :=
  if limits.maxEntries < a ∨ limits.maxEntries - a < b ∨ limits.maxEntries - (a + b) < entries then
    .error .limit
  else .ok (entries + (a + b))

/-- `scalar_key`. -/
def scalarKey : Value → Bool
  | .bool _ | .integer _ | .string _ => true
  | .real d => isFinite d
  | _ => false

/-! ### Writing -/

/-- `DATA_NIL` to `DATA_TABLE`. -/
def tagOf : Value → Option UInt8
  | .nil => some 0
  | .bool b => some (if b then 2 else 1)
  | .integer _ => some 3
  | .real d => if isFinite d then some 4 else none
  | .string _ => some 5
  | .table _ => some 6
  | .other _ => none

section Writing

variable (value : Value → Writer → Except Status Writer)

def writeItems : List Value → Writer → Except Status Writer
  | [], c => .ok c
  | item :: items, c => do
    let c ← value item c
    writeItems items c

/-- The slots that have a key, and how many those are. -/
def writeEntries : List Entry → Writer → Except Status (Nat × Writer)
  | [], c => .ok (0, c)
  | e :: entries, c =>
    if e.key = .nil then writeEntries entries c
    else if scalarKey e.key = false then .error .unsupported
    else do
      let c ← value e.key c
      let c ← value e.value c
      let (written, c) ← writeEntries entries c
      return (written + 1, c)

/-- `write_value`, of a table. -/
def writeTable (h : Heap) (ancestors : List Nat) (a : Nat) (c : Writer) :
    Except Status Writer :=
  let t := h.tables a
  if t.isDefinition = true ∨ t.definition ≠ none then .error .unsupported
  else if a ∈ ancestors then .error .cycle
  else do
    let entries ← countEntries limits c.entries t.array.length t.entryCount
    let c ← putVar limits write { c with entries := entries } t.array.length
    let c ← putVar limits write c t.entryCount
    let c ← writeItems value t.array c
    let (written, c) ← writeEntries value t.entries c
    if written = t.entryCount then return c else throw .malformed

/-- `write_value`, up to what is done with a table. -/
def writeTagged (table : Nat → Writer → Except Status Writer) (v : Value) (c : Writer) :
    Except Status Writer :=
  match tagOf v with
  | none => .error .unsupported
  | some tag => do
    let c ← put limits write c [tag]
    match v with
    | .integer n => put limits write c (wordBytes n.toUInt64.toNat)
    | .real d => put limits write c (wordBytes d.bits.toNat)
    | .string text => do
      let c ← putVar limits write c text.length
      put limits write c text
    | .table a => table a c
    | _ => .ok c

end Writing

/-- `write_value`, from a depth that is so far from the limit. -/
def writeValue (h : Heap) : Nat → List Nat → Value → Writer → Except Status Writer
  | 0, _ => writeTagged limits write fun _ _ => .error .limit
  | left + 1, ancestors => writeTagged limits write fun a =>
    writeTable limits write (writeValue h left (a :: ancestors)) h ancestors a

/-! ### Reading -/

section Reading

variable (value : Reader → Heap → Except Status (Value × Reader × Heap)) (a : Nat)

/-- The positions from `i` on. -/
def readItems : Nat → Nat → Reader → Heap → Except Status (Reader × Heap)
  | 0, _, c, g => .ok (c, g)
  | left + 1, i, c, g => do
    let (v, c, g) ← value c g
    match (g.tables a).set (.integer (.ofNat i)) v with
    | .done t => readItems left (i + 1) c (g.write a t)
    | .refused => readItems left (i + 1) c g
    | .outOfMemory => throw .outOfMemory

def readEntries (array : Nat) : Nat → Reader → Heap → Except Status (Reader × Heap)
  | 0, c, g => .ok (c, g)
  | left + 1, c, g => do
    let (key, c, g) ← value c g
    if scalarKey key = false ∨ belongs array key = true ∨ (g.tables a).get key ≠ .nil then
      throw .malformed
    let (v, c, g) ← value c g
    if v = .nil then throw .malformed
    match (g.tables a).set key v with
    | .done t => readEntries array left c (g.write a t)
    | .refused => throw .malformed
    | .outOfMemory => throw .outOfMemory

/-- `read_value`, of a table. -/
def readTable (c : Reader) (g : Heap) : Except Status (Value × Reader × Heap) := do
  let (array, c) ← getVar limits split c
  let (entries, c) ← getVar limits split c
  let count ← countEntries limits c.entries array entries
  match Table.sized array with
  | none => throw .outOfMemory
  | some t => do
    let (c, g') ← readItems value g.next array 0 { c with entries := count } (g.make t)
    let (c, g') ← readEntries value g.next array entries c g'
    return (.table g.next, c, g')

/-- `read_value`, up to what is done with a table. -/
def readTagged (table : Reader → Heap → Except Status (Value × Reader × Heap)) (c : Reader)
    (g : Heap) : Except Status (Value × Reader × Heap) := do
  let (tag, c) ← get limits split c 1
  match (tag.getD 0 0).toNat with
  | 0 => return (.nil, c, g)
  | 1 => return (.bool false, c, g)
  | 2 => return (.bool true, c, g)
  | 3 => do
    let (b, c) ← get limits split c 8
    return (.integer (UInt64.ofNat (word b)).toInt64, c, g)
  | 4 => do
    let (b, c) ← get limits split c 8
    let d : Binary64 := ⟨.ofNat (word b)⟩
    if isFinite d then return (.real d, c, g) else throw .malformed
  | 5 => do
    let (n, c) ← getVar limits split c
    if limits.maxBytes < n then throw .limit
    let (text, c) ← get limits split c n
    return (.string text, c, g)
  | 6 => table c g
  | _ => throw .malformed

end Reading

/-- `read_value`, from a depth that is so far from the limit. -/
def readValue : Nat → Reader → Heap → Except Status (Value × Reader × Heap)
  | 0 => readTagged limits split fun _ _ => .error .limit
  | left + 1 => readTagged limits split (readTable limits split (readValue left))

/-! ### One record -/

def Limits.standard : Limits := ⟨256 * 1024 * 1024, 1000000, 96, by decide, by decide⟩

/-- `begin`. -/
def start (limits : Option Limits) : Except Status Limits :=
  let limits := limits.getD .standard
  if 96 < limits.maxDepth ∨ limits.maxDepth = 0 then .error .limit else .ok limits

/-- `lhatstdlib_binary_serialize`: what the callback took. -/
def serialize (h : Heap) (limits : Option Limits) (write : List UInt8 → List UInt8 → Bool)
    (v : Value) : Except Status (List UInt8) :=
  match v with
  | .table _ => do
    let limits ← start limits
    let c ← rawWrite limits write {} magic
    let c ← writeValue limits write h limits.maxDepth [] v c
    let c ← flushChunk limits write c
    let c ← rawWrite limits write c [0, 0, 0, 0]
    return c.written
  | _ => .error .unsupported

/-- `lhatstdlib_binary_deserialize`: what is read, and what the stream has left. -/
def deserialize (g : Heap) (limits : Option Limits) (split : Splitting) (stream : List UInt8) :
    Except Status (Value × Heap × List UInt8) := do
  let limits ← start limits
  let (header, c) ← rawRead limits split { left := stream } 8
  if header ≠ magic then throw .malformed
  let (v, c, g) ← readValue limits split limits.maxDepth c g
  match v with
  | .table _ => do
    if c.position ≠ c.buffer.length then throw .malformed
    let (terminal, c) ← rawRead limits split c 4
    if terminal ≠ [0, 0, 0, 0] then throw .malformed
    return (v, g, c.left)
  | _ => throw .malformed

end Lhat.Records
