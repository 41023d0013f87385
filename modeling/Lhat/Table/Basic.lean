import Lhat.Foundation.OpenAddressing
import Lhat.Runtime.Key

/-!
# Tables

A table is a sequence and a mapping. The dense half holds the keys below its
length, and the rest stand in an open-addressed half. A free slot has neither key
nor value, a tombstone a value alone, and a seat a key alone.

The two runs of the dense half are one list, no longer than its capacity. Memory
is asked for by the byte and may be refused; `none` is an operation that does not
come back, which is a probe without a free slot to stop at or a comparison that
outgrows the stack.
-/

namespace Lhat

/-- `LhatTableEntry`. -/
structure LhatTableEntry where
  key : LhatValue := .nil
  value : LhatValue := .nil
deriving DecidableEq, Repr

/-- `LhatTable`. -/
structure LhatTable where
  array : List LhatValue := []
  arrayCapacity : Nat := 0
  entries : List LhatTableEntry := []
  entryCount : Nat := 0
  entryTombs : Nat := 0
  version : UInt32 := 0
  definition : Address := 0
  delegateKey : LhatValue := .nil
  delegateFromSelf : Bool := false
  isDefinition : Bool := false
  isSealed : Bool := false
  shared : Bool := false
deriving DecidableEq

/-- What the allocator answers, request after request. No request of half the
address space is granted. -/
structure Memory where
  grants : Nat → Bool
  asked : Nat := 0
  refused : Bool := false

def Memory.granted (m : Memory) (bytes : Nat) : Bool := m.grants m.asked && decide (bytes < 2 ^ 63)

def Memory.request (m : Memory) (bytes : Nat) : Memory :=
  { m with asked := m.asked + 1, refused := m.refused || !m.granted bytes }

def entrySize : Nat := 32

def tableSize : Nat := 128

/-- What an operation that may run out of memory leaves behind. `refused` is the
flag of a key that no table holds. -/
structure Outcome where
  ok : Bool
  table : LhatTable
  memory : Memory
  refused : Bool := false

/-! ### The hash part -/

/-- `entry_is_free`. -/
def entryIsFree (entry : LhatTableEntry) : Bool := entry.key.isNil && entry.value.isNil

/-- `entry_is_tombstone`. -/
def entryIsTombstone (entry : LhatTableEntry) : Bool := entry.key.isNil && !entry.value.isNil

def tombstone : LhatTableEntry := { key := .nil, value := .bool true }

/-- `spells`. -/
def spells (h : Heap) (key : LhatValue) (text : List UInt8) : Bool :=
  match key with
  | .object o =>
    match h.object o with
    | some (.string held) => held.text == text
    | _ => false
  | _ => false

/-- `probe_spelt`: the slot holding the key, or the one it could be put in. With
a text the key asked for is the string of those bytes. -/
def probeSpelt (h : Heap) (entries : List LhatTableEntry) (key : LhatValue)
    (text : Option (List UInt8)) (hash : UInt32) : Option Nat :=
  OpenAddressing.search entryIsFree entryIsTombstone
    (fun entry =>
      match text with
      | some text => some (spells h entry.key text)
      | none => lhatValueEqual h entry.key key)
    entries entries.length (hash.toNat &&& (entries.length - 1)) none

/-- `probe`. -/
def probe (h : Heap) (entries : List LhatTableEntry) (key : LhatValue) (hash : UInt32) :
    Option Nat :=
  probeSpelt h entries key none hash

def entryKey (entry : LhatTableEntry) : Option LhatValue :=
  if entry.key.isNil then none else some entry.key

/-- The slot at an index that a probe answered. -/
def LhatTable.entryAt (t : LhatTable) (i : Nat) : LhatTableEntry := t.entries.getD i {}

/-- The capacity that keeps so many entries under three quarters, doubled from
the one given. -/
def fitCapacity (need : Nat) : Nat → Nat → Nat
  | 0, capacity => capacity
  | fuel + 1, capacity =>
    if capacity - capacity / 4 < need then fitCapacity need fuel (capacity * 2) else capacity

/-- `grow_entries`. -/
def growEntries (h : Heap) (m : Memory) (t : LhatTable) : Option Outcome :=
  let capacity := fitCapacity (t.entryCount + 1) (t.entryCount + 1) 8
  let bytes := capacity * entrySize
  if m.granted bytes then
    match OpenAddressing.rehash entryIsFree entryIsTombstone entryKey
        (fun key => (hashKey h key).toNat) (fun key entry => lhatValueEqual h entry.key key)
        t.entries (List.replicate capacity {}) 0 with
    | none => none
    | some (entries, moved) =>
      some {
        ok := true
        table := { t with
          entries := entries, entryCount := moved, entryTombs := 0, version := t.version + 1 }
        memory := m.request bytes }
  else some { ok := false, table := t, memory := m.request bytes }

/-! ### The array part -/

/-- `array_index`: the slot of the dense half a key names. A real names the one it
rounds to. -/
def arrayIndex (t : LhatTable) (key : LhatValue) : Option Nat :=
  let inside (i : Int) : Option Nat :=
    if i < 0 ∨ (t.array.length : Int) ≤ i then none else some i.toNat
  match key with
  | .integer i => inside i.toInt
  | .real d =>
    if (Binary64.ofInt (-9000000000000000)).lt d && d.lt (Binary64.ofInt 9000000000000000) then
      inside d.floorAddHalf
    else none
  | _ => none

/-- `grow_array`: the two runs are lengthened one after the other. -/
def growArray (m : Memory) (t : LhatTable) : Outcome :=
  let capacity := if t.arrayCapacity = 0 then 8 else t.arrayCapacity * 2
  let values := m.request (capacity * 8)
  if m.granted (capacity * 8) then
    if values.granted capacity then
      { ok := true, table := { t with arrayCapacity := capacity }, memory := values.request capacity }
    else { ok := false, table := t, memory := values.request capacity }
  else { ok := false, table := t, memory := values }

/-- Room for one more position. -/
def makeRoom (m : Memory) (t : LhatTable) : Outcome :=
  if t.array.length = t.arrayCapacity then growArray m t else { ok := true, table := t, memory := m }

def LhatTable.append (t : LhatTable) (value : LhatValue) : LhatTable :=
  { t with array := t.array ++ [value] }

/-- `find_entry`. -/
def findEntry (h : Heap) (t : LhatTable) (index : Nat) : Option (Option Nat) :=
  if t.entryCount = 0 then some none
  else
    let key := LhatValue.integer (Int64.ofNat index)
    match probe h t.entries key (hashKey h key) with
    | none => none
    | some i => some (if (t.entryAt i).key.isNil then none else some i)

/-- An entry made a tombstone. -/
def LhatTable.bury (t : LhatTable) (i : Nat) : LhatTable :=
  { t with
    entries := t.entries.set i tombstone
    entryCount := t.entryCount - 1
    entryTombs := t.entryTombs + 1 }

def LhatTable.touch (t : LhatTable) : LhatTable := { t with version := t.version + 1 }

/-- `take_entry`: what the entry held, and the table without it. -/
def takeEntry (t : LhatTable) (i : Nat) : LhatValue × LhatTable :=
  ((t.entryAt i).value, (t.bury i).touch)

/-- The loop of `drain_into_array`. Every turn takes an entry, so there are no
more turns than entries. -/
def drain (h : Heap) : Nat → Memory → LhatTable → Option (LhatTable × Memory)
  | 0, _, _ => none
  | fuel + 1, m, t =>
    match findEntry h t t.array.length with
    | none => none
    | some none => some (t, m)
    | some (some i) =>
      let room := makeRoom m t
      if room.ok then
        let (value, left) := takeEntry room.table i
        drain h fuel room.memory (left.append value)
      else some (room.table, room.memory)

/-- `drain_into_array`. -/
def drainIntoArray (h : Heap) (m : Memory) (t : LhatTable) : Option (LhatTable × Memory) :=
  drain h (t.entryCount + 1) m t

/-- The second loop of `lhat_table_resize`, over as many positions as are
missing. -/
def lengthen (h : Heap) (fill : LhatValue) : Nat → Memory → LhatTable → Option Outcome
  | 0, m, t => some { ok := true, table := t, memory := m }
  | missing + 1, m, t =>
    let room := makeRoom m t
    if room.ok then
      match findEntry h room.table room.table.array.length with
      | none => none
      | some none => lengthen h fill missing room.memory (room.table.append fill)
      | some (some i) =>
        let (value, left) := takeEntry room.table i
        lengthen h fill missing room.memory (left.append value)
    else some room

/-- `lhat_table_resize`. -/
def lhatTableResize (h : Heap) (m : Memory) (t : LhatTable) (length : Nat) (fill : LhatValue) :
    Option Outcome :=
  let short := { t with array := t.array.take length }
  match lengthen h fill (length - short.array.length) m short with
  | none => none
  | some made =>
    if made.ok then
      match drainIntoArray h made.memory made.table with
      | none => none
      | some (table, memory) => some { ok := true, table, memory }
    else some made

/-! ### Reading -/

/-- The tables of a heap, each at its address. -/
abbrev Store := List (Address × LhatTable)

namespace Store

def table (s : Store) (a : Address) : Option LhatTable := s.lookup a

def write (s : Store) (a : Address) (t : LhatTable) : Store :=
  s.map fun held => if held.1 = a then (a, t) else held

end Store

/-- `members_table_of`, `NULL` where a value has no members. -/
def membersTableOf (h : Heap) : LhatValue → Address
  | .object o =>
    match h.object o with
    | some (.hostdata data) => data.members
    | some .table => o
    | _ => 0
  | _ => 0

/-- `lhat_takes_receiver`, over so many groups within groups. -/
def lhatTakesReceiver (h : Heap) : Nat → LhatValue → Option Bool
  | 0, _ => none
  | depth + 1, .object o =>
    match h.object o with
    | some (.subroutine takesSelf) => some takesSelf
    | some (.host takesSelf) => some takesSelf
    | some (.overload candidates) =>
      candidates.foldr
        (fun candidate rest => do
          if ← lhatTakesReceiver h depth candidate then some true else rest)
        (some false)
    | _ => some false
  | _ + 1, _ => some false

/-- `delegate_next`. -/
def delegateNext (h : Heap) (s : Store) (object : Address) : Option Address :=
  match h.object object with
  | some .table => do
    let receiver ← s.table object
    if receiver.isDefinition || receiver.definition == 0 then return 0
    let owner ← s.table receiver.definition
    if owner.delegateKey.isNil then return 0
    let holder := if owner.delegateFromSelf then receiver else owner
    if holder.entries.isEmpty then return 0
    let i ← probe h holder.entries owner.delegateKey (hashKey h owner.delegateKey)
    let entry := holder.entryAt i
    match entry.value with
    | .object o =>
      return if !entry.key.isNil && membersTableOf h entry.value != 0 then o else 0
    | _ => return 0
  | _ => some 0

/-- What a lookup answers: the value, where a cacheable one stands, and the
receiver it was lent through. -/
structure Found where
  value : LhatValue
  foundIn : Address := 0
  foundAt : Option Nat := none
  inherited : Bool := false
  through : LhatValue := .nil

/-- What one table of a lookup has under the key, with the slot if it is an
entry's. A seat has nothing. -/
def ownRead (h : Heap) (t : LhatTable) (key : LhatValue) (text : Option (List UInt8))
    (hash : UInt32) : Option (Option (LhatValue × Option Nat)) :=
  match if text.isNone then arrayIndex t key else none with
  | some index => some (some (t.array.getD index .nil, none))
  | none =>
    if t.entries.isEmpty then some none
    else
      match probeSpelt h t.entries key text hash with
      | none => none
      | some i =>
        let entry := t.entryAt i
        some (if entry.key.isNil || entry.value.isNil then none else some (entry.value, some i))

/-- One table and the definitions behind it. A nearer name blocks deeper ones even
when it cannot be lent. -/
def readDefinitions (h : Heap) (s : Store) (key : LhatValue) (text : Option (List UInt8))
    (hash : UInt32) (restricted delegated : Bool) (receiver : LhatValue) :
    Nat → Address → Bool → Option (Option Found)
  | 0, _, _ => none
  | fuel + 1, node, inherited =>
    if node = 0 then some none
    else
      match s.table node with
      | none => none
      | some t =>
        match ownRead h t key text hash with
        | none => none
        | some none =>
          readDefinitions h s key text hash restricted delegated receiver fuel t.definition true
        | some (some (value, slot)) => do
          if (restricted && inherited) || delegated then
            if !(← lhatTakesReceiver h h.depth value) then
              return some { value := .nil }
          let through := if delegated then receiver else .nil
          match slot with
          | some _ => return some { value, foundIn := node, foundAt := slot, inherited, through }
          | none => return some { value, through }

/-- The walk over delegates, each of them visited once. -/
def readDelegates (h : Heap) (s : Store) (key : LhatValue) (text : Option (List UInt8))
    (hash : UInt32) (root : Address) : Nat → List Address → Address → Option Found
  | 0, _, _ => none
  | fuel + 1, visited, node =>
    if node = 0 ∨ node ∈ visited then some { value := .nil }
    else do
      let first := membersTableOf h (.object node)
      let t ← s.table first
      match ← readDefinitions h s key text hash (!t.isDefinition) (node != root) (.object node)
          (s.length + 1) first false with
      | some found => some found
      | none =>
        let next ← delegateNext h s node
        readDelegates h s key text hash root fuel (node :: visited) next

/-- `table_get_in`. -/
def tableGetIn (h : Heap) (s : Store) (table : Address) (key : LhatValue)
    (text : Option (List UInt8)) : Option Found :=
  if table = 0 ∨ (text.isNone ∧ usableKey key = false) then some { value := .nil }
  else
    let key := if text.isNone then normaliseKey key else key
    let hash := match text with
      | some text => lhatStringHash text
      | none => hashKey h key
    readDelegates h s key text hash table (s.length + 2) [] table

/-- `lhat_table_get`. -/
def lhatTableGet (h : Heap) (s : Store) (table : Address) (key : LhatValue) : Option LhatValue :=
  (tableGetIn h s table key none).map Found.value

/-- `lhat_table_get_bytes`. -/
def lhatTableGetBytes (h : Heap) (s : Store) (table : Address) (name : List UInt8) :
    Option LhatValue :=
  (tableGetIn h s table .nil (some name)).map Found.value

/-! ### Writing -/

/-- Room among the entries for one more key: three quarters are not passed, and
tombstones count. -/
def makeEntryRoom (h : Heap) (m : Memory) (t : LhatTable) : Option Outcome :=
  if t.entryCount + t.entryTombs + 1 > t.entries.length - t.entries.length / 4 then
    growEntries h m t
  else some { ok := true, table := t, memory := m }

/-- A slot that held no key given one: one tombstone fewer if it was one. -/
def LhatTable.put (t : LhatTable) (i : Nat) (key value : LhatValue) : LhatTable :=
  { t with
    entries := t.entries.set i { key, value }
    entryTombs := if (t.entryAt i).value.isNil then t.entryTombs else t.entryTombs - 1
    entryCount := t.entryCount + 1
    version := t.version + 1 }

/-- A slot that held the key written over. -/
def LhatTable.overwrite (t : LhatTable) (i : Nat) (key value : LhatValue) : LhatTable :=
  { t with entries := t.entries.set i { key, value } }

/-- `lhat_table_reserve`. -/
def lhatTableReserve (h : Heap) (m : Memory) (t : LhatTable) (key : LhatValue) : Option Outcome :=
  if usableKey key = false then some { ok := true, table := t, memory := m }
  else
    let key := normaliseKey key
    if (arrayIndex t key).isSome then some { ok := true, table := t, memory := m }
    else do
      let held ← if t.entries.isEmpty then some false
        else (probe h t.entries key (hashKey h key)).map fun i => !(t.entryAt i).key.isNil
      if held then return { ok := true, table := t, memory := m }
      let room ← makeEntryRoom h m t
      if room.ok then
        let i ← probe h room.table.entries key (hashKey h key)
        return { room with table := room.table.put i key .nil }
      else return room

/-- The value of an entry taken away, its key left. -/
def LhatTable.vacateAt (t : LhatTable) (i : Nat) : LhatTable :=
  { t with entries := t.entries.set i { t.entryAt i with value := .nil } }

/-- `lhat_table_vacate`. -/
def lhatTableVacate (h : Heap) (t : LhatTable) (key : LhatValue) : Option LhatTable :=
  if usableKey key = false ∨ t.entries.isEmpty then some t
  else
    let key := normaliseKey key
    (probe h t.entries key (hashKey h key)).map fun i =>
      if (t.entryAt i).key.isNil then t else t.vacateAt i

/-- `lhat_table_reserved`. -/
def lhatTableReserved (h : Heap) (t : LhatTable) (key : LhatValue) : Option Bool :=
  if usableKey key = false ∨ t.entries.isEmpty then some false
  else
    let key := normaliseKey key
    (probe h t.entries key (hashKey h key)).map fun i =>
      !(t.entryAt i).key.isNil && (t.entryAt i).value.isNil

/-- The slots of `lhat_table_prune_seats`, one after the other: a seat whose key
the definition answers goes. -/
def pruneFrom (h : Heap) (definition : LhatTable) : Nat → Nat → LhatTable → Option LhatTable
  | 0, _, t => some t
  | left + 1, i, t =>
    let entry := t.entryAt i
    if entry.key.isNil || !entry.value.isNil then pruneFrom h definition left (i + 1) t
    else
      match probe h definition.entries entry.key (hashKey h entry.key) with
      | none => none
      | some j =>
        let held := definition.entryAt j
        if !held.key.isNil && !held.value.isNil then
          pruneFrom h definition left (i + 1) (t.bury i)
        else pruneFrom h definition left (i + 1) t

/-- `lhat_table_prune_seats`. -/
def lhatTablePruneSeats (h : Heap) (proto definition : LhatTable) : Option LhatTable :=
  if definition.entries.isEmpty then some proto
  else pruneFrom h definition proto.entries.length 0 proto

/-- A box whose bytes may still change. -/
def isOpenBox (h : Heap) : LhatValue → Bool
  | .object o =>
    match h.object o with
    | some (.hostvalueBox box) => !box.isSealed
    | _ => false
  | _ => false

/-- The keys no write is made under. -/
def refusedKey (h : Heap) (key : LhatValue) : Bool := !usableKey key || isOpenBox h key

/-- The write of `lhat_table_set` past the dense half. -/
def setEntry (h : Heap) (m : Memory) (t : LhatTable) (key value : LhatValue) : Option Outcome :=
  if value.isNil then
    if t.entries.isEmpty then some { ok := true, table := t, memory := m }
    else
      (probe h t.entries key (hashKey h key)).map fun i =>
        { ok := true
          table := if (t.entryAt i).key.isNil then t else (t.bury i).touch
          memory := m }
  else do
    let room ← makeEntryRoom h m t
    if room.ok then
      let i ← probe h room.table.entries key (hashKey h key)
      return { room with
        table :=
          if (room.table.entryAt i).key.isNil then room.table.put i key value
          else room.table.overwrite i key value }
    else return room

/-- Whether the key is the next one along the dense half. -/
def namesNext (t : LhatTable) : LhatValue → Bool
  | .integer i => i.toUInt64 == UInt64.ofNat t.array.length
  | _ => false

/-- `lhat_table_set`. -/
def lhatTableSet (h : Heap) (m : Memory) (t : LhatTable) (key value : LhatValue) :
    Option Outcome :=
  if refusedKey h key then some { ok := true, table := t, memory := m, refused := true }
  else
    let key := normaliseKey key
    match arrayIndex t key with
    | some index => some { ok := true, table := { t with array := t.array.set index value }, memory := m }
    | none =>
      if namesNext t key then
        let room := makeRoom m t
        if room.ok then
          (drainIntoArray h room.memory (room.table.append value)).map fun (table, memory) =>
            { ok := true, table, memory }
        else some room
      else setEntry h m t key value

/-! ### Making one -/

/-- `lhat_table_new`. -/
def lhatTableNew : LhatTable := {}

/-- The capacity `lhat_table_new_reserved` looks for. -/
def reservedCapacity (need : Nat) : Nat → Nat → Option Nat
  | 0, _ => none
  | fuel + 1, capacity =>
    if capacity - capacity / 4 < need then
      if (2 ^ 64 - 1) / 2 < capacity then none else reservedCapacity need fuel (capacity * 2)
    else some capacity

/-- `lhat_table_new_reserved`: no table where memory or the capacity runs out. -/
def lhatTableNewReserved (m : Memory) (hashEntries : Nat) : Option LhatTable :=
  if hashEntries = 0 then if m.granted tableSize then some lhatTableNew else none
  else
    match reservedCapacity hashEntries 64 4 with
    | none => none
    | some capacity =>
      if (2 ^ 64 - 1 - tableSize) / entrySize < capacity then none
      else if m.granted (tableSize + capacity * entrySize) then
        some { entries := List.replicate capacity {} }
      else none

end Lhat
