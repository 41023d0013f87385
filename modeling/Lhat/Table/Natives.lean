import Lhat.Table.Basic

/-!
# The operations of a table

`vm_set_key` is the one door of the machine's writes into a table: a table of the
program is not written, and a field that a definition declared goes back to its
seat. The operations of a table write through it or over the dense half in place.
A loop that writes is `writeEach`, one turn after the other until memory runs out.

The arguments are a list, and a count that does not match is an arity.
-/

namespace Lhat

/-- What a write reads of the machine: the name definitions keep their prototype
under, and what `lhat_string_equal` makes of an object that is no string. -/
structure Machine where
  selfKey : Address
  misread : Address → Address → Bool

/-- Every table there is, and the allocator. -/
structure TableState where
  store : Store
  memory : Memory

def TableState.write (st : TableState) (a : Address) (t : LhatTable) : TableState :=
  { st with store := st.store.write a t }

/-- `LhatRunStatus`. -/
inductive LhatRunStatus where
  | ok | typeError | badStep | notCallable | arity | stackOverflow | outOfMemory | badKey | badFormat
  | deadCoroutine | yieldOutside | noCandidate | coroutineNotStarted | coroutineAlreadyStarted
  | costate | sealed | mutableDefault | noSuchUnit | tupleArity | tupleUnexpected | panic | suspended
deriving DecidableEq, Repr

/-- What a write leaves, and whether it was refused. -/
structure Wrote where
  ok : Bool
  refused : Bool := false
  state : TableState

/-- `vm_table_of`, `NULL` where a value stands for no table. -/
def vmTableOf (h : Heap) : LhatValue → Address
  | .object o =>
    match h.object o with
    | some .table => o
    | some (.error fields) => fields
    | some (.enum members) => members
    | _ => 0
  | _ => 0

/-- Whether the prototype of a table's definition keeps a seat for a key that `nil`
is written under. -/
def declaresSeat (h : Heap) (mc : Machine) (s : Store) (t : LhatTable) (key value : LhatValue) :
    Option Bool :=
  if value.isNil = false ∨ t.definition = 0 then some false
  else do
    let proto := vmTableOf h (← lhatTableGet h s t.definition (.object mc.selfKey))
    if proto = 0 then some false else lhatTableReserved h (← s.table proto) key

/-- `vm_set_key`. -/
def vmSetKey (h : Heap) (mc : Machine) (st : TableState) (table : Address)
    (key value : LhatValue) : Option Wrote := do
  let t ← st.store.table table
  if t.shared then some { ok := true, refused := true, state := st }
  else
    let seat ← declaresSeat h mc st.store t key value
    if seat then
      let left ← lhatTableVacate h t key
      some { ok := true, state := st.write table left }
    else
      let made ← lhatTableSet h st.memory t key value
      some {
        ok := made.ok
        refused := made.refused
        state := { store := st.store.write table made.table, memory := made.memory } }

section Loops

variable {ι : Type*}

/-- A loop that writes into a table. A turn answers what is written in it, if
anything. -/
def writeEach (h : Heap) (mc : Machine) (table : Address)
    (turn : TableState → ι → Option (Option (LhatValue × LhatValue))) :
    List ι → TableState → Option (Bool × TableState)
  | [], st => some (true, st)
  | i :: rest, st =>
    match turn st i with
    | none => none
    | some none => writeEach h mc table turn rest st
    | some (some (key, value)) =>
      match vmSetKey h mc st table key value with
      | none => none
      | some wrote =>
        if wrote.ok then writeEach h mc table turn rest wrote.state
        else some (false, wrote.state)

end Loops

/-- `lhat_slots_get` on the dense half. -/
def LhatTable.slot (t : LhatTable) (i : Nat) : LhatValue := t.array.getD i .nil

def LhatRunStatus.ofWritten (ok : Bool) : LhatRunStatus := if ok then .ok else .outOfMemory

/-! ### Ordinals -/

/-- `vm_ordinal_of`. -/
def vmOrdinalOf : LhatValue → Option Int64
  | .integer i => some i
  | .real d =>
    if (Binary64.ofInt (-9000000000000000)).lt d && d.lt (Binary64.ofInt 9000000000000000) then
      some (Int64.ofInt d.floorAddHalf)
    else none
  | _ => none

/-- `vm_resolve_ordinal`. -/
def vmResolveOrdinal (written : Int64) (count : Nat) : Int64 :=
  if written < 0 then Int64.ofNat count + written else written

/-! ### The sequence -/

/-- The positions above a slot moved up by one, and the value written there. -/
def insertAt (h : Heap) (mc : Machine) (st : TableState) (table : Address) (n at_ : Nat)
    (value : LhatValue) : Option (LhatRunStatus × TableState) := do
  let (ok, st) ← writeEach h mc table
    (fun st k => do
      let t ← st.store.table table
      some (some (.integer (Int64.ofNat (k + 1)), t.slot k)))
    (List.range' at_ (n - at_)).reverse st
  if ok then
    let wrote ← vmSetKey h mc st table (.integer (Int64.ofNat at_)) value
    some (.ofWritten wrote.ok, wrote.state)
  else some (.outOfMemory, st)

/-- `LHAT_NATIVE_INSERT`. -/
def tableInsert (h : Heap) (mc : Machine) (st : TableState) (table : Address) (t : LhatTable) :
    List LhatValue → Option (LhatRunStatus × TableState)
  | [ordinal, value] =>
    match vmOrdinalOf ordinal with
    | none => some (.typeError, st)
    | some written =>
      let n := t.array.length
      let atPos := vmResolveOrdinal written (n + 1)
      if atPos < 0 ∨ Int64.ofNat n < atPos then some (.badKey, st)
      else insertAt h mc st table n atPos.toNatClampNeg value
  | _ => some (.arity, st)

/-- `LHAT_NATIVE_PUSH`. -/
def tablePush (h : Heap) (mc : Machine) (st : TableState) (table : Address) (t : LhatTable) :
    List LhatValue → Option (LhatRunStatus × TableState)
  | [value] =>
    (vmSetKey h mc st table (.integer (Int64.ofNat t.array.length)) value).map fun wrote =>
      (.ofWritten wrote.ok, wrote.state)
  | _ => some (.arity, st)

/-- `LHAT_NATIVE_EXTEND`: the counts are read once. -/
def tableExtend (h : Heap) (mc : Machine) (st : TableState) (table : Address) (t : LhatTable) :
    List LhatValue → Option (LhatRunStatus × TableState)
  | [.object more] =>
    match h.object more with
    | some .table => do
      let held ← st.store.table more
      let (ok, st) ← writeEach h mc table
        (fun st i => do
          let source ← st.store.table more
          some (some (.integer (Int64.ofNat (t.array.length + i)), source.slot i)))
        (List.range held.array.length) st
      some (.ofWritten ok, st)
    | _ => some (.typeError, st)
  | [_] => some (.typeError, st)
  | _ => some (.arity, st)

/-- Every slot from one on takes what stands in the next, up to another. -/
def shiftDown (array : List LhatValue) (first last : Nat) : List LhatValue :=
  (List.range' first (last - first)).foldl (fun a k => a.set k (a.getD (k + 1) .nil)) array

/-- Every slot down to one takes what stands in the one before, from another. -/
def shiftUp (array : List LhatValue) (first last : Nat) : List LhatValue :=
  (List.range' (first + 1) (last - first)).reverse.foldl
    (fun a k => a.set k (a.getD (k - 1) .nil)) array

/-- What `LHAT_NATIVE_REMOVE` and `LHAT_NATIVE_POP` do with a position. Whether the
sequence could be shortened is not asked. -/
def removeAt (h : Heap) (st : TableState) (table : Address) (t : LhatTable) (atPos : Int64) :
    Option (LhatValue × TableState) :=
  let n := t.array.length
  if atPos < 0 ∨ Int64.ofNat n ≤ atPos then some (.nil, st)
  else
    let at_ := atPos.toNatClampNeg
    (lhatTableResize h st.memory { t with array := shiftDown t.array at_ (n - 1) } (n - 1) .nil).map
      fun made =>
        (t.slot at_, { store := st.store.write table made.table, memory := made.memory })

/-- `LHAT_NATIVE_REMOVE`. -/
def tableRemove (h : Heap) (st : TableState) (table : Address) (t : LhatTable) :
    List LhatValue → Option (LhatRunStatus × LhatValue × TableState)
  | [ordinal] =>
    match vmOrdinalOf ordinal with
    | none => some (.typeError, .object table, st)
    | some written =>
      (removeAt h st table t (vmResolveOrdinal written t.array.length)).map fun removed =>
        (.ok, removed)
  | _ => some (.arity, .object table, st)

/-- `LHAT_NATIVE_POP`. -/
def tablePop (h : Heap) (st : TableState) (table : Address) (t : LhatTable) :
    List LhatValue → Option (LhatRunStatus × LhatValue × TableState)
  | [] =>
    (removeAt h st table t (Int64.ofNat t.array.length - 1)).map fun removed => (.ok, removed)
  | _ => some (.arity, .object table, st)

/-- `LHAT_NATIVE_REVERSE`. -/
def tableReverse (st : TableState) (table : Address) (t : LhatTable) :
    List LhatValue → Option (LhatRunStatus × TableState)
  | [] =>
    let n := t.array.length
    let turned := (List.range (n / 2)).foldl
      (fun a i => (a.set i (a.getD (n - 1 - i) .nil)).set (n - 1 - i) (a.getD i .nil)) t.array
    some (.ok, st.write table { t with array := turned })
  | _ => some (.arity, st)

/-- `LHAT_NATIVE_RESIZE`. -/
def tableResize (h : Heap) (st : TableState) (table : Address) (t : LhatTable)
    (args : List LhatValue) : Option (LhatRunStatus × TableState) :=
  match args with
  | ordinal :: rest =>
    if 1 < rest.length then some (.arity, st)
    else
      match vmOrdinalOf ordinal with
      | none => some (.typeError, st)
      | some length =>
        if length < 0 then some (.badKey, st)
        else
          (lhatTableResize h st.memory t length.toNatClampNeg (rest.headD .nil)).map fun made =>
            (.ofWritten made.ok,
              { store := st.store.write table made.table, memory := made.memory })
  | [] => some (.arity, st)

/-- `LHAT_NATIVE_CLEAR`. What it counts of tombstones is left. -/
def tableClear (st : TableState) (table : Address) (t : LhatTable) :
    List LhatValue → Option (LhatRunStatus × TableState)
  | [] =>
    some (.ok, st.write table
      { t with array := [], entries := t.entries.map fun _ => {}, entryCount := 0 })
  | _ => some (.arity, st)

/-! ### Moving -/

/-- `table_blockmove`: backwards where the block would run over itself. Positions
wrap as the machine's integers do. -/
def tableBlockmove (h : Heap) (mc : Machine) (st : TableState) (dst src : Address)
    (start last dest : Int64) : Option (LhatRunStatus × TableState) :=
  if last < start then some (.ok, st)
  else
    let turns := List.range ((last - start).toNatClampNeg + 1)
    (writeEach h mc dst
      (fun st k => do
        let value ← lhatTableGet h st.store src (.integer (start + Int64.ofNat k))
        some (some (.integer (dest + Int64.ofNat k), value)))
      (if dst = src ∧ start < dest then turns.reverse else turns) st).map fun (ok, st) =>
        (.ofWritten ok, st)

/-- The two-ordinal form of `LHAT_NATIVE_MOVE` on the table itself. -/
def relocate (array : List LhatValue) (start dest : Nat) : List LhatValue :=
  (if start < dest then shiftDown array start dest else shiftUp array dest start).set dest
    (array.getD start .nil)

/-- `LHAT_NATIVE_MOVE` past its arguments. -/
def moveOrdinals (h : Heap) (mc : Machine) (st : TableState) (table : Address) (t : LhatTable)
    (cross : Option Address) (start : Int64) (block : Option Int64) (dest : Int64) :
    Option (LhatRunStatus × TableState) := do
  let n := t.array.length
  let last := block.getD start
  if cross.isNone ∧ block.isNone then
    if start < 0 ∨ Int64.ofNat n ≤ start ∨ dest < 0 ∨ Int64.ofNat n ≤ dest then some (.badKey, st)
    else
      some (.ok, st.write table
        { t with array := relocate t.array start.toNatClampNeg dest.toNatClampNeg })
  else
    let source := cross.getD table
    let held ← st.store.table source
    if start ≤ last ∧ (start < 0 ∨ Int64.ofNat held.array.length ≤ last ∨ dest < 0) then
      some (.badKey, st)
    else tableBlockmove h mc st table source start last dest

/-- `LHAT_NATIVE_MOVE`. A table that comes first is where the elements come from. -/
def tableMove (h : Heap) (mc : Machine) (st : TableState) (table : Address) (t : LhatTable)
    (args : List LhatValue) : Option (LhatRunStatus × TableState) :=
  let cross := match args with
    | .object o :: _ =>
      match h.object o with
      | some .table => some o
      | _ => none
    | _ => none
  match if cross.isSome then args.tail else args with
  | [start, dest] =>
    match vmOrdinalOf start, vmOrdinalOf dest with
    | some start, some dest => moveOrdinals h mc st table t cross start none dest
    | _, _ => some (.typeError, st)
  | [start, last, dest] =>
    match vmOrdinalOf start, vmOrdinalOf last, vmOrdinalOf dest with
    | some start, some last, some dest => moveOrdinals h mc st table t cross start (some last) dest
    | _, _, _ => some (.typeError, st)
  | _ => some (.arity, st)

/-! ### Assigning -/

/-- Whether two slots hold keys of one spelling. The object beside a string is
read as one whatever it is. -/
def keysAlike (h : Heap) (mc : Machine) : LhatValue → LhatValue → Bool
  | .object o, b =>
    match b with
    | .object p =>
      match h.object o, h.object p with
      | some (.string s), some (.string t) => o == p || lhatStringEqual s t
      | some (.string _), _ => mc.misread o p
      | _, _ => o == p
    | _ => false
  | a, b => decide (a = b)

/-- The keyed halves stand slot for slot alike. -/
def entriesAlike (h : Heap) (mc : Machine) (dest source : LhatTable) : Bool :=
  dest.entries.length == source.entries.length && dest.array.length == source.array.length &&
    !dest.shared && (dest.entries.zip source.entries).all fun (mine, theirs) =>
      keysAlike h mc mine.key theirs.key

/-- Each value written over where it stands. -/
def LhatTable.overlay (dest source : LhatTable) : LhatTable :=
  { dest with
    entries := (dest.entries.zip source.entries).map fun (mine, theirs) =>
      if mine.key.isNil then mine else { mine with value := theirs.value }
    array := source.array }

/-- The keys that the source lacks go. -/
def dropAbsent (h : Heap) (dest source : Address) (st : TableState) (i : Nat) :
    Option (Option (LhatValue × LhatValue)) := do
  let t ← st.store.table dest
  let entry := t.entryAt i
  if entry.key.isNil || entry.value.isNil then some none
  else
    let held ← lhatTableGet h st.store source entry.key
    some (if held.isNil then some (entry.key, .nil) else none)

def takePosition (source : Address) (st : TableState) (i : Nat) :
    Option (Option (LhatValue × LhatValue)) := do
  let t ← st.store.table source
  some (some (.integer (Int64.ofNat i), t.slot i))

def takeKey (source : Address) (st : TableState) (i : Nat) :
    Option (Option (LhatValue × LhatValue)) := do
  let t ← st.store.table source
  let entry := t.entryAt i
  some (if entry.key.isNil then none else some (entry.key, entry.value))

/-- A sequence that is longer is cut. -/
def cutSequence (h : Heap) (m : Memory) (t : LhatTable) (length : Nat) : Option Outcome :=
  if length < t.array.length then lhatTableResize h m t length .nil
  else some { ok := true, table := t, memory := m }

/-- `table_assign` where the halves do not stand alike. -/
def assignKeys (h : Heap) (mc : Machine) (st : TableState) (dest source : Address)
    (mine theirs : LhatTable) : Option (LhatRunStatus × TableState) := do
  let (ok, st) ← writeEach h mc dest (dropAbsent h dest source) (List.range mine.entries.length) st
  if ok then
    let t ← st.store.table dest
    let cut ← cutSequence h st.memory t theirs.array.length
    let st := { store := st.store.write dest cut.table, memory := cut.memory }
    if cut.ok then
      let (ok, st) ← writeEach h mc dest (takePosition source) (List.range theirs.array.length) st
      if ok then
        let (ok, st) ← writeEach h mc dest (takeKey source) (List.range theirs.entries.length) st
        some (.ofWritten ok, st)
      else some (.outOfMemory, st)
    else some (.outOfMemory, st)
  else some (.outOfMemory, st)

/-- `table_assign`. -/
def tableAssign (h : Heap) (mc : Machine) (st : TableState) (dest source : Address) :
    Option (LhatRunStatus × TableState) :=
  if dest = source then some (.ok, st)
  else do
    let mine ← st.store.table dest
    let theirs ← st.store.table source
    if entriesAlike h mc mine theirs then some (.ok, st.write dest (mine.overlay theirs))
    else assignKeys h mc st dest source mine theirs

/-! ### The one door -/

/-- `LHAT_NATIVE_INSERT` and those after it, as far as they change a table. -/
inductive TableNative where
  | insert | push | extend | remove | pop | move | reverse | resize | clear | assign
deriving DecidableEq, Repr

/-- `LHAT_NATIVE_ASSIGN`. -/
def tableAssignNative (h : Heap) (mc : Machine) (st : TableState) (table : Address) :
    List LhatValue → Option (LhatRunStatus × TableState)
  | [.object source] =>
    match h.object source with
    | some .table => tableAssign h mc st table source
    | _ => some (.typeError, st)
  | [_] => some (.typeError, st)
  | _ => some (.arity, st)

/-- What an operation answers, and what it leaves. -/
structure Answered where
  status : LhatRunStatus
  answer : LhatValue
  state : TableState

/-- `vm_table_native`. The receiver is the answer, for chaining, unless a position
is removed. -/
def vmTableNative (h : Heap) (mc : Machine) (st : TableState) (native : TableNative)
    (table : Address) (args : List LhatValue) : Option Answered := do
  let t ← st.store.table table
  let chained (ran : LhatRunStatus × TableState) : Answered :=
    { status := ran.1, answer := .object table, state := ran.2 }
  let removed (ran : LhatRunStatus × LhatValue × TableState) : Answered :=
    { status := ran.1, answer := ran.2.1, state := ran.2.2 }
  if t.isSealed then some (chained (.sealed, st))
  else
    match native with
    | .insert => (tableInsert h mc st table t args).map chained
    | .push => (tablePush h mc st table t args).map chained
    | .extend => (tableExtend h mc st table t args).map chained
    | .remove => (tableRemove h st table t args).map removed
    | .pop => (tablePop h st table t args).map removed
    | .move => (tableMove h mc st table t args).map chained
    | .reverse => (tableReverse st table t args).map chained
    | .resize => (tableResize h st table t args).map chained
    | .clear => (tableClear st table t args).map chained
    | .assign => (tableAssignNative h mc st table args).map chained

end Lhat
