import Lhat.Binary.Kinds

/-!
# Encoding and decoding

One cursor runs over the bits of a record. A value that does not fit its kind is the writer's
mistake and panics, with the field it stands in; what the bytes cannot say is answered as an
error.
-/

namespace Lhat.Binary

/-! ### One number -/

/-- The least number of so many bits. -/
def lowest (width : Nat) : Int := -2 ^ (width - 1)

/-- The number that is packed, or what is wrong with the value. -/
def Scalar.pack : Scalar → Value → Except Text Nat
  | uint _ span, .integer n =>
    let packed := n.toUInt64
    if n < 0 || span < packed then .error (text "does not fit uint") else .ok packed.toNat
  | range low span, .integer n =>
    let packed := n.toUInt64 - low.toUInt64
    if n < low || span < packed then .error (text "is out of range") else .ok packed.toNat
  | int width, .integer n =>
    if n.toInt < lowest width ∨ -lowest width - 1 < n.toInt then
      .error (text "does not fit int")
    else .ok n.toUInt64.toNat
  | bool, .bool b => .ok (if b then 1 else 0)
  | bool, _ => .error (text "is not a bool^")
  | fixed origin step span, value =>
    match value.number with
    | none => .error (text "is not a number^")
    | some x =>
      let steps := (x - origin) / step
      if !(-1 / 2 ≤ steps) || !(steps ≤ span.toNat + 1 / 2) then .error (text "is out of range")
      else
        let packed := UInt64.ofInt (llround steps)
        .ok (if span < packed then span else packed).toNat
  | enum owner, .enumerator member =>
    if member.owner ≠ owner then .error (text "is not a member of the enum^")
    else .ok (member.index - 1)
  | enum _, _ => .error (text "is not a member of the enum^")
  | _, _ => .error (text "is not an integer")

/-- The value a number stands for, where it stands for one. -/
def Scalar.unpack : Scalar → Nat → Option Value
  | uint _ span, packed =>
    if span.toNat < packed || 2 ^ 63 - 1 < packed then none
    else some (.integer (UInt64.ofNat packed).toInt64)
  | range low span, packed =>
    if span.toNat < packed then none
    else some (.integer (low.toUInt64 + UInt64.ofNat packed).toInt64)
  | int width, packed =>
    let signed := if width < 64 ∧ packed >>> (width - 1) ≠ 0 then packed ||| (2 ^ 64 - 1) <<< width
      else packed
    some (.integer (UInt64.ofNat signed).toInt64)
  | bool, packed => some (.bool (packed ≠ 0))
  | fixed origin step span, packed =>
    if span.toNat < packed then none else some (.real (origin + packed * step))
  | enum owner, packed =>
    if owner.count - 1 < packed then none else (owner.member packed).map .enumerator

/-! ### Encoding -/

/-- The bytes that are written, and the bit that is written next. -/
abbrev Written := List UInt8 × Nat

/-- Where a value sits: the field, and an array position under it when there is one. -/
structure Place where
  field : Option Text := none
  index : Option Nat := none

def refuse (place : Place) (why : Text) : Text :=
  let site := match place.field, place.index with
    | none, _ => text "the value"
    | some field, some i => printed 64 field ++ text "[" ++ text (toString i) ++ text "]"
    | some field, none => printed 64 field
  snprintf 256 [text "std.binary.encode: ", site, text " ", why]

/-- The turns of a loop over the positions from `i` on. -/
def eachItem {σ ε : Type} (step : Nat → σ → Except ε σ) : Nat → Nat → σ → Except ε σ
  | 0, _, s => .ok s
  | left + 1, i, s => do
    let s ← step i s
    eachItem step left (i + 1) s

mutual

def encodeKind (h : Heap) : Kind → Value → Place → Written → Except Text Written
  | .scalar s, value, place, (out, p) =>
    match s.pack value with
    | .error why => .error (refuse place why)
    | .ok packed => .ok (putBits out p packed s.width, p + s.width)
  | .array length element, value, place, w =>
    match value with
    | .table items =>
      eachItem (fun i w =>
        let inside := { place with index := some i }
        let item := h.get items (.position i)
        if item = .nil then .error (refuse inside (text "is missing"))
        else encodeKind h element item inside w) length 0 w
    | _ => .error (refuse place (text "is not a table"))
  | .format fields, value, place, w =>
    match value with
    | .table table => encodeFields h fields table w
    | _ => .error (refuse place (text "is not a table"))

def encodeFields (h : Heap) : Fields → Nat → Written → Except Text Written
  | .nil, _, w => .ok w
  | .cons name kind rest, table, w => do
    let inside : Place := { field := some name }
    let item := h.get table (.name name)
    let w ← (if item = .nil then .error (refuse inside (text "is missing"))
      else encodeKind h kind item inside w : Except Text Written)
    encodeFields h rest table w

end

/-- `encode_into`, with the cursor where it is left. -/
def encodeInto (h : Heap) (format : Kind) (value : Value) : Except Text Written :=
  encodeKind h format value {} (List.replicate format.size 0, 0)

/-- `format_encode`. A format that was disposed is `none`. -/
def formatEncode (h : Heap) (format : Option Kind) (value : Value) : Except Text (List UInt8) :=
  match format with
  | none => .error (text "std.binary: the format was disposed")
  | some format => (encodeInto h format value).map Prod.fst

/-! ### Decoding -/

/-- `Decoded`, when it is not. -/
inductive Failure where
  | malformed
  | noMemory
deriving DecidableEq

/-- The table that stood in the place is filled, and where none did one is made. -/
def refill (h : Heap) : Value → Nat × Heap
  | .table a => (a, h)
  | _ => h.make

/-- One turn of the loop over the parts: `decode` is handed what stands under the key. A write
to a shared table is refused. -/
def decodePart (decode : Heap × Nat → Value → Except Failure (Value × Heap × Nat)) (a : Nat)
    (key : Key) (s : Heap × Nat) : Except Failure (Heap × Nat) := do
  let (item, h, p) ← decode s (s.1.get a key)
  if (h.tables a).shared then .error .noMemory else .ok (h.set a key item, p)

mutual

def decodeKind (bytes : List UInt8) :
    Kind → Heap × Nat → Value → Except Failure (Value × Heap × Nat)
  | .scalar s, (h, p), _ =>
    match s.unpack (getBits bytes p s.width) with
    | none => .error .malformed
    | some value => .ok (value, h, p + s.width)
  | .array length element, (h, p), reuse => do
    let (a, h) := refill h reuse
    let (h, p) ←
      eachItem (fun i => decodePart (decodeKind bytes element) a (.position i)) length 0 (h, p)
    return (.table a, h, p)
  | .format fields, (h, p), reuse => do
    let (a, h) := refill h reuse
    let (h, p) ← decodeFields bytes fields a (h, p)
    return (.table a, h, p)

def decodeFields (bytes : List UInt8) : Fields → Nat → Heap × Nat → Except Failure (Heap × Nat)
  | .nil, _, s => .ok s
  | .cons name kind rest, a, s => do
    let s ← decodePart (decodeKind bytes kind) a (.name name) s
    decodeFields bytes rest a s

end

/-- What `decode` answers: the table and where the next record starts, or an error. -/
inductive Answer where
  | decoded (table : Value) (heap : Heap) (position : Int64)
  | truncated (message : Text)
  | malformed (message : Text)

/-- `decode`: from byte `start` on. A format or bytes that were disposed are `none`. -/
def decode (h : Heap) (format : Option Kind) (input : Option (List UInt8)) (start reuse : Value) :
    Except Text Answer :=
  match format, input with
  | some format, some data =>
    match start with
    | .integer n =>
      if n < 0 then .error (text "std.binary.decode: the start is not a whole number from 0")
      else
        let start := n.toInt.toNat
        if data.length < start || data.length - start < format.size then
          .ok (.truncated (text "shorter than the format"))
        else
          match decodeKind (data.drop start) format (h, 0) reuse with
          | .ok (table, h, _) => .ok (.decoded table h (Int64.ofNat (start + format.size)))
          | .error .malformed => .ok (.malformed (text "a number outside its kind"))
          | .error .noMemory => .error (text "out of memory")
    | _ => .error (text "std.binary.decode: the start is not a whole number from 0")
  | _, _ => .error (text "std.binary: the format or the bytes were disposed")

def formatDecode (h : Heap) (format : Option Kind) (input : Option (List UInt8)) (start : Value) :
    Except Text Answer :=
  decode h format input start .nil

def formatDecodeInto (h : Heap) (format : Option Kind) (input : Option (List UInt8))
    (start table : Value) : Except Text Answer :=
  match table.asTable with
  | none => .error (text "std.binary.decodeInto: expected a table")
  | some _ => decode h format input start table

theorem decode_ok {h h' : Heap} {k : Kind} {data : List UInt8} {start reuse table : Value}
    {position : Int64}
    (hdecode : decode h (some k) (some data) start reuse = .ok (.decoded table h' position)) :
    ∃ n : Int64, start = .integer n ∧ position = Int64.ofNat (n.toInt.toNat + k.size) ∧
      ∃ p, decodeKind (data.drop n.toInt.toNat) k (h, 0) reuse = .ok (table, h', p) := by
  simp only [decode] at hdecode
  split at hdecode
  · rename_i n
    split at hdecode
    · cases hdecode
    · split at hdecode
      · cases hdecode
      · split at hdecode
        · rename_i hread
          cases hdecode
          exact ⟨n, rfl, rfl, _, hread⟩
        · cases hdecode
        · cases hdecode
  · cases hdecode

end Lhat.Binary
