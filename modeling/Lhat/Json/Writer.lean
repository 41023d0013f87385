import Lhat.Json.Reader
import Lhat.Lton.Basic

/-!
# Writing JSON

The text of a table: an array where there is a sequence and nothing beside it, and an
object of the members in the order of their keys otherwise. The order is the C library's
`qsort` by `by_key`, which is a parameter. What is asked of memory is granted.
-/

namespace Lhat.Json

open Lexing (Text ascii)

/-! ## Strings -/

/-- What is escaped with a letter. -/
def escapeOf (c : UInt8) : Option Text :=
  if c = 34 then some [92, 34]
  else if c = 92 then some [92, 92]
  else if c = 8 then some [92, ascii 'b']
  else if c = 12 then some [92, ascii 'f']
  else if c = 10 then some [92, ascii 'n']
  else if c = 13 then some [92, ascii 'r']
  else if c = 9 then some [92, ascii 't']
  else none

/-- A digit of `%x`. -/
def hexOf (n : Nat) : UInt8 := if n < 10 then 48 + n.toUInt8 else 87 + n.toUInt8

/-- `"\\u%04x"`, of a byte. -/
def unicodeOf (c : UInt8) : Text := [92, 117, 48, 48, hexOf (c.toNat / 16), hexOf (c.toNat % 16)]

/-- A turn of the loop of `write_string`: what is written, and how many bytes are behind. -/
def writeCharacter (s : Text) : Except Failure (Text × Nat) :=
  match escapeOf (s.headD 0) with
  | some escape => .ok (escape, 1)
  | none =>
    if s.headD 0 < 0x20 then .ok (unicodeOf (s.headD 0), 1)
    else if utf8Step s = 0 then reject .unsupported "a string that is not UTF-8"
    else .ok (s.take (utf8Step s), utf8Step s)

/-- The loop of `write_string`. -/
def writeCharacters : Nat → Text → Except Failure Text
  | _, [] => .ok []
  | 0, _ => .ok []
  | turns + 1, s => do
    let (written, step) ← writeCharacter s
    return written ++ (← writeCharacters turns (s.drop step))

/-- `write_string`. -/
def writeString (s : Text) : Except Failure Text :=
  (writeCharacters s.length s).map fun written => 34 :: (written ++ [34])

/-! ## Numbers -/

/-- `"%lld"`. -/
def writeInteger (i : Int64) : Text := Lton.signed (decide (i < 0)) (Lton.decimal i.toInt.natAbs)

/-- `write_real`. -/
def writeReal (c : Numerals) (d : Binary64) : Except Failure Text :=
  if d.isFinite = false then reject .unsupported "a real JSON has no spelling for"
  else if (c.strtod (c.printed 15 d)).eq d then .ok (c.printed 15 d)
  else .ok (c.printed 17 d)

/-! ## Members -/

/-- `Member`: a key and its value, and the name of the key. -/
structure Member where
  key : LhatValue
  value : LhatValue
  text : Text

/-- `by_key`: byte for byte, and the shorter first. -/
def byKey (a b : Member) : Ordering := Lton.compareString a.text b.text

/-- What stands between brackets. -/
def commas : List Text → Text
  | [] => []
  | [written] => written
  | written :: more => written ++ 44 :: commas more

section Writer

variable (c : Numerals) (qsort : List Member → List Member) (h : Heap) (store : Store)

/-- `name_key`. What is no key of an object has no name. -/
def nameKey (key value : LhatValue) : Member where
  key
  value
  text :=
    match key with
    | .object o =>
      match h.object o with
      | some (.string s) => s.text
      | _ => []
    | .integer i => writeInteger i
    | _ => []

/-- `write_key`. -/
def writeKey (key : LhatValue) : Except Failure Text :=
  match key with
  | .object o =>
    match h.object o with
    | some (.string s) => writeString s.text
    | _ => reject .unsupported "a key that is not a string or an integer"
  | .integer i => .ok (34 :: (writeInteger i ++ [34]))
  | _ => reject .unsupported "a key that is not a string or an integer"

/-- The members of a table: the sequence under its positions, then the entries. -/
def members (t : LhatTable) : List Member :=
  (t.array.zipIdx.map fun (value, i) => nameKey h (.integer (Int64.ofNat i)) value) ++
    (t.entries.filter fun entry => !entry.key.isNil).map fun entry => nameKey h entry.key entry.value

/-- The members in order. -/
def sortedMembers (t : LhatTable) : List Member :=
  if 1 < (members h t).length then qsort (members h t) else members h t

/-- A member of an object. -/
def writeMember (writeValue : LhatValue → Except Failure Text) (member : Member) :
    Except Failure Text := do
  let key ← writeKey h member.key
  let value ← writeValue member.value
  return key ++ 58 :: value

/-- `write_value`, with the `write_table` of the tables below. -/
def writeValue (writeTable : Address → Except Failure Text) (value : LhatValue) :
    Except Failure Text :=
  match value with
  | .nil => .ok (Lexing.text "null")
  | .bool b => .ok (if b then Lexing.text "true" else Lexing.text "false")
  | .integer i => .ok (writeInteger i)
  | .real d => writeReal c d
  | .object o =>
    match h.object o with
    | some (.string s) => writeString s.text
    | some .table => writeTable o
    | _ => reject .unsupported "a value JSON cannot carry"
  | _ => reject .unsupported "a value JSON cannot carry"

/-- `write_table`, with so many levels left. -/
def writeTable : Nat → Address → Except Failure Text
  | 0, _ => reject .tooDeep "nested too deep"
  | left + 1, o =>
    match store.table o with
    | none => reject .unsupported "a value JSON cannot carry"
    | some t =>
      if t.entryCount = 0 ∧ 0 < t.array.length then
        (t.array.mapM (writeValue c h (writeTable left))).map fun written =>
          91 :: (commas written ++ [93])
      else
        ((sortedMembers qsort h t).mapM (writeMember h (writeValue c h (writeTable left)))).map
          fun written => 123 :: (commas written ++ [125])

/-- `json_encode`. -/
def jsonEncode (value : LhatValue) : Except Failure Text :=
  writeValue c h (writeTable c qsort h store jsonMaxDepth) value

end Writer

end Lhat.Json
