import Lhat.Foundation.Binary64
import Lhat.Lexing.Token

/-!
# Reading JSON

The walk that reads a text. It is given in what is left of the text, and what it makes
is a tree (`Parsed`); the tables are made of the tree afterwards. What is asked of memory
is granted. How deep the walk may go is what the recursion goes down by, and a loop takes
at least a byte every turn.
-/

namespace Lhat.Json

open Lexing (Text ascii isDecimalDigit)

/-- The kinds of `JsonModule`. -/
inductive JsonError
  | badText | unsupported | tooDeep | outOfMemory
deriving DecidableEq, Repr

inductive Parsed
  | null
  | bool (b : Bool)
  | integer (i : Int64)
  | real (d : Binary64)
  | string (bytes : Text)
  | array (elements : List Parsed)
  | object (members : List (Text × Parsed))

/-- Why a text is turned away. -/
abbrev Failure := JsonError × String

def reject {α : Type} (kind : JsonError) (why : String) : Except Failure α := .error (kind, why)

def jsonMaxDepth : Nat := 96

/-! ## Characters -/

/-- `utf8_step`: how long the sequence is that stands here, or zero where none does. -/
def utf8Step (s : Text) : Nat :=
  if s.headD 0 < 0x80 then 1
  else match Lexing.lead (s.headD 0) with
    | none => 0
    | some (length, bits) =>
      if s.length < length then 0
      else match Lexing.continuation bits ((s.drop 1).take (length - 1)) with
        | none => 0
        | some code =>
          if length = 2 ∧ code < 0x80 ∨ length = 3 ∧ code < 0x800 ∨
              length = 4 ∧ code < 0x10000 then 0
          else if 0x10FFFF < code ∨ 0xD800 ≤ code ∧ code ≤ 0xDFFF then 0
          else length

/-- `utf8_put`. -/
def utf8Put (code : UInt32) : Text := Lexing.encodeUtf8 code

def isSpace (c : UInt8) : Bool := c == 32 || c == 9 || c == 10 || c == 13

/-- `skip_space`. -/
def skipSpace (s : Text) : Text := s.dropWhile isSpace

def hexDigit (c : UInt8) : Option UInt32 :=
  if 48 ≤ c ∧ c ≤ 57 then some (c - 48).toUInt32
  else if 97 ≤ c ∧ c ≤ 102 then some ((c - 97).toUInt32 + 10)
  else if 65 ≤ c ∧ c ≤ 70 then some ((c - 65).toUInt32 + 10)
  else none

/-- The code that four digits spell. -/
def hexCode : List UInt8 → UInt32 → Option UInt32
  | [], code => some code
  | c :: rest, code => (hexDigit c).bind fun digit => hexCode rest ((code <<< 4) ||| digit)

/-- `read_hex4`. -/
def readHex4 (s : Text) : Except Failure (UInt32 × Text) :=
  if s.length < 4 then reject .badText "a \\u escape ran out"
  else match hexCode (s.take 4) 0 with
    | none => reject .badText "a \\u escape is not hex"
    | some code => .ok (code, s.drop 4)

/-! ## Strings -/

/-- The escapes that stand for one byte. -/
def plainEscape (escaped : UInt8) : Option UInt8 :=
  if escaped = 34 then some 34
  else if escaped = 92 then some 92
  else if escaped = 47 then some 47
  else if escaped = ascii 'b' then some 8
  else if escaped = ascii 'f' then some 12
  else if escaped = ascii 'n' then some 10
  else if escaped = ascii 'r' then some 13
  else if escaped = ascii 't' then some 9
  else none

def isHigh (code : UInt32) : Bool := 0xD800 ≤ code && code ≤ 0xDBFF

def isLow (code : UInt32) : Bool := 0xDC00 ≤ code && code ≤ 0xDFFF

/-- What follows `\u`. A high surrogate is joined with the low one that has to follow. -/
def readUnicode (s : Text) : Except Failure (Text × Text) := do
  let (code, s) ← readHex4 s
  if isHigh code then
    match s with
    | 92 :: 117 :: s => do
      let (low, s) ← readHex4 s
      if isLow low then
        .ok (utf8Put ((0x10000 : UInt32) + ((code - 0xD800) <<< 10) + (low - 0xDC00)), s)
      else reject .badText "a high surrogate with no low one"
    | _ => reject .badText "a high surrogate with no low one"
  else if isLow code then reject .badText "a low surrogate alone"
  else .ok (utf8Put code, s)

/-- A turn of the loop of `read_string_text`, where no quote stands. -/
def readCharacter (s : Text) : Except Failure (Text × Text) :=
  if s.headD 0 < 0x20 then reject .badText "a control byte inside a string"
  else if s.headD 0 ≠ 92 then
    if utf8Step s = 0 then reject .badText "a string that is not UTF-8"
    else .ok (s.take (utf8Step s), s.drop (utf8Step s))
  else
    match s.drop 1 with
    | [] => reject .badText "an escape ran out"
    | 117 :: s => readUnicode s
    | escaped :: s =>
      match plainEscape escaped with
      | none => reject .badText "an escape JSON does not have"
      | some plain => .ok ([plain], s)

/-- The loop of `read_string_text`. -/
def readCharacters : Nat → Text → Except Failure (Text × Text)
  | _, [] => reject .badText "a string with no end"
  | _, 34 :: s => .ok ([], s)
  | 0, _ => reject .badText "a string with no end"
  | turns + 1, s => do
    let (bytes, s) ← readCharacter s
    let (more, s) ← readCharacters turns s
    .ok (bytes ++ more, s)

/-- `read_string_text`, behind the opening quote. -/
def readStringText (s : Text) : Except Failure (Text × Text) := readCharacters s.length s

/-! ## Numbers -/

/-- What the C library makes of a number that is spelled, and how it spells one with so
many digits. -/
structure Numerals where
  strtod : Text → Binary64
  printed : Nat → Binary64 → Text

/-- A byte that is taken for part of a number. -/
def inNumber (previous c : UInt8) : Bool :=
  isDecimalDigit c || c == ascii '.' || c == ascii 'e' || c == ascii 'E' ||
    ((c == ascii '+' || c == ascii '-') && (previous == ascii 'e' || previous == ascii 'E'))

/-- The loop of `read_number`. -/
def numberRun : UInt8 → Text → Text
  | _, [] => []
  | previous, c :: rest => if inNumber previous c then c :: numberRun c rest else []

/-- All that is taken for a number here. -/
def numberText : Text → Text
  | [] => []
  | c :: rest => if c = ascii '-' then c :: numberRun c rest else numberRun 0 (c :: rest)

def isIntegral (run : Text) : Bool :=
  run.all fun c => !(c == ascii '.' || c == ascii 'e' || c == ascii 'E')

/-- Less a sign. -/
def unsigned (s : Text) : Text :=
  if s.head? = some (ascii '-') ∨ s.head? = some (ascii '+') then s.tail else s

/-- `strtoll`, but for what it does out of range: what it reads, and where it stops. -/
def strtoll (s : Text) : Int × Text :=
  let digits := (unsigned s).takeWhile isDecimalDigit
  if digits = [] then (0, s)
  else
    let value : Int := Lexing.digitsValue 10 digits
    (if s.head? = some (ascii '-') then -value else value, (unsigned s).dropWhile isDecimalDigit)

/-- Behind the exponent, where one is written. -/
def behindExponent : Text → Text
  | [] => []
  | c :: s =>
    if (c = ascii 'e' ∨ c = ascii 'E') ∧ (unsigned s).takeWhile isDecimalDigit ≠ [] then
      (unsigned s).dropWhile isDecimalDigit
    else c :: s

/-- Where `strtod` stops. -/
def strtodStop (s : Text) : Text :=
  let whole := (unsigned s).takeWhile isDecimalDigit
  let behind := (unsigned s).dropWhile isDecimalDigit
  let pointed := behind.head? = some (ascii '.')
  let fraction := if pointed then behind.tail.takeWhile isDecimalDigit else []
  if whole = [] ∧ fraction = [] then s
  else behindExponent (if pointed then behind.tail.dropWhile isDecimalDigit else behind)

/-- What a number is read as. -/
def numberValue (c : Numerals) (run : Text) : Parsed :=
  if isIntegral run ∧ (strtoll run).2 = [] ∧ -2 ^ 63 ≤ (strtoll run).1 ∧ (strtoll run).1 < 2 ^ 63 then
    .integer (Int64.ofInt (strtoll run).1)
  else .real (c.strtod run)

/-- `read_number`. -/
def readNumber (c : Numerals) (s : Text) : Except Failure (Parsed × Text) :=
  let run := numberText s
  let rest := s.drop run.length
  if run = [] then reject .badText "a value JSON has no shape for"
  else if 64 ≤ run.length then reject .badText "a number too long to read"
  else if isIntegral run ∧ (strtoll run).2 = [] ∧ -2 ^ 63 ≤ (strtoll run).1 ∧
      (strtoll run).1 < 2 ^ 63 then
    .ok (.integer (Int64.ofInt (strtoll run).1), rest)
  else if strtodStop run = run ∨ strtodStop run ≠ [] then
    reject .badText "a number JSON has no shape for"
  else .ok (.real (c.strtod run), rest)

/-! ## Values -/

section Below

variable {α : Type}

/-- The loops of `read_array` and `read_object`: what stands between commas, up to the
closing byte. -/
def readItems (item : Text → Except Failure (α × Text)) (close : UInt8) (unended : String) :
    Nat → Text → Except Failure (List α × Text)
  | 0, _ => reject .badText unended
  | turns + 1, s => do
    let (held, s) ← item s
    match skipSpace s with
    | [] => reject .badText unended
    | c :: s =>
      if c = 44 then do
        let (more, s) ← readItems item close unended turns (skipSpace s)
        .ok (held :: more, s)
      else if c = close then .ok ([held], s)
      else reject .badText unended

/-- Behind the opening byte. -/
def readBracketed (item : Text → Except Failure (α × Text)) (close : UInt8) (unended : String)
    (s : Text) : Except Failure (List α × Text) :=
  if (skipSpace s).head? = some close then .ok ([], (skipSpace s).tail)
  else readItems item close unended (s.length + 1) (skipSpace s)

variable (inner : Text → Except Failure (Parsed × Text))

/-- `read_array`, behind the bracket. -/
def readArray (s : Text) : Except Failure (Parsed × Text) :=
  (readBracketed inner 93 "an array with no end" s).map fun (elements, s) => (.array elements, s)

/-- A member of an object. -/
def readMember (s : Text) : Except Failure ((Text × Parsed) × Text) :=
  match s with
  | 34 :: s => do
    let (key, s) ← readStringText s
    match skipSpace s with
    | 58 :: s => do
      let (held, s) ← inner s
      .ok ((key, held), s)
    | _ => reject .badText "a key with no value"
  | _ => reject .badText "a key that is not a string"

/-- `read_object`, behind the brace. -/
def readObject (s : Text) : Except Failure (Parsed × Text) :=
  (readBracketed (readMember inner) 125 "an object with no end" s).map
    fun (members, s) => (.object members, s)

end Below

/-- The words of JSON. -/
def words : List (Text × Parsed) :=
  [(Lexing.text "true", .bool true), (Lexing.text "false", .bool false), (Lexing.text "null", .null)]

/-- `word_is`, for each of the words in turn. -/
def readWord (s : Text) : Option (Parsed × Text) :=
  (words.find? fun word => word.1.isPrefixOf s).map fun word => (word.2, s.drop word.1.length)

/-- `read_value`, with so many levels left. -/
def readValue (c : Numerals) : Nat → Text → Except Failure (Parsed × Text)
  | 0, _ => reject .tooDeep "nested too deep"
  | left + 1, s =>
    match skipSpace s with
    | [] => reject .badText "the text ran out"
    | 123 :: s => readObject (readValue c left) s
    | 91 :: s => readArray (readValue c left) s
    | 34 :: s => (readStringText s).map fun (bytes, s) => (.string bytes, s)
    | s =>
      match readWord s with
      | some read => .ok read
      | none => readNumber c s

theorem readValue_zero (c : Numerals) (s : Text) :
    readValue c 0 s = reject .tooDeep "nested too deep" := by
  rw [readValue]

/-- `json_decode`, of a text. -/
def jsonDecode (c : Numerals) (text : Text) : Except Failure Parsed := do
  let s := skipSpace text
  if s.head? ≠ some 123 ∧ s.head? ≠ some 91 then
    .error (.badText, "the top of the text is not an object or an array")
  else
    let (made, s) ← readValue c jsonMaxDepth s
    if skipSpace s ≠ [] then .error (.badText, "more text after the value") else .ok made

end Lhat.Json
