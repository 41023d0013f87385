import Lhat.Lton.Spelled

/-!
# Reading a table literal

The part of the grammar that data is written in: the entries of a table, positional, named or
keyed by an expression, and in them constants, numbers with their minus, differences in brackets,
and tables in braces. What is read is a tree, and the tree is put into a table entry by entry.
-/

namespace Lhat.Lton

open Lexing (Text ascii Spelled TokenKind OpKind)

/-- A literal. An entry that is not keyed takes the next position. -/
def Literal : Nat → Type
  | 0 => Scalar
  | n + 1 => Scalar ⊕ List (Option Scalar × Literal n)

/-! ### Expressions -/

namespace Scalar

/-- A minus in front. -/
def negated : Scalar → Option Scalar
  | integer i => some (integer (-i))
  | real d => some (real ⟨d.1.negate, by
    have hmag := Binary64.magnitudeBits_negate d.1
    have hd := d.2
    unfold Binary64.isFinite at hd ⊢
    rwa [hmag]⟩)
  | _ => none

/-- The difference of two integers. -/
def minus : Scalar → Scalar → Option Scalar
  | integer i, integer j => some (integer (i - j))
  | _, _ => none

end Scalar

section Grammar

variable (c : Printing)

/-- What a token stands for by itself. -/
def constant : Spelled → Option Scalar
  | (.hatIdent 1, bytes) =>
    if bytes = Lexing.text "nil^" then some .nil
    else if bytes = Lexing.text "true^" then some (.bool true)
    else if bytes = Lexing.text "false^" then some (.bool false)
    else none
  | (.int value _, _) => some (.integer value.toInt64)
  | (.float digits, _) =>
    if hd : (c.source digits).isFinite = true then some (.real ⟨c.source digits, hd⟩) else none
  | (.string _ bytes, _) => some (.string bytes)
  | _ => none

mutual

/-- A constant, behind any minus, or an expression in brackets. -/
def readUnary : Nat → List Spelled → Option (Scalar × List Spelled)
  | 0, _ => none
  | fuel + 1, tokens =>
    match tokens with
    | [] => none
    | (.op .sub, _) :: rest => do
      let (value, rest) ← readUnary fuel rest
      return (← value.negated, rest)
    | (.op .lparen, _) :: rest => do
      let (value, rest) ← readDifference fuel rest
      match rest with
      | (.op .rparen, _) :: rest => some (value, rest)
      | _ => none
    | token :: rest => do return (← constant c token, rest)

def readDifference : Nat → List Spelled → Option (Scalar × List Spelled)
  | 0, _ => none
  | fuel + 1, tokens => do
    let (value, rest) ← readUnary fuel tokens
    readMinus fuel value rest

/-- What is taken off from the left. -/
def readMinus : Nat → Scalar → List Spelled → Option (Scalar × List Spelled)
  | 0, _, _ => none
  | fuel + 1, value, tokens =>
    match tokens with
    | (.op .sub, _) :: rest => do
      let (other, rest) ← readUnary fuel rest
      readMinus fuel (← value.minus other) rest
    | _ => some (value, tokens)

end

def readScalar (tokens : List Spelled) : Option (Scalar × List Spelled) :=
  readDifference c (2 * tokens.length + 6) tokens

/-! ### Entries -/

/-- The name a token is, if it is one. -/
def nameOf : Spelled → Option Text
  | (.ident none, bytes) => some bytes
  | (.ident (some spelling), _) => some spelling
  | _ => none

/-- `=`, or `:=`. -/
def introduces (token : Spelled) : Bool :=
  token.1 = .op .eq || token.1 = .op .reassign

/-- The key of an entry, if one is written. -/
def readKey (tokens : List Spelled) : Option (Option Scalar × List Spelled) :=
  match tokens with
  | (.op .lbracket, _) :: rest => do
    let (key, rest) ← readScalar c rest
    match rest with
    | (.op .rbracket, _) :: token :: rest =>
      if introduces token then some (some key, rest) else none
    | _ => none
  | first :: token :: rest =>
    match nameOf first with
    | some name =>
      if introduces token then some (some (.string name), rest) else some (none, tokens)
    | none => some (none, tokens)
  | _ => some (none, tokens)

/-- The entries end with the text or before a brace. -/
def atClose : List Spelled → Bool
  | [] => true
  | token :: _ => token.1 = .op .rbrace

/-- `parse_brace_entries`. -/
def readEntries {α : Type} (value : List Spelled → Option (α × List Spelled)) :
    Nat → List Spelled → Option (List (Option Scalar × α) × List Spelled)
  | 0, _ => none
  | fuel + 1, tokens =>
    if atClose tokens then some ([], tokens)
    else do
      let (key, rest) ← readKey c tokens
      let (read, rest) ← value rest
      match rest with
      | (.op .comma, _) :: rest =>
        let (entries, rest) ← readEntries value fuel rest
        return ((key, read) :: entries, rest)
      | _ => return ([(key, read)], rest)

/-- An expression, or a table that goes so many tables deep. -/
def readValue : (n : Nat) → List Spelled → Option (Literal n × List Spelled)
  | 0, tokens => readScalar c tokens
  | n + 1, tokens =>
    match tokens with
    | (.op .lbrace, _) :: rest => do
      let (entries, rest) ← readEntries c (readValue n) (rest.length + 1) rest
      match rest with
      | (.op .rbrace, _) :: rest => some (.inr entries, rest)
      | _ => none
    | _ => (readScalar c tokens).map fun read => (.inl read.1, read.2)

/-- `lhat_parse_lton`, of a text without a preamble: the entries of a table up to the end. -/
def readDocument (n : Nat) (tokens : List Spelled) : Option (Literal (n + 1)) := do
  let (entries, rest) ← readEntries c (readValue c n) (tokens.length + 1) tokens
  if rest = [] then some (.inr entries) else none

end Grammar

/-! ### Tables -/

instance {K V : Type} [DecidableEq K] [DecidableEq V] : DecidableEq (SequenceMap K V) := fun s t =>
  decidable_of_iff (s.seq = t.seq ∧ s.rest = t.rest) (by
    cases s
    cases t
    simp)

instance decidableEqDatum : (n : Nat) → DecidableEq (Datum n)
  | 0 => inferInstanceAs (DecidableEq Scalar)
  | n + 1 =>
    haveI := decidableEqDatum n
    inferInstanceAs (DecidableEq (Scalar ⊕ SequenceMap Scalar (Datum n)))

def Datum.nil : (n : Nat) → Datum n
  | 0 => Scalar.nil
  | _ + 1 => .inl .nil

/-- The key of a position. -/
def position (n : Nat) : Scalar := .integer (Int64.ofNat n)

/-- Where a key is put in a table with so many positions: a real is the integer that it is, or the
position that it rounds to. -/
def placeOf (count : Nat) : Scalar → Scalar
  | .real d =>
    match lhatNumberAsWhole (.real d.1) with
    | some whole => .integer whole
    | none =>
      if (Binary64.ofInt (-9000000000000000)).lt d.1 ∧ d.1.lt (Binary64.ofInt 9000000000000000) ∧
          0 ≤ d.1.floorAddHalf ∧ d.1.floorAddHalf < count then
        position d.1.floorAddHalf.toNat
      else .real d
  | key => key

section Building

variable {α : Type} [DecidableEq α] (nil : α)

/-- `lhat_table_set`, over what tables hold. -/
def put (s : SequenceMap Scalar α) (key : Scalar) (value : α) : SequenceMap Scalar α :=
  s.set position nil (placeOf s.seq.length key) value

/-- The entries of a literal, put one after the other. `nil^` is no key. -/
def build : Nat → SequenceMap Scalar α → List (Option Scalar × α) → Option (SequenceMap Scalar α)
  | _, s, [] => some s
  | next, s, (none, value) :: entries => build (next + 1) (put nil s (position next) value) entries
  | next, s, (some key, value) :: entries =>
    if key = .nil then none else build next (put nil s key value) entries

end Building

/-- The table that a literal makes, and those in it. -/
def denote : (n : Nat) → Literal n → Option (Datum n)
  | 0, value => some value
  | _ + 1, .inl value => some (.inl value)
  | n + 1, .inr entries => do
    let entries ← entries.mapM fun entry => do return (entry.1, ← denote n entry.2)
    return .inr (← build (Datum.nil n) 0 SequenceMap.empty entries)

end Lhat.Lton
