import Lhat.Lexing.Token
import Lhat.Regex.Basic

/-!
# The compiler of patterns

The recursive descent from the bytes of a pattern to its tree. Alternations nest to a
depth of 64, which is what the recursion goes down by; the loops take at least a byte
every turn. Memory is there.
-/

namespace Lhat.Regex

open Lexing (ascii)

structure CompileError where
  error : String
  errorAt : Nat
deriving DecidableEq, Repr

/-- Where the compiler stands, and how many groups it has numbered. -/
structure Compiler where
  at_ : Nat := 0
  groups : Nat := 0
deriving DecidableEq, Repr

def fail {α : Type} (at_ : Nat) (why : String) : Except CompileError α := .error ⟨why, at_⟩

section Pieces

variable (pattern : List UInt8)

/-- `peek`: a zero at the end. -/
def peek (at_ : Nat) : UInt8 := pattern.getD at_ 0

def atEnd (at_ : Nat) : Bool := decide (pattern.length ≤ at_)

/-- The ranges of `class_ranges_for`, and whether they are negated. -/
def classRangesFor (which : UInt8) : Option (List ClassRange × Bool) :=
  let digits : List ClassRange := [⟨48, 57⟩]
  let words : List ClassRange := [⟨48, 57⟩, ⟨65, 90⟩, ⟨95, 95⟩, ⟨97, 122⟩]
  let spaces : List ClassRange := [⟨9, 13⟩, ⟨32, 32⟩]
  if which = ascii 'd' then some (digits, false)
  else if which = ascii 'D' then some (digits, true)
  else if which = ascii 'w' then some (words, false)
  else if which = ascii 'W' then some (words, true)
  else if which = ascii 's' then some (spaces, false)
  else if which = ascii 'S' then some (spaces, true)
  else none

/-- `escape_literal`: any punctuation is itself. -/
def escapeLiteral (written : UInt8) : Option UInt8 :=
  if written = ascii 'n' then some 10
  else if written = ascii 't' then some 9
  else if written = ascii 'r' then some 13
  else if written = ascii 'f' then some 12
  else if written = ascii 'v' then some 11
  else if written < 0x80 ∧ ¬(48 ≤ written ∧ written ≤ 57) ∧ ¬(97 ≤ written ∧ written ≤ 122) ∧
      ¬(65 ≤ written ∧ written ≤ 90) then some written
  else none

/-! ### Classes -/

/-- The end of a range, where one is written. -/
def parseRange (lo at_ : Nat) : Except CompileError (List ClassRange × Nat) :=
  if peek pattern at_ = ascii '-' ∧ at_ + 1 < pattern.length ∧
      peek pattern (at_ + 1) ≠ ascii ']' then do
    let (hi, at_) ←
      if peek pattern (at_ + 1) = ascii '\\' then
        match if atEnd pattern (at_ + 2) then none else escapeLiteral (peek pattern (at_ + 2)) with
        | none => fail (at_ + 2) "not an escape the dialect has"
        | some literal => .ok (literal.toNat, at_ + 3)
      else
        let (hi, width) := decode pattern (at_ + 1)
        .ok (hi, at_ + 1 + width)
    if hi < lo then fail at_ "the range runs backwards" else .ok ([⟨lo, hi⟩], at_)
  else .ok ([⟨lo, lo⟩], at_)

/-- A turn of the loop of `parse_class`, with so many ranges gathered. -/
def parseMember (count at_ : Nat) : Except CompileError (List ClassRange × Nat) :=
  if peek pattern at_ = ascii '\\' then
    if atEnd pattern (at_ + 1) then fail (at_ + 1) "the pattern ends inside an escape"
    else
      match classRangesFor (peek pattern (at_ + 1)) with
      | some (_, true) => fail (at_ + 1) "a negated escape cannot stand inside [...]"
      | some (ranges, false) =>
        if 64 < count + ranges.length then fail (at_ + 1) "the class holds too many ranges"
        else .ok (ranges, at_ + 2)
      | none =>
        match escapeLiteral (peek pattern (at_ + 1)) with
        | none => fail (at_ + 1) "not an escape the dialect has"
        | some lo => parseRange pattern lo.toNat (at_ + 2)
  else
    let (lo, width) := decode pattern at_
    parseRange pattern lo (at_ + width)

/-- The loop of `parse_class`. A bracket that stands first is a member. -/
def parseMembers : Nat → Bool → List ClassRange → Nat → Except CompileError (List ClassRange × Nat)
  | 0, _, gathered, at_ => .ok (gathered, at_)
  | turns + 1, first, gathered, at_ =>
    if atEnd pattern at_ || (peek pattern at_ == ascii ']' && !first) then .ok (gathered, at_)
    else if 64 ≤ gathered.length then fail at_ "the class holds too many ranges"
    else do
      let (more, at_) ← parseMember pattern gathered.length at_
      parseMembers turns false (gathered ++ more) at_

/-- `parse_class`. -/
def parseClass (at_ : Nat) : Except CompileError (Node × Nat) := do
  let negated := peek pattern (at_ + 1) == ascii '^'
  let start := if negated then at_ + 2 else at_ + 1
  let (ranges, at_) ← parseMembers pattern (pattern.length - start) true [] start
  if atEnd pattern at_ then fail at_ "the pattern ends inside [...]"
  else .ok (.charClass ranges negated, at_ + 1)

/-! ### Repeats -/

/-- The digits of a count, where they start. Nothing is answered past reason. -/
def parseCount : Nat → Nat → Nat → Option (Nat × Nat)
  | 0, value, look => some (value, look)
  | turns + 1, value, look =>
    if 48 ≤ peek pattern look ∧ peek pattern look ≤ 57 then
      let value := value * 10 + ((peek pattern look).toNat - 48)
      if 4096 < value then none else parseCount turns value (look + 1)
    else some (value, look)

/-- `parse_braces`: no bounds where the braces are not a quantifier at all. -/
def parseBraces (at_ : Nat) : Except CompileError (Option (Bounds × Nat)) :=
  let reason := fail at_ "the repeat count is past reason"
  match parseCount pattern (pattern.length - (at_ + 1)) 0 (at_ + 1) with
  | none => reason
  | some (lo, look) =>
    if look = at_ + 1 then .ok none
    else if peek pattern look = ascii ',' then
      match parseCount pattern (pattern.length - (look + 1)) 0 (look + 1) with
      | none => reason
      | some (written, close) =>
        if peek pattern close ≠ ascii '\x7d' then .ok none
        else if close = look + 1 then
          .ok (some ({ min := lo, max := none, ordered := nofun }, close + 1))
        else if hback : written < lo then fail at_ "the repeat range runs backwards"
        else
          .ok (some ({
            min := lo
            max := some written
            ordered := fun bound hbound => by
              obtain rfl := Option.some.inj hbound
              omega }, close + 1))
    else if peek pattern look ≠ ascii '\x7d' then .ok none
    else
      .ok (some ({
        min := lo
        max := some lo
        ordered := fun bound hbound => by
          obtain rfl := Option.some.inj hbound
          omega }, look + 1))

/-- The quantifier behind an atom. -/
def parseQuantifier (at_ : Nat) : Except CompileError (Option (Bounds × Nat)) :=
  let head := peek pattern at_
  if head = ascii '*' then .ok (some ({ min := 0, max := none, ordered := nofun }, at_ + 1))
  else if head = ascii '+' then .ok (some ({ min := 1, max := none, ordered := nofun }, at_ + 1))
  else if head = ascii '?' then
    .ok (some ({ min := 0, max := some 1, ordered := fun _ _ => Nat.zero_le _ }, at_ + 1))
  else if head = ascii '\x7b' then parseBraces pattern at_
  else .ok none

/-! ### The tree -/

section Below

variable (inner : Compiler → Except CompileError (Node × Compiler))

/-- `parse_atom`, with the alternation of the next depth. -/
def parseAtom (c : Compiler) : Except CompileError (Node × Compiler) :=
  let head := peek pattern c.at_
  if head = ascii '*' ∨ head = ascii '+' ∨ head = ascii '?' then
    fail c.at_ "the repeat has nothing before it"
  else if head = ascii '(' then do
    let (index, c) ←
      if peek pattern (c.at_ + 1) = ascii '?' then
        if peek pattern (c.at_ + 2) = ascii ':' then
          .ok ((0 : Fin maxGroups), { c with at_ := c.at_ + 3 })
        else fail (c.at_ + 1) "only (?: is taken after '(?'"
      else if hgroups : c.groups + 1 < maxGroups then
        .ok (⟨c.groups + 1, hgroups⟩, { at_ := c.at_ + 1, groups := c.groups + 1 })
      else fail (c.at_ + 1) "the pattern holds too many groups"
    let (child, c) ← inner c
    if peek pattern c.at_ = ascii ')' then .ok (.group index child, { c with at_ := c.at_ + 1 })
    else fail c.at_ "the pattern ends inside (...)"
  else if head = ascii '[' then do
    let (made, at_) ← parseClass pattern c.at_
    .ok (made, { c with at_ })
  else if head = ascii '.' then .ok (.any, { c with at_ := c.at_ + 1 })
  else if head = ascii '^' then .ok (.bol, { c with at_ := c.at_ + 1 })
  else if head = ascii '$' then .ok (.eol, { c with at_ := c.at_ + 1 })
  else if head = ascii '\\' then
    if atEnd pattern (c.at_ + 1) then fail c.at_ "the pattern ends inside an escape"
    else
      match classRangesFor (peek pattern (c.at_ + 1)) with
      | some (ranges, negated) => .ok (.charClass ranges negated, { c with at_ := c.at_ + 2 })
      | none =>
        match escapeLiteral (peek pattern (c.at_ + 1)) with
        | none => fail c.at_ "not an escape the dialect has"
        | some literal => .ok (.lit [literal], { c with at_ := c.at_ + 2 })
  else
    let width := (decode pattern c.at_).2
    .ok (.lit ((pattern.drop c.at_).take width), { c with at_ := c.at_ + width })

/-- `parse_repeat`. -/
def parseRepeat (c : Compiler) : Except CompileError (Node × Compiler) := do
  let (atom, c) ← parseAtom pattern inner c
  match ← parseQuantifier pattern c.at_ with
  | none => .ok (atom, c)
  | some (bounds, at_) =>
    match atom with
    | .bol | .eol => fail at_ "an anchor repeats nothing"
    | _ =>
      if peek pattern at_ = ascii '?' then
        .ok (.rep atom { bounds with lazy := true }, { c with at_ := at_ + 1 })
      else .ok (.rep atom bounds, { c with at_ })

/-- The loop of `parse_sequence`. -/
def parsePieces : Nat → Compiler → Except CompileError (List Node × Compiler)
  | 0, c => .ok ([], c)
  | turns + 1, c =>
    if atEnd pattern c.at_ || peek pattern c.at_ == ascii '|' || peek pattern c.at_ == ascii ')' then
      .ok ([], c)
    else do
      let (piece, c) ← parseRepeat pattern inner c
      let (rest, c) ← parsePieces turns c
      .ok (piece :: rest, c)

/-- `parse_sequence`. -/
def parseSequence (c : Compiler) : Except CompileError (Node × Compiler) := do
  let (children, c) ← parsePieces pattern inner (pattern.length - c.at_) c
  .ok (.seq children, c)

/-- The loop of `parse_alternation`. -/
def parseChoices : Nat → Compiler → Except CompileError (List Node × Compiler)
  | 0, c => .ok ([], c)
  | turns + 1, c =>
    if peek pattern c.at_ = ascii '|' then do
      let (choice, c) ← parseSequence pattern inner { c with at_ := c.at_ + 1 }
      let (rest, c) ← parseChoices turns c
      .ok (choice :: rest, c)
    else .ok ([], c)

end Below

/-- `parse_alternation`, with so many depths left. -/
def parseAlternation : Nat → Compiler → Except CompileError (Node × Compiler)
  | 0, c => fail c.at_ "the pattern nests past reason"
  | left + 1, c => do
    let (first, c) ← parseSequence pattern (parseAlternation left) c
    let (choices, c) ← parseChoices pattern (parseAlternation left) (pattern.length - c.at_) c
    if choices.isEmpty then .ok (first, c) else .ok (.alt (first :: choices), c)

end Pieces

/-- `lhat_regex_compile`. -/
def lhatRegexCompile (pattern : List UInt8) : Except CompileError LhatRegex := do
  let (root, c) ← parseAlternation pattern 65 {}
  if atEnd pattern c.at_ then .ok { root, groups := c.groups }
  else fail c.at_ "a ')' closes nothing"

end Lhat.Regex
