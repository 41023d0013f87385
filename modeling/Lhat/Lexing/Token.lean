import Mathlib.Data.UInt

/-!
# Characters, tokens and operators

A source is bytes. What is not a character of UTF-8 is answered with a code point that no
character has, one byte wide.
-/

namespace Lhat.Lexing

abbrev Text := List UInt8

def text (s : String) : Text := s.toUTF8.toList

def ascii (c : Char) : UInt8 := c.toNat.toUInt8

theorem forall_byte {p : UInt8 → Prop} (hall : ∀ n m : Fin 16, p (UInt8.ofNat (16 * n + m)))
    (b : UInt8) : p b := by
  have hb := b.toNat_lt
  have := hall ⟨b.toNat / 16, by omega⟩ ⟨b.toNat % 16, by omega⟩
  rwa [Nat.div_add_mod, UInt8.ofNat_toNat] at this

/-! ### Characters -/

/-- `LHAT_CP_INVALID`. -/
def cpInvalid : UInt32 := 0xFFFFFFFF

/-- How many bytes a lead byte asks for, and its share of the code point. -/
def lead (c : UInt8) : Option (Nat × UInt32) :=
  if c &&& 0xE0 = 0xC0 then some (2, c.toUInt32 &&& 0x1F)
  else if c &&& 0xF0 = 0xE0 then some (3, c.toUInt32 &&& 0x0F)
  else if c &&& 0xF8 = 0xF0 then some (4, c.toUInt32 &&& 0x07)
  else none

def continuation : UInt32 → Text → Option UInt32
  | cp, [] => some cp
  | cp, c :: rest =>
    if c &&& 0xC0 = 0x80 then continuation ((cp <<< 6) ||| (c.toUInt32 &&& 0x3F)) rest else none

/-- `decode_utf8`: the code point, and its width in bytes. -/
def decodeUtf8 (p : Text) : UInt32 × Nat :=
  if p.headD 0 < 0x80 then ((p.headD 0).toUInt32, 1)
  else match lead (p.headD 0) with
    | none => (cpInvalid, 1)
    | some (n, bits) =>
      if p.length < n then (cpInvalid, 1)
      else match continuation bits ((p.drop 1).take (n - 1)) with
        | none => (cpInvalid, 1)
        | some cp =>
          let overlong := (n = 2 ∧ cp < 0x80) ∨ (n = 3 ∧ cp < 0x800) ∨ (n = 4 ∧ cp < 0x10000)
          let surrogate := 0xD800 ≤ cp ∧ cp ≤ 0xDFFF
          if overlong ∨ surrogate ∨ 0x10FFFF < cp then (cpInvalid, 1) else (cp, n)

/-- A byte that is not the first of its character. -/
def trail (cp : UInt32) : UInt8 := ((0x80 : UInt32) ||| (cp &&& 0x3F)).toUInt8

def encodeUtf8 (cp : UInt32) : Text :=
  if cp < 0x80 then [cp.toUInt8]
  else if cp < 0x800 then [((0xC0 : UInt32) ||| (cp >>> 6)).toUInt8, trail cp]
  else if cp < 0x10000 then
    [((0xE0 : UInt32) ||| (cp >>> 12)).toUInt8, trail (cp >>> 6), trail cp]
  else
    [((0xF0 : UInt32) ||| (cp >>> 18)).toUInt8, trail (cp >>> 12), trail (cp >>> 6), trail cp]

def isUnicodeSpace (cp : UInt32) : Bool :=
  cp == 0xA0 || cp == 0x1680 || (0x2000 ≤ cp && cp ≤ 0x200A) || cp == 0x2028 || cp == 0x2029 ||
    cp == 0x202F || cp == 0x205F || cp == 0x3000 || cp == 0xFEFF

/-- The operators outside of ASCII, which no identifier swallows. -/
def isReservedSymbol (cp : UInt32) : Bool :=
  cp == 0x2260 || cp == 0x2264 || cp == 0x2265 || cp == 0x2266 || cp == 0x2267 || cp == 0xD7 ||
    cp == 0x22C5

def isLetter (cp : UInt32) : Bool :=
  (65 ≤ cp && cp ≤ 90) || (97 ≤ cp && cp ≤ 122) || cp == 95

def isIdentStart (cp : UInt32) : Bool :=
  if cp = cpInvalid then false
  else if cp < 0x80 then isLetter cp
  else !isUnicodeSpace cp && !isReservedSymbol cp

def isIdentContinue (cp : UInt32) : Bool :=
  if cp < 0x80 then isLetter cp || (48 ≤ cp && cp ≤ 57) else isIdentStart cp

def isDecimalDigit (c : UInt8) : Bool := 48 ≤ c && c ≤ 57

def isDigitOfBase (c : UInt8) (base : Nat) : Bool :=
  match base with
  | 2 => c == 48 || c == 49
  | 8 => 48 ≤ c && c ≤ 55
  | 10 => 48 ≤ c && c ≤ 57
  | 16 => (48 ≤ c && c ≤ 57) || (97 ≤ c && c ≤ 102) || (65 ≤ c && c ≤ 70)
  | _ => false

/-- The value of a digit, as `strtoul` has it. -/
def digitValue (c : UInt8) : Nat :=
  if 48 ≤ c ∧ c ≤ 57 then c.toNat - 48
  else if 97 ≤ c ∧ c ≤ 102 then c.toNat - 87
  else c.toNat - 55

/-- What `strtoul` and `strtoull` read, before it is cut to the type. -/
def digitsValue (base : Nat) (digits : Text) : Nat :=
  digits.foldl (fun value c => value * base + digitValue c) 0

/-! ### Tokens -/

/-- `LhatOpKind`, less what only a hat identifier spells. -/
inductive OpKind where
  | lparen | rparen | lbracket | rbracket | lbrace | rbrace | comma | semicolon | colon
  | reassign | arrow
  | addAssign | subAssign | mulAssign | divAssign | floordivAssign | modAssign | powAssign
  | concatAssign
  | nilReassign | nilAddAssign | nilSubAssign | nilMulAssign | nilDivAssign | nilFloordivAssign
  | nilModAssign | nilPowAssign | nilConcatAssign
  | lshift | rshift
  | eq | ne | le | ge | lt | gt | spaceship
  | add | sub | mul | cross | dotProduct | div | floordiv | mod | pow | not
  | union | intersect
  | dot | concat | ellipsis | nilDot | nilCall | nilIndex | nilElse | present
deriving DecidableEq

/-- The longest spellings first. -/
def operatorTable : List (Text × OpKind) :=
  [(text "?//=", .nilFloordivAssign), (text "?**=", .nilPowAssign), (text "?..=", .nilConcatAssign),
   (text "...", .ellipsis),
   (text "?:=", .nilReassign), (text "?+=", .nilAddAssign), (text "?-=", .nilSubAssign),
   (text "?*=", .nilMulAssign), (text "?/=", .nilDivAssign), (text "?%=", .nilModAssign),
   (text "//=", .floordivAssign), (text "**=", .powAssign), (text "..=", .concatAssign),
   (text "<=>", .spaceship),
   (text "≠", .ne), (text "≤", .le), (text "≥", .ge), (text "≦", .le), (text "≧", .ge),
   (text "×", .cross), (text "⋅", .dotProduct),
   (text ":=", .reassign), (text "<<", .lshift), (text ">>", .rshift), (text "->", .arrow),
   (text "!=", .ne), (text "=/", .ne), (text "<=", .le), (text ">=", .ge), (text "**", .pow),
   (text "//", .floordiv), (text "..", .concat), (text "::", .concat), (text "+=", .addAssign),
   (text "-=", .subAssign), (text "*=", .mulAssign), (text "/=", .divAssign),
   (text "%=", .modAssign), (text "?.", .nilDot), (text "?(", .nilCall), (text "?[", .nilIndex),
   (text "??", .nilElse),
   (text "(", .lparen), (text ")", .rparen), (text "[", .lbracket), (text "]", .rbracket),
   (text "\x7b", .lbrace), (text "\x7d", .rbrace), (text ",", .comma), (text ";", .semicolon),
   (text ":", .colon), (text "=", .eq), (text "<", .lt), (text ">", .gt), (text "+", .add),
   (text "-", .sub), (text "*", .mul), (text "/", .div), (text "%", .mod), (text "!", .not),
   (text "|", .union), (text "&", .intersect), (text ".", .dot), (text "?", .present)]

/-- `match_operator`. -/
def matchOperator (rest : Text) : Option (Text × OpKind) :=
  operatorTable.find? fun entry => entry.1.isPrefixOf rest

inductive StringKind where
  | escaped
  | raw
  | line
deriving DecidableEq

inductive ScopeKind where
  | file
  | relative
deriving DecidableEq

/-- `LhatTokenKind`, with the value that goes with it. A string brings its bytes, and a real the
digits that `strtod` is given. -/
inductive TokenKind where
  | eof
  | ident (spelling : Option Text)
  | hatIdent (hats : UInt32)
  | annot
  | int (value : UInt64) (base : Nat)
  | float (digits : Text)
  | string (kind : StringKind) (bytes : Text)
  | scope (kind : ScopeKind) (depth : UInt32)
  | op (op : OpKind)
  | interpBegin
  | interpText (bytes : Text)
  | interpExprBegin
  | interpFormat (bytes : Text)
  | interpExprEnd
  | interpEnd
  | error
deriving DecidableEq

structure Token where
  kind : TokenKind
  offset : UInt32
  length : UInt32
  line : UInt32
  column : UInt32
  mayStartStmt : Bool
deriving DecidableEq

inductive ErrorCode where
  | unexpectedCharacter
  | invalidUtf8
  | bareHat
  | bareAt
  | identAfterNumber
  | malformedNumber
  | malformedExponent
  | integerOverflow
  | unterminatedString
  | unterminatedNameLiteral
  | emptyNameLiteral
  | unknownEscape
  | malformedEscape
  | unterminatedBlockComment
  | scopeWithoutName
  | interpolationNeedsQuotes
  | interpolationTooDeep
deriving DecidableEq

structure Diagnostic where
  code : ErrorCode
  offset : UInt32
  line : UInt32
  column : UInt32
deriving DecidableEq

structure Comment where
  offset : UInt32
  stop : UInt32
  line : UInt32
  column : UInt32
  block : Bool
deriving DecidableEq

/-! ### The width of a character -/

theorem decodeUtf8_width {p : Text} (h : p ≠ []) :
    0 < (decodeUtf8 p).2 ∧ (decodeUtf8 p).2 ≤ p.length := by
  have hlength : 0 < p.length := List.length_pos_iff.mpr h
  unfold decodeUtf8
  split
  · exact ⟨Nat.one_pos, hlength⟩
  · split
    · exact ⟨Nat.one_pos, hlength⟩
    · rename_i n bits hlead
      have hn : 0 < n := by
        unfold lead at hlead
        split at hlead
        · cases hlead; omega
        · split at hlead
          · cases hlead; omega
          · split at hlead
            · cases hlead; omega
            · cases hlead
      split
      · exact ⟨Nat.one_pos, hlength⟩
      · split
        · exact ⟨Nat.one_pos, hlength⟩
        · dsimp only
          split
          · exact ⟨Nat.one_pos, hlength⟩
          · exact ⟨hn, by omega⟩

theorem length_of_mem_operatorTable {entry : Text × OpKind} (h : entry ∈ operatorTable) :
    0 < entry.1.length := by
  have hall : ∀ entry ∈ operatorTable, 0 < entry.1.length := by decide +kernel
  exact hall entry h

theorem matchOperator_some {rest : Text} {entry : Text × OpKind}
    (h : matchOperator rest = some entry) : 0 < entry.1.length ∧ entry.1 <+: rest := by
  refine ⟨length_of_mem_operatorTable (List.mem_of_find?_eq_some h), ?_⟩
  have := List.find?_some h
  exact List.isPrefixOf_iff_prefix.mp this

end Lhat.Lexing
