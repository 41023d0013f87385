import Lhat.Json.Utf8

/-!
# The grammar of JSON

Which texts are JSON, and what each of them says. The numbers are a parameter of the
grammar: those of JSON itself (`IsStrict`), and those the C library reads (`IsLoose`).
-/

namespace Lhat.Json

open Lexing (Text ascii isDecimalDigit)

/-! ## Numbers -/

/-- A number, taken apart: the digits before the point, those behind it where one is
written, and the exponent with its letter and its sign. -/
structure Spelling where
  minus : Bool
  whole : Text
  fraction : Option Text
  exponent : Option (UInt8 × Text × Text)

def AllDigits (digits : Text) : Prop := ∀ c ∈ digits, isDecimalDigit c = true

namespace Spelling

variable (n : Spelling)

def signText : Text := if n.minus then [ascii '-'] else []

def fractionText : Text := (n.fraction.map fun digits => ascii '.' :: digits).getD []

def exponentText : Text :=
  (n.exponent.map fun (letter, sign, digits) => letter :: (sign ++ digits)).getD []

def text : Text := n.signText ++ n.whole ++ n.fractionText ++ n.exponentText

/-- The digits are digits, and an exponent has one. -/
structure Formed : Prop where
  whole : AllDigits n.whole
  fraction : ∀ digits ∈ n.fraction, AllDigits digits
  exponent : ∀ letter sign digits, n.exponent = some (letter, sign, digits) →
    (letter = ascii 'e' ∨ letter = ascii 'E') ∧
      (sign = [] ∨ sign = [ascii '+'] ∨ sign = [ascii '-']) ∧ digits ≠ [] ∧ AllDigits digits

/-- What the C library reads: a digit on one side of the point. -/
structure IsLoose : Prop extends n.Formed where
  some_digit : n.whole ≠ [] ∨ ∃ digits, n.fraction = some digits ∧ digits ≠ []

/-- What JSON has: a digit on both sides of the point, and no zero in front of another
digit. -/
structure IsStrict : Prop extends n.Formed where
  whole_digit : n.whole ≠ []
  no_leading_zero : n.whole.head? = some (ascii '0') → n.whole = [ascii '0']
  fraction_digit : ∀ digits ∈ n.fraction, digits ≠ []

theorem isStrict_iff {n : Spelling} :
    n.IsStrict ↔ n.IsLoose ∧ n.whole ≠ [] ∧
      (n.whole.head? = some (ascii '0') → n.whole = [ascii '0']) ∧
      ∀ digits ∈ n.fraction, digits ≠ [] :=
  ⟨fun h => ⟨⟨h.toFormed, .inl h.whole_digit⟩, h.whole_digit, h.no_leading_zero, h.fraction_digit⟩,
    fun ⟨h, hwhole, hzero, hfraction⟩ => ⟨h.toFormed, hwhole, hzero, hfraction⟩⟩

theorem IsStrict.isLoose {n : Spelling} (h : n.IsStrict) : n.IsLoose :=
  (isStrict_iff.1 h).1

end Spelling

/-- The text of such a number, short enough for the buffer of `read_number`. -/
def NumberText (p : Spelling → Prop) (s : Text) : Prop := ∃ n, p n ∧ n.text = s ∧ s.length < 64

/-! ## Strings -/

/-- A character between quotes, and the bytes it stands for. -/
inductive Character : Text → Text → Prop
  | plain {char : Text} : Utf8Char char → 0x20 ≤ char.headD 0 → char.headD 0 ≠ 34 →
      char.headD 0 ≠ 92 → Character char char
  | escape {escaped byte : UInt8} : plainEscape escaped = some byte →
      Character [92, escaped] [byte]
  | unicode {digits : Text} {code : UInt32} : digits.length = 4 → hexCode digits 0 = some code →
      isHigh code = false → isLow code = false → Character (92 :: 117 :: digits) (utf8Put code)
  | pair {digits digits' : Text} {high low : UInt32} : digits.length = 4 →
      hexCode digits 0 = some high → isHigh high = true → digits'.length = 4 →
      hexCode digits' 0 = some low → isLow low = true →
      Character (92 :: 117 :: digits ++ 92 :: 117 :: digits')
        (utf8Put ((0x10000 : UInt32) + ((high - 0xD800) <<< 10) + (low - 0xDC00)))

inductive Characters : Text → Text → Prop
  | nil : Characters [] []
  | cons {s bytes s' bytes' : Text} : Character s bytes → Characters s' bytes' →
      Characters (s ++ s') (bytes ++ bytes')

/-- A string with its quotes. -/
def Quoted (s bytes : Text) : Prop := ∃ held, Characters held bytes ∧ s = 34 :: (held ++ [34])

/-! ## Values -/

def Space (s : Text) : Prop := ∀ c ∈ s, isSpace c = true

section Items

variable {α : Type}

/-- White space around it. -/
def Padded (item : Text → α → Prop) (s : Text) (held : α) : Prop :=
  ∃ before core behind, Space before ∧ Space behind ∧ item core held ∧ s = before ++ core ++ behind

/-- One or more, with commas between them. -/
inductive Joined (item : Text → α → Prop) : Text → List α → Prop
  | one {s : Text} {held : α} : item s held → Joined item s [held]
  | cons {s s' : Text} {held : α} {more : List α} : item s held → Joined item s' more →
      Joined item (s ++ 44 :: s') (held :: more)

/-- What stands behind the opening byte, the closing one with it. -/
def Bracketed (item : Text → α → Prop) (close : UInt8) (s : Text) (all : List α) : Prop :=
  ∃ body, s = body ++ [close] ∧ (Space body ∧ all = [] ∨ Joined (Padded item) body all)

end Items

/-- A key and its value. -/
def MemberText (value : Text → Parsed → Prop) (s : Text) (member : Text × Parsed) : Prop :=
  ∃ name blank blank' core, Quoted name member.1 ∧ Space blank ∧ Space blank' ∧
    value core member.2 ∧ s = name ++ blank ++ 58 :: (blank' ++ core)

/-- A value whose own values are `inner`'s. -/
inductive Shape (c : Numerals) (number : Text → Prop) (inner : Text → Parsed → Prop) :
    Text → Parsed → Prop
  | word {word : Text × Parsed} : word ∈ words → Shape c number inner word.1 word.2
  | number {s : Text} : number s → Shape c number inner s (numberValue c s)
  | string {s bytes : Text} : Quoted s bytes → Shape c number inner s (.string bytes)
  | array {s : Text} {elements : List Parsed} : Bracketed inner 93 s elements →
      Shape c number inner (91 :: s) (.array elements)
  | object {s : Text} {members : List (Text × Parsed)} : Bracketed (MemberText inner) 125 s members →
      Shape c number inner (123 :: s) (.object members)

/-- A value with so many levels. -/
def Value (c : Numerals) (number : Text → Prop) : Nat → Text → Parsed → Prop
  | 0 => fun _ _ => False
  | levels + 1 => Shape c number (Value c number levels)

/-- A whole text: an object or an array, with no more levels than the reader goes down. -/
def Document (c : Numerals) (number : Text → Prop) (text : Text) (made : Parsed) : Prop :=
  ∃ before core behind, Space before ∧ Space behind ∧ Value c number jsonMaxDepth core made ∧
    (core.head? = some 123 ∨ core.head? = some 91) ∧ text = before ++ core ++ behind

/-! ## What follows a value -/

/-- A byte that ends a value. -/
def Ends (c : UInt8) : Prop := isSpace c = true ∨ c = 44 ∨ c = 93 ∨ c = 125

instance (c : UInt8) : Decidable (Ends c) := inferInstanceAs (Decidable (_ ∨ _))

/-- Nothing that a number could go on with stands there. -/
def Stops (rest : Text) : Prop := ∀ c ∈ rest.head?, Ends c

theorem Joined.mono {α : Type} {item item' : Text → α → Prop}
    (h : ∀ s held, item s held → item' s held) {s : Text} {all : List α}
    (hjoined : Joined item s all) : Joined item' s all := by
  induction hjoined with
  | one hitem => exact .one (h _ _ hitem)
  | cons hitem _ ih => exact .cons (h _ _ hitem) ih

theorem Bracketed.mono {α : Type} {item item' : Text → α → Prop} {close : UInt8}
    (h : ∀ s held, item s held → item' s held) {s : Text} {all : List α}
    (hbracketed : Bracketed item close s all) : Bracketed item' close s all := by
  obtain ⟨body, rfl, hnone | hsome⟩ := hbracketed
  · exact ⟨body, rfl, .inl hnone⟩
  · refine ⟨body, rfl, .inr (hsome.mono ?_)⟩
    rintro s held ⟨before, core, behind, hbefore, hbehind, hitem, rfl⟩
    exact ⟨before, core, behind, hbefore, hbehind, h _ _ hitem, rfl⟩

theorem MemberText.mono {value value' : Text → Parsed → Prop}
    (h : ∀ s held, value s held → value' s held) {s : Text} {member : Text × Parsed}
    (hmember : MemberText value s member) : MemberText value' s member := by
  obtain ⟨name, blank, blank', core, hname, hblank, hblank', hvalue, rfl⟩ := hmember
  exact ⟨name, blank, blank', core, hname, hblank, hblank', h _ _ hvalue, rfl⟩

theorem Value.mono {c : Numerals} {number number' : Text → Prop} (h : ∀ s, number s → number' s)
    {levels : Nat} {s : Text} {made : Parsed} (hvalue : Value c number levels s made) :
    Value c number' levels s made := by
  induction levels generalizing s made with
  | zero => exact hvalue
  | succ levels ih =>
    cases hvalue with
    | word hword => exact .word hword
    | number hnumber => exact .number (h _ hnumber)
    | string hquoted => exact .string hquoted
    | array hinner => exact .array (hinner.mono fun _ _ => ih)
    | object hinner => exact .object (hinner.mono fun _ _ => MemberText.mono fun _ _ => ih)

theorem Document.loose {c : Numerals} {text : Text} {made : Parsed}
    (h : Document c (NumberText Spelling.IsStrict) text made) :
    Document c (NumberText Spelling.IsLoose) text made := by
  obtain ⟨before, core, behind, hbefore, hbehind, hvalue, htop, rfl⟩ := h
  refine ⟨before, core, behind, hbefore, hbehind, hvalue.mono ?_, htop, rfl⟩
  rintro s ⟨n, hn, rfl, hshort⟩
  exact ⟨n, hn.isLoose, rfl, hshort⟩

end Lhat.Json
