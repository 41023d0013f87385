import Lhat.Lexing.Token
import Mathlib.Algebra.Order.Group.Nat

/-!
# The numeric literal grammar

One literal is read from the front of a text. What was read stays read, also where it is not a
number.
-/

namespace Lhat.Lexing

inductive NumberKind where
  | integer
  | real
deriving DecidableEq

inductive NumberStatus where
  | ok
  | malformed
  | badExponent
  | overflow
  | tooLong
deriving DecidableEq

/-- `LhatNumberLiteral`. A real is the digits that `strtod` is given. -/
structure NumberLiteral where
  kind : NumberKind := .integer
  status : NumberStatus
  length : Nat
  integer : UInt64 := 0
  base : Nat := 10
  real : Text := []
deriving DecidableEq

/-- A run of digits: the bytes it took, how many of them are digits, and whether a separator was
misplaced. -/
structure Run where
  taken : Nat
  digits : Nat
  malformed : Bool
deriving DecidableEq

/-- `scan_digit_run`, after a digit or not. -/
def scanDigitRun (base : Nat) : Text → Bool → Run
  | [], _ => ⟨0, 0, false⟩
  | c :: rest, previousWasDigit =>
    if c = ascii '_' then
      let run := scanDigitRun base rest false
      ⟨run.taken + 1, run.digits,
        run.malformed || !previousWasDigit || !isDigitOfBase (rest.headD 0) base⟩
    else if isDigitOfBase c base then
      let run := scanDigitRun base rest true
      ⟨run.taken + 1, run.digits + 1, run.malformed⟩
    else ⟨0, 0, false⟩

/-- `LHAT_NUMBER_BUFFER`. -/
def numberBuffer : Nat := 256

def byteAt (text : Text) (ahead : Nat) : UInt8 := text.getD ahead 0

def markedBase (text : Text) : Nat :=
  if byteAt text 0 = ascii '0' then
    let marker := byteAt text 1
    if marker = ascii 'x' ∨ marker = ascii 'X' then 16
    else if marker = ascii 'b' ∨ marker = ascii 'B' then 2
    else if marker = ascii 'o' ∨ marker = ascii 'O' then 8
    else 10
  else 10

/-- The literal without its separators and its marker. -/
def literalDigits (text : Text) (base length : Nat) : Text :=
  ((text.take length).drop (if base = 10 then 0 else 2)).filter (· ≠ ascii '_')

/-- The end of `lhat_number_literal`, when all that belongs to the literal was read. -/
def finishLiteral (text : Text) (base : Nat) (isFloat malformed : Bool) (length : Nat) :
    NumberLiteral :=
  let kind := if isFloat then NumberKind.real else .integer
  if malformed then { kind := kind, base := base, status := .malformed, length := length }
  else if numberBuffer ≤ length then
    { kind := kind, base := base, status := .tooLong, length := length }
  else
    let buffer := literalDigits text base length
    if isFloat then
      { kind := kind, base := base, status := .ok, length := length, real := buffer }
    else
      let value := digitsValue base buffer
      if 2 ^ 64 ≤ value then
        { kind := kind, base := base, status := .overflow, length := length }
      else
        { kind := kind
          base := base
          status := .ok
          length := length
          integer := UInt64.ofNat value }

/-- The exponent, where there is one. -/
def exponentLiteral (text : Text) (isFloat malformed : Bool) (here : Nat) : NumberLiteral :=
  if byteAt text here = ascii 'e' ∨ byteAt text here = ascii 'E' then
    let sign :=
      if byteAt text (here + 1) = ascii '+' ∨ byteAt text (here + 1) = ascii '-' then 1 else 0
    if isDecimalDigit (byteAt text (here + 1 + sign)) then
      let run := scanDigitRun 10 (text.drop (here + 1 + sign)) false
      finishLiteral text 10 true (malformed || run.malformed) (here + 1 + sign + run.taken)
    else { status := .badExponent, length := here + 1 }
  else finishLiteral text 10 isFloat malformed here

/-- The fraction, where a digit follows the point. -/
def fractionLiteral (text : Text) (malformed : Bool) (here : Nat) : NumberLiteral :=
  if byteAt text here = ascii '.' ∧ isDecimalDigit (byteAt text (here + 1)) = true then
    let run := scanDigitRun 10 (text.drop (here + 1)) false
    exponentLiteral text true (malformed || run.malformed) (here + 1 + run.taken)
  else exponentLiteral text false malformed here

/-- `lhat_number_literal`. Right after a point the digits are a key, and nothing else is read. -/
def numberLiteral (text : Text) (afterDot : Bool) : NumberLiteral :=
  if afterDot then
    let run := scanDigitRun 10 text false
    finishLiteral text 10 false (run.malformed || run.digits == 0) run.taken
  else
    let base := markedBase text
    if base = 10 then
      let run := scanDigitRun 10 text false
      fractionLiteral text (run.malformed || run.digits == 0) run.taken
    else
      let run := scanDigitRun base (text.drop 2) false
      finishLiteral text base false (run.malformed || run.digits == 0) (2 + run.taken)

/-! ### The length of a literal -/

theorem scanDigitRun_taken (base : Nat) (text : Text) : ∀ previous,
    (scanDigitRun base text previous).taken ≤ text.length := by
  induction text with
  | nil => exact fun _ => Nat.le_refl 0
  | cons c rest ih =>
    intro previous
    unfold scanDigitRun
    split
    · exact Nat.succ_le_succ (ih false)
    · split
      · exact Nat.succ_le_succ (ih true)
      · exact Nat.zero_le _

theorem finishLiteral_length (text : Text) (base : Nat) (isFloat malformed : Bool)
    (length : Nat) : (finishLiteral text base isFloat malformed length).length = length := by
  unfold finishLiteral
  dsimp only
  split
  · rfl
  · split
    · rfl
    · split
      · rfl
      · split <;> rfl

theorem lt_length_of_byteAt {text : Text} {here : Nat} (h : byteAt text here ≠ 0) :
    here < text.length := by
  by_contra hle
  refine h ?_
  unfold byteAt
  rw [List.getD_eq_getElem?_getD, List.getElem?_eq_none (Nat.le_of_not_lt hle)]
  rfl

theorem ne_zero_of_isDecimalDigit {c : UInt8} (h : isDecimalDigit c = true) : c ≠ 0 := by
  rintro rfl
  cases h

theorem exponentLiteral_length {text : Text} {here : Nat} (h : here ≤ text.length)
    (isFloat malformed : Bool) :
    here ≤ (exponentLiteral text isFloat malformed here).length ∧
      (exponentLiteral text isFloat malformed here).length ≤ text.length := by
  unfold exponentLiteral
  split
  · rename_i hexponent
    have hhere : here < text.length := by
      refine lt_length_of_byteAt fun hzero => ?_
      rw [hzero] at hexponent
      exact absurd hexponent (by decide)
    dsimp only
    generalize (if byteAt text (here + 1) = ascii '+' ∨ byteAt text (here + 1) = ascii '-'
      then 1 else 0) = sign
    split
    · rename_i hdigit
      have hsign := lt_length_of_byteAt (ne_zero_of_isDecimalDigit hdigit)
      have htaken := scanDigitRun_taken 10 (text.drop (here + 1 + sign)) false
      rw [List.length_drop] at htaken
      rw [finishLiteral_length]
      omega
    · dsimp only
      omega
  · rw [finishLiteral_length]
    exact ⟨Nat.le_refl _, h⟩

theorem fractionLiteral_length {text : Text} {here : Nat} (h : here ≤ text.length)
    (malformed : Bool) :
    here ≤ (fractionLiteral text malformed here).length ∧
      (fractionLiteral text malformed here).length ≤ text.length := by
  unfold fractionLiteral
  split
  · rename_i hpoint
    have hdigit := lt_length_of_byteAt (ne_zero_of_isDecimalDigit hpoint.2)
    have htaken := scanDigitRun_taken 10 (text.drop (here + 1)) false
    rw [List.length_drop] at htaken
    dsimp only
    have hbound :
        here + 1 + (scanDigitRun 10 (text.drop (here + 1)) false).taken ≤ text.length := by omega
    obtain ⟨hlow, hhigh⟩ := exponentLiteral_length hbound true
      (malformed || (scanDigitRun 10 (text.drop (here + 1)) false).malformed)
    exact ⟨by omega, hhigh⟩
  · exact exponentLiteral_length h false malformed

theorem numberLiteral_length {c : UInt8} (rest : Text) (hc : isDecimalDigit c = true)
    (afterDot : Bool) :
    0 < (numberLiteral (c :: rest) afterDot).length ∧
      (numberLiteral (c :: rest) afterDot).length ≤ (c :: rest).length := by
  have hrun : 0 < (scanDigitRun 10 (c :: rest) false).taken := by
    have hc' : c ≠ ascii '_' := by
      rintro rfl
      cases hc
    have hbase : isDigitOfBase c 10 = true := hc
    unfold scanDigitRun
    rw [if_neg hc', if_pos hbase]
    exact Nat.succ_pos _
  have htaken := scanDigitRun_taken 10 (c :: rest) false
  unfold numberLiteral
  split
  · dsimp only
    rw [finishLiteral_length]
    exact ⟨hrun, htaken⟩
  · dsimp only
    split
    · obtain ⟨hlow, hhigh⟩ := fractionLiteral_length htaken
        ((scanDigitRun 10 (c :: rest) false).malformed ||
          (scanDigitRun 10 (c :: rest) false).digits == 0)
      exact ⟨Nat.lt_of_lt_of_le hrun hlow, hhigh⟩
    · rename_i hbase
      have hmarker : 1 < (c :: rest).length := by
        refine lt_length_of_byteAt fun hzero => hbase ?_
        unfold markedBase
        split
        · rw [hzero]
          rfl
        · rfl
      have htaken := scanDigitRun_taken (markedBase (c :: rest)) ((c :: rest).drop 2) false
      rw [List.length_drop] at htaken
      rw [finishLiteral_length]
      omega

end Lhat.Lexing
