import Lhat.Numerals.Stands
import Mathlib.Data.List.DropRight

/-!
# The literals of a text

What is answered for a literal that stands, and the whole of a text read as one number, where the
sign and the magnitude meet.
-/

namespace Lhat.Numerals

open Lexing
open Lton (signed decimal)

/-! ### What is answered -/

section Answered

variable {afterDot : Bool} {kind : NumberKind} {base : Nat} {p rest text : Text}

theorem digitsValue_eq_ofDigits (base : Nat) (digits : Text) :
    digitsValue base digits = Nat.ofDigits base (digits.reverse.map digitValue) := by
  induction digits using List.reverseRecOn with
  | nil => rfl
  | append_singleton digits c ih =>
    unfold digitsValue at ih ⊢
    rw [List.foldl_append, ih, List.reverse_append, List.reverse_singleton, List.singleton_append,
      List.map_cons, Nat.ofDigits_cons, List.foldl_cons, List.foldl_nil]
    ring

theorem finishLiteral_whole (kind : NumberKind) (base : Nat) (p : Text) :
    finishLiteral p base (decide (kind = .real)) false p.length =
      if numberBuffer ≤ p.length then
        { kind := kind, base := base, status := .tooLong, length := p.length }
      else if kind = .real then
        { kind := kind, base := base, status := .ok, length := p.length, real := digitsOf base p }
      else if 2 ^ 64 ≤ positionalValue base p then
        { kind := kind, base := base, status := .overflow, length := p.length }
      else
        { kind := kind
          base := base
          status := .ok
          length := p.length
          integer := UInt64.ofNat (positionalValue base p) } := by
  have hdigits : literalDigits p base p.length = digitsOf base p := by
    unfold literalDigits digitsOf
    rw [List.take_length]
  have hvalue : digitsValue base (digitsOf base p) = positionalValue base p :=
    digitsValue_eq_ofDigits _ _
  unfold finishLiteral
  rw [if_neg Bool.false_ne_true]
  simp only [hdigits, hvalue]
  cases kind <;> rfl

theorem Stands.answered (h : Stands afterDot kind base p rest) :
    (numberLiteral (p ++ rest) afterDot).length = p.length ∧
      (numberLiteral (p ++ rest) afterDot).kind = kind ∧
      (numberLiteral (p ++ rest) afterDot).base = base := by
  rw [h.reads, finishLiteral_whole]
  split
  · exact ⟨rfl, rfl, rfl⟩
  · split
    · exact ⟨rfl, rfl, rfl⟩
    · split <;> exact ⟨rfl, rfl, rfl⟩

theorem Stands.ok (h : Stands afterDot kind base p rest) :
    (numberLiteral (p ++ rest) afterDot).status = .ok ↔
      p.length < numberBuffer ∧ (kind = .integer → positionalValue base p < 2 ^ 64) := by
  rw [h.reads, finishLiteral_whole]
  by_cases hlong : numberBuffer ≤ p.length
  · rw [if_pos hlong]
    exact ⟨nofun, fun h => absurd h.1 (Nat.not_lt.mpr hlong)⟩
  rw [if_neg hlong]
  cases kind with
  | real => exact ⟨fun _ => ⟨Nat.lt_of_not_le hlong, nofun⟩, fun _ => rfl⟩
  | integer =>
    rw [if_neg nofun]
    by_cases hlarge : 2 ^ 64 ≤ positionalValue base p
    · rw [if_pos hlarge]
      exact ⟨nofun, fun h => absurd (h.2 rfl) (Nat.not_lt.mpr hlarge)⟩
    · rw [if_neg hlarge]
      exact ⟨fun _ => ⟨Nat.lt_of_not_le hlong, fun _ => Nat.lt_of_not_le hlarge⟩, fun _ => rfl⟩

theorem Stands.overflow (h : Stands afterDot kind base p rest) :
    (numberLiteral (p ++ rest) afterDot).status = .overflow ↔
      kind = .integer ∧ p.length < numberBuffer ∧ 2 ^ 64 ≤ positionalValue base p := by
  rw [h.reads, finishLiteral_whole]
  by_cases hlong : numberBuffer ≤ p.length
  · rw [if_pos hlong]
    exact ⟨nofun, fun h => absurd h.2.1 (Nat.not_lt.mpr hlong)⟩
  rw [if_neg hlong]
  cases kind with
  | real => exact ⟨nofun, nofun⟩
  | integer =>
    rw [if_neg nofun]
    by_cases hlarge : 2 ^ 64 ≤ positionalValue base p
    · rw [if_pos hlarge]
      exact ⟨fun _ => ⟨rfl, Nat.lt_of_not_le hlong, hlarge⟩, fun _ => rfl⟩
    · rw [if_neg hlarge]
      exact ⟨nofun, fun h => absurd h.2.2 hlarge⟩

theorem Stands.value (h : Stands afterDot .integer base p rest)
    (hok : (numberLiteral (p ++ rest) afterDot).status = .ok) :
    (numberLiteral (p ++ rest) afterDot).integer.toNat = positionalValue base p := by
  obtain ⟨hshort, hsmall⟩ := h.ok.mp hok
  rw [h.reads, finishLiteral_whole, if_neg (Nat.not_le.mpr hshort), if_neg nofun,
    if_neg (Nat.not_le.mpr (hsmall rfl))]
  exact UInt64.toNat_ofNat_of_lt' (hsmall rfl)

end Answered

/-! ### A whole text as a number -/

/-- `is_ascii_space`. -/
def isAsciiSpace (c : UInt8) : Bool :=
  c == ascii ' ' || c == 9 || c == 10 || c == 13 || c == 11 || c == 12

inductive ReadNumber where
  | whole (value : Int64)
  | real (negative : Bool) (digits : Text)
deriving DecidableEq

/-- `INT64_MAX`, as the magnitude that a literal has. -/
def largestMagnitude : UInt64 := 9223372036854775807

/-- A sign and a magnitude put together. -/
def readWhole (negative : Bool) (magnitude : UInt64) : Option ReadNumber :=
  let limit := if negative then largestMagnitude + 1 else largestMagnitude
  if limit < magnitude then none
  else if negative = false then some (.whole magnitude.toInt64)
  else if magnitude = largestMagnitude + 1 then some (.whole Int64.minValue)
  else some (.whole (-magnitude.toInt64))

/-- `lhat_number_read`. A real is its sign and the digits that `strtod` is given. -/
def numberRead (text : Text) : Option ReadNumber :=
  let trimmed := (text.dropWhile isAsciiSpace).rdropWhile isAsciiSpace
  let negative := decide (trimmed.head? = some (ascii '-'))
  let unsigned :=
    if trimmed.head? = some (ascii '-') ∨ trimmed.head? = some (ascii '+') then trimmed.tail
    else trimmed
  if unsigned = [] then none
  else
    let read := numberLiteral unsigned false
    if read.status ≠ .ok ∨ read.length ≠ unsigned.length then none
    else match read.kind with
      | .real => some (.real negative read.real)
      | .integer => readWhole negative read.integer

section Read

variable {digits : Text}

theorem DigitRun.of_digits (hne : digits ≠ []) (h : ∀ c ∈ digits, isDecimalDigit c = true) :
    DigitRun 10 digits := by
  induction digits with
  | nil => exact absurd rfl hne
  | cons c rest ih =>
    cases rest with
    | nil => exact .one (h c (by simp))
    | cons d rest =>
      exact .next (h c (by simp)) (ih (by simp) fun x hx => h x (List.mem_cons_of_mem c hx))

theorem stands_digits (hne : digits ≠ []) (h : ∀ c ∈ digits, isDecimalDigit c = true) :
    Stands false .integer 10 digits [] where
  literal := .whole (.of_digits hne h)
  longest _ _ q _ hq := by
    rw [List.append_nil] at hq
    exact hq.length_le
  settled := ⟨nofun, fun _ _ _ _ => ⟨nofun, nofun⟩, nofun⟩

theorem positionalValue_decimal (n : Nat) : positionalValue 10 (decimal n) = n := by
  have hclean : digitsOf 10 (decimal n) = decimal n := by
    unfold digitsOf
    rw [if_pos rfl, List.drop_zero, List.filter_eq_self]
    intro c hc
    have hdigit := Lton.decimal_digits n c hc
    rw [decide_eq_true_eq]
    rintro rfl
    exact absurd hdigit (by decide)
  unfold positionalValue
  rw [hclean, ← digitsValue_eq_ofDigits, Lton.digitsValue_decimal]

theorem numberLiteral_decimal {n : Nat} (h : n < 2 ^ 64) :
    numberLiteral (decimal n) false =
      { status := .ok, length := (decimal n).length, integer := UInt64.ofNat n } := by
  have hstands := stands_digits (Lton.decimal_ne_nil n) (Lton.decimal_digits n)
  have hshort : (decimal n).length < numberBuffer := by
    have hlength := @Lton.decimal_length 19 n (Nat.lt_of_lt_of_le h (by norm_num))
    unfold numberBuffer
    omega
  have hread := hstands.reads
  rw [List.append_nil, finishLiteral_whole, if_neg (Nat.not_le.mpr hshort), if_neg nofun,
    positionalValue_decimal, if_neg (Nat.not_le.mpr h)] at hread
  exact hread

theorem trim_signed (negative : Bool) (hne : digits ≠ [])
    (h : ∀ c ∈ digits, isDecimalDigit c = true) :
    ((signed negative digits).dropWhile isAsciiSpace).rdropWhile isAsciiSpace =
      signed negative digits := by
  have hspace : ∀ c, isDecimalDigit c = true → ¬ isAsciiSpace c = true := by
    intro c hc hspace
    unfold isAsciiSpace at hspace
    simp only [Bool.or_eq_true, beq_iff_eq, or_assoc] at hspace
    obtain rfl | rfl | rfl | rfl | rfl | rfl := hspace <;> exact absurd hc (by decide)
  have hfirst : (signed negative digits).dropWhile isAsciiSpace = signed negative digits := by
    obtain ⟨c, tail, rfl⟩ := List.exists_cons_of_ne_nil hne
    cases negative with
    | true => rfl
    | false => exact List.dropWhile_cons_of_neg (hspace c (h c (by simp)))
  have hlast : ∀ hsome : signed negative digits ≠ [],
      ¬ isAsciiSpace ((signed negative digits).getLast hsome) = true := by
    cases negative with
    | true =>
      intro hsome
      have hget : (signed true digits).getLast hsome = digits.getLast hne :=
        List.getLast_cons hne
      rw [hget]
      exact hspace _ (h _ (List.getLast_mem hne))
    | false => exact fun hsome => hspace _ (h _ (List.getLast_mem hne))
  rw [hfirst, List.rdropWhile_eq_self_iff]
  exact hlast

theorem numberRead_signed (negative : Bool) {n : Nat} (h : n < 2 ^ 64) :
    numberRead (signed negative (decimal n)) = readWhole negative (UInt64.ofNat n) := by
  have hdigits := Lton.decimal_digits n
  have hread := numberLiteral_decimal h
  have htrim := trim_signed negative (Lton.decimal_ne_nil n) hdigits
  obtain ⟨c, tail, hcons⟩ := List.exists_cons_of_ne_nil (Lton.decimal_ne_nil n)
  rw [hcons] at hdigits hread htrim ⊢
  have hminus : c ≠ ascii '-' ∧ c ≠ ascii '+' := by
    refine ⟨?_, ?_⟩
    all_goals
      rintro rfl
      exact absurd (hdigits _ List.mem_cons_self) (by decide)
  unfold numberRead
  simp only [htrim]
  cases negative with
  | true => simp [signed, hread]
  | false => simp [signed, hread, hminus.1, hminus.2]

theorem readWhole_magnitude (i : Int64) :
    readWhole (decide (i < 0)) (UInt64.ofNat i.toInt.natAbs) = some (.whole i) := by
  have hlow := i.le_toInt
  have hhigh := i.toInt_lt
  have hvalue : (UInt64.ofNat i.toInt.natAbs).toNat = i.toInt.natAbs :=
    UInt64.toNat_ofNat_of_lt' (by show _ < 2 ^ 64; omega)
  have hsign : i < 0 ↔ i.toInt < 0 := Int64.lt_iff_toInt_lt
  unfold readWhole
  by_cases hneg : i < 0
  · have hneg' := hsign.mp hneg
    have hfits : ¬ largestMagnitude + 1 < UInt64.ofNat i.toInt.natAbs := by
      rw [UInt64.lt_iff_toNat_lt, hvalue, show (largestMagnitude + 1).toNat = 2 ^ 63 from rfl]
      omega
    simp only [decide_eq_true hneg, if_true, if_neg hfits, Bool.true_eq_false, if_false]
    by_cases hleast : UInt64.ofNat i.toInt.natAbs = largestMagnitude + 1
    · rw [if_pos hleast]
      have hnat := congrArg UInt64.toNat hleast
      rw [hvalue, show (largestMagnitude + 1).toNat = 2 ^ 63 from rfl] at hnat
      have hmin : Int64.minValue = i := by
        rw [← Int64.toInt_inj, Int64.toInt_minValue]
        omega
      rw [hmin]
    · rw [if_neg hleast, UInt64.toInt64_ofNat']
      have hvalue := @Int64.toInt_neg_ofNat_of_le i.toInt.natAbs (by omega)
      have hself : -Int64.ofNat i.toInt.natAbs = i := by
        rw [← Int64.toInt_inj, hvalue]
        omega
      rw [hself]
  · have hpos : ¬ i.toInt < 0 := fun h => hneg (hsign.mpr h)
    have hfits : ¬ largestMagnitude < UInt64.ofNat i.toInt.natAbs := by
      rw [UInt64.lt_iff_toNat_lt, hvalue, show largestMagnitude.toNat = 2 ^ 63 - 1 from rfl]
      omega
    simp only [decide_eq_false hneg, Bool.false_eq_true, if_false, if_neg hfits, if_true,
      UInt64.toInt64_ofNat']
    have hself : Int64.ofNat i.toInt.natAbs = i := by
      rw [← Int64.toInt_inj, Int64.toInt_ofNat_of_lt (by omega)]
      omega
    rw [hself]

theorem numberRead_decimal (i : Int64) :
    numberRead (signed (decide (i < 0)) (decimal i.toInt.natAbs)) = some (.whole i) := by
  have hlow := i.le_toInt
  have hhigh := i.toInt_lt
  rw [numberRead_signed _ (by omega), readWhole_magnitude]

end Read

/-! ### The literals -/

/-- A text is a literal where its longest one stands, fits the buffer and, as an integer, the word;
then that is what is answered, and too large an integer is told. The whole of an integer's decimal
spelling is read as the integer. -/
theorem literals_read :
    (∀ text afterDot,
      ((numberLiteral text afterDot).status = .ok ↔
        ∃ kind base p rest, text = p ++ rest ∧ Stands afterDot kind base p rest ∧
          p.length < numberBuffer ∧ (kind = .integer → positionalValue base p < 2 ^ 64)) ∧
      ((numberLiteral text afterDot).status = .overflow ↔
        ∃ base p rest, text = p ++ rest ∧ Stands afterDot .integer base p rest ∧
          p.length < numberBuffer ∧ 2 ^ 64 ≤ positionalValue base p) ∧
      ∀ kind base p rest, text = p ++ rest → Stands afterDot kind base p rest →
        (numberLiteral text afterDot).length = p.length ∧
        (numberLiteral text afterDot).kind = kind ∧
        (numberLiteral text afterDot).base = base ∧
        (kind = .integer → (numberLiteral text afterDot).status = .ok →
          (numberLiteral text afterDot).integer.toNat = positionalValue base p)) ∧
    ∀ i : Int64,
      numberRead (signed (decide (i < 0)) (decimal i.toInt.natAbs)) = some (.whole i) := by
  refine ⟨fun text afterDot => ⟨⟨fun hok => ?_, ?_⟩, ⟨fun hover => ?_, ?_⟩, ?_⟩, numberRead_decimal⟩
  · obtain ⟨kind, base, p, rest, rfl, hstands⟩ := stands_of_clean
      (show Clean (numberLiteral text afterDot) from ⟨by simp [hok], by simp [hok]⟩)
    exact ⟨kind, base, p, rest, rfl, hstands, hstands.ok.mp hok⟩
  · rintro ⟨kind, base, p, rest, rfl, hstands, hfits⟩
    exact hstands.ok.mpr hfits
  · obtain ⟨kind, base, p, rest, rfl, hstands⟩ := stands_of_clean
      (show Clean (numberLiteral text afterDot) from ⟨by simp [hover], by simp [hover]⟩)
    obtain ⟨rfl, hlarge⟩ := hstands.overflow.mp hover
    exact ⟨base, p, rest, rfl, hstands, hlarge⟩
  · rintro ⟨base, p, rest, rfl, hstands, hlarge⟩
    exact hstands.overflow.mpr ⟨rfl, hlarge⟩
  · rintro kind base p rest rfl hstands
    obtain ⟨hlength, hkind, hbase⟩ := hstands.answered
    refine ⟨hlength, hkind, hbase, ?_⟩
    rintro rfl hok
    exact hstands.value hok

/-- A digit is a literal in front of `1_`, and `1_` is refused. -/
theorem literals_read_fails :
    ¬ ∀ text afterDot, (numberLiteral text afterDot).status = .ok ↔
      ∃ kind base p rest, text = p ++ rest ∧ Literal afterDot kind base p := by
  intro h
  have hone : (numberLiteral [ascii '1', ascii '_'] false).status = .ok :=
    (h _ false).mpr ⟨.integer, 10, [ascii '1'], [ascii '_'], rfl, .whole (.one (by decide))⟩
  exact absurd hone (by decide)

end Lhat.Numerals
