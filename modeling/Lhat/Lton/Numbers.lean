import Lhat.Foundation.Binary64
import Lhat.Lexing.Quiet

/-!
# Numbers as text

A whole number is written in decimal. A real is printed by the C library, with more digits until
it is read back as itself, and its point is made the one of a source. What the library answers is
a parameter here (`Printing`), and `Printing.Sound` is what is documented of it.
-/

namespace Lhat.Lton

open Lexing (Text ascii isDecimalDigit digitsValue scanDigitRun numberLiteral byteAt)

variable {rest x : Text} {n : Nat} {c : Printing} {b : UInt8}

/-! ### Whole numbers -/

/-- The digits of a number. -/
def decimal (n : Nat) : Text :=
  if n < 10 then [48 + n.toUInt8] else decimal (n / 10) ++ [48 + (n % 10).toUInt8]
termination_by n

theorem digit_eq (h : n < 10) : (48 + n.toUInt8 : UInt8).toNat = 48 + n := by
  rw [UInt8.toNat_add, Nat.toUInt8, UInt8.toNat_ofNat']
  have : (48 : UInt8).toNat = 48 := rfl
  omega

theorem isDecimalDigit_digit (h : n < 10) : isDecimalDigit (48 + n.toUInt8) = true := by
  unfold isDecimalDigit
  rw [Bool.and_eq_true, decide_eq_true_eq, decide_eq_true_eq, UInt8.le_iff_toNat_le,
    UInt8.le_iff_toNat_le, digit_eq h]
  exact ⟨Nat.le_add_right 48 n, Nat.add_le_add_left (Nat.le_of_lt_succ h) 48⟩

theorem decimal_digits (n : Nat) : ∀ c ∈ decimal n, isDecimalDigit c = true := by
  fun_induction decimal n with
  | case1 n h =>
    intro c hc
    rw [List.mem_singleton.mp hc]
    exact isDecimalDigit_digit h
  | case2 n h ih =>
    intro c hc
    obtain hc | hc := List.mem_append.mp hc
    · exact ih c hc
    · rw [List.mem_singleton.mp hc]
      exact isDecimalDigit_digit (Nat.mod_lt n (by decide))

theorem decimal_ne_nil (n : Nat) : decimal n ≠ [] := by
  unfold decimal
  split
  · exact List.cons_ne_nil _ _
  · exact List.append_ne_nil_of_right_ne_nil _ (List.cons_ne_nil _ _)

theorem digitValue_digit (h : n < 10) : Lexing.digitValue (48 + n.toUInt8) = n := by
  unfold Lexing.digitValue
  have hdigit := isDecimalDigit_digit h
  unfold isDecimalDigit at hdigit
  rw [Bool.and_eq_true, decide_eq_true_eq, decide_eq_true_eq] at hdigit
  rw [if_pos hdigit, digit_eq h]
  exact Nat.add_sub_cancel_left 48 n

theorem digitsValue_decimal (n : Nat) : digitsValue 10 (decimal n) = n := by
  fun_induction decimal n with
  | case1 n h =>
    show 0 * 10 + Lexing.digitValue (48 + n.toUInt8) = n
    rw [digitValue_digit h, Nat.zero_mul, Nat.zero_add]
  | case2 n h ih =>
    unfold digitsValue at ih ⊢
    rw [List.foldl_append, ih]
    show n / 10 * 10 + Lexing.digitValue (48 + (n % 10).toUInt8) = n
    rw [digitValue_digit (Nat.mod_lt n (by decide))]
    omega

theorem decimal_length {k : Nat} : ∀ {n : Nat}, n < 10 ^ (k + 1) → (decimal n).length ≤ k + 1 := by
  induction k with
  | zero =>
    intro n h
    unfold decimal
    rw [if_pos (by simpa using h)]
    exact Nat.le_refl _
  | succ k ih =>
    intro n h
    unfold decimal
    split
    · exact Nat.succ_le_succ (Nat.zero_le _)
    · rw [List.length_append, List.length_singleton]
      refine Nat.succ_le_succ (ih (Nat.div_lt_of_lt_mul ?_))
      rw [Nat.pow_succ] at h
      omega

/-! ### Literals -/

/-- What stands after a value. -/
def isDelimiter (c : UInt8) : Bool :=
  c == ascii ',' || c == ascii ']' || c == ascii ')' || c == ascii ' '

/-- A value ends before this. -/
def Ends (rest : Text) : Prop := ∃ c ∈ rest.head?, isDelimiter c = true

theorem Ends.cases (h : Ends rest) :
    ∃ c tail, rest = c :: tail ∧
      (c = ascii ',' ∨ c = ascii ']' ∨ c = ascii ')' ∨ c = ascii ' ') := by
  obtain ⟨c, hc, hdelimiter⟩ := h
  cases rest with
  | nil => cases hc
  | cons d tail =>
    obtain rfl : d = c := Option.some.inj hc
    unfold isDelimiter at hdelimiter
    simp only [Bool.or_eq_true, beq_iff_eq, or_assoc] at hdelimiter
    exact ⟨d, tail, rfl, hdelimiter⟩

theorem Ends.head (h : Ends rest) {p : UInt8 → Bool}
    (hp : (p (ascii ',') && p (ascii ']') && p (ascii ')') && p (ascii ' ')) = true) :
    ∀ c ∈ rest.head?, p c = true := by
  simp only [Bool.and_eq_true, and_assoc] at hp
  obtain ⟨c, tail, rfl, hc⟩ := h.cases
  intro d hd
  obtain rfl : c = d := Option.some.inj hd
  obtain rfl | rfl | rfl | rfl := hc
  · exact hp.1
  · exact hp.2.1
  · exact hp.2.2.1
  · exact hp.2.2.2

theorem scanDigitRun_digits (hrest : ∀ c ∈ rest.head?, (c != ascii '_' && !isDecimalDigit c) = true)
    (x : Text) (hx : ∀ c ∈ x, isDecimalDigit c = true) :
    ∀ previous, scanDigitRun 10 (x ++ rest) previous = ⟨x.length, x.length, false⟩ := by
  induction x with
  | nil =>
    intro previous
    cases rest with
    | nil => rfl
    | cons c rest =>
      have hc := hrest c rfl
      rw [Bool.and_eq_true, bne_iff_ne, Bool.not_eq_true'] at hc
      have hdigit : Lexing.isDigitOfBase c 10 = false := hc.2
      rw [List.nil_append, scanDigitRun, if_neg hc.1, if_neg (by rw [hdigit]; decide)]
      rfl
  | cons c x ih =>
    intro previous
    have hc := hx c List.mem_cons_self
    have hmark : c ≠ ascii '_' := by
      rintro rfl
      exact absurd hc (by decide)
    have hdigit : Lexing.isDigitOfBase c 10 = true := hc
    rw [List.cons_append, scanDigitRun, if_neg hmark, if_pos hdigit,
      ih (fun d hd => hx d (List.mem_cons_of_mem c hd))]
    rfl

theorem byteAt_append (h : x.length = n) (k : Nat) :
    byteAt (x ++ rest) (n + k) = byteAt rest k := by
  unfold byteAt
  rw [List.getD_eq_getElem?_getD, List.getD_eq_getElem?_getD,
    List.getElem?_append_right (by omega), h, Nat.add_sub_cancel_left]

theorem byteAt_zero (rest : Text) : byteAt rest 0 = rest.headD 0 := by
  cases rest <;> rfl

/-- A marker of another base. -/
def isMarker (c : UInt8) : Bool :=
  c ∈ [ascii 'x', ascii 'X', ascii 'b', ascii 'B', ascii 'o', ascii 'O']

theorem markedBase_ten (h : isMarker (byteAt x 1) = false) : Lexing.markedBase x = 10 := by
  unfold isMarker at h
  simp only [List.mem_cons, List.not_mem_nil, or_false, decide_eq_false_iff_not, not_or] at h
  obtain ⟨hx, hX, hb, hB, ho, hO⟩ := h
  unfold Lexing.markedBase
  split
  · rw [if_neg (by simp [hx, hX]), if_neg (by simp [hb, hB]), if_neg (by simp [ho, hO])]
  · rfl

theorem isMarker_second (hne : x ≠ []) (hx : ∀ c ∈ x, isDecimalDigit c = true)
    (hrest : isMarker (rest.headD 0) = false) : isMarker (byteAt (x ++ rest) 1) = false := by
  match x, hne with
  | [c], _ =>
    show isMarker (byteAt rest 0) = false
    rw [byteAt_zero]
    exact hrest
  | c :: d :: x, _ =>
    have hd := hx d (List.mem_cons_of_mem c List.mem_cons_self)
    show isMarker d = false
    by_contra hmarker
    rw [Bool.not_eq_false] at hmarker
    unfold isMarker at hmarker
    simp only [List.mem_cons, List.not_mem_nil, or_false, decide_eq_true_eq] at hmarker
    obtain rfl | rfl | rfl | rfl | rfl | rfl := hmarker <;> exact absurd hd (by decide)

theorem numberLiteral_decimal (hn : n < 2 ^ 64) (hrest : Ends rest) :
    numberLiteral (decimal n ++ rest) false =
      { status := .ok, length := (decimal n).length, integer := UInt64.ofNat n } := by
  have hdigits := decimal_digits n
  have hhead : ∀ {p : UInt8 → Bool}, p 0 = true →
      (p (ascii ',') && p (ascii ']') && p (ascii ')') && p (ascii ' ')) = true →
      p (rest.headD 0) = true := by
    intro p hzero hp
    cases hr : rest with
    | nil => exact hzero
    | cons c tail => exact hrest.head hp c (by rw [hr]; rfl)
  have hmarker : isMarker (rest.headD 0) = false := by
    have := hhead (p := fun c => !isMarker c) (by decide) (by decide)
    simpa using this
  have hbase := markedBase_ten (isMarker_second (decimal_ne_nil n) hdigits hmarker)
  have hrun := scanDigitRun_digits (hrest.head (by decide)) _ hdigits
  have hat : byteAt (decimal n ++ rest) (decimal n).length = rest.headD 0 := by
    rw [← byteAt_zero]
    exact byteAt_append rfl 0
  have hpoint : rest.headD 0 ≠ ascii '.' := by
    simpa using hhead (p := fun c => c != ascii '.') (by decide) (by decide)
  have hexponent : ¬(rest.headD 0 = ascii 'e' ∨ rest.headD 0 = ascii 'E') := by
    simpa using hhead (p := fun c => c != ascii 'e' && c != ascii 'E') (by decide) (by decide)
  have hlength : (decimal n).length < 256 := by
    have := decimal_length (k := 19) (n := n) (Nat.lt_of_lt_of_le hn (by norm_num))
    omega
  have hbuffer : Lexing.literalDigits (decimal n ++ rest) 10 (decimal n).length = decimal n := by
    unfold Lexing.literalDigits
    rw [if_pos rfl, List.drop_zero, List.take_left, List.filter_eq_self]
    intro c hc
    have := hdigits c hc
    rw [decide_eq_true_eq]
    rintro rfl
    exact absurd this (by decide)
  have hpositive : (decimal n).length ≠ 0 := by
    rw [Ne, List.length_eq_zero_iff]
    exact decimal_ne_nil n
  unfold numberLiteral
  simp only [hbase, hrun, if_true, Bool.false_eq_true, if_false]
  unfold Lexing.fractionLiteral
  rw [hat, if_neg (fun h => hpoint h.1)]
  unfold Lexing.exponentLiteral
  rw [hat, if_neg hexponent]
  unfold Lexing.finishLiteral Lexing.numberBuffer
  have hzero : ((decimal n).length == 0) = false := by simpa using hpositive
  simp only [hzero, Bool.or_self, Bool.false_eq_true, if_false, hbuffer, digitsValue_decimal,
    Nat.not_le.mpr hlength, Nat.not_le.mpr hn]

/-! ### Decimals -/

/-- A number in decimal without its sign, as `printf` writes one. -/
structure Decimal where
  whole : Text
  fraction : Text := []
  exponent : Option (Bool × Text) := none
  whole_ne : whole ≠ []
  whole_digits : ∀ c ∈ whole, isDecimalDigit c = true
  fraction_digits : ∀ c ∈ fraction, isDecimalDigit c = true
  exponent_digits : ∀ e ∈ exponent, e.2 ≠ [] ∧ ∀ c ∈ e.2, isDecimalDigit c = true

namespace Decimal

def spelledFraction (x : Decimal) (point : Text) : Text :=
  if x.fraction = [] then [] else point ++ x.fraction

/-- The exponent has its sign written. -/
def spelledExponent (x : Decimal) : Text :=
  match x.exponent with
  | none => []
  | some (negative, digits) => ascii 'e' :: (if negative then ascii '-' else ascii '+') :: digits

def spelled (x : Decimal) (point : Text) : Text :=
  x.whole ++ (x.spelledFraction point ++ x.spelledExponent)

/-- It is seen to be no whole number. -/
def IsReal (x : Decimal) : Prop := x.fraction ≠ [] ∨ x.exponent ≠ none

/-- With a zero behind the point where neither point nor exponent is written. -/
def pointed (x : Decimal) : Decimal :=
  if x.fraction = [] ∧ x.exponent = none then
    { x with fraction := [ascii '0'], fraction_digits := List.forall_mem_singleton.2 (by decide) }
  else x

theorem isReal_pointed (x : Decimal) : x.pointed.IsReal := by
  unfold pointed IsReal
  split
  · exact .inl (List.cons_ne_nil _ _)
  · rename_i h
    rwa [Decidable.not_and_iff_or_not] at h

end Decimal

theorem ne_of_isDecimalDigit {c d : UInt8} (hc : isDecimalDigit c = true)
    (hd : isDecimalDigit d = false) : c ≠ d := by
  rintro rfl
  rw [hc] at hd
  cases hd

theorem finishLiteral_real (hx : ascii '_' ∉ x) (hlength : x.length < 256) :
    Lexing.finishLiteral (x ++ rest) 10 true false x.length =
      { kind := .real, status := .ok, length := x.length, real := x } := by
  have hbuffer : Lexing.literalDigits (x ++ rest) 10 x.length = x := by
    unfold Lexing.literalDigits
    rw [if_pos rfl, List.drop_zero, List.take_left, List.filter_eq_self]
    intro c hc
    rw [decide_eq_true_eq]
    rintro rfl
    exact hx hc
  unfold Lexing.finishLiteral Lexing.numberBuffer
  simp only [Bool.false_eq_true, if_false, Nat.not_le.mpr hlength, if_true, hbuffer]

theorem exponentLiteral_spelled {x : Decimal} {text : Text} (hrest : Ends rest) (isFloat : Bool) :
    Lexing.exponentLiteral (text ++ (x.spelledExponent ++ rest)) isFloat false text.length =
      Lexing.finishLiteral (text ++ (x.spelledExponent ++ rest)) 10
        (isFloat || x.exponent.isSome) false (text ++ x.spelledExponent).length := by
  have hat : ∀ k, byteAt (text ++ (x.spelledExponent ++ rest)) (text.length + k) =
      byteAt (x.spelledExponent ++ rest) k := byteAt_append rfl
  unfold Lexing.exponentLiteral
  rw [← Nat.add_zero text.length, hat 0, Nat.add_zero]
  unfold Decimal.spelledExponent at hat ⊢
  cases hexponent : x.exponent with
  | none =>
    simp only [hexponent] at hat
    obtain ⟨c, tail, rfl, hc⟩ := hrest.cases
    have hno : ¬(byteAt ([] ++ c :: tail) 0 = ascii 'e' ∨
        byteAt ([] ++ c :: tail) 0 = ascii 'E') := by
      show ¬(c = ascii 'e' ∨ c = ascii 'E')
      obtain rfl | rfl | rfl | rfl := hc <;> decide
    rw [if_neg hno, List.append_nil, Option.isSome_none, Bool.or_false]
    rfl
  | some e =>
    obtain ⟨negative, digits⟩ := e
    obtain ⟨hne, hdigits⟩ := x.exponent_digits _ hexponent
    simp only [hexponent] at hat
    have hsign : byteAt (text ++ (ascii 'e' :: (if negative then ascii '-' else ascii '+') ::
        digits ++ rest)) (text.length + 1) = if negative then ascii '-' else ascii '+' := hat 1
    have hdigit : isDecimalDigit (byteAt (text ++ (ascii 'e' ::
        (if negative then ascii '-' else ascii '+') :: digits ++ rest)) (text.length + 2)) =
        true := by
      rw [hat 2]
      obtain ⟨d, tail, rfl⟩ := List.exists_cons_of_ne_nil hne
      exact hdigits d List.mem_cons_self
    have hdrop : (text ++ (ascii 'e' :: (if negative then ascii '-' else ascii '+') :: digits ++
        rest)).drop (text.length + 2) = digits ++ rest := by
      rw [List.drop_append, List.drop_eq_nil_of_le (Nat.le_add_right _ _),
        Nat.add_sub_cancel_left]
      rfl
    have hone : (if byteAt (text ++ (ascii 'e' :: (if negative then ascii '-' else ascii '+') ::
          digits ++ rest)) (text.length + 1) = ascii '+' ∨
        byteAt (text ++ (ascii 'e' :: (if negative then ascii '-' else ascii '+') ::
          digits ++ rest)) (text.length + 1) = ascii '-' then 1 else 0) = 1 := by
      rw [hsign]
      cases negative <;> rfl
    have hrun := scanDigitRun_digits (hrest.head (by decide)) digits hdigits false
    simp only [hone, hdigit, hdrop, hrun, if_true, Bool.or_false, Option.isSome_some, Bool.or_true]
    rw [if_pos (.inl rfl), List.length_append]
    congr 1
    simp only [List.length_cons]
    omega

theorem endsRun_exponent (x : Decimal) (hrest : Ends rest) :
    ∀ c ∈ (x.spelledExponent ++ rest).head?, (c != ascii '_' && !isDecimalDigit c) = true := by
  unfold Decimal.spelledExponent
  split
  · exact hrest.head (by decide)
  · intro c hc
    rw [← Option.some.inj hc]
    decide

theorem fractionLiteral_spelled {x : Decimal} {text : Text} (hrest : Ends rest) :
    Lexing.fractionLiteral
        (text ++ (x.spelledFraction [ascii '.'] ++ (x.spelledExponent ++ rest))) false text.length =
      Lexing.exponentLiteral
        ((text ++ x.spelledFraction [ascii '.']) ++ (x.spelledExponent ++ rest))
        (!x.fraction.isEmpty) false (text ++ x.spelledFraction [ascii '.']).length := by
  have hat : ∀ k, byteAt (text ++ (x.spelledFraction [ascii '.'] ++ (x.spelledExponent ++ rest)))
      (text.length + k) = byteAt (x.spelledFraction [ascii '.'] ++ (x.spelledExponent ++ rest)) k :=
    byteAt_append rfl
  rw [List.append_assoc]
  unfold Lexing.fractionLiteral
  rw [hat 1, ← Nat.add_zero text.length, hat 0, Nat.add_zero]
  unfold Decimal.spelledFraction
  by_cases hfraction : x.fraction = []
  · have hno : byteAt ([] ++ (x.spelledExponent ++ rest)) 0 ≠ ascii '.' := by
      rw [List.nil_append, byteAt_zero]
      unfold Decimal.spelledExponent
      split
      · obtain ⟨c, tail, rfl, hc⟩ := hrest.cases
        show c ≠ ascii '.'
        obtain rfl | rfl | rfl | rfl := hc <;> decide
      · show ascii 'e' ≠ ascii '.'
        decide
    rw [if_pos hfraction, if_neg (fun h => hno h.1), List.append_nil, hfraction]
    rfl
  · obtain ⟨d, tail, hcons⟩ := List.exists_cons_of_ne_nil hfraction
    have hdigit : isDecimalDigit
        (byteAt ([ascii '.'] ++ x.fraction ++ (x.spelledExponent ++ rest)) 1) = true := by
      rw [hcons]
      exact x.fraction_digits d (by rw [hcons]; exact List.mem_cons_self)
    have hdrop : (text ++ ([ascii '.'] ++ x.fraction ++ (x.spelledExponent ++ rest))).drop
        (text.length + 1) = x.fraction ++ (x.spelledExponent ++ rest) := by
      rw [List.drop_append, List.drop_eq_nil_of_le (Nat.le_add_right _ _),
        Nat.add_sub_cancel_left]
      rfl
    have hrun := scanDigitRun_digits (endsRun_exponent x hrest) x.fraction x.fraction_digits false
    rw [if_neg hfraction, if_pos ⟨rfl, hdigit⟩, hdrop, hrun]
    have hempty : x.fraction.isEmpty = false := by rw [hcons]; rfl
    simp only [Bool.or_self, hempty, Bool.not_false]
    congr 1
    rw [List.length_append, List.length_append, List.length_singleton]
    omega

theorem endsRun_fraction (x : Decimal) (hrest : Ends rest) :
    ∀ c ∈ (x.spelledFraction [ascii '.'] ++ (x.spelledExponent ++ rest)).head?,
      (c != ascii '_' && !isDecimalDigit c) = true := by
  unfold Decimal.spelledFraction
  split
  · exact endsRun_exponent x hrest
  · intro c hc
    rw [← Option.some.inj hc]
    decide

theorem mark_notMem_spelled (x : Decimal) : ascii '_' ∉ x.spelled [ascii '.'] := by
  have hdigits : ∀ y : Text, (∀ c ∈ y, isDecimalDigit c = true) → ascii '_' ∉ y :=
    fun y hy hmem => absurd (hy _ hmem) (by decide)
  unfold Decimal.spelled
  simp only [List.mem_append, not_or]
  refine ⟨hdigits _ x.whole_digits, ?_, ?_⟩
  · unfold Decimal.spelledFraction
    split
    · exact List.not_mem_nil
    · simp only [List.mem_append, List.mem_singleton, not_or]
      exact ⟨by decide, hdigits _ x.fraction_digits⟩
  · unfold Decimal.spelledExponent
    split
    · exact List.not_mem_nil
    · rename_i negative digits hexponent
      simp only [List.mem_cons, not_or]
      refine ⟨by decide, ?_, hdigits _ (x.exponent_digits _ hexponent).2⟩
      cases negative <;> decide

theorem numberLiteral_spelled {x : Decimal} (hreal : x.IsReal)
    (hlength : (x.spelled [ascii '.']).length < 256) (hrest : Ends rest) :
    numberLiteral (x.spelled [ascii '.'] ++ rest) false =
      { kind := .real
        status := .ok
        length := (x.spelled [ascii '.']).length
        real := x.spelled [ascii '.'] } := by
  have hsplit : x.spelled [ascii '.'] ++ rest =
      x.whole ++ (x.spelledFraction [ascii '.'] ++ (x.spelledExponent ++ rest)) := by
    unfold Decimal.spelled
    simp only [List.append_assoc]
  have hmarker : isMarker
      ((x.spelledFraction [ascii '.'] ++ (x.spelledExponent ++ rest)).headD 0) = false := by
    unfold Decimal.spelledFraction Decimal.spelledExponent
    split
    · split
      · obtain ⟨c, tail, rfl, hc⟩ := hrest.cases
        show isMarker c = false
        obtain rfl | rfl | rfl | rfl := hc <;> decide
      · show isMarker (ascii 'e') = false
        decide
    · show isMarker (ascii '.') = false
      decide
  have hbase := markedBase_ten (isMarker_second x.whole_ne x.whole_digits hmarker)
  have hrun := scanDigitRun_digits (endsRun_fraction x hrest) x.whole x.whole_digits false
  have hzero : (x.whole.length == 0) = false := by
    simpa using x.whole_ne
  rw [hsplit]
  unfold numberLiteral
  simp only [hbase, hrun, if_true, Bool.false_eq_true, if_false, hzero, Bool.or_self]
  rw [fractionLiteral_spelled hrest, exponentLiteral_spelled hrest]
  have hfloat : (!x.fraction.isEmpty || x.exponent.isSome) = true := by
    obtain h | h := hreal
    · simp [h]
    · simp [Option.isSome_iff_ne_none.mpr h]
  have hwhole : x.whole ++ x.spelledFraction [ascii '.'] ++ x.spelledExponent =
      x.spelled [ascii '.'] := by
    unfold Decimal.spelled
    rw [List.append_assoc]
  rw [hfloat, ← List.append_assoc, hwhole, finishLiteral_real (mark_notMem_spelled x) hlength]

/-! ### The C library -/

/-- What is asked of the C library: `snprintf` with `%.*g`, the decimal point of the locale,
`strtod`, and the `strtod` of where the text is read. `nearest` is the number a decimal is rounded
to. -/
structure Printing where
  printed : Nat → Binary64 → Text
  point : Text
  strtod : Text → Binary64
  source : Text → Binary64
  nearest : Decimal → Binary64

/-- With a minus or not. -/
def signed (negative : Bool) (x : Text) : Text := if negative then ascii '-' :: x else x

/-- With its sign turned over or not. -/
def withSign (negative : Bool) (d : Binary64) : Binary64 := if negative then d.negate else d

/-- What is documented of the library: a finite real is printed in decimal, and with seventeen
digits is read back as itself; a sign is a minus in front; numbers are rounded to the nearest. -/
structure Printing.Sound (c : Printing) : Prop where
  point : ∃ b tail, c.point = b :: tail ∧ isDecimalDigit b = false ∧ b ≠ ascii '-' ∧
    b ≠ ascii '+' ∧ b ≠ ascii 'e'
  shape : ∀ precision d, d.isFinite = true →
    ∃ x : Decimal, c.printed precision d = signed d.isNegative (x.spelled c.point)
  short : ∀ precision d, d.isFinite = true → (c.printed precision d).length < 96
  exact : ∀ d, d.isFinite = true → (c.strtod (c.printed 17 d)).eq d = true
  strtod : ∀ negative (x : Decimal),
    c.strtod (signed negative (x.spelled c.point)) = withSign negative (c.nearest x)
  source : ∀ x : Decimal, c.source (x.spelled [ascii '.']) = c.nearest x
  unsigned : ∀ x, (c.nearest x).isNegative = false
  pointed : ∀ x : Decimal, c.nearest x.pointed = c.nearest x

/-- The loop of `text_value` over the precisions: the first that is read back as the number, or
the last. -/
def shortest (c : Printing) (d : Binary64) : List Nat → Text
  | [] => []
  | [precision] => c.printed precision d
  | precision :: precisions =>
    if (c.strtod (c.printed precision d)).eq d then c.printed precision d
    else shortest c d precisions

/-- The first `point` made a `.`, as `strstr` finds it. -/
def replacePoint (point : Text) : Text → Text
  | [] => []
  | b :: rest =>
    if point.isPrefixOf (b :: rest) then ascii '.' :: (b :: rest).drop point.length
    else b :: replacePoint point rest

/-- The real of `text_value`. -/
def textReal (c : Printing) (d : Binary64) : Text :=
  let number := shortest c d [15, 16, 17]
  let number :=
    if c.point = [] ∨ c.point = [ascii '.'] then number else replacePoint c.point number
  number ++
    if number.any (fun b => b == ascii '.' || b == ascii 'e' || b == ascii 'E') then []
    else [ascii '.', ascii '0']

theorem shortest_spec (hc : c.Sound) {d : Binary64} (hd : d.isFinite = true) :
    ∃ x : Decimal, shortest c d [15, 16, 17] = signed d.isNegative (x.spelled c.point) ∧
      (x.spelled c.point).length < 96 ∧ withSign d.isNegative (c.nearest x) = d := by
  have hsome : ∃ precision, shortest c d [15, 16, 17] = c.printed precision d ∧
      (c.strtod (c.printed precision d)).eq d = true := by
    unfold shortest
    split
    · rename_i h
      exact ⟨15, rfl, h⟩
    · unfold shortest
      split
      · rename_i h
        exact ⟨16, rfl, h⟩
      · exact ⟨17, rfl, hc.exact d hd⟩
  obtain ⟨precision, hshortest, heq⟩ := hsome
  obtain ⟨x, hx⟩ := hc.shape precision d hd
  have hshort := hc.short precision d hd
  rw [hx] at heq hshort
  rw [hc.strtod] at heq
  refine ⟨x, hshortest.trans hx, Nat.lt_of_le_of_lt ?_ hshort, Binary64.eq_of_eq heq ?_⟩
  · unfold signed
    split
    · exact Nat.le_succ _
    · exact Nat.le_refl _
  · unfold withSign
    cases hsign : d.isNegative with
    | false => exact hc.unsigned x
    | true =>
      rw [if_pos rfl, Binary64.isNegative_negate, hc.unsigned]
      rfl

theorem replacePoint_skip {tail : Text} (x : Text) (hx : b ∉ x) :
    replacePoint (b :: tail) (x ++ rest) = x ++ replacePoint (b :: tail) rest := by
  induction x with
  | nil => rfl
  | cons d x ih =>
    rw [List.mem_cons, not_or] at hx
    have hno : (b :: tail).isPrefixOf (d :: (x ++ rest)) = false := by
      rw [List.isPrefixOf_cons_cons, beq_false_of_ne hx.1, Bool.false_and]
    rw [List.cons_append, replacePoint, hno, if_neg Bool.false_ne_true, ih hx.2]
    rfl

theorem replacePoint_point {tail : Text} :
    replacePoint (b :: tail) ((b :: tail) ++ rest) = ascii '.' :: rest := by
  have hyes : (b :: tail).isPrefixOf (b :: (tail ++ rest)) = true := by
    rw [List.isPrefixOf_iff_prefix]
    exact List.prefix_append (b :: tail) rest
  rw [List.cons_append, replacePoint, hyes, if_pos rfl, ← List.cons_append, List.drop_left]

theorem notMem_digits (hb : isDecimalDigit b = false)
    (hx : ∀ c ∈ x, isDecimalDigit c = true) : b ∉ x :=
  fun hmem => ne_of_isDecimalDigit (hx b hmem) hb rfl

theorem replacePoint_spelled (hc : c.Sound) (negative : Bool) (x : Decimal) :
    replacePoint c.point (signed negative (x.spelled c.point)) =
      signed negative (x.spelled [ascii '.']) := by
  obtain ⟨b, tail, hpoint, hdigit, hminus, hplus, hexponent⟩ := hc.point
  have hend : replacePoint (b :: tail) x.spelledExponent = x.spelledExponent := by
    have hno : b ∉ x.spelledExponent := by
      unfold Decimal.spelledExponent
      split
      · exact List.not_mem_nil
      · rename_i sign digits hsome
        simp only [List.mem_cons, not_or]
        refine ⟨hexponent, ?_, notMem_digits hdigit (x.exponent_digits _ hsome).2⟩
        cases sign
        · exact hplus
        · exact hminus
    have := @replacePoint_skip [] b tail _ hno
    rwa [List.append_nil, replacePoint, List.append_nil] at this
  have hwhole : replacePoint (b :: tail) (x.spelled (b :: tail)) = x.spelled [ascii '.'] := by
    unfold Decimal.spelled
    rw [replacePoint_skip _ (notMem_digits hdigit x.whole_digits)]
    congr 1
    unfold Decimal.spelledFraction
    split
    · exact hend
    · rw [List.append_assoc, replacePoint_point]
      have := @replacePoint_skip x.spelledExponent b tail _
        (notMem_digits hdigit x.fraction_digits)
      show ascii '.' :: (x.fraction ++ x.spelledExponent) = _
      rfl
  rw [hpoint]
  unfold signed
  split
  · have hskip := @replacePoint_skip (x.spelled (b :: tail)) b tail [ascii '-']
      (by rwa [List.mem_singleton])
    exact hskip.trans (congrArg _ hwhole)
  · exact hwhole

theorem any_signed (negative : Bool) (x : Decimal) :
    (signed negative (x.spelled [ascii '.'])).any
      (fun b => b == ascii '.' || b == ascii 'e' || b == ascii 'E') =
    !(decide (x.fraction = [] ∧ x.exponent = none)) := by
  have hdigits : ∀ y : Text, (∀ c ∈ y, isDecimalDigit c = true) →
      y.any (fun b => b == ascii '.' || b == ascii 'e' || b == ascii 'E') = false := by
    intro y hy
    rw [List.any_eq_false]
    intro b hb heq
    simp only [Bool.or_eq_true, beq_iff_eq, or_assoc] at heq
    have := hy b hb
    obtain rfl | rfl | rfl := heq <;> exact absurd this (by decide)
  have hsign : (signed negative (x.spelled [ascii '.'])).any
      (fun b => b == ascii '.' || b == ascii 'e' || b == ascii 'E') =
      (x.spelled [ascii '.']).any
        (fun b => b == ascii '.' || b == ascii 'e' || b == ascii 'E') := by
    cases negative <;> rfl
  rw [hsign]
  unfold Decimal.spelled
  rw [List.any_append, List.any_append, hdigits _ x.whole_digits, Bool.false_or]
  unfold Decimal.spelledFraction Decimal.spelledExponent
  by_cases hfraction : x.fraction = []
  · rw [if_pos hfraction]
    cases hexponent : x.exponent with
    | none => simp [hfraction]
    | some e => simp [hfraction]
  · rw [if_neg hfraction]
    simp [hfraction]

theorem textReal_spec (hc : c.Sound) {d : Binary64} (hd : d.isFinite = true) :
    ∃ x : Decimal, x.IsReal ∧ textReal c d = signed d.isNegative (x.spelled [ascii '.']) ∧
      (x.spelled [ascii '.']).length < 256 ∧
      withSign d.isNegative (c.source (x.spelled [ascii '.'])) = d := by
  obtain ⟨x, hshortest, hlength, hread⟩ := shortest_spec hc hd
  have hreplaced : (if c.point = [] ∨ c.point = [ascii '.'] then shortest c d [15, 16, 17]
      else replacePoint c.point (shortest c d [15, 16, 17])) =
      signed d.isNegative (x.spelled [ascii '.']) := by
    obtain ⟨b, tail, hpoint, -⟩ := hc.point
    split
    · rename_i h
      rw [hpoint] at h
      obtain h | h := h
      · cases h
      · rw [hshortest, hpoint, h]
    · rw [hshortest, replacePoint_spelled hc]
  have hpointLength : 1 ≤ c.point.length := by
    obtain ⟨b, tail, hpoint, -⟩ := hc.point
    rw [hpoint]
    exact Nat.succ_le_succ (Nat.zero_le _)
  have hshort : (x.spelled [ascii '.']).length < 96 := by
    unfold Decimal.spelled Decimal.spelledFraction at hlength ⊢
    split at hlength
    · rename_i h
      rwa [if_pos h]
    · rename_i h
      rw [if_neg h]
      simp only [List.length_append, List.length_singleton] at hlength ⊢
      omega
  refine ⟨x.pointed, x.isReal_pointed, ?_, ?_, ?_⟩
  · unfold textReal
    dsimp only
    rw [hreplaced, any_signed]
    unfold Decimal.pointed
    by_cases h : x.fraction = [] ∧ x.exponent = none
    · rw [if_pos h, decide_eq_true h]
      unfold signed Decimal.spelled Decimal.spelledFraction Decimal.spelledExponent
      simp only [h.1, h.2]
      split <;> simp
    · rw [if_neg h, decide_eq_false h]
      exact List.append_nil _
  · unfold Decimal.pointed
    split
    · rename_i h
      unfold Decimal.spelled Decimal.spelledFraction Decimal.spelledExponent at hshort ⊢
      simp only [h.1, h.2] at hshort ⊢
      simp at hshort ⊢
      omega
    · omega
  · rw [hc.source, hc.pointed, hread]

end Lhat.Lton
