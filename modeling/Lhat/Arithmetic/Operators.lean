import Mathlib.Tactic.Linarith
import Mathlib.Tactic.Ring
import Lhat.Foundation.Binary64
import Lhat.Runtime.NumberEqual

/-!
# The arithmetic of 64 bits

The operations of the machine on signed integers, undefined (`none`) where the
language leaves them so, and the three checks of `vm.c` that answer a sum, a
difference or a product only when an integer holds it. The checks compute
through the unsigned type, which wraps: each is the exact operation followed by
the question whether the answer fits (`addExact_eq`, `subtractExact_eq`,
`multiplyExact_eq`).
-/

namespace Lhat.Arithmetic

/-- An integer of 64 bits holds the number. -/
def Fits (z : Int) : Prop := -2 ^ 63 ≤ z ∧ z < 2 ^ 63

instance (z : Int) : Decidable (Fits z) := inferInstanceAs (Decidable (_ ∧ _))

/-- `x / y`: undefined for a zero divisor and for the one quotient that is no
integer. -/
def divide (x y : Int64) : Option Int64 :=
  if y = 0 ∨ x = Int64.minValue ∧ y = -1 then none else some (x / y)

/-- `x % y`: defined where `x / y` is. -/
def remainder (x y : Int64) : Option Int64 :=
  if y = 0 ∨ x = Int64.minValue ∧ y = -1 then none else some (x % y)

/-- `x * y` of two signed integers: undefined when it overflows. -/
def multiply (x y : Int64) : Option Int64 :=
  if Fits (x.toInt * y.toInt) then some (x * y) else none

/-- `add_exact`. -/
def addExact (x y : Int64) : Option Int64 :=
  let wrapped := x.toUInt64 + y.toUInt64
  let sum := wrapped.toInt64
  if ((x ^^^ sum) &&& (y ^^^ sum)) < 0 then none else some sum

/-- `subtract_exact`. -/
def subtractExact (x y : Int64) : Option Int64 :=
  let wrapped := x.toUInt64 - y.toUInt64
  let difference := wrapped.toInt64
  if ((x ^^^ y) &&& (x ^^^ difference)) < 0 then none else some difference

/-- `multiply_exact`; the check divides, and the division has to be defined. -/
def multiplyExact (x y : Int64) : Option (Option Int64) :=
  if x = 0 ∨ y = 0 then some (some 0)
  else
    let wrapped := x.toUInt64 * y.toUInt64
    let product := wrapped.toInt64
    if x = -1 ∧ y = Int64.minValue then some none
    else do
      let back ← divide product x
      if back ≠ y then return none
      return some product

theorem fits_toInt (x : Int64) : Fits x.toInt := ⟨x.le_toInt, x.toInt_lt⟩

theorem toInt_ofInt {z : Int} (hz : Fits z) : (Int64.ofInt z).toInt = z :=
  Int64.toInt_ofInt_of_le hz.1 hz.2

theorem neg_iff_msb (x : Int64) : x < 0 ↔ x.toBitVec.msb = true := by
  rw [Int64.lt_iff_toInt_lt, BitVec.msb_eq_toInt]
  simp

theorem xor_neg (x y : Int64) : (x ^^^ y) < 0 ↔ ¬ (x < 0 ↔ y < 0) := by
  rw [neg_iff_msb, neg_iff_msb, neg_iff_msb, Int64.toBitVec_xor, BitVec.msb_xor]
  cases x.toBitVec.msb <;> cases y.toBitVec.msb <;> decide

theorem and_neg (x y : Int64) : (x &&& y) < 0 ↔ x < 0 ∧ y < 0 := by
  simp [neg_iff_msb, Int64.toBitVec_and, BitVec.msb_and]

theorem lt_zero_iff (x : Int64) : x < 0 ↔ x.toInt < 0 := Int64.lt_iff_toInt_lt

theorem eq_ofInt_of_bmod {a : Int64} {z : Int} (h : a.toInt = z.bmod (2 ^ 64)) :
    a = Int64.ofInt z := by
  rw [← Int64.toInt_inj, h, Int64.toInt_ofInt]
  rfl

theorem bmod_cases {z : Int} (hlow : -2 ^ 64 ≤ z) (hhigh : z < 2 ^ 64) :
    (z.bmod (2 ^ 64) = z ∧ -2 ^ 63 ≤ z ∧ z < 2 ^ 63) ∨
      (z.bmod (2 ^ 64) = z - 2 ^ 64 ∧ 2 ^ 63 ≤ z) ∨ (z.bmod (2 ^ 64) = z + 2 ^ 64 ∧ z < -2 ^ 63) := by
  rw [Int.bmod_def]
  split <;> omega

theorem bmod_of_fits {z : Int} (hz : Fits z) : z.bmod (2 ^ 64) = z := by
  unfold Fits at hz
  rcases bmod_cases (z := z) (by omega) (by omega) with h | h | h
  · exact h.1
  · omega
  · omega

theorem addExact_eq (x y : Int64) :
    addExact x y =
      if Fits (x.toInt + y.toInt) then some (Int64.ofInt (x.toInt + y.toInt)) else none := by
  have hsum : (x.toUInt64 + y.toUInt64).toInt64 = x + y := rfl
  have hval : (x + y).toInt = (x.toInt + y.toInt).bmod (2 ^ 64) := Int64.toInt_add x y
  have hx := fits_toInt x
  have hy := fits_toInt y
  have hwrap : ((x ^^^ (x + y)) &&& (y ^^^ (x + y))) < 0 ↔ ¬ Fits (x.toInt + y.toInt) := by
    rw [and_neg, xor_neg, xor_neg, lt_zero_iff, lt_zero_iff, lt_zero_iff, hval]
    unfold Fits at *
    rcases bmod_cases (z := x.toInt + y.toInt) (by omega) (by omega) with h | h | h <;> omega
  simp only [addExact, hsum, hwrap]
  rw [eq_ofInt_of_bmod hval]
  split <;> simp_all

theorem subtractExact_eq (x y : Int64) :
    subtractExact x y =
      if Fits (x.toInt - y.toInt) then some (Int64.ofInt (x.toInt - y.toInt)) else none := by
  have hdiff : (x.toUInt64 - y.toUInt64).toInt64 = x - y := rfl
  have hval : (x - y).toInt = (x.toInt - y.toInt).bmod (2 ^ 64) := Int64.toInt_sub x y
  have hx := fits_toInt x
  have hy := fits_toInt y
  have hwrap : ((x ^^^ y) &&& (x ^^^ (x - y))) < 0 ↔ ¬ Fits (x.toInt - y.toInt) := by
    rw [and_neg, xor_neg, xor_neg, lt_zero_iff, lt_zero_iff, lt_zero_iff, hval]
    unfold Fits at *
    rcases bmod_cases (z := x.toInt - y.toInt) (by omega) (by omega) with h | h | h <;> omega
  simp only [subtractExact, hdiff, hwrap]
  rw [eq_ofInt_of_bmod hval]
  split <;> simp_all

theorem toInt_minValue : Int64.minValue.toInt = -2 ^ 63 := by decide

theorem eq_iff_toInt {x y : Int64} : x = y ↔ x.toInt = y.toInt := Int64.toInt_inj.symm

theorem divide_defined {x y : Int64} (hy : y ≠ 0) (hxy : ¬ (x = Int64.minValue ∧ y = -1)) :
    ∃ q, divide x y = some q ∧ q.toInt = x.toInt.tdiv y.toInt := by
  refine ⟨x / y, ?_, ?_⟩
  · rw [divide, if_neg (by grind)]
  · by_cases hx : x = Int64.minValue
    · exact Int64.toInt_div_of_ne_right x y fun h => hxy ⟨hx, h⟩
    · exact Int64.toInt_div_of_ne_left x y hx

theorem remainder_defined {x y : Int64} (hy : y ≠ 0) (hxy : ¬ (x = Int64.minValue ∧ y = -1)) :
    ∃ r, remainder x y = some r ∧ r.toInt = x.toInt.tmod y.toInt :=
  ⟨x % y, by rw [remainder, if_neg (by grind)], Int64.toInt_mod x y⟩

/-- Dividing a wrapped product back finds the other factor only when it did not
wrap: the rest is smaller than the divisor, and a wrap is `2 ^ 64` at least. -/
theorem product_of_back {x y p : Int} (hx : Fits x) (hp : Fits p)
    (hwrap : p = (x * y).bmod (2 ^ 64)) (hback : p.tdiv x = y) : p = x * y := by
  have hsplit := Int.mul_tdiv_add_tmod p x
  have hrest : (p.tmod x).natAbs ≤ 2 ^ 63 := by
    rw [Int.natAbs_tmod]
    unfold Fits at hx hp
    rcases Nat.eq_zero_or_pos x.natAbs with hzero | hpos
    · rw [hzero, Nat.mod_zero]
      omega
    · have := Nat.mod_lt p.natAbs hpos
      omega
  have hdvd : (2 ^ 64 : Int) ∣ p - x * y := by
    rw [hwrap]
    exact Int.dvd_bmod_sub_self
  rw [hback] at hsplit
  obtain ⟨k, hk⟩ := hdvd
  omega

theorem multiplyExact_eq (x y : Int64) :
    multiplyExact x y =
      some (if Fits (x.toInt * y.toInt) then some (Int64.ofInt (x.toInt * y.toInt)) else none) := by
  have hval : (x * y).toInt = (x.toInt * y.toInt).bmod (2 ^ 64) := Int64.toInt_mul x y
  have hprod : (x.toUInt64 * y.toUInt64).toInt64 = x * y := rfl
  unfold multiplyExact
  split
  · next hzero =>
      have hz : x.toInt * y.toInt = 0 := by
        rcases hzero with rfl | rfl <;> simp
      rw [hz, if_pos (by decide)]
      rfl
  · next hzero =>
      rw [not_or] at hzero
      simp only [hprod]
      split
      · next hend =>
          obtain ⟨rfl, rfl⟩ := hend
          rw [if_neg (by decide)]
      · next hend =>
          have hmin : ¬ (x * y = Int64.minValue ∧ x = -1) := by
            rintro ⟨hp, rfl⟩
            rw [eq_iff_toInt, hval, toInt_minValue] at hp
            have hy := fits_toInt y
            have hne : y.toInt ≠ -2 ^ 63 := fun h =>
              hend ⟨rfl, eq_iff_toInt.2 (h.trans toInt_minValue.symm)⟩
            unfold Fits at hy
            rw [show (-1 : Int64).toInt = -1 from rfl] at hp
            rcases bmod_cases (z := -1 * y.toInt) (by omega) (by omega) with h | h | h <;> omega
          obtain ⟨q, hq, hqval⟩ := divide_defined hzero.1 hmin
          have hback : q = y ↔ Fits (x.toInt * y.toInt) := by
            rw [eq_iff_toInt, hqval]
            constructor
            · intro h
              rw [← product_of_back (fits_toInt x) (fits_toInt (x * y)) hval h]
              exact fits_toInt (x * y)
            · intro hfit
              have hx : x.toInt ≠ 0 := fun h => hzero.1 (eq_iff_toInt.2 h)
              rw [hval, bmod_of_fits hfit, Int.mul_tdiv_cancel_left _ hx]
          simp only [hq, Option.bind_eq_bind, Option.bind_some]
          rw [eq_ofInt_of_bmod hval]
          by_cases hfit : Fits (x.toInt * y.toInt)
          · rw [if_neg (not_not_intro (hback.2 hfit)), if_pos hfit]
            rfl
          · rw [if_pos (mt hback.1 hfit), if_neg hfit]
            rfl

end Lhat.Arithmetic

/-!
# The operators of numbers

`arithmetic` of `vm.c`: two integers stay integers while an integer holds the
answer and widen to a real when it does not. What it computes with the machine's
signed arithmetic is undefined where the language leaves that so, which is
`none`; the status it stops with is `Except`'s. The reals are those of binary64,
and `pow` is whatever the C library has, as far as its answers are told (`Pow`).
-/

namespace Lhat.Arithmetic

/-- The instructions `arithmetic` has a case for. -/
inductive Operator where
  | add | sub | mul | div | idiv | mod | pow
deriving DecidableEq, Repr

/-- What `arithmetic` leaves in `status`. -/
inductive LhatRunStatus where
  | typeError
deriving DecidableEq, Repr

/-- `pow` of the C library, as far as what it answers is told. -/
structure Pow where
  pow : Binary64 → Binary64 → Binary64
  pow_zero_base : ∀ a b, a.isFinite = true → a.scaled = 0 → b.isNan = false → 0 < b.scaled →
    (pow a b).isFinite = true ∧ (pow a b).scaled = 0
  pow_one_base : ∀ b, pow (Binary64.ofInt 1) b = Binary64.ofInt 1
  pow_negative_one : ∀ (b : Binary64) (n : Int), b.isFinite = true → b.scaled = n * 2 ^ 1074 →
    pow (Binary64.ofInt (-1)) b = if Even n then Binary64.ofInt 1 else Binary64.ofInt (-1)

/-- What is told of `pow` and `NaN` elsewhere. -/
def leastPow (a b : Binary64) : Binary64 :=
  if a.isFinite ∧ a.scaled = 0 then Binary64.ofInt 0
  else if a = Binary64.ofInt 1 then Binary64.ofInt 1
  else if a = Binary64.ofInt (-1) ∧ b.isFinite ∧ 2 ^ 1074 ∣ b.scaled then
    if Even (b.scaled / 2 ^ 1074) then Binary64.ofInt 1 else Binary64.ofInt (-1)
  else Binary64.nan

theorem scaled_ofInt_zero : (Binary64.ofInt 0).scaled = 0 :=
  (Binary64.scaled_ofInt_eq_zero (by norm_num) (by norm_num)).2 rfl

theorem scaled_ofInt_ne_zero {i : Int} (hlow : -2 ^ 63 ≤ i) (hhigh : i < 2 ^ 63) (hi : i ≠ 0) :
    ¬ ((Binary64.ofInt i).isFinite = true ∧ (Binary64.ofInt i).scaled = 0) :=
  fun h => hi ((Binary64.scaled_ofInt_eq_zero hlow hhigh).1 h.2)

instance : Inhabited Pow where
  default :=
    { pow := leastPow
      pow_zero_base := fun a b ha hzero _ _ => by
        rw [leastPow, if_pos ⟨ha, hzero⟩]
        exact ⟨Binary64.isFinite_ofInt (by norm_num) (by norm_num), scaled_ofInt_zero⟩
      pow_one_base := fun b => by
        rw [leastPow, if_neg (scaled_ofInt_ne_zero (by norm_num) (by norm_num) (by norm_num)),
          if_pos rfl]
      pow_negative_one := fun b n hb hn => by
        have hne : Binary64.ofInt (-1) ≠ Binary64.ofInt 1 := by decide +kernel
        have hunit : (2 : Int) ^ 1074 ≠ 0 := by positivity
        rw [leastPow, if_neg (scaled_ofInt_ne_zero (by norm_num) (by norm_num) (by norm_num)),
          if_neg hne, if_pos ⟨rfl, hb, hn ▸ Int.dvd_mul_left _ _⟩, hn,
          Int.mul_ediv_cancel _ hunit] }

/-- `lhat_number_as_real`. -/
def lhatNumberAsReal : LhatValue → Binary64
  | .integer i => Binary64.ofInt i.toInt
  | .real d => d
  | _ => Binary64.ofInt 0

def isNumber : LhatValue → Bool
  | .integer _ => true
  | .real _ => true
  | _ => false

/-- `r *= base`, so many times, in integers. -/
def integerPower (base : Int64) : Nat → Int64 → Option Int64
  | 0, r => some r
  | times + 1, r => do integerPower base times (← multiply r base)

/-- `r *= base`, so many times, in reals. -/
def realPower (base : Binary64) : Nat → Binary64 → Binary64
  | 0, r => r
  | times + 1, r => realPower base times (r.mul base)

/-- `0.00000001`. -/
def smallBase : Binary64 := ⟨4487126258331716666⟩

/-- The cases of `//` and `%`. -/
def floorDivision (op : Operator) (left right : LhatValue) : Option LhatValue :=
  let a := lhatNumberAsReal left
  let b := lhatNumberAsReal right
  let widened :=
    let floored := (a.div b).floor
    LhatValue.real (if op = .idiv then floored else a.sub (floored.mul b))
  match left, right with
  | .integer x, .integer y =>
    if b.eq (Binary64.ofInt 0) then some widened
    else do
      let quotient ← divide x y
      let remainder ← remainder x y
      -- Floor rather than truncate, so that `%` agrees in sign with the divisor.
      let crossed := remainder ≠ 0 ∧ decide (remainder < 0) ≠ decide (y < 0)
      let quotient := if crossed then quotient - 1 else quotient
      let remainder := if crossed then remainder + y else remainder
      return .integer (if op = .idiv then quotient else remainder)
  | _, _ => some widened

/-- The case of `**`. -/
def power (m : Pow) (left right : LhatValue) : Option LhatValue :=
  let a := lhatNumberAsReal left
  let b := lhatNumberAsReal right
  let general := LhatValue.real (m.pow a b)
  match right with
  | .integer times =>
    if times = 0 then some (.integer 1)
    else
      let generic :=
        if smallBase.lt a.fabs ∧ times ≤ 100 ∧ -100 ≤ times then
          let r := realPower a times.toInt.natAbs (Binary64.ofInt 1)
          LhatValue.real (if times < 0 then (Binary64.ofInt 1).div r else r)
        else general
      match left with
      | .integer base =>
        if 0 < times ∧ times ≤ 100 then
          if base = 0 then some (.integer 0)
          else (integerPower base times.toInt.natAbs 1).map .integer
        else some generic
      | _ => some generic
  | _ => some general

/-- `arithmetic`. -/
def arithmetic (m : Pow) (op : Operator) (left right : LhatValue) :
    Option (Except LhatRunStatus LhatValue) :=
  if !isNumber left || !isNumber right then some (.error .typeError)
  else
    let a := lhatNumberAsReal left
    let b := lhatNumberAsReal right
    let exactly (answer : Int64 → Int64 → Option (Option Int64)) (widened : Binary64) :
        Option (Except LhatRunStatus LhatValue) :=
      match left, right with
      | .integer x, .integer y => do
        match ← answer x y with
        | some whole => return .ok (.integer whole)
        | none => return .ok (.real widened)
      | _, _ => some (.ok (.real widened))
    match op with
    | .add => exactly (fun x y => some (addExact x y)) (a.add b)
    | .sub => exactly (fun x y => some (subtractExact x y)) (a.sub b)
    | .mul => exactly multiplyExact (a.mul b)
    | .div => some (.ok (.real (a.div b)))
    | .idiv => (floorDivision .idiv left right).map .ok
    | .mod => (floorDivision .mod left right).map .ok
    | .pow => (power m left right).map .ok

end Lhat.Arithmetic
