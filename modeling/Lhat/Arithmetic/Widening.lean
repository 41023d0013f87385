import Lhat.Arithmetic.Operators
import Mathlib.Data.Rat.Floor

/-!
# Exact or wider

An operator of two integers answers the integer it means when 64 bits hold it and
a real when they do not. The three that are checked always do (`arithmetic_exact`
has no exception among them). `//` and `%` divide by the machine's instruction,
which has no answer for `INT64_MIN` and `-1`; the small powers multiply without
looking; and a large power of `-1` is asked of a real that has lost the last bit
of the exponent.
-/

namespace Lhat.Arithmetic

variable {y x : Int64} {m : Pow} {op : Operator}

/-- The integer an operator means, where it means one. -/
def exactValue : Operator → Int → Int → Option Int
  | .add, x, y => some (x + y)
  | .sub, x, y => some (x - y)
  | .mul, x, y => some (x * y)
  | .div, _, _ => none
  | .idiv, x, y => if y = 0 then none else some (x.fdiv y)
  | .mod, x, y => if y = 0 then none else some (x.fmod y)
  | .pow, x, y => if y < 0 then none else some (x ^ y.toNat)

/-- The number meant is answered when an integer holds it, a real otherwise, and
nothing on the way is undefined. -/
def AnswersExactly (m : Pow) (op : Operator) (x y : Int64) : Prop :=
  ∀ z, exactValue op x.toInt y.toInt = some z →
    ∃ v, arithmetic m op (.integer x) (.integer y) = some (.ok v) ∧
      if Fits z then Names v (Int64.ofInt z) ∧ (op ≠ .pow → v = .integer (Int64.ofInt z))
      else ∃ d, v = .real d

/-- The operands an operator is not checked at. -/
def Unchecked (op : Operator) (x y : Int64) : Prop :=
  match op with
  | .idiv | .mod => x = Int64.minValue ∧ y = -1
  | .pow =>
    (1 ≤ y.toInt ∧ y.toInt ≤ 100 ∧ ¬ Fits (x.toInt ^ y.toInt.toNat)) ∨
      (x = -1 ∧ 2 ^ 53 < y.toInt ∧ Odd y.toInt)
  | _ => False

theorem floor_of_truncated {x y q r : Int} (hy : y ≠ 0) (hq : q = x.tdiv y) (hr : r = x.tmod y) :
    (if r ≠ 0 ∧ decide (r < 0) ≠ decide (y < 0) then q - 1 else q) = x.fdiv y ∧
      (if r ≠ 0 ∧ decide (r < 0) ≠ decide (y < 0) then r + y else r) = x.fmod y := by
  have hsplit : y * q + r = x := by rw [hq, hr, Int.mul_tdiv_add_tmod]
  have hrest : r.natAbs < y.natAbs := by
    rw [hr, Int.natAbs_tmod]
    exact Nat.mod_lt _ (Int.natAbs_pos.2 hy)
  by_cases hcross : r ≠ 0 ∧ decide (r < 0) ≠ decide (y < 0)
  · rw [if_pos hcross, if_pos hcross, eq_comm (b := x.fdiv y), eq_comm (b := x.fmod y)]
    have hback : r + y + y * (q - 1) = x := by linarith
    rw [ne_eq, ne_eq, decide_eq_decide] at hcross
    rcases Int.lt_or_gt_of_ne hy with hneg | hpos
    · exact (Int.fdiv_fmod_unique' hneg).2 ⟨hback, by omega, by omega⟩
    · exact (Int.fdiv_fmod_unique hpos).2 ⟨hback, by omega, by omega⟩
  · rw [if_neg hcross, if_neg hcross, eq_comm (b := x.fdiv y), eq_comm (b := x.fmod y)]
    have hback : r + y * q = x := by linarith
    rw [not_and, ne_eq, ne_eq, not_not, decide_eq_decide] at hcross
    rcases Int.lt_or_gt_of_ne hy with hneg | hpos
    · exact (Int.fdiv_fmod_unique' hneg).2 ⟨hback, by omega, by omega⟩
    · exact (Int.fdiv_fmod_unique hpos).2 ⟨hback, by omega, by omega⟩

theorem toInt_ne_zero (hy : y ≠ 0) : y.toInt ≠ 0 := fun h => hy (eq_iff_toInt.2 h)

theorem divisor_eq_zero (y : Int64) :
    (Binary64.ofInt y.toInt).eq (Binary64.ofInt 0) = true ↔ y = 0 := by
  simp only [Binary64.eq, Binary64.isNan_ofInt, Bool.not_false, Bool.true_and, decide_eq_true_eq,
    scaled_ofInt_zero]
  rw [Binary64.scaled_ofInt_eq_zero y.le_toInt y.toInt_lt, eq_iff_toInt]
  rfl

theorem natAbs_tdiv_half {x y : Int} (hx : Fits x) (hy : 2 ≤ y.natAbs) :
    (x.tdiv y).natAbs ≤ 2 ^ 62 := by
  unfold Fits at hx
  rw [Int.natAbs_tdiv]
  calc x.natAbs / y.natAbs ≤ x.natAbs / 2 := Nat.div_le_div_left hy (by norm_num)
    _ ≤ 2 ^ 63 / 2 := Nat.div_le_div_right (by omega)
    _ = 2 ^ 62 := by norm_num

theorem natAbs_tmod_lt {x y : Int} (hy : y ≠ 0) : (x.tmod y).natAbs < y.natAbs := by
  rw [Int.natAbs_tmod]
  exact Nat.mod_lt _ (Int.natAbs_pos.2 hy)

theorem fits_floored {x y : Int} (hx : Fits x) (hyfits : Fits y) (hy : y ≠ 0) :
    Fits (x.fmod y) ∧ (Fits (x.fdiv y) ↔ ¬ (x = -2 ^ 63 ∧ y = -1)) := by
  obtain ⟨hquot, hmod⟩ := floor_of_truncated hy (x := x) rfl rfl
  have hrest := natAbs_tmod_lt (x := x) hy
  have hsplit := Int.mul_tdiv_add_tmod x y
  rw [← hquot, ← hmod]
  by_cases htwo : 2 ≤ y.natAbs
  · have hhalf := natAbs_tdiv_half hx htwo
    by_cases h : x.tmod y ≠ 0 ∧ decide (x.tmod y < 0) ≠ decide (y < 0)
    · rw [if_pos h, if_pos h]
      rw [ne_eq, ne_eq, decide_eq_decide] at h
      unfold Fits at *
      omega
    · rw [if_neg h, if_neg h]
      unfold Fits at *
      omega
  · have hzero : x.tmod y = 0 := by omega
    have hnot : ¬ (x.tmod y ≠ 0 ∧ decide (x.tmod y < 0) ≠ decide (y < 0)) := fun h => h.1 hzero
    rw [if_neg hnot, if_neg hnot, hzero]
    obtain rfl | rfl : y = 1 ∨ y = -1 := by omega
    · rw [Int.tdiv_one]
      unfold Fits at *
      omega
    · rw [Int.tdiv_neg, Int.tdiv_one]
      unfold Fits at *
      omega

theorem floorDivision_integers (hy : y ≠ 0)
    (hxy : ¬ (x = Int64.minValue ∧ y = -1)) :
    floorDivision op (.integer x) (.integer y) =
      some (.integer (Int64.ofInt
        (if op = .idiv then x.toInt.fdiv y.toInt else x.toInt.fmod y.toInt))) := by
  obtain ⟨q, hq, hqval⟩ := divide_defined hy hxy
  obtain ⟨r, hr, hrval⟩ := remainder_defined hy hxy
  obtain ⟨hquot, hmod⟩ := floor_of_truncated (toInt_ne_zero hy) hqval hrval
  have hcross : (r ≠ 0 ∧ decide (r < 0) ≠ decide (y < 0)) ↔
      (r.toInt ≠ 0 ∧ decide (r.toInt < 0) ≠ decide (y.toInt < 0)) := by
    rw [ne_eq, eq_iff_toInt]
    simp only [lt_zero_iff]
    rfl
  simp only [floorDivision, lhatNumberAsReal, if_neg (mt (divisor_eq_zero y).1 hy), hq, hr,
    Option.bind_eq_bind, Option.bind_some, hcross, ← hquot, ← hmod]
  congr 2
  by_cases h : r.toInt ≠ 0 ∧ decide (r.toInt < 0) ≠ decide (y.toInt < 0)
  · simp only [if_pos h]
    split
    · exact eq_ofInt_of_bmod (Int64.toInt_sub q 1)
    · exact eq_ofInt_of_bmod (Int64.toInt_add r y)
  · simp only [if_neg h]
    split
    · rw [Int64.ofInt_toInt]
    · rw [Int64.ofInt_toInt]

theorem floorDivision_unchecked
    (hxy : x = Int64.minValue ∧ y = -1) : floorDivision op (.integer x) (.integer y) = none := by
  obtain ⟨rfl, rfl⟩ := hxy
  have hne : ¬ (Binary64.ofInt (-1 : Int64).toInt).eq (Binary64.ofInt 0) = true :=
    mt (divisor_eq_zero (-1)).1 (by decide)
  have hdiv : divide Int64.minValue (-1) = none := by decide
  simp only [floorDivision, lhatNumberAsReal, if_neg hne, hdiv]
  rfl

theorem floorDivision_by_zero (op : Operator) (x : Int64) :
    ∃ d, floorDivision op (.integer x) (.integer 0) = some (.real d) := by
  simp only [floorDivision, lhatNumberAsReal]
  exact ⟨_, if_pos ((divisor_eq_zero 0).2 rfl)⟩

theorem fits_pow {base : Int} (hbase : base ≠ 0) {k n : Nat} (hkn : k ≤ n)
    (hfit : Fits (base ^ n)) : Fits (base ^ k) := by
  rcases Nat.eq_or_lt_of_le hkn with rfl | hlt
  · exact hfit
  have hone : 1 ≤ base.natAbs := Int.natAbs_pos.2 hbase
  have hn : (base ^ n).natAbs ≤ 2 ^ 63 := by
    unfold Fits at hfit
    omega
  have hk : (base ^ k).natAbs ≤ 2 ^ 62 := by
    rw [Int.natAbs_pow] at hn ⊢
    rcases Nat.lt_or_ge 1 base.natAbs with htwo | hle
    · have hnext : base.natAbs ^ (k + 1) ≤ base.natAbs ^ n := Nat.pow_le_pow_right hone hlt
      have hstep : base.natAbs ^ k * 2 ≤ base.natAbs ^ (k + 1) := by
        rw [pow_succ]
        exact Nat.mul_le_mul_left _ htwo
      omega
    · rw [show base.natAbs = 1 by omega, one_pow]
      norm_num
  unfold Fits
  omega

theorem toInt_multiply (hfit : Fits (x.toInt * y.toInt)) :
    multiply x y = some (x * y) ∧ (x * y).toInt = x.toInt * y.toInt := by
  refine ⟨if_pos hfit, ?_⟩
  rw [Int64.toInt_mul, bmod_of_fits hfit]

theorem integerPower_eq {base : Int64} (hbase : base ≠ 0) (times : Nat) {k : Nat} {r : Int64}
    (hr : r.toInt = base.toInt ^ k) :
    integerPower base times r =
      if Fits (base.toInt ^ (k + times)) then some (Int64.ofInt (base.toInt ^ (k + times)))
      else none := by
  induction times generalizing k r with
  | zero =>
    rw [integerPower, Nat.add_zero, ← hr, if_pos (fits_toInt r), Int64.ofInt_toInt]
  | succ times ih =>
    have hnext : r.toInt * base.toInt = base.toInt ^ (k + 1) := by rw [hr, pow_succ]
    rw [integerPower, show k + (times + 1) = k + 1 + times by omega]
    by_cases hfit : Fits (r.toInt * base.toInt)
    · obtain ⟨hmul, hval⟩ := toInt_multiply hfit
      rw [hmul, Option.bind_eq_bind, Option.bind_some]
      exact ih (hval.trans hnext)
    · have hlater : ¬ Fits (base.toInt ^ (k + 1 + times)) := fun h =>
        hfit (hnext ▸ fits_pow (toInt_ne_zero hbase) (Nat.le_add_right _ _) h)
      rw [if_neg hlater, multiply, if_neg hfit]
      rfl

theorem not_fits_large {x : Int} {n : Nat} (hn : 100 < n) (hx : 2 ≤ x.natAbs) : ¬ Fits (x ^ n) := by
  intro hfit
  have hlarge : 2 ^ 64 ≤ (x ^ n).natAbs := by
    rw [Int.natAbs_pow]
    calc 2 ^ 64 ≤ 2 ^ n := Nat.pow_le_pow_right (by norm_num) (by omega)
      _ ≤ x.natAbs ^ n := Nat.pow_le_pow_left hx n
  unfold Fits at hfit
  omega

theorem names_ofInt {d : Binary64} {z : Int} (hz : Fits z) (hd : EqualsInteger d z) :
    Names (.real d) (Int64.ofInt z) := by
  rw [Names, toInt_ofInt hz]
  exact hd

theorem equalsInteger_ofInt {i : Int} (hlow : -2 ^ 53 ≤ i) (hhigh : i ≤ 2 ^ 53) :
    EqualsInteger (Binary64.ofInt i) i :=
  ⟨Binary64.isFinite_ofInt (by omega) (by omega), toRat_whole (Binary64.scaled_ofInt_short hlow hhigh)⟩

theorem equalsInteger_unique {d : Binary64} {n k : Int} (hn : EqualsInteger d n)
    (hk : EqualsInteger d k) : n = k := by
  have := hn.2.symm.trans hk.2
  exact_mod_cast this

theorem neg_one_pow_toNat {y : Int} (hy : 0 ≤ y) :
    (-1 : Int) ^ y.toNat = if Even y then 1 else -1 := by
  obtain ⟨n, rfl⟩ := Int.eq_ofNat_of_zero_le hy
  rw [Int.toNat_natCast]
  rcases Nat.even_or_odd n with heven | hodd
  · rw [heven.neg_one_pow, if_pos ((Int.even_coe_nat n).2 heven)]
  · rw [hodd.neg_one_pow, if_neg (by rwa [Int.even_coe_nat, Nat.not_even_iff_odd])]

theorem power_of_large (m : Pow) (hy : 100 < y.toInt) :
    power m (.integer x) (.integer y) =
      some (.real (m.pow (Binary64.ofInt x.toInt) (Binary64.ofInt y.toInt))) := by
  have hzero : y ≠ 0 := fun h => by
    rw [h] at hy
    exact absurd hy (by decide)
  have hmost : ¬ y ≤ 100 := fun h => absurd (Int64.le_iff_toInt_le.1 h) (not_le.2 hy)
  simp only [power, lhatNumberAsReal, if_neg hzero, hmost, and_false, false_and, if_false]

theorem large_power (m : Pow) (hy : 100 < y.toInt) (hfit : Fits (x.toInt ^ y.toInt.toNat)) :
    EqualsInteger (m.pow (Binary64.ofInt x.toInt) (Binary64.ofInt y.toInt))
        (x.toInt ^ y.toInt.toNat) ↔ ¬ (x = -1 ∧ 2 ^ 53 < y.toInt ∧ Odd y.toInt) := by
  have hfinite := Binary64.isFinite_ofInt y.le_toInt y.toInt_lt
  have hn : y.toInt.toNat ≠ 0 := by omega
  have hbase : x.toInt = 0 ∨ x.toInt = 1 ∨ x.toInt = -1 := by
    by_contra hother
    exact not_fits_large (by omega) (by omega) hfit
  have hnot : ∀ z : Int, x.toInt = z → z ≠ -1 →
      ¬ (x = -1 ∧ 2 ^ 53 < y.toInt ∧ Odd y.toInt) := by
    rintro z hx hz ⟨rfl, -⟩
    exact hz hx.symm
  rcases hbase with hx | hx | hx
  · have hpos : 0 < (Binary64.ofInt y.toInt).scaled := by
      rcases Int.le_total y.toInt (2 ^ 53) with hshort | hlong
      · rw [Binary64.scaled_ofInt_short (by omega) hshort]
        exact Int.mul_pos (by omega) (by positivity)
      · obtain ⟨n, -, hlow, hval⟩ := Binary64.scaled_ofInt_even hlong (by have := y.toInt_lt; omega)
        rw [hval]
        exact Int.mul_pos (by omega) (by positivity)
    obtain ⟨hfin, hval⟩ := m.pow_zero_base (Binary64.ofInt 0) (Binary64.ofInt y.toInt)
      (equalsInteger_ofInt (by norm_num) (by norm_num)).1
      scaled_ofInt_zero
      (Binary64.isNan_ofInt _) hpos
    rw [hx, zero_pow hn]
    refine iff_of_true ⟨hfin, toRat_whole ?_⟩ (hnot 0 hx (by norm_num))
    rw [hval, Int.zero_mul]
  · rw [hx, m.pow_one_base, one_pow]
    exact iff_of_true (equalsInteger_ofInt (by norm_num) (by norm_num)) (hnot 1 hx (by norm_num))
  · have hx' : x = -1 := eq_iff_toInt.2 hx
    have hone : EqualsInteger (Binary64.ofInt 1) 1 := equalsInteger_ofInt (by norm_num) (by norm_num)
    have hneg : EqualsInteger (Binary64.ofInt (-1)) (-1) :=
      equalsInteger_ofInt (by norm_num) (by norm_num)
    rw [hx, neg_one_pow_toNat (by omega)]
    rcases lt_or_ge (2 ^ 53) y.toInt with hlong | hshort
    · obtain ⟨n, heven, -, hval⟩ :=
        Binary64.scaled_ofInt_even hlong.le (by have := y.toInt_lt; omega)
      rw [m.pow_negative_one _ n hfinite hval, if_pos heven]
      by_cases hy : Even y.toInt
      · rw [if_pos hy]
        exact iff_of_true hone fun h => Int.not_even_iff_odd.2 h.2.2 hy
      · rw [if_neg hy]
        refine iff_of_false (fun h => ?_) (not_not_intro ⟨hx', hlong, Int.not_even_iff_odd.1 hy⟩)
        exact absurd (equalsInteger_unique h hone) (by norm_num)
    · have hval := Binary64.scaled_ofInt_short (i := y.toInt) (by omega) hshort
      rw [m.pow_negative_one _ _ hfinite hval]
      refine iff_of_true ?_ fun h => not_lt.2 hshort h.2.1
      split
      · exact hone
      · exact hneg

theorem names_integer (z : Int) : Names (.integer (Int64.ofInt z)) (Int64.ofInt z) := rfl

theorem answersExactly_of_check {z : Int}
    (widened : Binary64) (hz : exactValue op x.toInt y.toInt = some z)
    (hanswer : arithmetic m op (.integer x) (.integer y) =
      some (.ok (if Fits z then .integer (Int64.ofInt z) else .real widened))) :
    AnswersExactly m op x y := by
  intro z' hz'
  obtain rfl : z = z' := Option.some.inj (hz.symm.trans hz')
  refine ⟨_, hanswer, ?_⟩
  split
  · exact ⟨names_integer z, fun _ => rfl⟩
  · exact ⟨widened, rfl⟩

theorem answersExactly_add (m : Pow) (x y : Int64) : AnswersExactly m .add x y := by
  refine answersExactly_of_check ((Binary64.ofInt x.toInt).add (Binary64.ofInt y.toInt)) rfl ?_
  by_cases hfit : Fits (x.toInt + y.toInt) <;>
    simp [arithmetic, isNumber, lhatNumberAsReal, addExact_eq, hfit]

theorem answersExactly_sub (m : Pow) (x y : Int64) : AnswersExactly m .sub x y := by
  refine answersExactly_of_check ((Binary64.ofInt x.toInt).sub (Binary64.ofInt y.toInt)) rfl ?_
  by_cases hfit : Fits (x.toInt - y.toInt) <;>
    simp [arithmetic, isNumber, lhatNumberAsReal, subtractExact_eq, hfit]

theorem answersExactly_mul (m : Pow) (x y : Int64) : AnswersExactly m .mul x y := by
  refine answersExactly_of_check ((Binary64.ofInt x.toInt).mul (Binary64.ofInt y.toInt)) rfl ?_
  by_cases hfit : Fits (x.toInt * y.toInt) <;>
    simp [arithmetic, isNumber, lhatNumberAsReal, multiplyExact_eq, hfit]

theorem minValue_iff : x = Int64.minValue ∧ y = -1 ↔ x.toInt = -2 ^ 63 ∧ y.toInt = -1 := by
  rw [eq_iff_toInt, eq_iff_toInt, toInt_minValue]
  rfl

theorem arithmetic_division (hop : op = .idiv ∨ op = .mod) (x y : Int64) :
    arithmetic m op (.integer x) (.integer y) =
      (floorDivision op (.integer x) (.integer y)).map .ok := by
  rcases hop with rfl | rfl <;> rfl

theorem answersExactly_division (hop : op = .idiv ∨ op = .mod) :
    AnswersExactly m op x y ↔ ¬ (x = Int64.minValue ∧ y = -1) := by
  obtain ⟨z, hz⟩ : ∃ z, ∀ h : y.toInt ≠ 0, exactValue op x.toInt y.toInt = some z ∧
      z = if op = .idiv then x.toInt.fdiv y.toInt else x.toInt.fmod y.toInt := by
    refine ⟨_, fun h => ⟨?_, rfl⟩⟩
    rcases hop with rfl | rfl <;> simp [exactValue, h]
  constructor
  · rintro hexact hend
    have hy : y.toInt ≠ 0 := by
      rw [hend.2]
      decide
    obtain ⟨v, hv, -⟩ := hexact z (hz hy).1
    rw [arithmetic_division hop, floorDivision_unchecked hend] at hv
    cases hv
  · intro hdefined z' hz'
    have hy : y ≠ 0 := by
      rintro rfl
      rcases hop with rfl | rfl <;> cases hz'
    obtain ⟨hvalue, hzeq⟩ := hz (toInt_ne_zero hy)
    obtain rfl : z = z' := Option.some.inj (hvalue.symm.trans hz')
    have hfit : Fits z := by
      obtain ⟨hmod, hdiv⟩ := fits_floored (fits_toInt x) (fits_toInt y) (toInt_ne_zero hy)
      rw [hzeq]
      split
      · exact hdiv.2 (mt minValue_iff.2 hdefined)
      · exact hmod
    refine ⟨.integer (Int64.ofInt z), ?_, ?_⟩
    · rw [arithmetic_division hop, floorDivision_integers hy hdefined, ← hzeq]
      rfl
    · rw [if_pos hfit]
      exact ⟨names_integer z, fun _ => rfl⟩

theorem power_of_small (m : Pow) (hlow : 1 ≤ y.toInt) (hhigh : y.toInt ≤ 100) :
    power m (.integer x) (.integer y) =
      if Fits (x.toInt ^ y.toInt.toNat) then some (.integer (Int64.ofInt (x.toInt ^ y.toInt.toNat)))
      else none := by
  have hzero : y ≠ 0 := fun h => by
    rw [h] at hlow
    exact absurd hlow (by decide)
  have hpos : 0 < y := Int64.lt_iff_toInt_lt.2 hlow
  have hmost : y ≤ 100 := Int64.le_iff_toInt_le.2 hhigh
  simp only [power, if_neg hzero, hpos, hmost, and_self, if_true]
  by_cases hbase : x = 0
  · subst hbase
    rw [if_pos rfl, show (0 : Int64).toInt = 0 from rfl, zero_pow (by omega), if_pos (by decide)]
    rfl
  · have hloop := integerPower_eq hbase y.toInt.natAbs (k := 0) (r := 1) (pow_zero x.toInt).symm
    rw [Nat.zero_add] at hloop
    rw [if_neg hbase, hloop, show y.toInt.natAbs = y.toInt.toNat by omega]
    split <;> rfl

theorem answersExactly_pow_small (hlow : 1 ≤ y.toInt) (hhigh : y.toInt ≤ 100) :
    AnswersExactly m .pow x y ↔ Fits (x.toInt ^ y.toInt.toNat) := by
  have hvalue : exactValue .pow x.toInt y.toInt = some (x.toInt ^ y.toInt.toNat) :=
    if_neg (by omega)
  have hrun : arithmetic m .pow (.integer x) (.integer y) =
      (power m (.integer x) (.integer y)).map .ok := rfl
  rw [power_of_small m hlow hhigh] at hrun
  constructor
  · intro hexact
    obtain ⟨v, hv, -⟩ := hexact _ hvalue
    by_contra hfit
    rw [hrun, if_neg hfit] at hv
    cases hv
  · intro hfit z hz
    obtain rfl := Option.some.inj (hvalue.symm.trans hz)
    rw [if_pos hfit] at hrun
    refine ⟨_, hrun, ?_⟩
    rw [if_pos hfit]
    exact ⟨names_integer _, fun _ => rfl⟩

theorem answersExactly_pow_large (hy : 100 < y.toInt) :
    AnswersExactly m .pow x y ↔ ¬ (x = -1 ∧ 2 ^ 53 < y.toInt ∧ Odd y.toInt) := by
  have hvalue : exactValue .pow x.toInt y.toInt = some (x.toInt ^ y.toInt.toNat) :=
    if_neg (by omega)
  have hrun : arithmetic m .pow (.integer x) (.integer y) =
      (power m (.integer x) (.integer y)).map .ok := rfl
  rw [power_of_large m hy] at hrun
  by_cases hfit : Fits (x.toInt ^ y.toInt.toNat)
  · rw [← large_power m hy hfit]
    constructor
    · intro hexact
      obtain ⟨v, hv, hmeets⟩ := hexact _ hvalue
      rw [if_pos hfit] at hmeets
      obtain rfl := Except.ok.inj (Option.some.inj (hrun.symm.trans hv))
      have hnames := hmeets.1
      rwa [Names, toInt_ofInt hfit] at hnames
    · intro hequals z hz
      obtain rfl := Option.some.inj (hvalue.symm.trans hz)
      refine ⟨_, hrun, ?_⟩
      rw [if_pos hfit]
      exact ⟨names_ofInt hfit hequals, fun h => absurd rfl h⟩
  · refine iff_of_true (fun z hz => ?_) fun hodd => hfit ?_
    · obtain rfl := Option.some.inj (hvalue.symm.trans hz)
      refine ⟨_, hrun, ?_⟩
      rw [if_neg hfit]
      exact ⟨_, rfl⟩
    · rw [hodd.1, show (-1 : Int64).toInt = -1 from rfl, neg_one_pow_toNat (by omega)]
      split <;> decide

theorem answersExactly_pow : AnswersExactly m .pow x y ↔ ¬ Unchecked .pow x y := by
  unfold Unchecked
  rcases lt_or_ge y.toInt 1 with hlow | hlow
  · refine iff_of_true (fun z hz => ?_) (by omega)
    obtain ⟨hnonneg, rfl⟩ : ¬ y.toInt < 0 ∧ x.toInt ^ y.toInt.toNat = z := by
      simpa [exactValue] using hz
    have hzero : y.toInt = 0 := by omega
    obtain rfl : y = 0 := eq_iff_toInt.2 hzero
    have hone : x.toInt ^ (0 : Int64).toInt.toNat = 1 := pow_zero x.toInt
    refine ⟨.integer 1, rfl, ?_⟩
    rw [hone, if_pos (by decide)]
    exact ⟨names_integer 1, fun _ => rfl⟩
  rcases lt_or_ge 100 y.toInt with hlarge | hsmall
  · rw [answersExactly_pow_large hlarge]
    exact not_congr ⟨Or.inr, fun h => h.resolve_left fun h => not_lt.2 h.2.1 hlarge⟩
  · rw [answersExactly_pow_small hlow hsmall]
    constructor
    · rintro hfit (h | h)
      · exact h.2.2 hfit
      · omega
    · intro h
      exact not_not.1 fun hfit => h (Or.inl ⟨hlow, hsmall, hfit⟩)

/-- A quotient and a rest as `//` and `%` are meant: the floor of the fraction,
and a rest on the side of the divisor. -/
structure Floored (x y q r : Int) : Prop where
  split : x = q * y + r
  positive : 0 < y → 0 ≤ r ∧ r < y
  negative : y < 0 → y < r ∧ r ≤ 0
  floor : q = Int.floor (x / y : Rat)

theorem floored_fdiv {x y : Int} (hy : y ≠ 0) : Floored x y (x.fdiv y) (x.fmod y) := by
  have hsplit := Int.mul_fdiv_add_fmod x y
  have hpositive : 0 < y → 0 ≤ x.fmod y ∧ x.fmod y < y := fun h =>
    ((Int.fdiv_fmod_unique h).1 ⟨rfl, rfl⟩).2
  have hnegative : y < 0 → y < x.fmod y ∧ x.fmod y ≤ 0 := fun h =>
    ((Int.fdiv_fmod_unique' h).1 ⟨rfl, rfl⟩).2
  refine ⟨by linarith, hpositive, hnegative, ?_⟩
  have hne : (y : Rat) ≠ 0 := Int.cast_ne_zero.2 hy
  have hfraction : (x / y : Rat) = x.fdiv y + x.fmod y / y := by
    rw [eq_comm, ← eq_sub_iff_add_eq', div_sub' hne, div_left_inj' hne, eq_sub_iff_add_eq]
    exact_mod_cast (by linarith : x.fmod y + y * x.fdiv y = x)
  rw [eq_comm, Int.floor_eq_iff, hfraction]
  rcases Int.lt_or_gt_of_ne hy with hneg | hpos
  · obtain ⟨hlow, hhigh⟩ := hnegative hneg
    have hyneg : (y : Rat) < 0 := Int.cast_lt_zero.2 hneg
    have hnonneg : (0 : Rat) ≤ x.fmod y / y :=
      div_nonneg_of_nonpos (Int.cast_nonpos.2 hhigh) hyneg.le
    have hless : (x.fmod y / y : Rat) < 1 := (div_lt_one_of_neg hyneg).2 (Int.cast_lt.2 hlow)
    constructor <;> linarith
  · obtain ⟨hlow, hhigh⟩ := hpositive hpos
    have hypos : (0 : Rat) < y := Int.cast_pos.2 hpos
    have hnonneg : (0 : Rat) ≤ x.fmod y / y := div_nonneg (Int.cast_nonneg hlow) hypos.le
    have hless : (x.fmod y / y : Rat) < 1 := (div_lt_one hypos).2 (Int.cast_lt.2 hhigh)
    constructor <;> linarith

/-- An operator of two integers answers exactly or wider at every pair it is
checked at and at no other; a zero divisor widens and the machine is not asked;
and `//` floors. -/
theorem arithmetic_exact (m : Pow) :
    (∀ op x y, AnswersExactly m op x y ↔ ¬ Unchecked op x y) ∧
      (∀ op x, op = .idiv ∨ op = .mod →
        ∃ d, arithmetic m op (.integer x) (.integer 0) = some (.ok (.real d))) ∧
      ∀ x y : Int64, y ≠ 0 → ¬ (x = Int64.minValue ∧ y = -1) → ∃ q r : Int64,
        arithmetic m .idiv (.integer x) (.integer y) = some (.ok (.integer q)) ∧
          arithmetic m .mod (.integer x) (.integer y) = some (.ok (.integer r)) ∧
          Floored x.toInt y.toInt q.toInt r.toInt := by
  refine ⟨fun op x y => ?_, fun op x hop => ?_, fun x y hy hxy => ?_⟩
  · cases op with
    | add => exact iff_of_true (answersExactly_add m x y) not_false
    | sub => exact iff_of_true (answersExactly_sub m x y) not_false
    | mul => exact iff_of_true (answersExactly_mul m x y) not_false
    | div => exact iff_of_true (fun z hz => by cases hz) not_false
    | idiv => exact answersExactly_division (Or.inl rfl)
    | mod => exact answersExactly_division (Or.inr rfl)
    | pow => exact answersExactly_pow
  · obtain ⟨d, hd⟩ := floorDivision_by_zero op x
    exact ⟨d, by rw [arithmetic_division hop, hd]; rfl⟩
  · obtain ⟨hmod, hdiv⟩ := fits_floored (fits_toInt x) (fits_toInt y) (toInt_ne_zero hy)
    refine ⟨Int64.ofInt (x.toInt.fdiv y.toInt), Int64.ofInt (x.toInt.fmod y.toInt), ?_, ?_, ?_⟩
    · rw [arithmetic_division (Or.inl rfl), floorDivision_integers hy hxy]
      rfl
    · rw [arithmetic_division (Or.inr rfl), floorDivision_integers hy hxy]
      rfl
    · rw [toInt_ofInt hmod, toInt_ofInt (hdiv.2 (mt minValue_iff.2 hxy))]
      exact floored_fdiv (toInt_ne_zero hy)

/-- `2 ** 64`, `INT64_MIN // -1`, `INT64_MIN % -1` and `(-1) ** (2 ** 53 + 1)`. -/
theorem arithmetic_exact_fails :
    arithmetic default .pow (.integer 2) (.integer 64) = none ∧
      ¬ AnswersExactly default .pow 2 64 ∧
      ¬ AnswersExactly default .idiv Int64.minValue (-1) ∧
      ¬ AnswersExactly default .mod Int64.minValue (-1) ∧
      ¬ AnswersExactly default .pow (-1) 9007199254740993 := by
  refine ⟨by decide +kernel, ?_, ?_, ?_, ?_⟩
  · exact fun h => answersExactly_pow.1 h (Or.inl ⟨by decide, by decide, by decide⟩)
  · exact fun h => (answersExactly_division (Or.inl rfl)).1 h ⟨rfl, rfl⟩
  · exact fun h => (answersExactly_division (Or.inr rfl)).1 h ⟨rfl, rfl⟩
  · exact fun h => answersExactly_pow.1 h (Or.inr ⟨rfl, by decide, by decide⟩)

end Lhat.Arithmetic
