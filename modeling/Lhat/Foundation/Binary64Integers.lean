import Lhat.Foundation.Binary64
import Mathlib.Algebra.Order.Field.Rat
import Mathlib.Tactic.FieldSimp
import Mathlib.Tactic.Positivity

/-!
# Integers rounded to binary64

An integer of at most 53 bits is represented. A longer one loses its last bits,
`k` of them, and is rounded to a multiple of `2 ^ k` (`roundedTo`): it comes out
even, and it may come out as the next power of two.
-/

namespace Binary64

variable {i : Int} {n : Nat} {d : Binary64}

/-- `d` in units of one. -/
def toRat (d : Binary64) : Rat := d.scaled / 2 ^ 1074

theorem toRat_eq_iff {n : Int} : d.toRat = n ↔ d.scaled = n * 2 ^ 1074 := by
  have hpos : (0 : Rat) < 2 ^ 1074 := by positivity
  rw [toRat, div_eq_iff (ne_of_gt hpos)]
  exact_mod_cast Iff.rfl

theorem scaled_infinite (hnan : d.isNan = false) (hinf : d.isFinite = false) :
    d.scaled = 2 ^ 1024 * 2 ^ 1074 ∨ d.scaled = -2 ^ 1024 * 2 ^ 1074 := by
  have hmag : d.magnitudeBits = 2046 * 2 ^ 52 + 2 ^ 52 := by
    have hle := d.magnitudeBits_le hnan
    have hge : ¬ d.magnitudeBits < 2047 * 2 ^ 52 := of_decide_eq_false hinf
    omega
  have hval : (decode d.magnitudeBits : Int) = 2 ^ 1024 * 2 ^ 1074 := by
    rw [hmag, decode_parts (Nat.le_refl _) (by norm_num), ← pow_add, ← pow_add, Nat.cast_pow]
    rfl
  unfold scaled
  rw [hval, Int.neg_mul]
  split
  · exact Or.inr rfl
  · exact Or.inl rfl

/-- `n` in units of `2 ^ k`, to the nearest, the even one of two. -/
def roundedTo (k n : Nat) : Nat :=
  n / 2 ^ k +
    if 2 ^ k < 2 * (n % 2 ^ k) ∨ 2 ^ k = 2 * (n % 2 ^ k) ∧ n / 2 ^ k % 2 = 1 then 1 else 0

theorem roundedTo_bounds (k n : Nat) : n / 2 ^ k ≤ roundedTo k n ∧ roundedTo k n ≤ n / 2 ^ k + 1 := by
  unfold roundedTo
  split <;> omega

theorem encode_long {k : Nat} (hlow : 2 ^ (k + 52) ≤ n) (hhigh : n < 2 ^ (k + 53))
    (hk : k ≤ 900) : encode (n * 2 ^ 1074) = (k + 1074) * 2 ^ 52 + roundedTo k n := by
  have hpos := Nat.two_pow_pos 1074
  have hlog : (n * 2 ^ 1074).log2 = k + 1074 + 52 := by
    apply log2_of_bounds
    · rw [show k + 1074 + 52 = k + 52 + 1074 by omega, pow_add 2 (k + 52) 1074]
      exact Nat.mul_le_mul_right _ hlow
    · rw [show k + 1074 + 52 + 1 = k + 53 + 1074 by omega, pow_add 2 (k + 53) 1074]
      exact Nat.mul_lt_mul_of_pos_right hhigh hpos
  have hunit : (2 : Nat) ^ (k + 1074) = 2 ^ k * 2 ^ 1074 := pow_add 2 k 1074
  have hq : n * 2 ^ 1074 / 2 ^ (k + 1074) = n / 2 ^ k := by
    rw [hunit, Nat.mul_div_mul_right _ _ hpos]
  have hr : n * 2 ^ 1074 % 2 ^ (k + 1074) = n % 2 ^ k * 2 ^ 1074 := by
    rw [hunit, Nat.mul_mod_mul_right]
  have hlt : 2 ^ (k + 1074) < 2 * (n % 2 ^ k * 2 ^ 1074) ↔ 2 ^ k < 2 * (n % 2 ^ k) := by
    rw [hunit, ← Nat.mul_assoc]
    exact Nat.mul_lt_mul_right hpos
  have heq : 2 ^ (k + 1074) = 2 * (n % 2 ^ k * 2 ^ 1074) ↔ 2 ^ k = 2 * (n % 2 ^ k) := by
    rw [hunit, ← Nat.mul_assoc]
    exact Nat.mul_left_inj (Nat.ne_of_gt hpos)
  have hfew : n / 2 ^ k < 2 ^ 53 := by
    apply Nat.div_lt_of_lt_mul
    rwa [← pow_add]
  simp only [encode, hlog, Nat.add_sub_cancel, hq, hr, hlt, heq]
  rw [Nat.add_assoc]
  apply Nat.min_eq_left
  split <;> omega

theorem decode_encode_long {k : Nat} (hlow : 2 ^ (k + 52) ≤ n) (hhigh : n < 2 ^ (k + 53))
    (hk : k ≤ 900) : decode (encode (n * 2 ^ 1074)) = roundedTo k n * 2 ^ k * 2 ^ 1074 := by
  have hleast : 2 ^ 52 ≤ n / 2 ^ k := by
    rw [Nat.le_div_iff_mul_le (Nat.two_pow_pos k), ← pow_add, Nat.add_comm]
    exact hlow
  have hmost : n / 2 ^ k < 2 ^ 53 := by
    apply Nat.div_lt_of_lt_mul
    rwa [← pow_add]
  obtain ⟨hge, hle⟩ := roundedTo_bounds k n
  rw [encode_long hlow hhigh hk, decode_parts (by omega) (by omega), pow_add 2 k 1074,
    Nat.mul_assoc]

theorem decode_encode_short (hn : n ≤ 2 ^ 53) : decode (encode (n * 2 ^ 1074)) = n * 2 ^ 1074 := by
  rcases Nat.eq_zero_or_pos n with rfl | hpos
  · rw [Nat.zero_mul]
    decide_cbv
  obtain ⟨j, q, hj, hlow, hhigh, hq⟩ : ∃ j q, j ≤ 52 ∧ 2 ^ 52 ≤ q ∧ q ≤ 2 ^ 53 ∧ q = n * 2 ^ j := by
    rcases Nat.lt_or_ge n (2 ^ 52) with hlt | hge
    · have hlog : n.log2 < 52 := (Nat.log2_lt (Nat.ne_of_gt hpos)).2 hlt
      have hself := Nat.log2_self_le (Nat.ne_of_gt hpos)
      have hnext := Nat.lt_log2_self (n := n)
      refine ⟨52 - n.log2, _, by omega, ?_, ?_, rfl⟩
      · rw [show (2 : Nat) ^ 52 = 2 ^ n.log2 * 2 ^ (52 - n.log2) by
          rw [← pow_add]
          congr 1
          omega]
        exact Nat.mul_le_mul_right _ hself
      · rw [show (2 : Nat) ^ 53 = 2 ^ (n.log2 + 1) * 2 ^ (52 - n.log2) by
          rw [← pow_add]
          congr 1
          omega]
        exact Nat.mul_le_mul_right _ (Nat.le_of_lt hnext)
    · exact ⟨0, n, by omega, hge, hn, by rw [pow_zero, Nat.mul_one]⟩
  have hparts : decode ((1074 - j) * 2 ^ 52 + q) = n * 2 ^ 1074 := by
    rw [decode_parts hlow hhigh, hq, Nat.mul_assoc, ← pow_add]
    congr 2
    omega
  rw [← hparts, encode_decode (by omega)]

theorem scaled_ofScaled_eq (z : Int) :
    (ofScaled z).scaled =
      if z < 0 then -(decode (encode z.natAbs) : Int) else (decode (encode z.natAbs) : Int) := by
  have hle := encode_le z.natAbs
  split
  · next hz =>
      have hneg : (ofScaled z).isNegative = true := by
        rw [ofScaled, if_pos hz, isNegative, UInt64.toNat_ofNat', decide_eq_true_eq]
        omega
      rw [scaled, if_pos hneg, magnitudeBits_ofScaled]
  · next hz => rw [ofScaled, if_neg hz, scaled_of_magnitude (by omega)]

theorem scaled_ofInt_of_magnitude {m : Nat}
    (h : decode (encode (i.natAbs * 2 ^ 1074)) = m * 2 ^ 1074) :
    (ofInt i).scaled = (if i < 0 then -(m : Int) else m) * 2 ^ 1074 := by
  have habs : (i * 2 ^ 1074).natAbs = i.natAbs * 2 ^ 1074 := by
    rw [Int.natAbs_mul, Int.natAbs_pow]
    rfl
  have hsign : i * 2 ^ 1074 < 0 ↔ i < 0 :=
    ⟨fun hlt => by_contra fun hi => not_lt.2 (Int.mul_nonneg (not_lt.1 hi) (by positivity)) hlt,
      fun hlt => Int.mul_neg_of_neg_of_pos hlt (by positivity)⟩
  rw [ofInt, scaled_ofScaled_eq, habs, h]
  by_cases hi : i < 0
  · rw [if_pos hi, if_pos (hsign.2 hi), Nat.cast_mul, Nat.cast_pow, Int.neg_mul]
    rfl
  · rw [if_neg hi, if_neg (mt hsign.1 hi), Nat.cast_mul, Nat.cast_pow]
    rfl

theorem scaled_ofInt_short (hlow : -2 ^ 53 ≤ i) (hhigh : i ≤ 2 ^ 53) :
    (ofInt i).scaled = i * 2 ^ 1074 := by
  rw [scaled_ofInt_of_magnitude (decode_encode_short (n := i.natAbs) (by omega))]
  congr 1
  split <;> omega

theorem exists_length (hn : 2 ^ 53 ≤ n) (hhigh : n < 2 ^ 64) :
    ∃ k, 1 ≤ k ∧ k ≤ 11 ∧ 2 ^ (k + 52) ≤ n ∧ n < 2 ^ (k + 53) := by
  have hne : n ≠ 0 := by omega
  have hlog : 53 ≤ n.log2 := (Nat.le_log2 hne).2 hn
  have hlog' : n.log2 < 64 := (Nat.log2_lt hne).2 hhigh
  refine ⟨n.log2 - 52, by omega, by omega, ?_, ?_⟩
  · rw [Nat.sub_add_cancel (by omega)]
    exact Nat.log2_self_le hne
  · rw [show n.log2 - 52 + 53 = n.log2 + 1 by omega]
    exact Nat.lt_log2_self

theorem scaled_ofInt_even (hlow : 2 ^ 53 ≤ i) (hhigh : i < 2 ^ 64) :
    ∃ n : Int, Even n ∧ 2 ^ 53 ≤ n ∧ (ofInt i).scaled = n * 2 ^ 1074 := by
  obtain ⟨k, hk, hk', hl, hh⟩ := exists_length (n := i.natAbs) (by omega) (by omega)
  have hscaled := scaled_ofInt_of_magnitude (i := i) (decode_encode_long hl hh (by omega))
  rw [if_neg (by omega)] at hscaled
  refine ⟨_, ?_, ?_, hscaled⟩
  · obtain ⟨j, rfl⟩ : ∃ j, k = j + 1 := ⟨k - 1, by omega⟩
    exact ⟨((roundedTo (j + 1) i.natAbs * 2 ^ j : Nat) : Int), by rw [pow_succ]; push_cast; ring⟩
  · have hleast : 2 ^ 52 ≤ i.natAbs / 2 ^ k := by
      rw [Nat.le_div_iff_mul_le (Nat.two_pow_pos k), ← pow_add, Nat.add_comm]
      exact hl
    have hge := (roundedTo_bounds k i.natAbs).1
    have : 2 ^ 52 * 2 ^ 1 ≤ roundedTo k i.natAbs * 2 ^ k :=
      Nat.mul_le_mul (hleast.trans hge) (Nat.pow_le_pow_right (by norm_num) hk)
    exact_mod_cast this

/-- What an integer of 64 bits is rounded to: `2 ^ 63` at most, and `2 ^ 63`
itself from the middle of the last step on. -/
theorem ofInt_bounds {n : Int} (hlow : -2 ^ 63 ≤ i) (hhigh : i < 2 ^ 63)
    (hn : (ofInt i).scaled = n * 2 ^ 1074) :
    -2 ^ 63 ≤ n ∧ n ≤ 2 ^ 63 ∧ (n = 2 ^ 63 ↔ 2 ^ 63 - 512 ≤ i) := by
  have hunit : (2 : Int) ^ 1074 ≠ 0 := by positivity
  rcases Nat.lt_or_ge i.natAbs (2 ^ 53) with hshort | hlong
  · rw [scaled_ofInt_short (by omega) (by omega)] at hn
    obtain rfl := mul_right_cancel₀ hunit hn
    omega
  · obtain ⟨k, hk, hk', hl, hh⟩ := exists_length hlong (by omega)
    rw [scaled_ofInt_of_magnitude (decode_encode_long hl hh (by omega))] at hn
    obtain rfl := mul_right_cancel₀ hunit hn
    -- Only the integers of 63 bits come near the end.
    rcases Nat.lt_or_ge k 10 with hshorter | hlonger
    · have hmost : roundedTo k i.natAbs * 2 ^ k ≤ 2 ^ 53 * 2 ^ 9 := by
        have hq : i.natAbs / 2 ^ k < 2 ^ 53 := by
          apply Nat.div_lt_of_lt_mul
          rwa [← pow_add]
        have hle := (roundedTo_bounds k i.natAbs).2
        exact Nat.mul_le_mul (by omega) (Nat.pow_le_pow_right (by norm_num) (by omega))
      have hless : i.natAbs < 2 ^ 62 :=
        hh.trans_le (Nat.pow_le_pow_right (by norm_num) (by omega))
      split <;> omega
    · obtain rfl | rfl : k = 10 ∨ k = 11 := by omega
      · unfold roundedTo
        split <;> split <;> omega
      · unfold roundedTo
        split <;> split <;> omega

/-- A number that is an integer of 64 bits, or `2 ^ 63`, is no infinity. -/
theorem isFinite_of_whole {n : Int} (hnan : d.isNan = false) (hd : d.scaled = n * 2 ^ 1074)
    (hlow : -2 ^ 63 ≤ n) (hhigh : n ≤ 2 ^ 63) : d.isFinite = true := by
  by_contra hinf
  have hunit : (2 : Int) ^ 1074 ≠ 0 := by positivity
  have hpast : (2 : Int) ^ 63 < 2 ^ 1024 := by
    exact_mod_cast Nat.pow_lt_pow_right (by norm_num : 1 < 2) (by norm_num : 63 < 1024)
  rw [Bool.not_eq_true] at hinf
  rcases scaled_infinite hnan hinf with h | h
  · have := mul_right_cancel₀ hunit (hd.symm.trans h)
    rw [this] at hhigh
    exact not_le.2 hpast hhigh
  · have := mul_right_cancel₀ hunit (hd.symm.trans h)
    rw [this] at hlow
    exact not_le.2 (neg_lt_neg hpast) hlow

theorem isFinite_ofInt (hlow : -2 ^ 63 ≤ i) (hhigh : i < 2 ^ 63) : (ofInt i).isFinite = true := by
  obtain ⟨n, hn⟩ := ofInt_whole i
  obtain ⟨hl, hh, -⟩ := ofInt_bounds hlow hhigh hn
  exact isFinite_of_whole (isNan_ofInt i) hn hl hh

theorem scaled_ofInt_eq_zero (hlow : -2 ^ 63 ≤ i) (hhigh : i < 2 ^ 63) :
    (ofInt i).scaled = 0 ↔ i = 0 := by
  have hunit : (2 : Int) ^ 1074 ≠ 0 := by positivity
  rcases Nat.lt_or_ge i.natAbs (2 ^ 53) with hshort | hlong
  · rw [scaled_ofInt_short (by omega) (by omega)]
    simp only [mul_eq_zero, hunit, or_false]
  · obtain ⟨k, hk, hk', hl, hh⟩ := exists_length hlong (by omega)
    rw [scaled_ofInt_of_magnitude (decode_encode_long hl hh (by omega))]
    have hpos : 0 < roundedTo k i.natAbs * 2 ^ k := by
      have hleast : 0 < i.natAbs / 2 ^ k :=
        Nat.div_pos ((Nat.pow_le_pow_right (by norm_num) (by omega)).trans hl) (Nat.two_pow_pos k)
      exact Nat.mul_pos (hleast.trans_le (roundedTo_bounds k i.natAbs).1) (Nat.two_pow_pos k)
    simp only [mul_eq_zero, hunit, or_false]
    split <;> omega

end Binary64
