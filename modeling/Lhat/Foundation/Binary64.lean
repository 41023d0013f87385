import Mathlib.Order.Monotone.Basic
import Mathlib.Data.Nat.Log
import Mathlib.Tactic.Ring
import Mathlib.Tactic.Linarith

/-!
# Binary64 numbers as exact integers

Every finite binary64 number is a whole multiple of `2 ^ -1074`, so a number is
read as that multiple (`scaled`), and comparing, truncating and rounding are
arithmetic of integers. The bits of a magnitude, read as a natural number, are
ordered as the magnitudes are (`decode_strictMono`), the infinity included: it
stands where the next power of two would.

`encode` rounds a magnitude to the nearest one that is represented, to the even
one of two that are as near, and answers a represented magnitude unchanged
(`encode_decode`).
-/

/-- A binary64 number, as its bits. -/
structure Binary64 where
  bits : UInt64
deriving DecidableEq, Repr

namespace Binary64

variable {x y : Binary64} {b : Nat}

/-- The magnitude a run of 63 bits stands for, in units of `2 ^ -1074`. -/
def decode (b : Nat) : Nat :=
  if b < 2 ^ 52 then b else (2 ^ 52 + b % 2 ^ 52) * 2 ^ (b / 2 ^ 52 - 1)

/-- The bits of the magnitude nearest to `n` units, ties to even, the infinity
past the largest. -/
def encode (n : Nat) : Nat :=
  let e := n.log2 - 52
  let q := n / 2 ^ e
  let r := n % 2 ^ e
  min (e * 2 ^ 52 + q + if 2 ^ e < 2 * r ∨ 2 ^ e = 2 * r ∧ q % 2 = 1 then 1 else 0)
    (2047 * 2 ^ 52)

def magnitudeBits (x : Binary64) : Nat := x.bits.toNat % 2 ^ 63

def isNegative (x : Binary64) : Bool := decide (2 ^ 63 ≤ x.bits.toNat)

def isNan (x : Binary64) : Bool := decide (2047 * 2 ^ 52 < x.magnitudeBits)

/-- The number in units of `2 ^ -1074`; an infinity reads as the power of two
past every finite number, and a NaN means nothing here. -/
def scaled (x : Binary64) : Int :=
  if x.isNegative then -(decode x.magnitudeBits : Int) else (decode x.magnitudeBits : Int)

/-- `x == y`. -/
def eq (x y : Binary64) : Bool := !x.isNan && !y.isNan && decide (x.scaled = y.scaled)

/-- `x < y`. -/
def lt (x y : Binary64) : Bool := !x.isNan && !y.isNan && decide (x.scaled < y.scaled)

/-- `x <= y`. -/
def le (x y : Binary64) : Bool := !x.isNan && !y.isNan && decide (x.scaled ≤ y.scaled)

/-- The number nearest to a whole multiple of `2 ^ -1074`. -/
def ofScaled (z : Int) : Binary64 :=
  if z < 0 then ⟨UInt64.ofNat (2 ^ 63 + encode z.natAbs)⟩ else ⟨UInt64.ofNat (encode z.natAbs)⟩

/-- The number nearest to an integer. -/
def ofInt (i : Int) : Binary64 := ofScaled (i * 2 ^ 1074)

/-- The integer left when the fraction is dropped. -/
def truncate (x : Binary64) : Int := x.scaled.tdiv (2 ^ 1074)

/-- `floor (x + 0.5)`, the sum rounded as every sum is. -/
def floorAddHalf (x : Binary64) : Int := (ofScaled (x.scaled + 2 ^ 1073)).scaled / 2 ^ 1074

theorem decode_of_lt (h : b < 2 ^ 52) : decode b = b := if_pos h

theorem decode_of_le (h : 2 ^ 52 ≤ b) : decode b = (2 ^ 52 + b % 2 ^ 52) * 2 ^ (b / 2 ^ 52 - 1) :=
  if_neg (Nat.not_lt.2 h)

theorem decode_lt_succ (b : Nat) : decode b < decode (b + 1) := by
  rcases Nat.lt_or_ge (b + 1) (2 ^ 52) with h | h
  · rw [decode_of_lt h, decode_of_lt (by omega)]
    exact Nat.lt_succ_self b
  rcases Nat.lt_or_ge b (2 ^ 52) with hb | hb
  · rw [decode_of_lt hb, decode_of_le h, show b + 1 = 2 ^ 52 by omega]
    norm_num
    omega
  · rw [decode_of_le hb, decode_of_le h]
    rcases Nat.lt_or_ge (b % 2 ^ 52 + 1) (2 ^ 52) with hf | hf
    · have hmod : (b + 1) % 2 ^ 52 = b % 2 ^ 52 + 1 := by omega
      have hdiv : (b + 1) / 2 ^ 52 = b / 2 ^ 52 := by omega
      rw [hmod, hdiv]
      exact Nat.mul_lt_mul_of_pos_right (by omega) (Nat.two_pow_pos _)
    · have hlt : b % 2 ^ 52 < 2 ^ 52 := Nat.mod_lt _ (by norm_num)
      have hmod : (b + 1) % 2 ^ 52 = 0 := by omega
      have hdiv : (b + 1) / 2 ^ 52 - 1 = (b / 2 ^ 52 - 1) + 1 := by omega
      rw [hmod, hdiv, pow_succ 2 (b / 2 ^ 52 - 1), Nat.add_zero, Nat.mul_comm _ 2,
        ← Nat.mul_assoc]
      exact Nat.mul_lt_mul_of_pos_right (by omega) (Nat.two_pow_pos _)

theorem decode_strictMono : StrictMono decode :=
  strictMono_nat_of_lt_succ decode_lt_succ

theorem log2_of_bounds {n k : Nat} (hlo : 2 ^ k ≤ n) (hhi : n < 2 ^ (k + 1)) : n.log2 = k := by
  have hn : n ≠ 0 := by
    have := Nat.two_pow_pos k
    omega
  exact (Nat.log2_eq_iff hn).2 ⟨hlo, hhi⟩

theorem encode_decode (hb : b ≤ 2047 * 2 ^ 52) : encode (decode b) = b := by
  rcases Nat.lt_or_ge b (2 ^ 52) with h | h
  · have hlog : b.log2 - 52 = 0 := by
      rcases Nat.eq_zero_or_pos b with rfl | hpos
      · simp
      · have := (Nat.log2_lt (by omega)).2 h
        omega
    rw [decode_of_lt h]
    simp only [encode, hlog, pow_zero, Nat.mod_one, Nat.div_one, Nat.zero_mul, Nat.zero_add,
      Nat.mul_zero]
    norm_num
    omega
  · rw [decode_of_le h]
    obtain ⟨m, hm⟩ : ∃ m, m = 2 ^ 52 + b % 2 ^ 52 := ⟨_, rfl⟩
    obtain ⟨k, hk⟩ : ∃ k, k = b / 2 ^ 52 - 1 := ⟨_, rfl⟩
    have hmlo : 2 ^ 52 ≤ m := by omega
    have hmhi : m < 2 ^ 53 := by
      have := Nat.mod_lt b (show 0 < 2 ^ 52 by norm_num)
      omega
    have hlog : (m * 2 ^ k).log2 = 52 + k := by
      apply log2_of_bounds
      · rw [pow_add]
        exact Nat.mul_le_mul_right _ hmlo
      · rw [show 52 + k + 1 = 53 + k by omega, pow_add]
        exact Nat.mul_lt_mul_of_pos_right hmhi (Nat.two_pow_pos k)
    rw [← hm, ← hk]
    have hr : m * 2 ^ k % 2 ^ k = 0 := Nat.mul_mod_left m (2 ^ k)
    have hq : m * 2 ^ k / 2 ^ k = m := Nat.mul_div_cancel m (Nat.two_pow_pos k)
    have hpos := Nat.two_pow_pos k
    simp only [encode, hlog, Nat.add_sub_cancel_left, hr, hq]
    rw [if_neg (by omega)]
    omega

theorem magnitudeBits_lt (x : Binary64) : x.magnitudeBits < 2 ^ 63 := Nat.mod_lt _ (by norm_num)

theorem magnitudeBits_le (x : Binary64) (h : x.isNan = false) :
    x.magnitudeBits ≤ 2047 * 2 ^ 52 := by
  simpa [isNan] using h

theorem bits_toNat (x : Binary64) :
    x.bits.toNat = (if x.isNegative then 2 ^ 63 else 0) + x.magnitudeBits := by
  have := x.bits.toNat_lt
  unfold isNegative magnitudeBits
  split <;> simp_all <;> omega

theorem scaled_natAbs (x : Binary64) : x.scaled.natAbs = decode x.magnitudeBits := by
  unfold scaled
  split <;> simp

theorem eq_of_scaled_eq (h : x.scaled = y.scaled) (h0 : x.scaled ≠ 0) : x = y := by
  have hmag : x.magnitudeBits = y.magnitudeBits := by
    apply decode_strictMono.injective
    rw [← scaled_natAbs, ← scaled_natAbs, h]
  have hpos : 0 < decode x.magnitudeBits := by
    rw [← scaled_natAbs]
    omega
  have hneg : x.isNegative = y.isNegative := by
    unfold scaled at h
    rw [← hmag] at h
    cases hx : x.isNegative <;> cases hy : y.isNegative <;> simp [hx, hy] at h ⊢ <;> omega
  have hbits : x.bits.toNat = y.bits.toNat := by
    rw [bits_toNat, bits_toNat, hmag, hneg]
  cases x
  cases y
  simpa [UInt64.toNat_inj] using hbits

theorem scaled_of_magnitude {m : Nat} (h : m < 2 ^ 63) :
    (⟨UInt64.ofNat m⟩ : Binary64).scaled = (decode m : Int) := by
  have hn : (UInt64.ofNat m).toNat = m := by
    rw [UInt64.toNat_ofNat']
    omega
  unfold scaled isNegative magnitudeBits
  rw [hn, Nat.mod_eq_of_lt h, if_neg (by simpa using h)]

/-- Rounding a value that is represented answers it, the negative zero read as
the positive one. -/
theorem scaled_ofScaled (x : Binary64) (hx : x.isNan = false) :
    (ofScaled x.scaled).scaled = x.scaled := by
  have hle := x.magnitudeBits_le hx
  have henc : encode x.scaled.natAbs = x.magnitudeBits := by
    rw [scaled_natAbs, encode_decode hle]
  have hlt : x.magnitudeBits < 2 ^ 63 := x.magnitudeBits_lt
  unfold ofScaled
  rw [henc]
  split
  · next hneg =>
      have hxneg : x.isNegative = true := by
        unfold scaled at hneg
        split at hneg
        · assumption
        · omega
      have hb : x.bits.toNat = 2 ^ 63 + x.magnitudeBits := by
        rw [bits_toNat, hxneg]
        simp
      rw [← hb]
      simp
  · next hneg =>
      have hscaled : x.scaled = (decode x.magnitudeBits : Int) := by
        unfold scaled at hneg ⊢
        split
        · next hn => rw [if_pos hn] at hneg; omega
        · rfl
      rw [scaled_of_magnitude hlt, hscaled]

theorem scaled_eq_truncate (x : Binary64) :
    ∃ r : Int, x.scaled = x.truncate * 2 ^ 1074 + r ∧ -2 ^ 1074 < r ∧ r < 2 ^ 1074 := by
  have hpos : (0 : Int) < 2 ^ 1074 := by positivity
  refine ⟨x.scaled.tmod (2 ^ 1074), ?_, Int.lt_tmod_of_pos _ hpos, Int.tmod_lt_of_pos _ hpos⟩
  rw [truncate, Int.mul_comm, Int.mul_tdiv_add_tmod]

theorem truncate_of_whole {n : Int} (h : x.scaled = n * 2 ^ 1074) : x.truncate = n := by
  have hpos : (2 : Int) ^ 1074 ≠ 0 := by positivity
  rw [truncate, h, Int.mul_tdiv_cancel _ hpos]

theorem encode_le (n : Nat) : encode n ≤ 2047 * 2 ^ 52 := Nat.min_le_right _ _

theorem magnitudeBits_ofScaled (z : Int) : (ofScaled z).magnitudeBits = encode z.natAbs := by
  have hle := encode_le z.natAbs
  unfold ofScaled magnitudeBits
  split
  · rw [UInt64.toNat_ofNat']
    omega
  · rw [UInt64.toNat_ofNat']
    omega

theorem isNan_ofScaled (z : Int) : (ofScaled z).isNan = false := by
  simpa [isNan, magnitudeBits_ofScaled] using encode_le z.natAbs

theorem scaled_ofInt_of_whole (hx : x.isNan = false) {n : Int}
    (h : x.scaled = n * 2 ^ 1074) : (ofInt n).scaled = x.scaled := by
  rw [ofInt, ← h, scaled_ofScaled x hx]

theorem decode_parts {e q : Nat} (hleast : 2 ^ 52 ≤ q) (hmost : q ≤ 2 ^ 53) :
    decode (e * 2 ^ 52 + q) = q * 2 ^ e := by
  rw [decode_of_le (by omega)]
  rcases Nat.lt_or_ge q (2 ^ 53) with hlt | hge
  · rw [show (e * 2 ^ 52 + q) % 2 ^ 52 = q - 2 ^ 52 by omega,
      show (e * 2 ^ 52 + q) / 2 ^ 52 - 1 = e by omega, Nat.add_sub_cancel' hleast]
  · obtain rfl : q = 2 ^ 53 := by omega
    rw [show (e * 2 ^ 52 + 2 ^ 53) % 2 ^ 52 = 0 by omega,
      show (e * 2 ^ 52 + 2 ^ 53) / 2 ^ 52 - 1 = e + 1 by omega, Nat.add_zero, pow_succ 2 e,
      Nat.mul_comm (2 ^ e) 2, ← Nat.mul_assoc, show 2 ^ 52 * 2 = 2 ^ 53 by norm_num]

theorem dvd_decode_encode {n : Nat} (hn : 2 ^ 1074 ∣ n) : 2 ^ 1074 ∣ decode (encode n) := by
  rcases Nat.eq_zero_or_pos n with rfl | hpos
  · exact hn
  have hlog : 1074 ≤ n.log2 := (Nat.le_log2 (by omega)).2 (Nat.le_of_dvd hpos hn)
  have hlow := Nat.log2_self_le (show n ≠ 0 by omega)
  have hhigh := Nat.lt_log2_self (n := n)
  obtain ⟨e, he⟩ : ∃ e, n.log2 = e + 52 := ⟨n.log2 - 52, by omega⟩
  rw [he] at hlow
  rw [he, show e + 52 + 1 = 53 + e by omega, pow_add] at hhigh
  rw [Nat.add_comm, pow_add] at hlow
  have hq : 2 ^ 52 ≤ n / 2 ^ e := (Nat.le_div_iff_mul_le (Nat.two_pow_pos e)).2 hlow
  have hq' : n / 2 ^ e < 2 ^ 53 := Nat.div_lt_of_lt_mul (by rwa [Nat.mul_comm])
  have hmost : 2 ^ 1074 ∣ decode (2047 * 2 ^ 52) := by
    rw [show 2047 * 2 ^ 52 = 2046 * 2 ^ 52 + 2 ^ 52 by norm_num, decode_parts (by norm_num) (by norm_num),
      ← pow_add]
    exact Nat.pow_dvd_pow 2 (by norm_num)
  simp only [encode, he, Nat.add_sub_cancel]
  rw [Nat.add_assoc]
  by_cases hin : e * 2 ^ 52 + (n / 2 ^ e + if 2 ^ e < 2 * (n % 2 ^ e) ∨
      2 ^ e = 2 * (n % 2 ^ e) ∧ n / 2 ^ e % 2 = 1 then 1 else 0) ≤ 2047 * 2 ^ 52
  · rw [Nat.min_eq_left hin]
    rcases Nat.lt_or_ge e 1074 with hsmall | hlarge
    · have hr : n % 2 ^ e = 0 :=
        Nat.mod_eq_zero_of_dvd (Nat.dvd_trans (Nat.pow_dvd_pow 2 (Nat.le_of_lt hsmall)) hn)
      have := Nat.two_pow_pos e
      rw [hr, if_neg (by omega), Nat.add_zero, decode_parts hq (Nat.le_of_lt hq'),
        Nat.div_mul_cancel (Nat.dvd_of_mod_eq_zero hr)]
      exact hn
    · rw [decode_parts (by omega) (by split <;> omega)]
      exact Nat.dvd_trans (Nat.pow_dvd_pow 2 hlarge) (Nat.dvd_mul_left _ _)
  · rw [Nat.min_eq_right (by omega)]
    exact hmost

theorem ofInt_whole (i : Int) : ∃ n : Int, (ofInt i).scaled = n * 2 ^ 1074 := by
  have hdvd : 2 ^ 1074 ∣ (ofInt i).scaled.natAbs := by
    rw [scaled_natAbs, ofInt, magnitudeBits_ofScaled]
    refine dvd_decode_encode ?_
    rw [Int.natAbs_mul, Int.natAbs_pow]
    exact Nat.dvd_mul_left _ _
  obtain ⟨n, hn⟩ := Int.natCast_dvd.2 hdvd
  refine ⟨n, ?_⟩
  rw [hn, Int.mul_comm, Nat.cast_pow]
  rfl

theorem isNan_ofInt (n : Int) : (ofInt n).isNan = false := isNan_ofScaled _

/-- `isfinite(x)`. -/
def isFinite (x : Binary64) : Bool := decide (x.magnitudeBits < 2047 * 2 ^ 52)

theorem isNan_of_isFinite (h : x.isFinite = true) : x.isNan = false := by
  have hlt : x.magnitudeBits < 2047 * 2 ^ 52 := of_decide_eq_true h
  exact decide_eq_false (Nat.not_lt.2 (Nat.le_of_lt hlt))

/-- `-x`: the first bit is turned over. -/
def negate (x : Binary64) : Binary64 := ⟨x.bits + UInt64.ofNat (2 ^ 63)⟩

theorem bits_negate (x : Binary64) : x.negate.bits.toNat = (x.bits.toNat + 2 ^ 63) % 2 ^ 64 := by
  rw [negate, UInt64.toNat_add, UInt64.toNat_ofNat']
  omega

theorem isNegative_negate (x : Binary64) : x.negate.isNegative = !x.isNegative := by
  have hlt := x.bits.toNat_lt
  have hbits := x.bits_negate
  unfold isNegative
  by_cases h : 2 ^ 63 ≤ x.bits.toNat
  · rw [decide_eq_true h, decide_eq_false (by omega), Bool.not_true]
  · rw [decide_eq_false h, decide_eq_true (by omega), Bool.not_false]

theorem magnitudeBits_negate (x : Binary64) : x.negate.magnitudeBits = x.magnitudeBits := by
  unfold magnitudeBits
  rw [bits_negate]
  omega

theorem eq_of_parts (hsign : x.isNegative = y.isNegative)
    (hmag : x.magnitudeBits = y.magnitudeBits) : x = y := by
  have hbits : x.bits.toNat = y.bits.toNat := by
    rw [bits_toNat, bits_toNat, hmag, hsign]
  cases x
  cases y
  simpa [UInt64.toNat_inj] using hbits

theorem eq_of_eq (h : x.eq y = true) (hsign : x.isNegative = y.isNegative) : x = y := by
  simp only [eq, Bool.and_eq_true, decide_eq_true_eq] at h
  refine eq_of_parts hsign (decode_strictMono.injective ?_)
  rw [← scaled_natAbs, ← scaled_natAbs, h.2]

-- The elaborator is kept from unfolding the powers of two these stand on.
attribute [irreducible] decode encode scaled ofScaled ofInt truncate floorAddHalf

end Binary64

/-!
# The operations of binary64

Each operation is the exact one followed by one rounding, with the infinities,
the zeros of two signs and the NaNs told apart first. A quotient of units is
rounded like a whole number of them (`encodeRatio`), so that a product and a
quotient need no more than a sum does.
-/

namespace Binary64

/-- The magnitude of these bits, under a sign. -/
def signed (negative : Bool) (bits : Nat) : Binary64 :=
  ⟨UInt64.ofNat (if negative then 2 ^ 63 + bits else bits)⟩

def nan : Binary64 := signed false (2047 * 2 ^ 52 + 2 ^ 51)

def zero (negative : Bool) : Binary64 := signed negative 0

def infinity (negative : Bool) : Binary64 := signed negative (2047 * 2 ^ 52)

def isInfinite (x : Binary64) : Bool := decide (x.magnitudeBits = 2047 * 2 ^ 52)

/-- The bits of the magnitude nearest to `n / d` units, ties to even. -/
def encodeRatio (n d : Nat) : Nat :=
  let e := (n / d).log2 - 52
  let q := n / (d * 2 ^ e)
  let r := n % (d * 2 ^ e)
  min (e * 2 ^ 52 + q + if d * 2 ^ e < 2 * r ∨ d * 2 ^ e = 2 * r ∧ q % 2 = 1 then 1 else 0)
    (2047 * 2 ^ 52)

/-- `x + y`. -/
def add (x y : Binary64) : Binary64 :=
  if x.isNan || y.isNan then nan
  else if x.isInfinite then
    if y.isInfinite && x.isNegative != y.isNegative then nan else x
  else if y.isInfinite then y
  else if x.scaled + y.scaled = 0 then zero (x.isNegative && y.isNegative)
  else ofScaled (x.scaled + y.scaled)

/-- `x - y`. -/
def sub (x y : Binary64) : Binary64 := add x y.negate

/-- `x * y`. -/
def mul (x y : Binary64) : Binary64 :=
  let negative := x.isNegative != y.isNegative
  if x.isNan || y.isNan then nan
  else if x.isInfinite || y.isInfinite then
    if x.scaled = 0 ∨ y.scaled = 0 then nan else infinity negative
  else signed negative (encodeRatio (x.scaled.natAbs * y.scaled.natAbs) (2 ^ 1074))

/-- `x / y`. -/
def div (x y : Binary64) : Binary64 :=
  let negative := x.isNegative != y.isNegative
  if x.isNan || y.isNan then nan
  else if x.isInfinite then if y.isInfinite then nan else infinity negative
  else if y.isInfinite then zero negative
  else if y.scaled = 0 then if x.scaled = 0 then nan else infinity negative
  else signed negative (encodeRatio (x.scaled.natAbs * 2 ^ 1074) y.scaled.natAbs)

/-- `floor(x)`. -/
def floor (x : Binary64) : Binary64 :=
  if x.isNan || x.isInfinite then x
  else if x.scaled / 2 ^ 1074 = 0 then zero x.isNegative
  else ofInt (x.scaled / 2 ^ 1074)

/-- `fabs(x)`. -/
def fabs (x : Binary64) : Binary64 := signed false x.magnitudeBits

theorem isNan_nan : nan.isNan = true := by decide

theorem add_nan {x y : Binary64} (h : x.isNan = true ∨ y.isNan = true) : x.add y = nan := by
  rw [add, if_pos (by simpa using h)]

theorem isNan_negate (x : Binary64) : x.negate.isNan = x.isNan := by
  rw [isNan, magnitudeBits_negate, isNan]

theorem sub_nan {x y : Binary64} (h : x.isNan = true ∨ y.isNan = true) : x.sub y = nan :=
  add_nan (h.imp_right fun hy => (isNan_negate y).trans hy)

theorem scaled_negate (x : Binary64) : x.negate.scaled = -x.scaled := by
  unfold scaled
  rw [isNegative_negate, magnitudeBits_negate]
  cases x.isNegative <;> simp

theorem lt_iff {x y : Binary64} (hx : x.isNan = false) (hy : y.isNan = false) :
    x.lt y = true ↔ x.scaled < y.scaled := by
  simp [lt, hx, hy]

end Binary64
