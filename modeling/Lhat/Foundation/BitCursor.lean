import Mathlib.Data.Nat.Size
import Mathlib.Data.Nat.Bitwise

/-!
# A cursor over bits

Bits go in from the low end of each byte, and a number that spans bytes puts its low bits
first. A number of 64 bits is a natural number here.
-/

namespace Lhat

/-- The bit at `i`. Past the end there is none set. -/
def bit (bytes : List UInt8) (i : Nat) : Bool :=
  (bytes.getD (i / 8) 0).toNat.testBit (i % 8)

/-- How many bits the numbers up to `span` take. -/
def widthOf (span : Nat) : Nat := span.size

/-- The loop of `put_bits`. Every turn puts at least one bit, so `fuel` is the width. -/
def putLoop : Nat → List UInt8 → Nat → Nat → Nat → List UInt8
  | 0, out, _, _, _ => out
  | fuel + 1, out, p, value, width =>
    if width = 0 then out
    else
      let offset := p % 8
      let take := min (8 - offset) width
      putLoop fuel
        (out.modify (p / 8) fun byte =>
          byte ||| UInt8.ofNat ((value &&& (2 ^ take - 1)) <<< offset))
        (p + take) (value >>> take) (width - take)

def putBits (out : List UInt8) (at_ value width : Nat) : List UInt8 :=
  putLoop width out at_ value width

/-- The loop of `get_bits`, with the bits that are got already. -/
def getLoop (bytes : List UInt8) : Nat → Nat → Nat → Nat → Nat → Nat
  | 0, _, _, value, _ => value
  | fuel + 1, p, got, value, width =>
    if width ≤ got then value
    else
      let offset := p % 8
      let take := min (8 - offset) (width - got)
      let part := ((bytes.getD (p / 8) 0).toNat >>> offset) &&& (2 ^ take - 1)
      getLoop bytes fuel (p + take) (got + take) (value ||| part <<< got) width

def getBits (bytes : List UInt8) (at_ width : Nat) : Nat :=
  getLoop bytes width at_ 0 0 width

variable {bytes out : List UInt8} {value width p i : Nat}

theorem lt_two_pow_widthOf {span : Nat} (h : value ≤ span) : value < 2 ^ widthOf span :=
  Nat.lt_of_le_of_lt h (Nat.lt_size_self span)

theorem bytes_ext (hlength : bytes.length = out.length) (h : ∀ i, bit bytes i = bit out i) :
    bytes = out := by
  refine List.ext_getElem hlength fun n hn hn' => ?_
  refine UInt8.toNat_inj.mp (Nat.eq_of_testBit_eq fun k => ?_)
  by_cases hk : k < 8
  · have := h (8 * n + k)
    unfold bit at this
    rwa [show (8 * n + k) / 8 = n by omega, show (8 * n + k) % 8 = k by omega,
      List.getD_eq_getElem _ _ hn, List.getD_eq_getElem _ _ hn'] at this
  · have hlarge : ∀ b : UInt8, b.toNat.testBit k = false := fun b =>
      Nat.testBit_lt_two_pow (Nat.lt_of_lt_of_le b.toNat_lt
        (Nat.pow_le_pow_right (by decide) (Nat.le_of_not_lt hk)))
    rw [hlarge, hlarge]

/-- What one turn of `put_bits` puts into its byte. -/
theorem bit_modify {take : Nat} (hroom : p / 8 < out.length) (htake : p % 8 + take ≤ 8) :
    bit (out.modify (p / 8) fun byte =>
      byte ||| UInt8.ofNat ((value &&& (2 ^ take - 1)) <<< (p % 8))) i =
      (bit out i || (decide (p ≤ i) && decide (i < p + take) && value.testBit (i - p))) := by
  unfold bit
  by_cases hbyte : i / 8 = p / 8
  · rw [hbyte, List.getD_eq_getElem _ _ (by rwa [List.length_modify]), List.getElem_modify_eq,
      List.getD_eq_getElem _ _ hroom, UInt8.toNat_or, UInt8.toNat_ofNat', Nat.testBit_or,
      Nat.testBit_mod_two_pow, Nat.testBit_shiftLeft, Nat.and_two_pow_sub_one_eq_mod,
      Nat.testBit_mod_two_pow]
    congr 1
    by_cases hle : p ≤ i
    · have hsub : i % 8 - p % 8 = i - p := by omega
      rw [hsub]
      by_cases hlt : i < p + take
      · have h1 : i % 8 < 8 := by omega
        have h2 : i % 8 ≥ p % 8 := by omega
        have h3 : i - p < take := by omega
        simp [h1, h2, h3, hle, hlt]
      · have h3 : ¬ i - p < take := by omega
        simp [h3, hlt]
    · have h2 : ¬ i % 8 ≥ p % 8 := by omega
      simp [h2, hle]
  · have hout : ¬ (p ≤ i ∧ i < p + take) := by omega
    have hnone : (decide (p ≤ i) && decide (i < p + take)) = false := by
      simpa using fun h => Nat.le_of_not_lt fun hlt => hout ⟨h, hlt⟩
    rw [hnone, Bool.false_and, Bool.or_false, List.getD_eq_getElem?_getD,
      List.getElem?_modify_ne _ _ (Ne.symm hbyte), ← List.getD_eq_getElem?_getD]

theorem length_putLoop (fuel : Nat) : ∀ {out : List UInt8} {p value width : Nat},
    (putLoop fuel out p value width).length = out.length := by
  induction fuel with
  | zero => intros; rfl
  | succ fuel ih =>
    intro out p value width
    unfold putLoop
    split
    · rfl
    · rw [ih, List.length_modify]

theorem bit_putLoop (fuel : Nat) : ∀ {out : List UInt8} {p value width : Nat}, width ≤ fuel →
    p + width ≤ 8 * out.length →
    bit (putLoop fuel out p value width) i =
      (bit out i || (decide (p ≤ i) && decide (i < p + width) && value.testBit (i - p))) := by
  induction fuel with
  | zero =>
    intro out p value width hfuel _
    have hnone : (decide (p ≤ i) && decide (i < p + width)) = false := by
      simp
      omega
    rw [putLoop, hnone, Bool.false_and, Bool.or_false]
  | succ fuel ih =>
    intro out p value width hfuel hroom
    unfold putLoop
    split
    · have hnone : (decide (p ≤ i) && decide (i < p + width)) = false := by
        simp
        omega
      rw [hnone, Bool.false_and, Bool.or_false]
    · dsimp only
      have htake : 0 < min (8 - p % 8) width := by omega
      generalize htaken : min (8 - p % 8) width = take at *
      rw [ih (by omega) (by rw [List.length_modify]; omega), bit_modify (by omega) (by omega),
        Nat.testBit_shiftRight, Bool.or_assoc]
      congr 1
      by_cases hle : p ≤ i
      · by_cases hlt : i < p + take
        · have h1 : ¬ p + take ≤ i := by omega
          have h2 : i < p + width := by omega
          simp [hle, hlt, h1, h2]
        · have h1 : p + take ≤ i := by omega
          have h2 : take + (i - (p + take)) = i - p := by omega
          have h3 : p + take + (width - take) = p + width := by omega
          simp [hle, hlt, h1, h2, h3]
      · have h1 : ¬ p + take ≤ i := by omega
        simp [hle, h1]

/-- `put_bits` sets the bits of the number and no others. -/
theorem bit_putBits (hroom : p + width ≤ 8 * out.length) :
    bit (putBits out p value width) i =
      (bit out i || (decide (p ≤ i) && decide (i < p + width) && value.testBit (i - p))) :=
  bit_putLoop width (Nat.le_refl _) hroom

theorem length_putBits : (putBits out p value width).length = out.length :=
  length_putLoop width

theorem testBit_getLoop (fuel : Nat) : ∀ {p got value width : Nat}, width ≤ got + fuel →
    (getLoop bytes fuel p got value width).testBit i =
      (value.testBit i || (decide (got ≤ i) && decide (i < width) && bit bytes (p + (i - got)))) := by
  induction fuel with
  | zero =>
    intro p got value width hfuel
    have hnone : (decide (got ≤ i) && decide (i < width)) = false := by
      simp
      omega
    rw [getLoop, hnone, Bool.false_and, Bool.or_false]
  | succ fuel ih =>
    intro p got value width hfuel
    unfold getLoop
    split
    · have hnone : (decide (got ≤ i) && decide (i < width)) = false := by
        simp
        omega
      rw [hnone, Bool.false_and, Bool.or_false]
    · dsimp only
      have htake : 0 < min (8 - p % 8) (width - got) := by omega
      generalize htaken : min (8 - p % 8) (width - got) = take at *
      rw [ih (by omega), Nat.testBit_or, Nat.testBit_shiftLeft, Nat.and_two_pow_sub_one_eq_mod,
        Nat.testBit_mod_two_pow, Nat.testBit_shiftRight, Bool.or_assoc]
      congr 1
      by_cases hle : got ≤ i
      · by_cases hlt : i < got + take
        · have h1 : ¬ got + take ≤ i := by omega
          have h2 : i < width := by omega
          have h3 : i - got < take := by omega
          have h4 : (p + (i - got)) / 8 = p / 8 := by omega
          have h5 : (p + (i - got)) % 8 = p % 8 + (i - got) := by omega
          simp [hle, h1, h2, h3, bit, h4, h5]
        · have h1 : got + take ≤ i := by omega
          have h2 : p + take + (i - (got + take)) = p + (i - got) := by omega
          have h3 : ¬ i - got < take := by omega
          simp [hle, h1, h2, h3]
      · have h1 : ¬ got + take ≤ i := by omega
        simp [hle, h1]

/-- `get_bits` gets the bits from where it stands on. -/
theorem testBit_getBits :
    (getBits bytes p width).testBit i = (decide (i < width) && bit bytes (p + i)) := by
  rw [getBits, testBit_getLoop width (by omega), Nat.zero_testBit, Bool.false_or]
  simp

theorem getBits_lt : getBits bytes p width < 2 ^ width :=
  Nat.lt_pow_two_of_testBit _ fun i hi => by
    rw [testBit_getBits, decide_eq_false (Nat.not_lt.mpr hi), Bool.false_and]

theorem getBits_congr {q : Nat} (h : ∀ j < width, bit bytes (p + j) = bit out (q + j)) :
    getBits bytes p width = getBits out q width := by
  refine Nat.eq_of_testBit_eq fun i => ?_
  rw [testBit_getBits, testBit_getBits]
  by_cases hi : i < width
  · rw [h i hi]
  · rw [decide_eq_false hi, Bool.false_and, Bool.false_and]

theorem getBits_putBits (hroom : p + width ≤ 8 * out.length)
    (hclear : ∀ j < width, bit out (p + j) = false) :
    getBits (putBits out p value width) p width = value % 2 ^ width := by
  refine Nat.eq_of_testBit_eq fun i => ?_
  rw [testBit_getBits, Nat.testBit_mod_two_pow]
  by_cases hi : i < width
  · rw [bit_putBits hroom, hclear i hi]
    have h1 : p ≤ p + i := by omega
    have h2 : p + i < p + width := by omega
    simp [h1, h2]
  · rw [decide_eq_false hi, Bool.false_and, Bool.false_and]

end Lhat
