import Lhat.Foundation.Binary64Integers
import Lhat.Runtime.Key

/-!
# Equality of the two representations of a number

`lhat_value_equal` compares an integer with a real by converting each to the
other's representation. The conversion of a real is defined only where the real
is in the range of the integers; elsewhere every platform answers what it likes,
and `Platform` is such an answer.

The first half of the test does not keep the second from an undefined
conversion: the integers from `2 ^ 63 - 512` on are rounded to `2 ^ 63`, which is
a real that is no integer. `equalsExactly_iff` says that nothing else goes wrong,
on any platform, and that the equality is an equivalence on the numbers whatever
the platform answers.
-/

namespace Lhat

variable {d : Binary64} {i : Int64} {p : Platform} {n : Int} {a : LhatValue}

/-- `(LhatInteger)d` as one platform computes it: what the language says in the
range of the integers, anything past it. -/
structure Platform where
  toInteger : Binary64 → Int64
  defined : ∀ d i, castToInteger d = some i → toInteger d = i

namespace Platform

/-- x86-64: `INT64_MIN` for every real the integers do not reach. -/
def indefinite : Platform where
  toInteger d := (castToInteger d).getD Int64.minValue
  defined d i hcast := by rw [hcast, Option.getD_some]

/-- AArch64: the end of the integers the real lies past. -/
def saturating : Platform where
  toInteger d :=
    (castToInteger d).getD
      (if d.isNan then 0 else if d.isNegative then Int64.minValue else Int64.maxValue)
  defined d i hcast := by rw [hcast, Option.getD_some]

end Platform

/-- `lhat_value_equal` of two numbers. -/
def numberEqual (p : Platform) : LhatValue → LhatValue → Bool
  | .integer i, .integer j => i == j
  | .integer i, .real d => (Binary64.ofInt i.toInt).eq d && p.toInteger d == i
  | .real c, .integer i => (Binary64.ofInt i.toInt).eq c && p.toInteger c == i
  | .real c, .real d => c.eq d
  | _, _ => false

/-- Comparing the integer with the real comes to `(LhatInteger)d`: the first
half of the test held. -/
def Converts (i : Int64) (d : Binary64) : Prop := (Binary64.ofInt i.toInt).eq d = true

instance (i : Int64) (d : Binary64) : Decidable (Converts i d) :=
  inferInstanceAs (Decidable (_ = true))

/-- A finite real that is the integer. -/
def EqualsInteger (d : Binary64) (n : Int) : Prop := d.isFinite = true ∧ d.toRat = n

/-- The reals `(LhatInteger)d` is defined at. -/
def InIntegers (d : Binary64) : Prop :=
  d.isFinite = true ∧ (-2 ^ 63 : Rat) ≤ d.toRat ∧ d.toRat < 2 ^ 63

/-- What is asked of the comparison of an integer with a real. -/
structure EqualsExactly (i : Int64) (d : Binary64) : Prop where
  exact : ∀ p, numberEqual p (.integer i) (.real d) = true ↔ EqualsInteger d i.toInt
  symmetric : ∀ p, numberEqual p (.real d) (.integer i) = numberEqual p (.integer i) (.real d)
  defined : Converts i d → InIntegers d

/-- The number names the integer. -/
def Names : LhatValue → Int64 → Prop
  | .integer j, i => j = i
  | .real d, i => EqualsInteger d i.toInt
  | _, _ => False

/-- The numbers but the NaNs. -/
def IsNumber : LhatValue → Prop
  | .integer _ => True
  | .real d => d.isNan = false
  | _ => False

theorem toRat_whole (h : d.scaled = n * 2 ^ 1074) : d.toRat = n :=
  Binary64.toRat_eq_iff.2 h

/-- What the first half of the test says of the real: it is whole, between
`-2 ^ 63` and `2 ^ 63`, and `2 ^ 63` itself for the last 512 integers only. -/
theorem whole_of_converts (hconv : Converts i d) :
    ∃ n : Int, d.isFinite = true ∧ d.scaled = n * 2 ^ 1074 ∧ -2 ^ 63 ≤ n ∧ n ≤ 2 ^ 63 ∧
      (n = 2 ^ 63 ↔ 2 ^ 63 - 512 ≤ i.toInt) := by
  simp only [Converts, Binary64.eq, Bool.and_eq_true, Bool.not_eq_true', decide_eq_true_eq]
    at hconv
  obtain ⟨⟨-, hnan⟩, hscaled⟩ := hconv
  obtain ⟨n, hn⟩ := Binary64.ofInt_whole i.toInt
  obtain ⟨hlow, hhigh, hend⟩ := Binary64.ofInt_bounds i.le_toInt i.toInt_lt hn
  rw [hscaled] at hn
  exact ⟨n, Binary64.isFinite_of_whole hnan hn hlow hhigh, hn, hlow, hhigh, hend⟩

theorem isNan_of_equalsInteger (h : EqualsInteger d n) : d.isNan = false :=
  Binary64.isNan_of_isFinite h.1

theorem converts_of_equalsInteger (h : EqualsInteger d i.toInt) : Converts i d := by
  have hnan := isNan_of_equalsInteger h
  have hscaled := Binary64.scaled_ofInt_of_whole hnan (Binary64.toRat_eq_iff.1 h.2)
  simp [Converts, Binary64.eq, Binary64.isNan_ofInt, hnan, hscaled]

theorem numberEqual_mixed :
    numberEqual p (.integer i) (.real d) = true ↔ Converts i d ∧ p.toInteger d = i := by
  simp [numberEqual, Converts]

theorem castToInteger_of_equalsInteger (h : EqualsInteger d n)
    (hlow : -2 ^ 63 ≤ n) (hhigh : n < 2 ^ 63) : castToInteger d = some (Int64.ofInt n) := by
  have htrunc := Binary64.truncate_of_whole (Binary64.toRat_eq_iff.1 h.2)
  rw [castToInteger_eq_some, htrunc]
  exact ⟨isNan_of_equalsInteger h, hlow, hhigh, rfl⟩

theorem equalsExactly_iff (i : Int64) (d : Binary64) :
    EqualsExactly i d ↔ ¬ (EqualsInteger d (2 ^ 63) ∧ 2 ^ 63 - 512 ≤ i.toInt) := by
  constructor
  · rintro hexact ⟨hd, hi⟩
    have hnan := isNan_of_equalsInteger hd
    have hconv : Converts i d := by
      obtain ⟨n, hn⟩ := Binary64.ofInt_whole i.toInt
      have hend := (Binary64.ofInt_bounds i.le_toInt i.toInt_lt hn).2.2.2 hi
      simp only [Converts, Binary64.eq, Binary64.isNan_ofInt, hnan, Bool.not_false, Bool.true_and,
        decide_eq_true_eq]
      rw [hn, hend, Binary64.toRat_eq_iff.1 hd.2]
    obtain ⟨-, -, hlt⟩ := hexact.defined hconv
    rw [hd.2] at hlt
    norm_num at hlt
  · intro hnot
    have hwhole : ∀ hconv : Converts i d, ∃ n : Int, EqualsInteger d n ∧ -2 ^ 63 ≤ n ∧ n < 2 ^ 63 := by
      intro hconv
      obtain ⟨n, hfin, hscaled, hlow, hhigh, hend⟩ := whole_of_converts hconv
      have hd : EqualsInteger d n := ⟨hfin, toRat_whole hscaled⟩
      refine ⟨n, hd, hlow, lt_of_le_of_ne hhigh fun heq => hnot ?_⟩
      exact ⟨heq ▸ hd, hend.1 heq⟩
    refine ⟨fun p => ?_, fun p => rfl, fun hconv => ?_⟩
    · rw [numberEqual_mixed]
      constructor
      · rintro ⟨hconv, hto⟩
        obtain ⟨n, hd, hlow, hhigh⟩ := hwhole hconv
        rw [p.defined d _ (castToInteger_of_equalsInteger hd hlow hhigh)] at hto
        rw [← hto, Int64.toInt_ofInt_of_le hlow hhigh]
        exact hd
      · intro hd
        have hcast := castToInteger_of_equalsInteger hd i.le_toInt i.toInt_lt
        refine ⟨converts_of_equalsInteger hd, ?_⟩
        rw [p.defined d _ hcast, Int64.ofInt_toInt]
    · obtain ⟨n, hd, hlow, hhigh⟩ := hwhole hconv
      refine ⟨hd.1, ?_, ?_⟩
      · rw [hd.2]
        exact_mod_cast hlow
      · rw [hd.2]
        exact_mod_cast hhigh

/-- What a number is compared by: the integer it folds into, or else its value. -/
def comparedBy (p : Platform) : LhatValue → Int64 ⊕ Int
  | .integer i => .inl i
  | .real d =>
    if (Binary64.ofInt (p.toInteger d).toInt).eq d then .inl (p.toInteger d) else .inr d.scaled
  | _ => .inr 0

theorem comparedBy_real : comparedBy p (.real d) = .inl i ↔ Converts i d ∧ p.toInteger d = i := by
  simp only [comparedBy, Converts]
  constructor
  · intro hd
    split at hd
    · next hback =>
        obtain rfl := Sum.inl.inj hd
        exact ⟨hback, rfl⟩
    · cases hd
  · rintro ⟨hback, rfl⟩
    rw [if_pos hback]

theorem comparedBy_congr {c : Binary64} (hc : c.isNan = false) (hd : d.isNan = false)
    (h : c.scaled = d.scaled) : comparedBy p (.real c) = comparedBy p (.real d) := by
  by_cases hzero : c.scaled = 0
  · have hcast : ∀ e : Binary64, e.isNan = false → e.scaled = 0 → p.toInteger e = 0 := by
      intro e he hval
      refine p.defined e 0 (castToInteger_eq_some.2 ?_)
      have htrunc : e.truncate = 0 := Binary64.truncate_of_whole (by rw [hval, Int.zero_mul])
      rw [htrunc]
      exact ⟨he, by decide, by decide, rfl⟩
    simp only [comparedBy, hcast c hc hzero, hcast d hd (h ▸ hzero), Binary64.eq, hc, hd, h]
  · rw [Binary64.eq_of_scaled_eq h hzero]

theorem numberEqual_iff {b : LhatValue} (ha : IsNumber a) (hb : IsNumber b) :
    numberEqual p a b = true ↔ comparedBy p a = comparedBy p b := by
  match a, b, ha, hb with
  | .integer i, .integer j, _, _ => simp [numberEqual, comparedBy]
  | .integer i, .real d, _, _ =>
    rw [numberEqual_mixed, ← comparedBy_real]
    exact eq_comm
  | .real c, .integer i, _, _ =>
    rw [show numberEqual p (.real c) (.integer i) = numberEqual p (.integer i) (.real c) from rfl,
      numberEqual_mixed, ← comparedBy_real]
    rfl
  | .real c, .real d, hc, hd =>
    have hc : c.isNan = false := hc
    have hd : d.isNan = false := hd
    have heq : numberEqual p (.real c) (.real d) = true ↔ c.scaled = d.scaled := by
      simp [numberEqual, Binary64.eq, hc, hd]
    rw [heq]
    refine ⟨comparedBy_congr hc hd, fun h => ?_⟩
    cases hform : comparedBy p (.real d) with
    | inl i =>
      have hside : ∀ e : Binary64, comparedBy p (.real e) = .inl i →
          (Binary64.ofInt i.toInt).scaled = e.scaled := by
        intro e he
        have hconv := (comparedBy_real.1 he).1
        simp only [Converts, Binary64.eq, Bool.and_eq_true, decide_eq_true_eq] at hconv
        exact hconv.2
      rw [← hside c (h.trans hform), ← hside d hform]
    | inr z =>
      have hside : ∀ e : Binary64, comparedBy p (.real e) = .inr z → e.scaled = z := by
        intro e he
        simp only [comparedBy] at he
        split at he
        · cases he
        · exact Sum.inr.inj he
      rw [hside c (h.trans hform), hside d hform]

theorem numberEqual_equivalence (p : Platform) :
    Equivalence fun a b : { v // IsNumber v } => numberEqual p a b = true := by
  refine ⟨fun a => ?_, fun {a b} h => ?_, fun {a b c} hab hbc => ?_⟩
  · exact (numberEqual_iff a.2 a.2).2 rfl
  · exact (numberEqual_iff b.2 a.2).2 ((numberEqual_iff a.2 b.2).1 h).symm
  · exact (numberEqual_iff a.2 c.2).2
      (((numberEqual_iff a.2 b.2).1 hab).trans ((numberEqual_iff b.2 c.2).1 hbc))

theorem lhatNumberAsWhole_iff : lhatNumberAsWhole a = some i ↔ Names a i := by
  match a with
  | .integer j => simp [lhatNumberAsWhole, Names]
  | .real d =>
    constructor
    · intro hwhole
      have hback : Converts i d ∧ castToInteger d = some i := by
        simp only [lhatNumberAsWhole] at hwhole
        split at hwhole
        · split at hwhole
          · next j hcast =>
              split at hwhole
              · next heq =>
                  obtain rfl := Option.some.inj hwhole
                  simp only [Binary64.eq, Bool.and_eq_true, decide_eq_true_eq] at heq
                  simp only [Converts, Binary64.eq, Bool.and_eq_true, decide_eq_true_eq]
                  exact ⟨⟨⟨heq.1.2, heq.1.1⟩, heq.2.symm⟩, hcast⟩
              · cases hwhole
          · cases hwhole
        · cases hwhole
      obtain ⟨n, hfin, hscaled, -⟩ := whole_of_converts hback.1
      have htrunc := toInt_of_castToInteger hback.2
      rw [Binary64.truncate_of_whole hscaled] at htrunc
      exact ⟨hfin, Binary64.toRat_eq_iff.2 (htrunc ▸ hscaled)⟩
    · intro hd
      have hnan := isNan_of_equalsInteger hd
      have := asWhole_of_whole hnan (Binary64.toRat_eq_iff.1 hd.2) i.le_toInt i.toInt_lt
      rwa [Int64.ofInt_toInt] at this
  | .nil | .bool _ | .object _ | .hostvalue _ | .cont _ | .run _ =>
    simp [lhatNumberAsWhole, Names]

theorem lhatValueEqual_number (h : Heap) {b : LhatValue} (ha : IsNumber a) (hb : IsNumber b) :
    lhatValueEqual h a b = some (numberEqual .indefinite a b) := by
  have hmixed : ∀ i d, integerEqualsReal i d = numberEqual .indefinite (.integer i) (.real d) := by
    intro i d
    cases hcast : castToInteger d with
    | some j => simp [integerEqualsReal, numberEqual, Platform.indefinite, hcast]
    | none =>
      -- The conversion is not made: `INT64_MIN` is the real it is converted to.
      have hnot : ¬ Converts Int64.minValue d := by
        intro hconv
        obtain ⟨n, hfin, hscaled, hlow, hhigh, hend⟩ := whole_of_converts hconv
        have hlt : n ≠ 2 ^ 63 := fun heq => absurd (hend.1 heq) (by decide)
        rw [castToInteger_of_equalsInteger ⟨hfin, toRat_whole hscaled⟩ hlow
          (lt_of_le_of_ne hhigh hlt)] at hcast
        cases hcast
      by_cases hi : i = Int64.minValue
      · subst hi
        simp only [integerEqualsReal, numberEqual, Bool.eq_false_iff.2 hnot, Bool.false_and]
      · simp [integerEqualsReal, numberEqual, Platform.indefinite, hcast, Ne.symm hi]
  cases a with
  | integer i =>
    cases b with
    | integer j => rfl
    | real d => exact congrArg some (hmixed i d)
    | _ => exact hb.elim
  | real c =>
    cases b with
    | integer i => exact congrArg some (hmixed i c)
    | real d => rfl
    | _ => exact hb.elim
  | _ => exact ha.elim

/-- Equality of numbers is exact unless an integer is compared with the real it
is rounded to past the integers' end, and it is an equivalence in any case. -/
theorem numberEqual_exact (i : Int64) (d : Binary64) :
    (EqualsExactly i d ↔ ¬ (EqualsInteger d (2 ^ 63) ∧ 2 ^ 63 - 512 ≤ i.toInt)) ∧
      (∀ p, Equivalence fun a b : { v // IsNumber v } => numberEqual p a b = true) ∧
      (∀ a i, lhatNumberAsWhole a = some i ↔ Names a i) ∧
      ∀ h a b, IsNumber a → IsNumber b →
        lhatValueEqual h a b = some (numberEqual .indefinite a b) :=
  ⟨equalsExactly_iff i d, numberEqual_equivalence, fun _ _ => lhatNumberAsWhole_iff,
    fun h _ _ => lhatValueEqual_number h⟩

/-- The last integer and `2 ^ 63`: the real is converted all the same, and where
conversions saturate the two are equal. -/
theorem numberEqual_exact_fails :
    ¬ EqualsExactly Int64.maxValue (Binary64.ofInt (2 ^ 63)) ∧
      ¬ InIntegers (Binary64.ofInt (2 ^ 63)) ∧
      numberEqual .saturating (.integer Int64.maxValue) (.real (Binary64.ofInt (2 ^ 63))) =
        true := by
  have hrat : (Binary64.ofInt (2 ^ 63)).toRat = 2 ^ 63 := by
    have := toRat_whole (d := Binary64.ofInt (2 ^ 63)) (n := 2 ^ 63)
      (by rw [scaled_ofInt_high]; decide +kernel)
    exact_mod_cast this
  have hpast : ¬ InIntegers (Binary64.ofInt (2 ^ 63)) := fun hin => by
    have hlt := hin.2.2
    rw [hrat] at hlt
    exact lt_irrefl _ hlt
  exact ⟨fun hexact => hpast (hexact.defined (by decide +kernel)), hpast, by decide +kernel⟩

end Lhat
