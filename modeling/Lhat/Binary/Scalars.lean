import Lhat.Binary.Codec
import Mathlib.Tactic.Linarith
import Mathlib.Tactic.FieldSimp

/-!
# One number there and back

What a kind packs it unpacks again, and what it unpacks it packs again. A fixed number comes
back as the nearest step, except for one that is half a step below the least: it is rounded
away from zero to one step below, which the comparison with the largest step takes for one
above.
-/

namespace Lhat.Binary

variable {n width : Nat} {span : UInt64}

namespace Scalar

/-- Whether a value comes back: the same one, or of a fixed kind a number within half a step. -/
def Near : Scalar → Value → Value → Prop
  | fixed _ step _, v, w => ∃ x y, v.number = some x ∧ w = .real y ∧ |x - y| ≤ step / 2
  | _, v, w => w = v

/-- A number exactly half a step below the least of several. -/
def HalfBelow : Scalar → Value → Prop
  | fixed origin step span, v => 0 < span ∧ v.number = some (origin - step / 2)
  | _, _ => False

/-- What packs comes back as near as it has to, unless it is half a step below. -/
def Returns (s : Scalar) (v : Value) : Prop :=
  ∀ n, s.pack v = .ok n →
    ∃ w, s.unpack (n % 2 ^ s.width) = some w ∧ (s.Near v w ↔ ¬s.HalfBelow v)

/-- What unpacks is packed again as it was. -/
def Repacks (s : Scalar) (n : Nat) : Prop :=
  ∀ v, s.unpack n = some v → ∃ m, s.pack v = .ok m ∧ m % 2 ^ s.width = n

theorem toInt64_ofNat_toNat (n : Int64) : (UInt64.ofNat n.toUInt64.toNat).toInt64 = n := by
  rw [UInt64.ofNat_toNat, Int64.toInt64_toUInt64]

theorem returns_uint (hs : (uint width span).Sound) (v : Value) : (uint width span).Returns v := by
  intro m hpack
  obtain ⟨_, _, hspan⟩ := hs
  cases v with
  | integer n =>
    simp only [pack] at hpack
    split at hpack
    · cases hpack
    · rename_i hfits
      cases hpack
      simp only [Bool.or_eq_true, decide_eq_true_eq, not_or, Int64.not_lt, UInt64.not_lt] at hfits
      obtain ⟨hpos, hle⟩ := hfits
      have hnat := toNat_toUInt64 n
      have hint := Int64.le_iff_toInt_le.mp hpos
      change 0 ≤ n.toInt at hint
      have hmax := n.toInt_lt
      have hle' := UInt64.le_iff_toNat_le.mp hle
      have htwo := Nat.two_pow_pos width
      have hmod : n.toUInt64.toNat % 2 ^ (uint width span).width = n.toUInt64.toNat :=
        Nat.mod_eq_of_lt (show _ < 2 ^ width by omega)
      refine ⟨.integer n, ?_, iff_of_true rfl id⟩
      rw [hmod, unpack, if_neg, toInt64_ofNat_toNat]
      simp only [Bool.or_eq_true, decide_eq_true_eq]
      omega
  | _ => cases hpack

theorem returns_range {low : Int64} (v : Value) : (range low span).Returns v := by
  intro m hpack
  cases v with
  | integer n =>
    simp only [pack] at hpack
    split at hpack
    · cases hpack
    · rename_i hfits
      cases hpack
      simp only [Bool.or_eq_true, decide_eq_true_eq, not_or, Int64.not_lt, UInt64.not_lt] at hfits
      have hle := UInt64.le_iff_toNat_le.mp hfits.2
      have hmod : (n.toUInt64 - low.toUInt64).toNat % 2 ^ (range low span).width =
          (n.toUInt64 - low.toUInt64).toNat := Nat.mod_eq_of_lt (lt_two_pow_widthOf hle)
      refine ⟨.integer n, ?_, iff_of_true rfl id⟩
      rw [hmod, unpack, if_neg (by simpa using hle), UInt64.ofNat_toNat, UInt64.add_comm,
        UInt64.sub_add_cancel, Int64.toInt64_toUInt64]
  | _ => cases hpack

theorem returns_bool (v : Value) : bool.Returns v := by
  intro m hpack
  cases v with
  | bool b =>
    cases hpack
    refine ⟨.bool b, ?_, iff_of_true rfl id⟩
    cases b <;> rfl
  | _ => cases hpack

theorem returns_enum {owner : Enum} (v : Value) : (enum owner).Returns v := by
  intro m hpack
  cases v with
  | enumerator member =>
    simp only [pack] at hpack
    split at hpack
    · cases hpack
    · rename_i howner
      cases hpack
      rw [ne_eq, not_not] at howner
      subst howner
      obtain ⟨owner, index, hlow, hhigh⟩ := member
      change index ≤ owner.count at hhigh
      have hle : index - 1 ≤ owner.count - 1 := by omega
      refine ⟨.enumerator ⟨owner, index, hlow, hhigh⟩, ?_, iff_of_true rfl id⟩
      change Scalar.unpack (enum owner) ((index - 1) % 2 ^ widthOf (owner.count - 1)) = _
      rw [Nat.mod_eq_of_lt (lt_two_pow_widthOf hle), unpack, if_neg (by simpa using hle),
        Enum.member, dif_pos (by omega)]
      simp [Nat.sub_add_cancel hlow]
  | _ => cases hpack

/-! ### Two's complement -/

theorem ofNat_toInt64 {a : Nat} {z : Int} (h : (a : Int) % 2 ^ 64 = z % 2 ^ 64) :
    (UInt64.ofNat a).toInt64 = Int64.ofInt z := by
  have hz := toNat_toUInt64 (Int64.ofInt z)
  rw [Int64.toInt_ofInt] at hz
  change _ = z.bmod (2 ^ 64 : Nat) % (2 ^ 64 : Nat) at hz
  rw [Int.bmod_emod] at hz
  have ha : ((UInt64.ofNat a).toNat : Int) = (Int64.ofInt z).toUInt64.toNat := by
    rw [hz, UInt64.toNat_ofNat']
    omega
  have hsame : UInt64.ofNat a = (Int64.ofInt z).toUInt64 := UInt64.toNat_inj.mp (by omega)
  rw [hsame, Int64.toInt64_toUInt64]

theorem unpack_int (hs : (int width).Sound) (hn : n < 2 ^ width) :
    (int width).unpack n =
      some (.integer (Int64.ofInt (if 2 ^ (width - 1) ≤ n then n - 2 ^ width else n))) := by
  obtain ⟨hlow, hhigh⟩ := hs
  have hhalf : 2 ^ width = 2 * 2 ^ (width - 1) := by
    rw [← pow_succ', Nat.sub_add_cancel hlow]
  have hpos := Nat.two_pow_pos (width - 1)
  have htop : n >>> (width - 1) ≠ 0 ↔ 2 ^ (width - 1) ≤ n := by
    rw [Nat.shiftRight_eq_div_pow, ← Nat.pos_iff_ne_zero, Nat.div_pos_iff]
    omega
  simp only [unpack, htop]
  congr 2
  by_cases hset : 2 ^ (width - 1) ≤ n
  · rw [if_pos hset]
    by_cases hwide : width < 64
    · rw [if_pos ⟨hwide, hset⟩, Nat.lor_comm, ← Nat.shiftLeft_add_eq_or_of_lt hn,
        Nat.shiftLeft_eq]
      refine ofNat_toInt64 ?_
      push_cast
      generalize (2 : Int) ^ width = t
      omega
    · have hall : width = 64 := by omega
      subst hall
      rw [if_neg (fun h => hwide h.1)]
      exact ofNat_toInt64 (by omega)
  · rw [if_neg hset, if_neg (fun h => hset h.2)]
    exact ofNat_toInt64 rfl

theorem mod_two_pow (hwidth : width ≤ 64) (n : Int64) :
    ((n.toUInt64.toNat % 2 ^ width : Nat) : Int) = n.toInt % 2 ^ width := by
  have hdvd : (2 : Int) ^ width ∣ 2 ^ 64 := pow_dvd_pow 2 hwidth
  rw [Int.natCast_mod, toNat_toUInt64, Nat.cast_pow, Nat.cast_ofNat, Int.emod_emod_of_dvd _ hdvd]

theorem returns_int (hs : (int width).Sound) (v : Value) : (int width).Returns v := by
  intro m hpack
  have hhalf : 2 ^ width = 2 * 2 ^ (width - 1) := by
    rw [← pow_succ', Nat.sub_add_cancel hs.1]
  cases v with
  | integer n =>
    simp only [pack] at hpack
    split at hpack
    · cases hpack
    · rename_i hfits
      cases hpack
      have hmod := mod_two_pow hs.2 n
      have hlt := Nat.mod_lt n.toUInt64.toNat (Nat.two_pow_pos width)
      refine ⟨.integer n, ?_, iff_of_true rfl id⟩
      rw [show (int width).width = width from rfl, unpack_int hs hlt]
      congr 2
      conv_rhs => rw [← Int64.ofInt_toInt n]
      congr 1
      rw [hmod]
      have hcast : ((2 ^ width : Nat) : Int) = 2 ^ width := by push_cast; rfl
      have hhalf' : (2 : Int) ^ width = 2 * 2 ^ (width - 1) := by exact_mod_cast hhalf
      simp only [lowest] at hfits
      have hiff : 2 ^ (width - 1) ≤ n.toUInt64.toNat % 2 ^ width ↔
          (2 : Int) ^ (width - 1) ≤ n.toInt % 2 ^ width := by
        rw [← hmod]
        exact_mod_cast Iff.rfl
      simp only [hiff]
      obtain hneg | hpos := lt_or_ge n.toInt 0
      · rw [← Int.add_emod_right, Int.emod_eq_of_lt (by omega) (by omega), if_pos (by omega)]
        omega
      · rw [Int.emod_eq_of_lt hpos (by omega), if_neg (by omega)]
  | _ => cases hpack

theorem repacks_int (hs : (int width).Sound) (hn : n < 2 ^ width) : (int width).Repacks n := by
  intro v hunpack
  have hhalf : 2 ^ width = 2 * 2 ^ (width - 1) := by
    rw [← pow_succ', Nat.sub_add_cancel hs.1]
  have hhalf' : (2 : Int) ^ width = 2 * 2 ^ (width - 1) := by exact_mod_cast hhalf
  have hcast : ((2 ^ (width - 1) : Nat) : Int) = 2 ^ (width - 1) := by push_cast; rfl
  have hmost : (2 : Int) ^ (width - 1) ≤ 2 ^ 63 :=
    pow_le_pow_right₀ (by decide) (by have := hs.2; omega)
  rw [unpack_int hs hn] at hunpack
  cases hunpack
  generalize hz : (if 2 ^ (width - 1) ≤ n then (n : Int) - 2 ^ width else n) = z
  have hinside : -2 ^ (width - 1) ≤ z ∧ z < 2 ^ (width - 1) := by
    split at hz <;> omega
  have hint : (Int64.ofInt z).toInt = z :=
    Int64.toInt_ofInt_of_le (by omega) (by omega)
  refine ⟨(Int64.ofInt z).toUInt64.toNat, ?_, ?_⟩
  · simp only [pack, hint, lowest]
    rw [if_neg (by omega)]
  · have hmod := mod_two_pow hs.2 (Int64.ofInt z)
    rw [hint] at hmod
    have hn' : z % 2 ^ width = n := by
      split at hz
      · rw [← hz, Int.sub_emod_right, Int.emod_eq_of_lt (by omega) (by omega)]
      · rw [← hz, Int.emod_eq_of_lt (by omega) (by omega)]
    change (Int64.ofInt z).toUInt64.toNat % 2 ^ width = n
    omega

theorem repacks_uint (hn : n < 2 ^ width) : (uint width span).Repacks n := by
  intro v hunpack
  simp only [unpack] at hunpack
  split at hunpack
  · cases hunpack
  · rename_i hfits
    cases hunpack
    simp only [Bool.or_eq_true, decide_eq_true_eq, not_or, Nat.not_lt] at hfits
    obtain ⟨hspan, hmax⟩ := hfits
    have hnat : (UInt64.ofNat n).toNat = n := by
      rw [UInt64.toNat_ofNat']
      omega
    have hint := toNat_toUInt64 (UInt64.ofNat n).toInt64
    have hlow := (UInt64.ofNat n).toInt64.le_toInt
    have hhigh := (UInt64.ofNat n).toInt64.toInt_lt
    rw [UInt64.toUInt64_toInt64, hnat] at hint
    refine ⟨n, ?_, Nat.mod_eq_of_lt hn⟩
    rw [pack, UInt64.toUInt64_toInt64, if_neg, hnat]
    simp only [Bool.or_eq_true, decide_eq_true_eq, not_or, Int64.not_lt, UInt64.not_lt,
      Int64.le_iff_toInt_le, UInt64.le_iff_toNat_le, hnat]
    exact ⟨by change 0 ≤ _; omega, hspan⟩

theorem repacks_range {low : Int64} (hs : (range low span).Sound)
    (hn : n < 2 ^ (range low span).width) : (range low span).Repacks n := by
  intro v hunpack
  simp only [unpack] at hunpack
  split at hunpack
  · cases hunpack
  · rename_i hfits
    cases hunpack
    rw [Nat.not_lt] at hfits
    change low.toInt + (span.toNat : Int) < 2 ^ 63 at hs
    have hnat : (UInt64.ofNat n).toNat = n := by
      rw [UInt64.toNat_ofNat']
      have := span.toNat_lt
      omega
    have hint := toNat_toUInt64 (low.toUInt64 + UInt64.ofNat n).toInt64
    have hmin := (low.toUInt64 + UInt64.ofNat n).toInt64.le_toInt
    have hmax := (low.toUInt64 + UInt64.ofNat n).toInt64.toInt_lt
    have hlow := toNat_toUInt64 low
    have hleast := low.le_toInt
    rw [UInt64.toUInt64_toInt64, UInt64.toNat_add, hnat] at hint
    have hback : low.toUInt64 + UInt64.ofNat n - low.toUInt64 = UInt64.ofNat n := by
      rw [UInt64.add_comm, UInt64.add_sub_cancel]
    refine ⟨n, ?_, Nat.mod_eq_of_lt hn⟩
    rw [pack, UInt64.toUInt64_toInt64, hback, if_neg, hnat]
    simp only [Bool.or_eq_true, decide_eq_true_eq, not_or, Int64.not_lt, UInt64.not_lt,
      Int64.le_iff_toInt_le, UInt64.le_iff_toNat_le, hnat]
    exact ⟨by omega, hfits⟩

theorem repacks_bool (hn : n < 2 ^ bool.width) : bool.Repacks n := by
  intro v hunpack
  cases hunpack
  change n < 2 at hn
  interval_cases n
  · exact ⟨0, rfl, rfl⟩
  · exact ⟨1, rfl, rfl⟩

theorem repacks_enum {owner : Enum} (hs : (enum owner).Sound)
    (hn : n < 2 ^ (enum owner).width) : (enum owner).Repacks n := by
  intro v hunpack
  change 0 < owner.count at hs
  simp only [unpack] at hunpack
  split at hunpack
  · cases hunpack
  · rename_i hfits
    rw [Nat.not_lt] at hfits
    rw [Enum.member, dif_pos (by omega)] at hunpack
    cases hunpack
    refine ⟨n, ?_, Nat.mod_eq_of_lt hn⟩
    simp [pack]

/-! ### The nearest step -/

theorem nearest_half_below (span : UInt64) :
    (if span < UInt64.ofInt (llround (-1 / 2)) then span
      else UInt64.ofInt (llround (-1 / 2))) = span := by
  rw [llround_half_below]
  split
  · rfl
  · rename_i hnot
    have hle := UInt64.le_iff_toNat_le.mp (UInt64.not_lt.mp hnot)
    have hlt := span.toNat_lt
    have hmost : (UInt64.ofInt (-1)).toNat = 2 ^ 64 - 1 := by decide
    refine UInt64.toNat_inj.mp ?_
    omega

theorem nearest_inside {steps : ℚ} (hspan : span.toNat ≤ 2 ^ 53)
    (hlow : -1 / 2 < steps) (hhigh : steps ≤ span.toNat + 1 / 2) :
    |steps - ((if span < UInt64.ofInt (llround steps) then span
      else UInt64.ofInt (llround steps)).toNat : ℚ)| ≤ 1 / 2 := by
  obtain ⟨hpos, hbelow, habove⟩ := llround_spec hlow
  have hmost : llround steps ≤ span.toNat + 1 := by
    have : (llround steps : ℚ) ≤ ((span.toNat + 1 : Int) : ℚ) := by
      push_cast
      linarith
    exact Int.cast_le.mp this
  have hnat := toNat_ofInt hpos (by omega)
  have hcast : ((UInt64.ofInt (llround steps)).toNat : ℚ) = llround steps := by
    exact_mod_cast congrArg (Int.cast (R := ℚ)) hnat
  split
  · -- One step above is half a step above the largest.
    rename_i hover
    rw [UInt64.lt_iff_toNat_lt] at hover
    have hone : llround steps = span.toNat + 1 := by omega
    rw [hone] at hbelow habove
    push_cast at hbelow habove
    exact abs_le.mpr ⟨by linarith, by linarith⟩
  · rw [hcast]
    exact abs_le.mpr ⟨by linarith, by linarith⟩

theorem returns_fixed {origin step : ℚ} (hs : (fixed origin step span).Sound)
    (v : Value) : (fixed origin step span).Returns v := by
  intro m hpack
  obtain ⟨hstep, hspan⟩ := hs
  simp only [pack] at hpack
  split at hpack
  · cases hpack
  · rename_i x hx
    split at hpack
    · cases hpack
    · rename_i hrange
      cases hpack
      simp only [Bool.or_eq_true, Bool.not_eq_true', decide_eq_false_iff_not, not_or, not_not]
        at hrange
      obtain ⟨hlow, hhigh⟩ := hrange
      have hx' : x = origin + (x - origin) / step * step := by
        field_simp
        ring
      have hhalf : x = origin - step / 2 ↔ (x - origin) / step = -1 / 2 := by
        constructor
        · rintro rfl
          field_simp
          ring
        · intro h
          rw [hx', h]
          ring
      generalize hsteps : (x - origin) / step = steps at *
      have hinside := @nearest_inside span steps hspan
      have hle : (if span < UInt64.ofInt (llround steps) then span
          else UInt64.ofInt (llround steps)).toNat ≤ span.toNat := by
        split
        · exact le_refl _
        · rename_i hnot
          exact UInt64.le_iff_toNat_le.mp (UInt64.not_lt.mp hnot)
      have hbelow : steps = -1 / 2 → (if span < UInt64.ofInt (llround steps) then span
          else UInt64.ofInt (llround steps)).toNat = span.toNat := by
        rintro rfl
        rw [nearest_half_below]
      generalize (if span < UInt64.ofInt (llround steps) then span
          else UInt64.ofInt (llround steps)).toNat = packed at *
      have hdistance : x - (origin + packed * step) = (steps - packed) * step := by
        rw [hx']
        ring
      have hnear : (fixed origin step span).Near v (.real (origin + packed * step)) ↔
          |steps - packed| ≤ 1 / 2 := by
        have hscale : |x - (origin + packed * step)| ≤ step / 2 ↔ |steps - packed| ≤ 1 / 2 := by
          rw [hdistance, abs_mul, abs_of_pos hstep, ← le_div_iff₀ hstep]
          field_simp
        rw [← hscale]
        constructor
        · rintro ⟨x', y, hx', hy, h⟩
          rw [hx] at hx'
          cases hx'
          cases hy
          exact h
        · exact fun h => ⟨x, _, hx, rfl, h⟩
      have hbad : (fixed origin step span).HalfBelow v ↔ 0 < span ∧ steps = -1 / 2 := by
        rw [← hhalf]
        change 0 < span ∧ v.number = some (origin - step / 2) ↔ _
        rw [hx, Option.some_inj]
      refine ⟨.real (origin + packed * step), ?_, ?_⟩
      · change unpack _ (packed % 2 ^ widthOf span.toNat) = _
        rw [Nat.mod_eq_of_lt (lt_two_pow_widthOf hle), unpack, if_neg (by simpa using hle)]
      · rw [hnear, hbad]
        obtain hsame | hdiffer := eq_or_lt_of_le hlow
        · rw [← hsame, hbelow hsame.symm, UInt64.lt_iff_toNat_lt]
          have hneg : (-1 / 2 - (span.toNat : ℚ)) ≤ 0 := by
            have : (0 : ℚ) ≤ span.toNat := Nat.cast_nonneg _
            linarith
          rw [abs_of_nonpos hneg]
          simp only [UInt64.toNat_zero, and_true, Nat.not_lt, Nat.le_zero]
          constructor
          · intro h
            have : (span.toNat : ℚ) ≤ 0 := by linarith
            exact_mod_cast le_antisymm this (Nat.cast_nonneg _)
          · intro h
            rw [h]
            norm_num
        · exact iff_of_true (hinside hdiffer hhigh) fun h => hdiffer.ne' h.2

theorem repacks_fixed {origin step : ℚ} (hs : (fixed origin step span).Sound)
    (hn : n < 2 ^ (fixed origin step span).width) : (fixed origin step span).Repacks n := by
  intro v hunpack
  obtain ⟨hstep, hspan⟩ := hs
  simp only [unpack] at hunpack
  split at hunpack
  · cases hunpack
  · rename_i hfits
    cases hunpack
    rw [Nat.not_lt] at hfits
    have hsteps : (origin + n * step - origin) / step = n := by
      field_simp
      ring
    have hcast : (n : ℚ) ≤ span.toNat := by exact_mod_cast hfits
    have hnonneg : (0 : ℚ) ≤ n := Nat.cast_nonneg n
    obtain ⟨hpos, hbelow, habove⟩ := llround_spec (x := (n : ℚ)) (by linarith)
    have hround : llround n = n := by
      have h1 : (llround n : ℚ) < ((n + 1 : Int) : ℚ) := by
        push_cast
        linarith
      have h2 : ((n - 1 : Int) : ℚ) < llround n := by
        push_cast
        linarith
      have := Int.cast_lt.mp h1
      have := Int.cast_lt.mp h2
      omega
    have hnat := toNat_ofInt (Int.natCast_nonneg n) (by omega)
    refine ⟨n, ?_, Nat.mod_eq_of_lt hn⟩
    simp only [pack, Value.number, hsteps, hround]
    rw [if_neg, if_neg]
    · congr 1
      omega
    · rw [UInt64.not_lt, UInt64.le_iff_toNat_le]
      omega
    · simp only [Bool.or_eq_true, Bool.not_eq_true', decide_eq_false_iff_not, not_or, not_not]
      exact ⟨by linarith, by linarith⟩

theorem returns {s : Scalar} (hs : s.Sound) (v : Value) : s.Returns v := by
  cases s with
  | uint width span => exact returns_uint hs v
  | int width => exact returns_int hs v
  | bool => exact returns_bool v
  | range low span => exact returns_range v
  | fixed origin step span => exact returns_fixed hs v
  | enum owner => exact returns_enum v

theorem repacks {s : Scalar} (hs : s.Sound) (hn : n < 2 ^ s.width) : s.Repacks n := by
  cases s with
  | uint width span => exact repacks_uint hn
  | int width => exact repacks_int hs hn
  | bool => exact repacks_bool hn
  | range low span => exact repacks_range hs hn
  | fixed origin step span => exact repacks_fixed hs hn
  | enum owner => exact repacks_enum hs hn

end Scalar

end Lhat.Binary
