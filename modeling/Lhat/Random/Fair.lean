import Mathlib.Data.Int.CardIntervalMod
import Mathlib.Data.Set.Card
import Lhat.Arithmetic.Operators
import Lhat.Runtime.Value

/-!
# Random integers

A generator is 64 bits that are never all zero. A word is drawn by stepping them, and
`rangeint` makes an answer of it by what is left when it is divided by how many answers there
are, after the words that would fall short of another whole round are drawn again. There is
one answer more than a word can count when every integer is one, and none is left over then.
-/

namespace Lhat.Random

open Arithmetic (Fits fits_toInt)

/-! ### The generator -/

structure Random where
  state : UInt64
deriving DecidableEq, Repr

/-- `seeded_state`. -/
def seededState (seed : Int64) : UInt64 :=
  let mixed := seed.toUInt64 ^^^ 0x9E3779B97F4A7C15
  if mixed ≠ 0 then mixed else 0x2545F4914F6CDD1D

/-- `arg_as_integer`, undefined for a real that no integer holds. -/
def argAsInteger : LhatValue → Option Int64
  | .integer i => some i
  | .real d => castToInteger d
  | _ => none

/-- `next_raw`: the word, and the generator that is left. -/
def nextRaw (r : Random) : UInt64 × Random :=
  let state := r.state ^^^ (r.state >>> 12)
  let state := state ^^^ (state <<< 25)
  let state := state ^^^ (state >>> 27)
  (state * 0x2545F4914F6CDD1D, ⟨state⟩)

/-- `random_new`, where memory was had: the seed that was given, or what the system
answers. -/
def randomNew (automaticState : Option UInt64) :
    Option LhatValue → Option (Except String Random)
  | none => some <| match automaticState with
    | none => .error "could not obtain a random seed from the operating system"
    | some state => .ok ⟨if state = 0 then seededState 0 else state⟩
  | some seed => (argAsInteger seed).map fun seed => .ok ⟨seededState seed⟩

/-- `random_reseed`, of a generator where there is one. -/
def randomReseed (r : Option Random) (seed : LhatValue) : Option (Option Random) :=
  match r with
  | none => some none
  | some _ => (argAsInteger seed).map fun seed => some ⟨seededState seed⟩

/-- `(LhatInteger)word`, of a word that an integer holds. -/
def signed (word : UInt64) : Option Int64 :=
  if Fits word.toNat then some word.toInt64 else none

/-- `x - y` of two signed integers: undefined when it overflows. -/
def subtract (x y : Int64) : Option Int64 :=
  if Fits (x.toInt - y.toInt) then some (x - y) else none

/-- The integer with the bits of a word, as `random_save` and `random_rangeint` spell it. -/
def spelled (word : UInt64) : Option Int64 :=
  if word ≤ 0x7FFFFFFFFFFFFFFF then signed word else (signed (~~~word)).bind (subtract (-1))

/-- `random_save`. -/
def randomSave (r : Option Random) : Option Int64 := spelled ((r.map Random.state).getD 0)

/-- `random_load`. -/
def randomLoad (r : Option Random) (saved : LhatValue) : Except String (Option Random) :=
  match lhatNumberAsWhole saved with
  | none => .error "random state must be a nonzero 64-bit integer"
  | some state =>
    if state = 0 then .error "random state must be a nonzero 64-bit integer"
    else .ok (r.map fun _ => ⟨state.toUInt64⟩)

/-- How many answers there are, where a word can count them. -/
def span (lo hi : Int64) : UInt64 := hi.toUInt64 - lo.toUInt64 + 1

/-- Whether the loop of `random_rangeint` is done with a word. -/
def accepts (span bits : UInt64) : Bool := span == 0 || (0 - span) % span ≤ bits

/-- The loop of `random_rangeint`, for so many turns. -/
def draw (span : UInt64) : Nat → UInt64 × Random → Option (UInt64 × Random)
  | 0, _ => none
  | turns + 1, (bits, r) =>
    if accepts span bits then some (bits, r) else draw span turns (nextRaw r)

/-- What `random_rangeint` makes of the word it is left with. -/
def answered (lo : Int64) (span bits : UInt64) : Option Int64 :=
  spelled (lo.toUInt64 + if span ≠ 0 then bits % span else bits)

/-- `random_rangeint`. -/
def randomRangeint (turns : Nat) (r : Option Random) (first second : LhatValue) :
    Option (Except String (Option Int64) × Option Random) :=
  match lhatNumberAsWhole first, lhatNumberAsWhole second with
  | some lo, some hi =>
    if hi < lo then some (.error "rangeint requires ordered 64-bit integer bounds", r)
    else match r with
      | none => some (.ok (some lo), none)
      | some r =>
        if hi ≤ lo then some (.ok (some lo), some r)
        else (draw (span lo hi) turns (nextRaw r)).map fun (bits, r) =>
          (.ok (answered lo (span lo hi) bits), some r)
  | _, _ => some (.error "rangeint requires ordered 64-bit integer bounds", r)

/-- A generator that was made, and then drawn from, given another seed or loaded. -/
inductive Reached : Random → Prop
  | new {automaticState seed r} : randomNew automaticState seed = some (.ok r) → Reached r
  | draw {r} : Reached r → Reached (nextRaw r).2
  | reseed {r r' seed} : Reached r → randomReseed (some r) seed = some (some r') → Reached r'
  | load {r r' saved} : Reached r → randomLoad (some r) saved = .ok (some r') → Reached r'

/-! ### The step -/

theorem xor_shiftRight_injective {n k : Nat} (hk : 0 < k) :
    Function.Injective fun x : BitVec n => x ^^^ (x >>> k) := by
  intro x y hxy
  -- A bit of the word is known once the bits above it are.
  have hbits : ∀ d i, n - i ≤ d → x.getLsbD i = y.getLsbD i := by
    intro d
    induction d with
    | zero =>
      intro i hi
      rw [BitVec.getLsbD_of_ge x i (by omega), BitVec.getLsbD_of_ge y i (by omega)]
    | succ d ih =>
      intro i hi
      have hbit := congrArg (·.getLsbD i) hxy
      simp only [BitVec.getLsbD_xor, BitVec.getLsbD_ushiftRight, ih (k + i) (by omega)] at hbit
      exact Bool.xor_left_inj.1 hbit
  exact BitVec.eq_of_getLsbD_eq fun i _ => hbits n i (by omega)

theorem xor_shiftLeft_injective {n k : Nat} (hk : 0 < k) :
    Function.Injective fun x : BitVec n => x ^^^ (x <<< k) := by
  intro x y hxy
  refine BitVec.eq_of_getLsbD_eq fun i => ?_
  induction i using Nat.strong_induction_on with
  | _ i ih =>
    intro hi
    have hbit := congrArg (·.getLsbD i) hxy
    by_cases hik : i < k
    · simpa [BitVec.getLsbD_xor, BitVec.getLsbD_shiftLeft, hik] using hbit
    · simp only [BitVec.getLsbD_xor, BitVec.getLsbD_shiftLeft,
        ih (i - k) (by omega) (by omega)] at hbit
      exact Bool.xor_left_inj.1 hbit

theorem nextRaw_injective : Function.Injective fun s => (nextRaw ⟨s⟩).2.state := by
  intro s t hst
  have hbits := congrArg UInt64.toBitVec hst
  simp only [nextRaw, UInt64.toBitVec_xor, UInt64.toBitVec_shiftRight,
    UInt64.toBitVec_shiftLeft] at hbits
  exact UInt64.toBitVec_inj.1 (xor_shiftRight_injective (by decide)
    (xor_shiftLeft_injective (by decide) (xor_shiftRight_injective (by decide) hbits)))

theorem nextRaw_bijOn :
    Set.BijOn (fun s => (nextRaw ⟨s⟩).2.state) {s | s ≠ 0} {s | s ≠ 0} := by
  have : Finite UInt64 := .of_injective UInt64.toFin fun _ _ => UInt64.toFin_inj.1
  have hzero : (nextRaw ⟨0⟩).2.state = 0 := by decide
  refine ⟨fun s hs h => hs (nextRaw_injective (h.trans hzero.symm)), nextRaw_injective.injOn, ?_⟩
  intro t ht
  obtain ⟨s, rfl⟩ := Finite.injective_iff_surjective.1 nextRaw_injective t
  exact ⟨s, fun h => ht (h ▸ hzero), rfl⟩

theorem Reached.ne_zero {r : Random} (h : Reached r) : r.state ≠ 0 := by
  have hseeded : ∀ seed, seededState seed ≠ 0 := fun seed => by
    unfold seededState
    dsimp only
    split
    · assumption
    · decide
  induction h with
  | @new automaticState seed r h =>
    cases seed with
    | none =>
      cases automaticState with
      | none => simp [randomNew] at h
      | some state =>
        obtain rfl : Random.mk _ = r := Except.ok.inj (Option.some.inj h)
        dsimp only
        split
        · exact hseeded 0
        · assumption
    | some seed =>
      obtain ⟨seed, -, h⟩ := Option.map_eq_some_iff.1 h
      exact Except.ok.inj h ▸ hseeded seed
  | draw _ ih => exact nextRaw_bijOn.mapsTo ih
  | reseed _ h _ =>
    obtain ⟨seed, -, h⟩ := Option.map_eq_some_iff.1 h
    exact Option.some.inj h ▸ hseeded seed
  | @load _ r saved _ h _ =>
    unfold randomLoad at h
    cases hwhole : lhatNumberAsWhole saved with
    | none => simp [hwhole] at h
    | some state =>
      by_cases hzero : state = 0
      · simp [hwhole, hzero] at h
      · obtain rfl : Random.mk _ = r := by simpa [hwhole, hzero] using h
        exact fun h => hzero (by simpa using congrArg UInt64.toInt64 h)

/-! ### The spelling -/

theorem toInt_toInt64 (word : UInt64) :
    word.toInt64.toInt =
      if word.toNat < 2 ^ 63 then (word.toNat : Int) else (word.toNat : Int) - 2 ^ 64 := by
  have := word.toNat_lt
  change word.toBitVec.toInt = _
  rw [BitVec.toInt_eq_toNat_cond]
  change (if 2 * word.toNat < 2 ^ 64 then (word.toNat : Int)
    else (word.toNat : Int) - (2 ^ 64 : Nat)) = _
  split <;> split <;> omega

theorem spelled_eq (word : UInt64) : spelled word = some word.toInt64 := by
  have hword := word.toNat_lt
  have hnot : (~~~word).toNat = 2 ^ 64 - 1 - word.toNat := by
    rw [UInt64.toNat_not]
    rfl
  have hmax : word ≤ 0x7FFFFFFFFFFFFFFF ↔ word.toNat < 2 ^ 63 := by
    rw [UInt64.le_iff_toNat_le, ← Nat.lt_succ_iff]
    rfl
  unfold spelled signed
  by_cases h : word.toNat < 2 ^ 63
  · rw [if_pos (hmax.2 h), if_pos ⟨by omega, by omega⟩]
  · have hsub : (-1 : Int64).toInt - (~~~word).toInt64.toInt = word.toInt64.toInt := by
      rw [toInt_toInt64, toInt_toInt64, if_neg h, if_pos (by omega), hnot]
      change -1 - _ = _
      omega
    rw [if_neg (mt hmax.1 h), if_pos ⟨by omega, by omega⟩, Option.bind_some, subtract, hsub,
      if_pos (fits_toInt _), Option.some.injEq, ← Int64.toInt_inj, Int64.toInt_sub, hsub]
    exact Int64.toInt_bmod _

theorem load_save {r : Random} (h : r.state ≠ 0) (r' : Random) :
    ∃ saved, randomSave (some r) = some saved ∧
      randomLoad (some r') (.integer saved) = .ok (some r) := by
  refine ⟨r.state.toInt64, spelled_eq _, ?_⟩
  have : r.state.toInt64 ≠ 0 := fun h' => h (congrArg Int64.toUInt64 h')
  simp [randomLoad, lhatNumberAsWhole, this]

/-! ### The answers -/

/-- How many integers there are between two. -/
def answers (lo hi : Int64) : Nat := (hi.toInt - lo.toInt + 1).toNat

section Answers

variable {lo hi a : Int64} (h : lo ≤ hi)
include h

theorem answers_bounds : 0 < answers lo hi ∧ answers lo hi ≤ 2 ^ 64 ∧
    (answers lo hi : Int) = hi.toInt - lo.toInt + 1 := by
  have := Int64.le_iff_toInt_le.1 h
  have := lo.le_toInt
  have := hi.toInt_lt
  unfold answers
  omega

theorem span_toNat : (span lo hi).toNat = answers lo hi % 2 ^ 64 := by
  obtain ⟨-, -, hcount⟩ := answers_bounds h
  have hlo : lo.toInt = _ := toInt_toInt64 lo.toUInt64
  have hhi : hi.toInt = _ := toInt_toInt64 hi.toUInt64
  have := lo.toUInt64.toNat_lt
  have := hi.toUInt64.toNat_lt
  have : (span lo hi).toNat =
      ((2 ^ 64 - lo.toUInt64.toNat + hi.toUInt64.toNat) % 2 ^ 64 + 1) % 2 ^ 64 := by
    rw [span, UInt64.toNat_add, UInt64.toNat_sub]
    rfl
  split at hlo <;> split at hhi <;> omega

theorem span_eq_zero : span lo hi = 0 ↔ answers lo hi = 2 ^ 64 := by
  have hspan := span_toNat h
  obtain ⟨hpos, hle, -⟩ := answers_bounds h
  rw [← UInt64.toNat_inj, hspan]
  change _ = 0 ↔ _
  omega

theorem accepts_iff (bits : UInt64) :
    accepts (span lo hi) bits = true ↔ 2 ^ 64 % answers lo hi ≤ bits.toNat := by
  have hspan := span_toNat h
  obtain ⟨hpos, hle, -⟩ := answers_bounds h
  rw [accepts, Bool.or_eq_true, beq_iff_eq, decide_eq_true_iff, UInt64.le_iff_toNat_le,
    UInt64.toNat_mod, UInt64.toNat_sub, span_eq_zero h, hspan]
  rcases hle.eq_or_lt with heq | hlt
  · simp [heq]
  · rw [Nat.mod_eq_of_lt hlt]
    change _ ∨ ((2 ^ 64 - answers lo hi + 0) % 2 ^ 64) % _ ≤ _ ↔ _
    rw [Nat.add_zero, Nat.mod_eq_of_lt (show 2 ^ 64 - answers lo hi < 2 ^ 64 by omega),
      ← Nat.mod_eq_sub_mod hle]
    exact or_iff_right (by omega)

theorem answered_iff (bits : UInt64) :
    answered lo (span lo hi) bits = some a ↔
      a.toInt = lo.toInt + (bits.toNat % answers lo hi : Nat) := by
  have hspan := span_toNat h
  obtain ⟨hpos, hle, hcount⟩ := answers_bounds h
  have hrest : (if span lo hi ≠ 0 then bits % span lo hi else bits).toNat =
      bits.toNat % answers lo hi := by
    have := bits.toNat_lt
    split
    · next hne =>
        have hlt := lt_of_le_of_ne hle fun heq => hne ((span_eq_zero h).2 heq)
        rw [UInt64.toNat_mod, hspan, Nat.mod_eq_of_lt hlt]
    · next heq =>
        rw [(span_eq_zero h).1 (not_not.1 heq), Nat.mod_eq_of_lt this]
  have hlo : lo.toInt = _ := toInt_toInt64 lo.toUInt64
  have := lo.toUInt64.toNat_lt
  have := hi.toInt_lt
  have := Nat.mod_lt bits.toNat hpos
  rw [answered, spelled_eq, Option.some.injEq, ← Int64.toInt_inj, toInt_toInt64,
    UInt64.toNat_add, hrest, eq_comm]
  suffices hsum : (if (lo.toUInt64.toNat + bits.toNat % answers lo hi) % 2 ^ 64 < 2 ^ 63 then
      (((lo.toUInt64.toNat + bits.toNat % answers lo hi) % 2 ^ 64 : Nat) : Int)
      else (((lo.toUInt64.toNat + bits.toNat % answers lo hi) % 2 ^ 64 : Nat) : Int) - 2 ^ 64) =
      lo.toInt + (bits.toNat % answers lo hi : Nat) by rw [hsum]
  generalize bits.toNat % answers lo hi = m at *
  split <;> split at hlo <;> omega

end Answers

/-! ### Counting words -/

theorem card_residue {n s r : Nat} (hr : r < s) :
    ((Finset.range n).filter fun w => n % s ≤ w ∧ w % s = r).card = n / s := by
  have hs : 0 < s := by omega
  have hcount : ∀ b, ((Finset.range b).filter fun w => w % s = r).card =
      b / s + if r < b % s then 1 else 0 := by
    intro b
    have := Nat.count_modEq_card b hs r
    rw [Nat.count_eq_card_filter_range, Nat.mod_eq_of_lt hr] at this
    simpa [Nat.ModEq, Nat.mod_eq_of_lt hr] using this
  have hlow : (((Finset.range n).filter fun w => w % s = r).filter fun w => ¬ n % s ≤ w) =
      (Finset.range (n % s)).filter fun w => w % s = r := by
    ext w
    have := Nat.mod_le n s
    simp only [Finset.mem_filter, Finset.mem_range]
    omega
  have hsplit := Finset.card_filter_add_card_filter_not
    (s := (Finset.range n).filter fun w => w % s = r) (fun w => n % s ≤ w)
  rw [hlow, hcount, hcount, Nat.div_eq_of_lt (Nat.mod_lt n hs), Nat.mod_mod, Finset.filter_filter,
    Nat.zero_add, Nat.add_right_cancel_iff] at hsplit
  simpa only [and_comm] using hsplit

theorem ncard_words (p : Nat → Prop) [DecidablePred p] :
    {w : UInt64 | p w.toNat}.ncard = ((Finset.range (2 ^ 64)).filter p).card := by
  rw [← Set.ncard_image_of_injective _ (fun _ _ => UInt64.toNat_inj.1), ← Set.ncard_coe_finset]
  congr 1
  ext n
  simp only [Set.mem_image, Finset.coe_filter, Finset.mem_range]
  constructor
  · rintro ⟨w, hw, rfl⟩
    exact ⟨w.toNat_lt, hw⟩
  · rintro ⟨hn, hp⟩
    have hof := UInt64.toNat_ofNat_of_lt' hn
    exact ⟨UInt64.ofNat n, (congrArg p hof).mpr hp, hof⟩

theorem rangeint_counts {lo hi : Int64} (h : lo ≤ hi) :
    (∀ a, lo ≤ a → a ≤ hi →
      {bits | accepts (span lo hi) bits = true ∧
        answered lo (span lo hi) bits = some a}.ncard = 2 ^ 64 / answers lo hi) ∧
    2 * {bits | accepts (span lo hi) bits = false}.ncard < 2 ^ 64 := by
  obtain ⟨hpos, hle, hcount⟩ := answers_bounds h
  constructor
  · intro a hlo hhi
    have := Int64.le_iff_toInt_le.1 hlo
    have := Int64.le_iff_toInt_le.1 hhi
    obtain ⟨r, hr⟩ : ∃ r : Nat, a.toInt = lo.toInt + r := ⟨(a.toInt - lo.toInt).toNat, by omega⟩
    rw [← card_residue (show r < answers lo hi by omega), ← ncard_words]
    congr 1
    ext bits
    change _ ∧ _ ↔ _ ∧ _
    rw [accepts_iff h, answered_iff h]
    omega
  · have hset : {bits | accepts (span lo hi) bits = false} =
        {bits : UInt64 | bits.toNat < 2 ^ 64 % answers lo hi} := by
      ext bits
      change _ = false ↔ _
      rw [← Bool.not_eq_true, accepts_iff h, Nat.not_le]
      rfl
    have hfilter : ((Finset.range (2 ^ 64)).filter fun n => n < 2 ^ 64 % answers lo hi) =
        Finset.range (2 ^ 64 % answers lo hi) := by
      ext n
      have := Nat.mod_le (2 ^ 64) (answers lo hi)
      simp only [Finset.mem_filter, Finset.mem_range]
      omega
    rw [hset, ncard_words (· < 2 ^ 64 % answers lo hi), hfilter, Finset.card_range]
    have := Nat.mod_lt (2 ^ 64) hpos
    have := Nat.div_add_mod (2 ^ 64) (answers lo hi)
    have : answers lo hi * 1 ≤ answers lo hi * (2 ^ 64 / answers lo hi) :=
      Nat.mul_le_mul_left _ ((Nat.one_le_div_iff hpos).2 hle)
    omega

theorem draw_accepts {span : UInt64} {turns : Nat} {drawn : UInt64 × Random} {bits : UInt64}
    {r : Random} (h : draw span turns drawn = some (bits, r)) : accepts span bits = true := by
  induction turns generalizing drawn with
  | zero => cases h
  | succ turns ih =>
    rw [draw] at h
    split at h
    · next hyes => exact (Prod.mk.inj (Option.some.inj h)).1 ▸ hyes
    · exact ih h

/-- What `rangeint` answers lies between its bounds, and where a generator has a choice it is
made of a word that is accepted. -/
theorem rangeint_between {turns : Nat} {r r' : Option Random} {first second : LhatValue}
    {answer : Option Int64}
    (h : randomRangeint turns r first second = some (.ok answer, r')) :
    ∃ lo hi a, lhatNumberAsWhole first = some lo ∧ lhatNumberAsWhole second = some hi ∧
      answer = some a ∧ lo ≤ a ∧ a ≤ hi ∧ (lo < hi → r ≠ none → ∃ bits,
        accepts (span lo hi) bits = true ∧ answered lo (span lo hi) bits = some a) := by
  unfold randomRangeint at h
  split at h
  · next lo hi hfirst hsecond =>
      refine ⟨lo, hi, ?_⟩
      split at h
      · simp at h
      next hle =>
      have hle := Int64.not_lt.1 hle
      have hlow : ∀ {r'' : Option Random},
          some ((.ok (some lo) : Except String _), r'') = some (.ok answer, r') →
            answer = some lo :=
        fun h => (Except.ok.inj (Prod.mk.inj (Option.some.inj h)).1).symm
      split at h
      · exact ⟨lo, hfirst, hsecond, hlow h, Int64.le_refl lo, hle, fun _ hr => absurd rfl hr⟩
      · split at h
        · next hsame =>
            exact ⟨lo, hfirst, hsecond, hlow h, Int64.le_refl lo, hle,
              fun hlt => absurd hsame (Int64.not_le.2 hlt)⟩
        · obtain ⟨⟨bits, r⟩, hdraw, heq⟩ := Option.map_eq_some_iff.1 h
          obtain ⟨a, ha⟩ : ∃ a, answered lo (span lo hi) bits = some a := ⟨_, spelled_eq _⟩
          obtain ⟨hpos, -, hcount⟩ := answers_bounds hle
          have := (answered_iff hle bits).1 ha
          have := Nat.mod_lt bits.toNat hpos
          have hanswer := (Except.ok.inj (Prod.mk.inj heq).1).symm
          exact ⟨a, hfirst, hsecond, hanswer.trans ha, Int64.le_iff_toInt_le.2 (by omega),
            Int64.le_iff_toInt_le.2 (by omega), fun _ _ => ⟨bits, draw_accepts hdraw, ha⟩⟩
  · simp at h

end Lhat.Random
