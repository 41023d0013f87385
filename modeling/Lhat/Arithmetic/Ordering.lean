import Lhat.Arithmetic.Operators
import Lhat.Lton.Order

/-!
# The order of numbers and strings

`vm_three_way` is what the four orderings and `<=>` are read off, and `=` asks the
question it asks first. Integers and strings are ordered exactly; two numbers of
which one is a real are one when they are within the tolerance.

A NaN is not within the tolerance of anything and not less than anything, so it
is answered as the greater one on whichever side it stands. `lawful_iff` says
that this is the one pair whose order changes with its sides.
-/

namespace Lhat.Arithmetic

variable {h : Heap} {left right : LhatValue} {outcome : Int} {x y : Binary64} {a : List UInt8}
  {o : Ordering}

/-- `LHAT_NUMBER_TOLERANCE`: eight times `2 ^ -52`. -/
def lhatNumberTolerance : Binary64 := ⟨UInt64.ofNat (974 * 2 ^ 52)⟩

/-- `x < 0.0 ? -x : x`. -/
def sizeOf (x : Binary64) : Binary64 := if x.lt (Binary64.ofInt 0) then x.negate else x

/-- `lhat_value_close` of two reals. -/
def realsClose (x y tolerance : Binary64) : Bool :=
  if x.eq y then true
  else
    let apart := if y.lt x then x.sub y else y.sub x
    let size := sizeOf x
    let other := sizeOf y
    let size := if size.lt other then other else size
    if !(size.sub size).eq (Binary64.ofInt 0) then false
    else
      let size := if size.lt (Binary64.ofInt 1) then Binary64.ofInt 1 else size
      apart.le (tolerance.mul size)

/-- `lhat_value_close`. -/
def lhatValueClose (h : Heap) (a b : LhatValue) (tolerance : Binary64) : Option Bool :=
  if !isNumber a || !isNumber b || (a.isInteger && b.isInteger) then lhatValueEqual h a b
  else some (realsClose (lhatNumberAsReal a) (lhatNumberAsReal b) tolerance)

/-- The bytes of a string. -/
def stringOf (h : Heap) : LhatValue → Option (List UInt8)
  | .object o =>
    match h.object o with
    | some (.string s) => some s.text
    | _ => none
  | _ => none

/-- `memcmp` and the lengths, of two strings. -/
def threeWayStrings (a b : List UInt8) : Int :=
  let shorter := min a.length b.length
  match Lton.memcmp (a.take shorter) (b.take shorter) with
  | .lt => -1
  | .gt => 1
  | .eq => if a.length = b.length then 0 else if a.length < b.length then -1 else 1

/-- `vm_three_way`; `none` where it answers false. -/
def vmThreeWay (h : Heap) (left right : LhatValue) : Option Int :=
  match left, right with
  | .integer x, .integer y => some ((if y < x then 1 else 0) - (if x < y then 1 else 0))
  | _, _ =>
    if isNumber left && isNumber right then
      if lhatValueClose h left right lhatNumberTolerance = some true then some 0
      else some (if (lhatNumberAsReal left).lt (lhatNumberAsReal right) then -1 else 1)
    else
      match stringOf h left, stringOf h right with
      | some a, some b => some (threeWayStrings a b)
      | _, _ => none

/-- The instructions that answer a comparison. -/
inductive Comparison where
  | lt | le | gt | ge | eq
deriving DecidableEq, Repr

/-- `ordering`; `none` where it leaves a status. -/
def ordering (h : Heap) (op : Comparison) (left right : LhatValue) : Option Bool := do
  let outcome ← vmThreeWay h left right
  match op with
  | .lt => some (decide (outcome < 0))
  | .le => some (decide (outcome ≤ 0))
  | .gt => some (decide (0 < outcome))
  | .ge => some (decide (0 ≤ outcome))
  | .eq => none

/-- The instruction, of values that carry no operator of their own: two integers
are compared at once. -/
def compares (h : Heap) (op : Comparison) (left right : LhatValue) : Option Bool :=
  match op, left, right with
  | .eq, left, right => lhatValueClose h left right lhatNumberTolerance
  | .lt, .integer x, .integer y => some (decide (x < y))
  | .le, .integer x, .integer y => some (decide (x ≤ y))
  | .gt, .integer x, .integer y => some (decide (y < x))
  | .ge, .integer x, .integer y => some (decide (y ≤ x))
  | op, left, right => ordering h op left right

/-- The answers of the instructions about a pair, and of `<=>`. -/
structure Consistent (outcome : Int) (lt le gt ge eq : Bool) : Prop where
  less : lt = true ↔ outcome < 0
  equal : eq = true ↔ outcome = 0
  greater : gt = true ↔ 0 < outcome
  apart : ¬ (lt = true ∧ eq = true) ∧ ¬ (lt = true ∧ gt = true) ∧ ¬ (eq = true ∧ gt = true)
  atMost : le = true ↔ lt = true ∨ eq = true
  atLeast : ge = true ↔ gt = true ∨ eq = true

/-- What an order has to be, of one pair that is ordered. -/
structure Lawful (h : Heap) (left right : LhatValue) : Prop where
  consistent : ∀ outcome, vmThreeWay h left right = some outcome → ∃ lt le gt ge eq,
    compares h .lt left right = some lt ∧ compares h .le left right = some le ∧
      compares h .gt left right = some gt ∧ compares h .ge left right = some ge ∧
      compares h .eq left right = some eq ∧ Consistent outcome lt le gt ge eq
  antisymmetric : ∀ outcome, vmThreeWay h left right = some outcome →
    vmThreeWay h right left = some (-outcome)

/-- A pair of numbers with a NaN in it. -/
def HasNan (left right : LhatValue) : Prop :=
  isNumber left = true ∧ isNumber right = true ∧
    ((lhatNumberAsReal left).isNan = true ∨ (lhatNumberAsReal right).isNan = true)

theorem consistent_of_outcome {lt le gt ge eq : Bool}
    (hlt : lt = decide (outcome < 0)) (hle : le = decide (outcome ≤ 0))
    (hgt : gt = decide (0 < outcome)) (hge : ge = decide (0 ≤ outcome))
    (heq : eq = decide (outcome = 0)) : Consistent outcome lt le gt ge eq := by
  subst hlt hle hgt hge heq
  refine ⟨by simp, by simp, by simp, ?_, ?_, ?_⟩
  · simp only [decide_eq_true_eq]
    omega
  · simp only [decide_eq_true_eq]
    omega
  · simp only [decide_eq_true_eq]
    omega

/-! ### Reals -/

theorem realsClose_nan (h : x.isNan = true ∨ y.isNan = true)
    (tolerance : Binary64) : realsClose x y tolerance = false := by
  have heq : ¬ x.eq y = true := by
    rcases h with h | h <;> simp [Binary64.eq, h]
  have hle : ∀ bound : Binary64, Binary64.nan.le bound = false := fun bound => by
    simp [Binary64.le, Binary64.isNan_nan]
  unfold realsClose
  rw [if_neg heq, Binary64.sub_nan h, Binary64.sub_nan h.symm, ite_self]
  simp only [hle, ite_self]

theorem scaled_sizeOf (hx : x.isNan = false) : (sizeOf x).scaled = |x.scaled| := by
  unfold sizeOf
  have hlt : x.lt (Binary64.ofInt 0) = decide (x.scaled < 0) := by
    simp [Binary64.lt, hx, Binary64.isNan_ofInt, scaled_ofInt_zero]
  rw [hlt]
  by_cases hneg : x.scaled < 0
  · rw [if_pos (decide_eq_true hneg), Binary64.scaled_negate, abs_of_neg hneg]
  · rw [if_neg (by simpa using hneg), abs_of_nonneg (not_lt.1 hneg)]

theorem isNan_sizeOf (x : Binary64) : (sizeOf x).isNan = x.isNan := by
  unfold sizeOf
  split
  · exact Binary64.isNan_negate x
  · rfl

theorem larger_comm (hx : x.isNan = false) (hy : y.isNan = false)
    (hne : x.scaled ≠ y.scaled) :
    (if (sizeOf x).lt (sizeOf y) then sizeOf y else sizeOf x) =
      if (sizeOf y).lt (sizeOf x) then sizeOf x else sizeOf y := by
  have hlt : ∀ {a b : Binary64}, a.isNan = false → b.isNan = false →
      ((sizeOf a).lt (sizeOf b) = true ↔ |a.scaled| < |b.scaled|) := fun ha hb => by
    simp [Binary64.lt, isNan_sizeOf, ha, hb, scaled_sizeOf ha, scaled_sizeOf hb]
  rcases lt_trichotomy |x.scaled| |y.scaled| with h | h | h
  · rw [if_pos ((hlt hx hy).2 h), if_neg (mt (hlt hy hx).1 (not_lt.2 h.le))]
  · rw [if_neg (mt (hlt hx hy).1 (not_lt.2 h.ge)), if_neg (mt (hlt hy hx).1 (not_lt.2 h.le))]
    refine Binary64.eq_of_scaled_eq ?_ ?_
    · rw [scaled_sizeOf hx, scaled_sizeOf hy, h]
    · rw [scaled_sizeOf hx]
      intro hzero
      rw [abs_eq_zero.1 hzero, abs_eq_zero.1 (h.symm.trans hzero)] at hne
      exact hne rfl
  · rw [if_neg (mt (hlt hx hy).1 (not_lt.2 h.le)), if_pos ((hlt hy hx).2 h)]

theorem realsClose_comm (x y tolerance : Binary64) :
    realsClose x y tolerance = realsClose y x tolerance := by
  by_cases hnan : x.isNan = true ∨ y.isNan = true
  · rw [realsClose_nan hnan, realsClose_nan hnan.symm]
  obtain ⟨hx, hy⟩ : x.isNan = false ∧ y.isNan = false := by simpa using hnan
  by_cases heq : x.scaled = y.scaled
  · simp [realsClose, Binary64.eq, hx, hy, heq]
  · have hneq : ¬ x.eq y = true := by simp [Binary64.eq, hx, hy, heq]
    have hneq' : ¬ y.eq x = true := by simp [Binary64.eq, hx, hy, Ne.symm heq]
    have hapart : (if y.lt x then x.sub y else y.sub x) = if x.lt y then y.sub x else x.sub y := by
      simp only [Binary64.lt, hx, hy, Bool.not_false, Bool.true_and, decide_eq_true_eq]
      rcases lt_or_gt_of_ne heq with h | h
      · rw [if_neg (not_lt.2 h.le), if_pos h]
      · rw [if_pos h, if_neg (not_lt.2 h.le)]
    simp only [realsClose, if_neg hneq, if_neg hneq', hapart, larger_comm hx hy heq]

/-! ### The three answers -/

theorem vmThreeWay_numbers (hleft : isNumber left = true)
    (hright : isNumber right = true) (hmixed : (left.isInteger && right.isInteger) = false) :
    vmThreeWay h left right =
      some (if realsClose (lhatNumberAsReal left) (lhatNumberAsReal right) lhatNumberTolerance then 0
        else if (lhatNumberAsReal left).lt (lhatNumberAsReal right) then -1 else 1) := by
  have hclose : lhatValueClose h left right lhatNumberTolerance =
      some (realsClose (lhatNumberAsReal left) (lhatNumberAsReal right) lhatNumberTolerance) := by
    simp [lhatValueClose, hleft, hright, hmixed]
  unfold vmThreeWay
  split
  · cases hmixed
  · rw [hleft, hright, Bool.and_self, if_pos rfl, hclose]
    simp only [Option.some.injEq]
    split <;> rfl

section

variable (houtcome : vmThreeWay h left right = some outcome)
include houtcome

theorem vmThreeWay_cases :
    (∃ x y, left = .integer x ∧ right = .integer y) ∨
      (isNumber left = true ∧ isNumber right = true ∧
        (left.isInteger && right.isInteger) = false) ∨
      ∃ a b, stringOf h left = some a ∧ stringOf h right = some b := by
  unfold vmThreeWay at houtcome
  split at houtcome
  · exact Or.inl ⟨_, _, rfl, rfl⟩
  · next hints =>
      split at houtcome
      · next hnumbers =>
          rw [Bool.and_eq_true] at hnumbers
          refine Or.inr (Or.inl ⟨hnumbers.1, hnumbers.2, ?_⟩)
          cases left <;> cases right <;> simp_all [LhatValue.isInteger]
      · split at houtcome
        · next a b ha hb => exact Or.inr (Or.inr ⟨a, b, ha, hb⟩)
        · cases houtcome

theorem compares_of_threeWay :
    compares h .lt left right = some (decide (outcome < 0)) ∧
      compares h .le left right = some (decide (outcome ≤ 0)) ∧
      compares h .gt left right = some (decide (0 < outcome)) ∧
      compares h .ge left right = some (decide (0 ≤ outcome)) := by
  by_cases hints : ∃ x y, left = .integer x ∧ right = .integer y
  · obtain ⟨x, y, rfl, rfl⟩ := hints
    obtain rfl := Option.some.inj houtcome
    simp only [compares, Option.some.injEq, decide_eq_decide, Int64.lt_iff_toInt_lt,
      Int64.le_iff_toInt_le]
    split <;> split <;> omega
  · have hordering : ∀ op, op ≠ .eq → compares h op left right = ordering h op left right := by
      intro op hop
      unfold compares
      split
      · exact absurd rfl hop
      all_goals first | rfl | exact absurd ⟨_, _, rfl, rfl⟩ hints
    refine ⟨?_, ?_, ?_, ?_⟩ <;> rw [hordering _ (by decide), ordering, houtcome] <;> rfl

theorem consistent_of_threeWay
    (hclose : lhatValueClose h left right lhatNumberTolerance = some (decide (outcome = 0))) :
    ∃ lt le gt ge eq,
      compares h .lt left right = some lt ∧ compares h .le left right = some le ∧
        compares h .gt left right = some gt ∧ compares h .ge left right = some ge ∧
        compares h .eq left right = some eq ∧ Consistent outcome lt le gt ge eq := by
  obtain ⟨hlt, hle, hgt, hge⟩ := compares_of_threeWay houtcome
  exact ⟨_, _, _, _, _, hlt, hle, hgt, hge, hclose, consistent_of_outcome rfl rfl rfl rfl rfl⟩

end

/-! ### Integers and strings -/

/-- An ordering as the language answers it. -/
def threeWay : Ordering → Int
  | .lt => -1
  | .eq => 0
  | .gt => 1

theorem threeWay_swap (o : Ordering) : threeWay o.swap = -threeWay o := by
  cases o <;> rfl

theorem threeWay_eq_zero : threeWay o = 0 ↔ o = .eq := by
  cases o <;> simp [threeWay]

theorem threeWay_nonpos : threeWay o ≤ 0 ↔ o.isLE = true := by
  cases o <;> simp [threeWay]

theorem threeWay_nonneg : 0 ≤ threeWay o ↔ o.isGE = true := by
  cases o <;> simp [threeWay]

/-- The integer a value is. -/
def integerOf : LhatValue → Option Int
  | .integer i => some i.toInt
  | _ => none

/-- Values with a content are ordered by it, totally and transitively. -/
structure TotalOn {α : Type} (h : Heap) (content : LhatValue → Option α) : Prop where
  answers : ∀ p q a b, content p = some a → content q = some b →
    ∃ m, vmThreeWay h p q = some m ∧ (m = 0 ↔ a = b)
  total : ∀ p q a b m n, content p = some a → content q = some b → vmThreeWay h p q = some m →
    vmThreeWay h q p = some n → m ≤ 0 ∨ n ≤ 0
  trans : ∀ p q r a b c m n k, content p = some a → content q = some b → content r = some c →
    vmThreeWay h p q = some m → vmThreeWay h q r = some n → vmThreeWay h p r = some k →
    m ≤ 0 → n ≤ 0 → k ≤ 0

section Compared

variable {α : Type} [Ord α] [Std.TransOrd α] [Std.LawfulEqOrd α] {h : Heap}
  {content : LhatValue → Option α}

theorem totalOn_of_compare (hcompare : ∀ p q a b, content p = some a → content q = some b →
    vmThreeWay h p q = some (threeWay (compare a b))) : TotalOn h content := by
  refine ⟨fun p q a b hp hq => ?_, fun p q a b m n hp hq hm hn => ?_, ?_⟩
  · refine ⟨_, hcompare p q a b hp hq, ?_⟩
    rw [threeWay_eq_zero, Std.LawfulEqOrd.compare_eq_iff_eq]
  · rw [hcompare p q a b hp hq] at hm
    rw [hcompare q p b a hq hp] at hn
    obtain rfl := Option.some.inj hm
    obtain rfl := Option.some.inj hn
    rw [Std.OrientedOrd.eq_swap (a := b), threeWay_swap]
    omega
  · intro p q r a b c m n k hp hq hr hm hn hk hm' hn'
    rw [hcompare p q a b hp hq] at hm
    rw [hcompare q r b c hq hr] at hn
    rw [hcompare p r a c hp hr] at hk
    obtain rfl := Option.some.inj hm
    obtain rfl := Option.some.inj hn
    obtain rfl := Option.some.inj hk
    rw [threeWay_nonpos] at *
    exact Std.TransOrd.isLE_trans hm' hn'

theorem lawful_of_compare {a b : α}
    (hcompare : vmThreeWay h left right = some (threeWay (compare a b)))
    (hback : vmThreeWay h right left = some (threeWay (compare b a)))
    (hclose : ∃ eq, lhatValueClose h left right lhatNumberTolerance = some eq ∧ (eq = true ↔ a = b))
    : Lawful h left right := by
  refine ⟨fun outcome houtcome => consistent_of_threeWay houtcome ?_, fun outcome houtcome => ?_⟩
  · obtain rfl := Option.some.inj (hcompare.symm.trans houtcome)
    obtain ⟨eq, heq, hiff⟩ := hclose
    rw [heq, Option.some.injEq, Bool.eq_iff_iff, hiff, decide_eq_true_eq, threeWay_eq_zero,
      Std.LawfulEqOrd.compare_eq_iff_eq]
  · obtain rfl := Option.some.inj (hcompare.symm.trans houtcome)
    rw [hback, Std.OrientedOrd.eq_swap (a := b), threeWay_swap]

end Compared

theorem vmThreeWay_integers (h : Heap) (x y : Int64) :
    vmThreeWay h (.integer x) (.integer y) = some (threeWay (compare x.toInt y.toInt)) := by
  simp only [vmThreeWay, Int64.lt_iff_toInt_lt, Option.some.injEq]
  rcases lt_trichotomy x.toInt y.toInt with hlt | heq | hgt
  · rw [if_neg (not_lt.2 hlt.le), if_pos hlt, Std.compare_eq_lt.2 hlt]
    rfl
  · rw [if_neg (not_lt.2 heq.le), if_neg (not_lt.2 heq.ge), heq, Std.compare_self]
    rfl
  · rw [if_pos hgt, if_neg (not_lt.2 hgt.le), Std.compare_eq_gt.2 hgt]
    rfl

theorem lawful_integers (h : Heap) (x y : Int64) : Lawful h (.integer x) (.integer y) := by
  refine lawful_of_compare (vmThreeWay_integers h x y) (vmThreeWay_integers h y x)
    ⟨x == y, rfl, ?_⟩
  rw [beq_iff_eq, eq_iff_toInt]

theorem totalOn_integers (h : Heap) : TotalOn h integerOf := by
  refine totalOn_of_compare fun p q a b hp hq => ?_
  cases p with
  | integer x =>
    cases q with
    | integer y =>
      obtain rfl := Option.some.inj hp
      obtain rfl := Option.some.inj hq
      exact vmThreeWay_integers h x y
    | _ => cases hq
  | _ => cases hp

theorem threeWayStrings_eq (a b : List UInt8) : threeWayStrings a b = threeWay (compare a b) := by
  rw [← Lton.compareString_eq]
  simp only [threeWayStrings, Lton.compareString]
  cases Lton.memcmp (a.take (min a.length b.length)) (b.take (min a.length b.length)) with
  | lt => rfl
  | gt => rfl
  | eq =>
    rcases lt_trichotomy a.length b.length with hlt | heq | hgt
    · rw [Std.compare_eq_lt.2 hlt, if_neg (ne_of_lt hlt), if_pos hlt]
      rfl
    · rw [if_pos heq, heq, Std.compare_self]
      rfl
    · rw [Std.compare_eq_gt.2 hgt, if_neg (ne_of_gt hgt), if_neg (not_lt.2 hgt.le)]
      rfl

theorem vmThreeWay_strings {b : List UInt8}
    (hleft : stringOf h left = some a) (hright : stringOf h right = some b) :
    vmThreeWay h left right = some (threeWay (compare a b)) := by
  cases left with
  | object o => simp [vmThreeWay, isNumber, hleft, hright, threeWayStrings_eq]
  | _ => cases hleft

theorem stringOf_eq_some {v : LhatValue}
    (hv : stringOf h v = some a) : ∃ o s, v = .object o ∧ h.object o = some (.string s) ∧ s.text = a := by
  cases v with
  | object o =>
    simp only [stringOf] at hv
    split at hv
    · next s hs => exact ⟨o, s, rfl, hs, Option.some.inj hv⟩
    · cases hv
  | _ => cases hv

theorem lawful_strings {b : List UInt8} (hleft : stringOf h left = some a)
    (hright : stringOf h right = some b) : Lawful h left right := by
  refine lawful_of_compare (vmThreeWay_strings hleft hright) (vmThreeWay_strings hright hleft) ?_
  obtain ⟨o, s, rfl, hs, rfl⟩ := stringOf_eq_some hleft
  obtain ⟨p, t, rfl, ht, rfl⟩ := stringOf_eq_some hright
  refine ⟨o == p || lhatStringEqual s t, ?_, ?_⟩
  · change objectEqual h o p = _
    rw [objectEqual, hs, ht]
  · rw [Bool.or_eq_true, beq_iff_eq, lhatStringEqual_iff, or_iff_right_iff_imp]
    rintro rfl
    rw [hs] at ht
    cases ht
    rfl

theorem totalOn_strings (h : Heap) : TotalOn h (stringOf h) :=
  totalOn_of_compare fun _ _ _ _ hp hq => vmThreeWay_strings hp hq

/-! ### Numbers with a real among them -/

theorem realsClose_of_eq (hx : x.isNan = false) (hy : y.isNan = false)
    (heq : x.scaled = y.scaled) (tolerance : Binary64) : realsClose x y tolerance = true := by
  simp [realsClose, Binary64.eq, hx, hy, heq]

theorem lawful_numbers (hleft : isNumber left = true)
    (hright : isNumber right = true) (hmixed : (left.isInteger && right.isInteger) = false) :
    Lawful h left right ↔ ¬ HasNan left right := by
  have hclose : lhatValueClose h left right lhatNumberTolerance =
      some (realsClose (lhatNumberAsReal left) (lhatNumberAsReal right) lhatNumberTolerance) := by
    simp [lhatValueClose, hleft, hright, hmixed]
  have hthree := vmThreeWay_numbers (h := h) hleft hright hmixed
  have hback := vmThreeWay_numbers (h := h) hright hleft (Bool.and_comm _ _ ▸ hmixed)
  rw [realsClose_comm] at hback
  constructor
  · rintro hlawful ⟨-, -, hnan⟩
    have hlt : (lhatNumberAsReal left).lt (lhatNumberAsReal right) = false := by
      rcases hnan with h | h <;> simp [Binary64.lt, h]
    have hlt' : (lhatNumberAsReal right).lt (lhatNumberAsReal left) = false := by
      rcases hnan with h | h <;> simp [Binary64.lt, h]
    rw [realsClose_nan hnan, hlt] at hthree
    rw [realsClose_nan hnan, hlt'] at hback
    have := hlawful.antisymmetric 1 hthree
    rw [hback] at this
    cases this
  · intro hnot
    have hx : (lhatNumberAsReal left).isNan = false :=
      Bool.eq_false_iff.2 fun h => hnot ⟨hleft, hright, Or.inl h⟩
    have hy : (lhatNumberAsReal right).isNan = false :=
      Bool.eq_false_iff.2 fun h => hnot ⟨hleft, hright, Or.inr h⟩
    refine ⟨fun outcome houtcome => consistent_of_threeWay houtcome ?_, fun outcome houtcome => ?_⟩
    · obtain rfl := Option.some.inj (hthree.symm.trans houtcome)
      rw [hclose, Option.some.injEq, Bool.eq_iff_iff, decide_eq_true_eq]
      by_cases h : realsClose (lhatNumberAsReal left) (lhatNumberAsReal right) lhatNumberTolerance
      · rw [if_pos h]
        exact iff_of_true h rfl
      · rw [if_neg h]
        refine iff_of_false h ?_
        split <;> decide
    · obtain rfl := Option.some.inj (hthree.symm.trans houtcome)
      rw [hback, Option.some.injEq]
      by_cases h : realsClose (lhatNumberAsReal left) (lhatNumberAsReal right) lhatNumberTolerance
      · rw [if_pos h, if_pos h]
        rfl
      · rw [if_neg h, if_neg h]
        simp only [Binary64.lt_iff hx hy, Binary64.lt_iff hy hx]
        have hne : (lhatNumberAsReal left).scaled ≠ (lhatNumberAsReal right).scaled :=
          fun heq => h (realsClose_of_eq hx hy heq _)
        rcases lt_or_gt_of_ne hne with hlt | hgt
        · rw [if_pos hlt, if_neg (not_lt.2 hlt.le)]
          rfl
        · rw [if_pos hgt, if_neg (not_lt.2 hgt.le)]

theorem not_hasNan_of_string (hleft : stringOf h left = some a) : ¬ HasNan left right := by
  rintro ⟨hnumber, -⟩
  cases left with
  | object o => cases hnumber
  | _ => cases hleft

/-- The order of a pair is lawful unless it is of two numbers and one is a NaN;
integers and strings are totally ordered by it. -/
theorem vmThreeWay_lawful (h : Heap) :
    (∀ left right, Lawful h left right ↔ ¬ HasNan left right) ∧ TotalOn h integerOf ∧
      TotalOn h (stringOf h) := by
  refine ⟨fun left right => ?_, totalOn_integers h, totalOn_strings h⟩
  cases hthree : vmThreeWay h left right with
  | none =>
    refine iff_of_true ⟨?_, ?_⟩ ?_
    · intro outcome houtcome
      rw [hthree] at houtcome
      cases houtcome
    · intro outcome houtcome
      rw [hthree] at houtcome
      cases houtcome
    · rintro ⟨hleft, hright, -⟩
      by_cases hmixed : (left.isInteger && right.isInteger) = false
      · rw [vmThreeWay_numbers hleft hright hmixed] at hthree
        cases hthree
      · rw [Bool.not_eq_false, Bool.and_eq_true] at hmixed
        obtain ⟨hx, hy⟩ := hmixed
        cases left with
        | integer x =>
          cases right with
          | integer y => cases hthree
          | _ => cases hy
        | _ => cases hx
  | some outcome =>
    rcases vmThreeWay_cases hthree with ⟨x, y, rfl, rfl⟩ | ⟨hleft, hright, hmixed⟩ | ⟨a, b, ha, hb⟩
    · refine iff_of_true (lawful_integers h x y) ?_
      rintro ⟨-, -, hnan⟩
      simp [lhatNumberAsReal, Binary64.isNan_ofInt] at hnan
    · exact lawful_numbers hleft hright hmixed
    · exact iff_of_true (lawful_strings ha hb) (not_hasNan_of_string ha)

/-- A heap nothing stands on. -/
def emptyHeap : Heap := ⟨fun _ => none, 0, fun _ => false, rfl⟩

/-- A NaN and one: each is the greater. -/
theorem vmThreeWay_lawful_fails :
    vmThreeWay emptyHeap (.real Binary64.nan) (.integer 1) = some 1 ∧
      vmThreeWay emptyHeap (.integer 1) (.real Binary64.nan) = some 1 ∧
      ¬ Lawful emptyHeap (.real Binary64.nan) (.integer 1) := by
  have hleft : vmThreeWay emptyHeap (.real Binary64.nan) (.integer 1) = some 1 := by
    decide +kernel
  have hright : vmThreeWay emptyHeap (.integer 1) (.real Binary64.nan) = some 1 := by
    decide +kernel
  refine ⟨hleft, hright, fun hlawful => ?_⟩
  have := hlawful.antisymmetric 1 hleft
  rw [hright] at this
  cases this

end Lhat.Arithmetic
