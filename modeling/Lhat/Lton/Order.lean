import Lhat.Foundation.Answers
import Lhat.Lton.Basic
import Mathlib.Data.List.Perm.Basic

/-!
# The order of keys

`compareKeys` is lexicographic: the rank, the value as a real, integers before reals, and then the
integers and the bytes themselves. Keys of one table that are compared as equal are one key, so
their sorted list does not depend on how they stood.
-/

namespace Lhat.Lton

open Lexing (Text)

theorem memcmp_then (a : Text) : ∀ b : Text,
    (memcmp (a.take (min a.length b.length)) (b.take (min a.length b.length))).then
      (compare a.length b.length) = compare a b := by
  induction a with
  | nil =>
    intro b
    cases b with
    | nil => rfl
    | cons d b => rfl
  | cons c a ih =>
    intro b
    cases b with
    | nil => rfl
    | cons d b =>
      have hlength : compare (c :: a).length (d :: b).length = compare a.length b.length := by
        simp only [List.length_cons, Nat.compare_eq_ite_lt, Nat.succ_lt_succ_iff]
      have htake : min (c :: a).length (d :: b).length = min a.length b.length + 1 := by
        simp only [List.length_cons, Nat.succ_min_succ]
      rw [hlength, htake, List.take_succ_cons, List.take_succ_cons, memcmp, Ordering.then_assoc,
        ih b]
      exact (@List.compareLex_cons_cons _ compare c d a b).symm

theorem compareString_eq (a b : Text) : compareString a b = compare a b := memcmp_then a b

namespace Scalar

/-- The value as a real. -/
def scaled : Scalar → Int
  | integer i => (Binary64.ofInt i.toInt).scaled
  | real d => d.1.scaled
  | _ => 0

/-- Integers stand before reals. -/
def kind : Scalar → Nat
  | real _ => 1
  | _ => 0

def whole : Scalar → Int64
  | integer i => i
  | _ => 0

def flag : Scalar → Bool
  | bool b => b
  | _ => false

def bytes : Scalar → Text
  | string bytes => bytes
  | _ => []

/-- What keys are compared by, the first difference first. -/
def order : Scalar → Scalar → Ordering :=
  compareLex (compareOn rank) <| compareLex (compareOn scaled) <| compareLex (compareOn kind) <|
    compareLex (compareOn whole) <| compareLex (compareOn flag) (compareOn bytes)

instance : Std.TransCmp order := by
  unfold order
  infer_instance

/-- A real key that is not a whole number, as tables hold them. -/
def Normal : Scalar → Prop
  | real d => d.1.scaled ≠ 0
  | _ => True

theorem isNan_number (x : Scalar) : x.number.isNan = false := by
  cases x with
  | real d => exact Binary64.isNan_of_isFinite d.2
  | _ => exact Binary64.isNan_ofInt _

theorem compare_number (x y : Scalar) (after : Ordering) :
    (if !x.number.eq y.number then if x.number.lt y.number then Ordering.lt else .gt else after) =
      (compare x.number.scaled y.number.scaled).then after := by
  unfold Binary64.eq Binary64.lt
  rw [isNan_number, isNan_number]
  simp only [Bool.not_false, Bool.true_and]
  rcases lt_trichotomy x.number.scaled y.number.scaled with h | h | h
  · rw [compare_lt_iff_lt.mpr h]
    simp [h, ne_of_lt h]
  · rw [compare_eq_iff_eq.mpr h]
    simp [h]
  · rw [compare_gt_iff_gt.mpr h]
    simp [ne_of_gt h, not_lt_of_gt h]

end Scalar

open Scalar in
theorem compareKeys_eq (x y : Scalar) : compareKeys x y = x.order y := by
  unfold compareKeys order
  by_cases hrank : x.rank = y.rank
  · rw [if_neg (by simp [hrank])]
    have hself : compare x.rank y.rank = .eq := by rw [hrank]; exact Std.ReflOrd.compare_self
    cases x <;> cases y <;> try (cases hrank; done)
    case pos.nil.nil => rfl
    case pos.bool.bool a b => cases a <;> cases b <;> rfl
    case pos.string.string a b =>
      show compareString a b = compare a b
      exact compareString_eq a b
    case pos.integer.integer i j =>
      rw [compare_number]
      show (compare _ _).then (compare i j) = (compare _ _).then ((compare i j).then .eq)
      rw [Ordering.then_eq]
      rfl
    all_goals
      rw [compare_number]
      rfl
  · rw [if_pos (by simpa using hrank)]
    have hne : compare x.rank y.rank ≠ .eq := fun h => hrank (Nat.compare_eq_eq.mp h)
    unfold compareLex compareOn
    cases h : compare x.rank y.rank with
    | eq => exact absurd h hne
    | lt => rfl
    | gt => rfl

theorem eq_of_order {x y : Scalar} (hx : x.Normal) (h : x.order y = .eq) : x = y := by
  unfold Scalar.order at h
  simp only [compareLex_eq_eq, compareOn] at h
  obtain ⟨hrank, hscaled, hkind, hwhole, hflag, hbytes⟩ := h
  have hrank := Nat.compare_eq_eq.mp hrank
  have hscaled := Std.LawfulEqOrd.eq_of_compare hscaled
  have hkind := Nat.compare_eq_eq.mp hkind
  have hwhole := Std.LawfulEqOrd.eq_of_compare hwhole
  have hflag := Std.LawfulEqOrd.eq_of_compare hflag
  have hbytes := Std.LawfulEqOrd.eq_of_compare hbytes
  cases x <;> cases y <;> try (cases hrank; done)
  case nil.nil => rfl
  case bool.bool => exact congrArg _ hflag
  case string.string => exact congrArg _ hbytes
  case integer.integer => exact congrArg _ hwhole
  case integer.real => cases hkind
  case real.integer => cases hkind
  case real.real c d => exact congrArg _ (Subtype.ext (Binary64.eq_of_scaled_eq hscaled hx))

variable {α : Type*}

theorem keyLe_trans (x y z : Scalar × α) (h : keyLe x y = true) (h' : keyLe y z = true) :
    keyLe x z = true := by
  unfold keyLe at h h' ⊢
  rw [compareKeys_eq] at h h' ⊢
  exact Std.TransCmp.isLE_trans h h'

theorem keyLe_total (x y : Scalar × α) : (keyLe x y || keyLe y x) = true := by
  unfold keyLe
  have hswap : y.1.order x.1 = (x.1.order y.1).swap := Std.OrientedCmp.eq_swap
  rw [compareKeys_eq, compareKeys_eq, hswap]
  cases x.1.order y.1 <;> rfl

/-- A list of entries under different keys. -/
structure Keyed (entries : List (Scalar × α)) : Prop where
  nodup : (entries.map Prod.fst).Nodup
  normal : ∀ entry ∈ entries, entry.1.Normal

theorem Keyed.eq_of_perm {xs ys : List (Scalar × α)} (h : Keyed xs) (hperm : xs.Perm ys)
    (hxs : xs.Pairwise (keyLe · ·)) (hys : ys.Pairwise (keyLe · ·)) : xs = ys := by
  refine hperm.eq_of_pairwise (fun x y hx hy hle hle' => ?_) hxs hys
  have hkey : x.1 = y.1 := by
    unfold keyLe at hle hle'
    rw [compareKeys_eq] at hle hle'
    exact eq_of_order (h.normal x hx) (Std.OrientedCmp.isLE_antisymm hle hle')
  exact List.inj_on_of_nodup_map h.nodup hx (hperm.mem_iff.mpr hy) hkey

theorem pairwise_sorted (xs : List (Scalar × α)) : (xs.mergeSort keyLe).Pairwise (keyLe · ·) :=
  List.pairwise_mergeSort keyLe_trans keyLe_total xs

end Lhat.Lton
