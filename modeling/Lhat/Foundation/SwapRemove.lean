import Mathlib.Data.List.Perm.Basic

/-!
# Removal by the last

An array that is not in any order loses a place by having its last moved there. What is left is
what was there, without the one that was taken.
-/

namespace Lhat

variable {α : Type*}

/-- The last is moved to the `i`th place, and the array is one shorter. -/
def swapRemove (xs : List α) (i : Nat) : List α :=
  match xs.getLast? with
  | some last => (xs.set i last).dropLast
  | none => []

theorem swapRemove_perm {xs : List α} {i : Nat} {x : α} (hx : xs[i]? = some x) :
    (x :: swapRemove xs i).Perm xs := by
  obtain ⟨front, last, rfl⟩ : ∃ front last, xs = front ++ [last] := by
    refine ⟨xs.dropLast, xs.getLast ?_, (List.dropLast_append_getLast _).symm⟩
    rintro rfl
    cases hx
  unfold swapRemove
  rw [List.getLast?_concat]
  by_cases hi : i < front.length
  · rw [List.getElem?_append_left hi] at hx
    dsimp only
    rw [List.set_append_left _ _ hi, List.dropLast_concat]
    obtain ⟨hlt, rfl⟩ := List.getElem?_eq_some_iff.mp hx
    -- The front without its place, and the two that are put back the other way round.
    have hset : (front.set i last).Perm (last :: front.eraseIdx i) := List.set_perm_cons_eraseIdx hi last
    have hback : (front[i] :: front.eraseIdx i).Perm front := List.getElem_cons_eraseIdx_perm hi
    calc
      (front[i] :: front.set i last).Perm (front[i] :: last :: front.eraseIdx i) := hset.cons _
      _ |>.Perm (last :: front[i] :: front.eraseIdx i) := List.Perm.swap ..
      _ |>.Perm (last :: front) := hback.cons _
      _ |>.Perm (front ++ [last]) := (List.perm_append_singleton last front).symm
  · have hlast : i = front.length := by
      have := (List.getElem?_eq_some_iff.mp hx).1
      rw [List.length_append, List.length_singleton] at this
      omega
    subst hlast
    rw [List.getElem?_concat_length] at hx
    cases hx
    dsimp only
    rw [List.set_append_right _ _ (Nat.le_refl _), Nat.sub_self, List.set_cons_zero, List.dropLast_concat]
    exact (List.perm_append_singleton _ _).symm

end Lhat
