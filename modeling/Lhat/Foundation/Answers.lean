import Mathlib.Data.List.Forall2

/-!
# Computations that answered

What is known of the parts of an `Except` computation once the whole has answered.
-/

namespace Answers

universe u v

variable {ε : Type*} {α β : Type v}

theorem of_bind {x : Except ε α} {f : α → Except ε β} {b : β} (h : (x >>= f) = .ok b) :
    ∃ a, x = .ok a ∧ f a = .ok b := by
  cases x with
  | error e => cases h
  | ok a => exact ⟨a, rfl, h⟩

theorem of_map {x : Except ε α} {f : α → β} {b : β} (h : x.map f = .ok b) :
    ∃ a, x = .ok a ∧ f a = b := by
  cases x with
  | error e => cases h
  | ok a => exact ⟨a, rfl, Except.ok.inj h⟩

theorem of_mapM {γ : Type u} {f : γ → Except ε β} : ∀ {xs : List γ} {ys : List β},
    xs.mapM f = .ok ys → List.Forall₂ (fun x y => f x = .ok y) xs ys := by
  intro xs
  induction xs with
  | nil =>
    intro ys h
    rw [List.mapM_nil] at h
    cases h
    exact .nil
  | cons x xs ih =>
    intro ys h
    rw [List.mapM_cons] at h
    obtain ⟨y, hy, h⟩ := of_bind h
    obtain ⟨rest, hrest, h⟩ := of_bind h
    cases h
    exact .cons hy (ih hrest)

end Answers
