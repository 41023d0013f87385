import Mathlib.Logic.Relation

/-!
# Paths that keep off some nodes

A walk that does not enter again what it stands in follows paths that keep off those nodes. It
loses nothing: behind the last visit of a node, a path keeps off that node too.
-/

namespace AvoidingPaths

open Relation (ReflTransGen)

variable {α : Type*}

/-- A path that keeps off `S`. -/
inductive Path (edge : α → α → Prop) (S : α → Prop) : α → α → Prop
  | here {a : α} (h : ¬ S a) : Path edge S a a
  | step {a b c : α} (h : ¬ S a) (hedge : edge a b) (hrest : Path edge S b c) : Path edge S a c

namespace Path

variable {edge : α → α → Prop} {S : α → Prop} {a b c x : α}

theorem off (h : Path edge S a b) : ¬ S a := by
  cases h with
  | here h => exact h
  | step h _ _ => exact h

theorem reach (h : Path edge S a b) : ReflTransGen edge a b := by
  induction h with
  | here _ => exact .refl
  | step _ hedge _ ih => exact .head hedge ih

theorem mono {edge' : α → α → Prop} {S' : α → Prop} (h : Path edge S a b)
    (hedge : ∀ a b, edge a b → edge' a b) (hoff : ∀ x, S' x → S x) : Path edge' S' a b := by
  induction h with
  | here h => exact .here fun h' => h (hoff _ h')
  | step h hab _ ih => exact .step (fun h' => h (hoff _ h')) (hedge _ _ hab) ih

theorem of_reach (h : ReflTransGen edge a b) (hoff : ∀ x, ReflTransGen edge a x → ¬ S x) :
    Path edge S a b := by
  induction h using ReflTransGen.head_induction_on with
  | refl => exact .here (hoff b .refl)
  | head hab _ ih => exact .step (hoff _ .refl) hab (ih fun x hx => hoff x (.head hab hx))

theorem onward (h : Path edge S a b) : a = b ∨ ∃ c, edge a c ∧ Path edge S c b := by
  cases h with
  | here _ => exact .inl rfl
  | step _ hedge hrest => exact .inr ⟨_, hedge, hrest⟩

/-- A path keeps off a node, or goes on from its last visit there. -/
theorem last (h : Path edge S a b) (x : α) :
    Path edge (fun y => S y ∨ y = x) a b ∨
      ReflTransGen edge a x ∧ ¬ S x ∧
        (x = b ∨ ∃ c, edge x c ∧ Path edge (fun y => S y ∨ y = x) c b) := by
  induction h with
  | @here a h =>
    by_cases hx : a = x
    · exact .inr ⟨hx ▸ .refl, hx ▸ h, .inl hx.symm⟩
    · exact .inl (.here fun hor => hor.elim h hx)
  | @step a c b h hedge _ ih =>
    obtain ih | ⟨hreach, hx, hlast⟩ := ih
    · by_cases hx : a = x
      · exact .inr ⟨hx ▸ .refl, hx ▸ h, .inr ⟨c, hx ▸ hedge, ih⟩⟩
      · exact .inl (.step (fun hor => hor.elim h hx) hedge ih)
    · exact .inr ⟨.head hedge hreach, hx, hlast⟩

theorem leave (h : Path edge S a b) :
    a = b ∨ ∃ c, edge a c ∧ Path edge (fun y => S y ∨ y = a) c b := by
  obtain h | ⟨-, -, h⟩ := h.last a
  · exact absurd (.inr rfl) h.off
  · exact h

theorem meets (h : Path edge S a b) (x : α) :
    Path edge (fun y => S y ∨ y = x) a b ∨ ReflTransGen edge a x ∧ Path edge S x b := by
  obtain h | ⟨hreach, hx, rfl | ⟨c, hedge, hrest⟩⟩ := h.last x
  · exact .inl h
  · exact .inr ⟨hreach, .here hx⟩
  · exact .inr ⟨hreach, .step hx hedge (hrest.mono (fun _ _ => id) fun _ => .inl)⟩

end Path

end AvoidingPaths
