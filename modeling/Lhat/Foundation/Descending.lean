import Mathlib.Data.List.Basic

/-!
# Lists that go down

A list whose elements have keys that go down strictly. What is taken from the front as long as
the key is high enough is everything with such a key.
-/

namespace Lhat

variable {α : Type*} {key : α → Nat} {l : List α} {a : Nat} {x : α}

theorem mem_takeWhile_descending (h : l.Pairwise fun x y => key y < key x) :
    x ∈ l.takeWhile (fun y => a ≤ key y) ↔ x ∈ l ∧ a ≤ key x := by
  induction l with
  | nil => simp
  | cons y l ih =>
    obtain ⟨hy, hl⟩ := List.pairwise_cons.mp h
    by_cases hle : a ≤ key y
    · rw [List.takeWhile_cons_of_pos (by simpa using hle), List.mem_cons, List.mem_cons, ih hl]
      constructor
      · rintro (rfl | ⟨hx, hax⟩)
        · exact ⟨Or.inl rfl, hle⟩
        · exact ⟨Or.inr hx, hax⟩
      · rintro ⟨rfl | hx, hax⟩
        · exact Or.inl rfl
        · exact Or.inr ⟨hx, hax⟩
    · rw [List.takeWhile_cons_of_neg (by simpa using hle)]
      refine ⟨nofun, ?_⟩
      rintro ⟨hx, hax⟩
      rcases List.mem_cons.mp hx with rfl | hx
      · exact absurd hax hle
      · exact absurd (Nat.le_trans hax (Nat.le_of_lt (hy x hx))) hle

theorem mem_dropWhile_descending (h : l.Pairwise fun x y => key y < key x) :
    x ∈ l.dropWhile (fun y => a ≤ key y) ↔ x ∈ l ∧ key x < a := by
  induction l with
  | nil => simp
  | cons y l ih =>
    obtain ⟨hy, hl⟩ := List.pairwise_cons.mp h
    by_cases hle : a ≤ key y
    · rw [List.dropWhile_cons_of_pos (by simpa using hle), ih hl]
      constructor
      · exact fun ⟨hx, hxa⟩ => ⟨List.mem_cons_of_mem y hx, hxa⟩
      · rintro ⟨hx, hxa⟩
        rcases List.mem_cons.mp hx with rfl | hx
        · exact absurd hle (Nat.not_le.mpr hxa)
        · exact ⟨hx, hxa⟩
    · rw [List.dropWhile_cons_of_neg (by simpa using hle)]
      refine ⟨fun hx => ⟨hx, ?_⟩, fun hx => hx.1⟩
      rcases List.mem_cons.mp hx with rfl | hx
      · exact Nat.not_le.mp hle
      · exact Nat.lt_trans (hy x hx) (Nat.not_le.mp hle)

end Lhat
