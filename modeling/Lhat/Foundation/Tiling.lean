import Mathlib.Data.List.Basic
import Mathlib.Order.Basic
import Mathlib.Data.Nat.Init

/-!
# Spans that tile a range

Spans that follow one another, with nothing between them but what is free.
-/

namespace Lhat

structure Span where
  start : Nat
  stop : Nat
deriving DecidableEq

/-- From one place to another, spans in ascending order and free places between them. -/
def Tiled (free : Nat → Prop) : Nat → List Span → Nat → Prop
  | i, [], j => i ≤ j ∧ ∀ k, i ≤ k → k < j → free k
  | i, s :: spans, j =>
    (i ≤ s.start ∧ ∀ k, i ≤ k → k < s.start → free k) ∧ s.start ≤ s.stop ∧
      Tiled free s.stop spans j

namespace Tiled

variable {free : Nat → Prop} {i j m : Nat} {spans more : List Span}

theorem nil (free : Nat → Prop) (i : Nat) : Tiled free i [] i :=
  ⟨Nat.le_refl i, fun _ hle hlt => absurd hlt (Nat.not_lt.mpr hle)⟩

theorem single {s : Span} (h : s.start ≤ s.stop) : Tiled free s.start [s] s.stop :=
  ⟨⟨Nat.le_refl _, fun _ hle hlt => absurd hlt (Nat.not_lt.mpr hle)⟩, h, nil free s.stop⟩

theorem le : ∀ {i : Nat} {spans : List Span}, Tiled free i spans j → i ≤ j
  | _, [], h => h.1
  | _, _ :: _, h => Nat.le_trans (Nat.le_trans h.1.1 h.2.1) h.2.2.le

theorem free_append (hle : i ≤ m) (hfree : ∀ k, i ≤ k → k < m → free k)
    (h : Tiled free m spans j) : Tiled free i spans j := by
  have hboth : ∀ {stop}, (∀ k, m ≤ k → k < stop → free k) → ∀ k, i ≤ k → k < stop → free k := by
    intro stop hlater k hik hk
    by_cases hmk : m ≤ k
    · exact hlater k hmk hk
    · exact hfree k hik (Nat.lt_of_not_le hmk)
  cases spans with
  | nil => exact ⟨Nat.le_trans hle h.1, hboth h.2⟩
  | cons s spans => exact ⟨⟨Nat.le_trans hle h.1.1, hboth h.1.2⟩, h.2⟩

theorem free_cons (hfree : free i) (h : Tiled free (i + 1) spans j) : Tiled free i spans j := by
  refine h.free_append (Nat.le_succ i) fun k hik hk => ?_
  obtain rfl : k = i := by omega
  exact hfree

theorem append : ∀ {i : Nat} {spans : List Span}, Tiled free i spans m → Tiled free m more j →
    Tiled free i (spans ++ more) j
  | _, [], h, h' => h'.free_append h.1 h.2
  | _, _ :: _, h, h' => ⟨h.1, h.2.1, h.2.2.append h'⟩

theorem bounds : ∀ {i : Nat} {spans : List Span}, Tiled free i spans j →
    ∀ s ∈ spans, i ≤ s.start ∧ s.start ≤ s.stop ∧ s.stop ≤ j
  | _, s :: spans, h, t, ht => by
    obtain rfl | ht := List.mem_cons.mp ht
    · exact ⟨h.1.1, h.2.1, h.2.2.le⟩
    · obtain ⟨hstart, hstop, hj⟩ := h.2.2.bounds t ht
      exact ⟨Nat.le_trans h.1.1 (Nat.le_trans h.2.1 hstart), hstop, hj⟩

theorem pairwise : ∀ {i : Nat} {spans : List Span}, Tiled free i spans j →
    spans.Pairwise fun s t => s.stop ≤ t.start
  | _, [], _ => .nil
  | _, _ :: _, h => .cons (fun t ht => (h.2.2.bounds t ht).1) h.2.2.pairwise

theorem free_of_outside : ∀ {i : Nat} {spans : List Span}, Tiled free i spans j →
    ∀ k, i ≤ k → k < j → (∀ s ∈ spans, ¬(s.start ≤ k ∧ k < s.stop)) → free k
  | _, [], h, k, hik, hk, _ => h.2 k hik hk
  | _, s :: spans, h, k, hik, hk, hout => by
    by_cases hbefore : k < s.start
    · exact h.1.2 k hik hbefore
    · have hafter : s.stop ≤ k := by
        by_contra hlt
        exact hout s (List.mem_cons_self ..) ⟨by omega, by omega⟩
      exact h.2.2.free_of_outside k hafter hk fun t ht => hout t (List.mem_cons_of_mem s ht)

end Tiled

end Lhat
