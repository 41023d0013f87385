import Mathlib.Order.Defs.PartialOrder

/-!
# Repeating a step

A step taken a counted number of times, between two bounds. `Settles` is how a search
repeats that does not try a round again which moved nothing: such a round is the last
one, and it stands for all that are missing. Nothing is reached so that a repetition
does not reach (`Settles.repeats`). The converse needs that a step which may stand still
somewhere may do so at the end as well (`Settles.of_repeats`).
-/

namespace CountedSteps

variable {α : Type*} {R R' : α → α → Prop} {least : Nat} {most : Option Nat} {n done : Nat}
  {i j k : α}

/-- One step after another, so many of them. -/
inductive Times (R : α → α → Prop) : Nat → α → α → Prop
  | none {i : α} : Times R 0 i i
  | more {n : Nat} {i j k : α} : R i j → Times R n j k → Times R (n + 1) i k

/-- A number of steps between the bounds. -/
def Repeats (R : α → α → Prop) (least : Nat) (most : Option Nat) (i j : α) : Prop :=
  ∃ n, least ≤ n ∧ (∀ bound ∈ most, n ≤ bound) ∧ Times R n i j

/-- Steps that move, and at the end perhaps one that does not. -/
inductive Settles (R : α → α → Prop) (least : Nat) (most : Option Nat) : Nat → α → α → Prop
  | stop {done : Nat} {i : α} : least ≤ done → Settles R least most done i i
  | round {done : Nat} {i j k : α} : (∀ bound ∈ most, done < bound) → R i j → j ≠ i →
      Settles R least most (done + 1) j k → Settles R least most done i k
  | settle {done : Nat} {i : α} : (∀ bound ∈ most, done < bound) → R i i →
      Settles R least most done i i

/-- The rounds from one on: stop, where there are enough, or go on. -/
theorem settles_iff :
    Settles R least most done i k ↔ least ≤ done ∧ k = i ∨
      (∀ bound ∈ most, done < bound) ∧
        ∃ j, R i j ∧ (j = i ∧ k = j ∨ j ≠ i ∧ Settles R least most (done + 1) j k) := by
  constructor
  · intro hs
    cases hs with
    | stop hleast => exact .inl ⟨hleast, rfl⟩
    | round hmost hstep hne hrest => exact .inr ⟨hmost, _, hstep, .inr ⟨hne, hrest⟩⟩
    | settle hmost hstep => exact .inr ⟨hmost, _, hstep, .inl ⟨rfl, rfl⟩⟩
  · rintro (⟨hleast, rfl⟩ | ⟨hmost, j, hstep, ⟨rfl, rfl⟩ | ⟨hne, hrest⟩⟩)
    · exact .stop hleast
    · exact .settle hmost hstep
    · exact .round hmost hstep hne hrest

theorem Times.mono (hR : ∀ i j, R i j → R' i j) (hr : Times R n i j) : Times R' n i j := by
  induction hr with
  | none => exact .none
  | more hstep _ ih => exact .more (hR _ _ hstep) ih

theorem Times.still (hi : R i i) (n : Nat) : Times R n i i := by
  induction n with
  | zero => exact .none
  | succ n ih => exact .more hi ih

theorem Times.le [Preorder α] (hR : ∀ i j, R i j → i ≤ j) (hr : Times R n i j) : i ≤ j := by
  induction hr with
  | none => exact le_refl _
  | more hstep _ ih => exact le_trans (hR _ _ hstep) ih

theorem Repeats.mono (hR : ∀ i j, R i j → R' i j) (hr : Repeats R least most i j) :
    Repeats R' least most i j := by
  obtain ⟨n, hleast, hmost, hrounds⟩ := hr
  exact ⟨n, hleast, hmost, hrounds.mono hR⟩

theorem Settles.mono (hR : ∀ i j, R i j → R' i j) (hs : Settles R least most done i j) :
    Settles R' least most done i j := by
  induction hs with
  | stop hleast => exact .stop hleast
  | round hmost hstep hne _ ih => exact .round hmost (hR _ _ hstep) hne ih
  | settle hmost hstep => exact .settle hmost (hR _ _ hstep)

theorem Settles.times (hbounds : ∀ bound ∈ most, least ≤ bound)
    (hs : Settles R least most done i j) (hdone : ∀ bound ∈ most, done ≤ bound) :
    ∃ n, least ≤ done + n ∧ (∀ bound ∈ most, done + n ≤ bound) ∧ Times R n i j := by
  induction hs with
  | stop hleast => exact ⟨0, hleast, hdone, .none⟩
  | round hmost hstep _ _ ih =>
    obtain ⟨n, hleast, hmost', hrounds⟩ := ih fun bound hb => hmost bound hb
    exact ⟨n + 1, by omega, fun bound hb => by have := hmost' bound hb; omega,
      .more hstep hrounds⟩
  | @settle done i hmost hstep =>
    -- The round that did not move is taken as often as it is missing.
    refine ⟨least - done, by omega, fun bound hb => ?_, Times.still hstep _⟩
    have := hbounds bound hb
    have := hmost bound hb
    omega

theorem Settles.repeats (hbounds : ∀ bound ∈ most, least ≤ bound)
    (hs : Settles R least most 0 i j) : Repeats R least most i j := by
  obtain ⟨n, hleast, hmost, hrounds⟩ := hs.times hbounds fun _ _ => Nat.zero_le _
  exact ⟨n, by simpa using hleast, by simpa using hmost, hrounds⟩

theorem Settles.back (hs : Settles R least most (done + 1) i j)
    (hmost : ∀ bound ∈ most, done < bound) (hstill : R j j) : Settles R least most done i j := by
  obtain ⟨next, hnext⟩ : ∃ next, next = done + 1 := ⟨_, rfl⟩
  rw [← hnext] at hs
  induction hs generalizing done with
  | stop _ => exact .settle hmost hstill
  | round hmost' hstep hne _ ih =>
    refine .round hmost hstep hne (ih (fun bound hb => ?_) hstill (by rw [hnext]))
    have := hmost' bound hb
    omega
  | settle _ _ => exact .settle hmost hstill

/-- All that steps reach is reached by settling, where a step that may stand still may
do so at the end. -/
theorem Settles.of_times (hstill : ∀ n i j, R i i → Times R n i j → R j j)
    (hr : Times R n i j) (hleast : least ≤ done + n) (hmost : ∀ bound ∈ most, done + n ≤ bound) :
    Settles R least most done i j := by
  induction hr generalizing done with
  | none => exact .stop hleast
  | @more n i j k hstep hrest ih =>
    have hgo : ∀ bound ∈ most, done < bound := fun bound hb => by
      have := hmost bound hb
      omega
    have hlater := ih (show least ≤ done + 1 + n by omega)
      fun bound hb => by have := hmost bound hb; omega
    by_cases hmoved : j = i
    · rw [hmoved] at hstep hrest hlater
      exact hlater.back hgo (hstill _ _ _ hstep hrest)
    · exact .round hgo hstep hmoved hlater

theorem Settles.of_few (hfew : least ≤ done + 1) (hr : Times R n i j) (hleast : least ≤ done + n)
    (hmost : ∀ bound ∈ most, done + n ≤ bound) : Settles R least most done i j := by
  induction hr generalizing done with
  | none => exact .stop hleast
  | @more n i j k hstep hrest ih =>
    have hgo : ∀ bound ∈ most, done < bound := fun bound hb => by
      have := hmost bound hb
      omega
    have hless : ∀ bound ∈ most, done + n ≤ bound := fun bound hb => by
      have := hmost bound hb
      omega
    by_cases hmoved : j = i
    · subst hmoved
      cases n with
      | zero =>
        cases hrest
        exact .settle hgo hstep
      | succ n => exact ih hfew (by omega) hless
    · exact .round hgo hstep hmoved (ih (by omega) (by omega) fun bound hb => by
        have := hmost bound hb
        omega)

theorem Settles.of_repeats (hstill : ∀ n i j, R i i → Times R n i j → R j j)
    (hr : Repeats R least most i j) : Settles R least most 0 i j := by
  obtain ⟨n, hleast, hmost, hrounds⟩ := hr
  exact .of_times hstill hrounds (by simpa using hleast) (by simpa using hmost)

end CountedSteps
