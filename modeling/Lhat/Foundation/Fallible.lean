import Mathlib.Data.List.Basic

/-!
# Computations that fail

A computation over a state succeeds with a value, or fails, or does not come back. What
it did to the state before it failed stays done. `wp` is what has to hold beforehand for
it to come back, and for one thing to hold where it succeeds and another where it fails.
-/

namespace Lhat

/-- A computation over `σ`. -/
def Fallible (σ α : Type) := σ → Option (Option α × σ)

namespace Fallible

variable {σ α β : Type}

instance : Monad (Fallible σ) where
  pure a := fun s => some (some a, s)
  bind x f := fun s =>
    match x s with
    | none => none
    | some (none, s') => some (none, s')
    | some (some a, s') => f a s'

/-- Nothing more is done. -/
def fail : Fallible σ α := fun s => some (none, s)

/-- There is no way back. -/
def halt : Fallible σ α := fun _ => none

def get : Fallible σ σ := fun s => some (some s, s)

def modify (f : σ → σ) : Fallible σ Unit := fun s => some (some (), f s)

/-- The same for each of a list. -/
def each (f : α → Fallible σ β) : List α → Fallible σ (List β)
  | [] => pure []
  | a :: as => do
    let b ← f a
    let bs ← each f as
    return b :: bs

/-- What has to hold of a state for the computation to come back with `Q` or fail with
`R`, or not to come back where `H` allows it. -/
def wp (x : Fallible σ α) (Q : α → σ → Prop) (R : σ → Prop) (H : Prop) (s : σ) : Prop :=
  match x s with
  | none => H
  | some (none, s') => R s'
  | some (some a, s') => Q a s'

variable {x : Fallible σ α} {Q Q' : α → σ → Prop} {R R' : σ → Prop} {H H' : Prop} {s : σ}

@[simp] theorem wp_pure (a : α) : wp (pure a) Q R H s = Q a s := rfl

@[simp] theorem wp_fail : wp fail Q R H s = R s := rfl

@[simp] theorem wp_halt : wp halt Q R H s = H := rfl

@[simp] theorem wp_get {Q : σ → σ → Prop} : wp get Q R H s = Q s s := rfl

@[simp] theorem wp_modify (f : σ → σ) {Q : Unit → σ → Prop} :
    wp (modify f) Q R H s = Q () (f s) := rfl

@[simp] theorem wp_bind (f : α → Fallible σ β) {Q : β → σ → Prop} :
    wp (x >>= f) Q R H s = wp x (fun a => wp (f a) Q R H) R H s := by
  simp only [wp, bind]
  cases x s with
  | none => rfl
  | some r =>
    obtain ⟨_ | a, s'⟩ := r <;> rfl

theorem wp_mono (h : wp x Q R H s) (hQ : ∀ a s', Q a s' → Q' a s') (hR : ∀ s', R s' → R' s')
    (hH : H → H') : wp x Q' R' H' s := by
  unfold wp at h ⊢
  split at h
  · exact hH h
  · exact hR _ h
  · exact hQ _ _ h

/-- A loop keeps what each of its turns keeps: `I` speaks of what was gone through and
what came of it. -/
theorem wp_each {f : α → Fallible σ β} (I : List α → List β → σ → Prop) {as : List α}
    (hturn : ∀ done made a rest s, as = done ++ a :: rest → I done made s →
      wp (f a) (fun b s' => I (done ++ [a]) (made ++ [b]) s') R H s)
    (hstart : I [] [] s) : wp (each f as) (fun bs s' => I as bs s') R H s := by
  have hloop : ∀ (rest done : List α) (made : List β) (s : σ), as = done ++ rest → I done made s →
      wp (each f rest) (fun bs s' => I as (made ++ bs) s') R H s := by
    intro rest
    induction rest with
    | nil =>
      intro done made s has hI
      rw [List.append_nil] at has
      subst has
      simpa [each] using hI
    | cons a rest ih =>
      intro done made s has hI
      rw [each, wp_bind]
      refine wp_mono (hturn done made a rest s has hI) (fun b s' hI' => ?_) (fun _ h => h) id
      rw [wp_bind]
      refine wp_mono (ih (done ++ [a]) (made ++ [b]) s' (by simp [has]) hI') ?_ (fun _ h => h) id
      intro bs s'' h
      simpa using h
  simpa using hloop as [] [] s rfl hstart

theorem wp_each_keeps {f : α → Fallible σ β} {P : σ → Prop} {as : List α}
    (hturn : ∀ a ∈ as, ∀ s, P s → wp (f a) (fun _ => P) R H s) (hstart : P s) :
    wp (each f as) (fun _ => P) R H s := by
  refine wp_each (fun _ _ => P) ?_ hstart
  intro done made a rest s has hP
  exact hturn a (by simp [has]) s hP

/-! ### What no computation undoes -/

/-- Wherever the computation ends, it has moved along `r`. -/
def Moves (r : σ → σ → Prop) (x : Fallible σ α) : Prop :=
  ∀ s, wp x (fun _ => r s) (r s) True s

section Moves

variable {r : σ → σ → Prop} {f : α → Fallible σ β}

theorem Moves.fail (hrefl : ∀ s, r s s) : Moves r (fail : Fallible σ α) := hrefl

theorem Moves.halt : Moves r (halt : Fallible σ α) := fun _ => trivial

theorem Moves.pure (hrefl : ∀ s, r s s) (a : α) : Moves r (Pure.pure a : Fallible σ α) := hrefl

theorem Moves.get (hrefl : ∀ s, r s s) : Moves r (get : Fallible σ σ) := hrefl

/-- From a state that was come to along `r`. -/
theorem Moves.wp_from (hx : Moves r x) (htrans : ∀ s t u, r s t → r t u → r s u) {s₀ : σ}
    (h : r s₀ s) : wp x (fun _ => r s₀) (r s₀) True s :=
  wp_mono (hx s) (fun _ s' h' => htrans s₀ s s' h h') (fun s' h' => htrans s₀ s s' h h') id

theorem Moves.bind (hx : Moves r x) (htrans : ∀ s t u, r s t → r t u → r s u)
    (hf : ∀ a, Moves r (f a)) : Moves r (x >>= f) := by
  intro s
  rw [wp_bind]
  exact wp_mono (hx s) (fun a s' h => (hf a).wp_from htrans h) (fun _ h => h) id

theorem Moves.each (hrefl : ∀ s, r s s) (htrans : ∀ s t u, r s t → r t u → r s u) {as : List α}
    (hf : ∀ a, Moves r (f a)) : Moves r (each f as) := by
  intro s
  exact wp_each_keeps (fun a _ s' h => (hf a).wp_from htrans h) (hrefl s)

end Moves

end Fallible

end Lhat
