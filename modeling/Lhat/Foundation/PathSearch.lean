import Mathlib.Data.Finset.Card
import Mathlib.Data.Finset.Dedup
import Mathlib.Data.Nat.Find

/-!
# A search that does not come back to itself

A question asks other questions, and may come back to itself. Those that are being asked
stand on the path, and one that is met again there is answered no. Where yes takes a finite
derivation nothing is lost by that: the shortest derivation does not come back to itself.
The search ends because the path grows and the questions are finitely many.
-/

namespace PathSearch

variable {P Q : Type*}

section Search

variable [DecidableEq Q] (enter : P → Option Q)
  (answer : (P → Option Bool) → Q → Option Bool)

/-- The search, with the path it has come and so many questions left to ask in a row. -/
def search : Nat → List Q → P → Option Bool
  | 0, _, _ => none
  | fuel + 1, seen, p =>
    match enter p with
    | none => some false
    | some q => if q ∈ seen then some false else answer (search fuel (q :: seen)) q

end Search

variable (enter : P → Option Q) (holds : (P → Prop) → Q → Prop)

/-- What has a derivation of so many steps. -/
def Derives : Nat → P → Prop
  | 0, _ => False
  | n + 1, p => ∃ q, enter p = some q ∧ holds (Derives n) q

/-- What is answered is what holds, where every question is answered. -/
structure Decides (answer : (P → Option Bool) → Q → Option Bool) : Prop where
  mono : ∀ {S T : P → Prop}, (∀ p, S p → T p) → ∀ {q}, holds S q → holds T q
  answers : ∀ ask : P → Option Bool, (∀ p, ∃ r, ask p = some r) → ∀ q,
    ∃ r, answer ask q = some r ∧ (r = true ↔ holds (fun p => ask p = some true) q)

variable {enter holds} {answer : (P → Option Bool) → Q → Option Bool}

theorem Derives.mono (hd : Decides holds answer) {m n : Nat} (hmn : m ≤ n) {p : P}
    (hp : Derives enter holds m p) : Derives enter holds n p := by
  induction m generalizing n p with
  | zero => exact hp.elim
  | succ m ih =>
    obtain ⟨n, rfl⟩ : ∃ k, n = k + 1 := ⟨n - 1, by omega⟩
    obtain ⟨q, hq, hholds⟩ := hp
    exact ⟨q, hq, hd.mono (fun p hp => ih (by omega) hp) hholds⟩

theorem Derives.entered {n : Nat} {p : P} (hp : Derives enter holds n p) :
    ∃ m q, m < n ∧ enter p = some q ∧ holds (Derives enter holds m) q := by
  cases n with
  | zero => exact hp.elim
  | succ n =>
    obtain ⟨q, hq, hholds⟩ := hp
    exact ⟨n, q, Nat.lt_succ_self n, hq, hholds⟩

variable [DecidableEq Q]

/-- A search that may still ask as often as there are questions off its path ends. It
answers yes where there is a derivation that is as short as any of those on the path. -/
theorem search_answers (hd : Decides holds answer) (S : Finset Q)
    (hS : ∀ p q, enter p = some q → q ∈ S) (fuel : Nat) :
    ∀ (seen : List Q) (p : P), seen.Nodup → (∀ q ∈ seen, q ∈ S) → S.card < fuel + seen.length →
      ∃ r, search enter answer fuel seen p = some r ∧
        (r = true → Derives enter holds fuel p) ∧
        ∀ n, Derives enter holds n p →
          (∀ q ∈ seen, ∀ m < n, ¬holds (Derives enter holds m) q) → r = true := by
  induction fuel with
  | zero =>
    intro seen p hnodup hseen hcard
    have : seen.toFinset.card ≤ S.card :=
      Finset.card_le_card fun q hq => hseen q (List.mem_toFinset.1 hq)
    rw [List.toFinset_card_of_nodup hnodup] at this
    omega
  | succ fuel ih =>
    intro seen p hnodup hseen hcard
    unfold search
    cases hq : enter p with
    | none =>
      refine ⟨false, rfl, nofun, fun n hn _ => ?_⟩
      obtain ⟨m, q, -, hsome, -⟩ := hn.entered
      rw [hq] at hsome
      cases hsome
    | some q =>
      simp only
      split
      · next hmem =>
          refine ⟨false, rfl, nofun, fun n hn hshort => ?_⟩
          obtain ⟨m, q', hm, hq', hholds⟩ := hn.entered
          obtain rfl : q = q' := Option.some.inj (hq.symm.trans hq')
          exact absurd hholds (hshort q hmem m hm)
      · next hmem =>
          have hinner (p' : P) := ih (q :: seen) p' (List.nodup_cons.2 ⟨hmem, hnodup⟩)
            (by simpa using ⟨hS p q hq, hseen⟩) (by rw [List.length_cons]; omega)
          obtain ⟨r, hr, hiff⟩ := hd.answers (search enter answer fuel (q :: seen))
            (fun p' => (hinner p').imp fun _ hone => hone.1) q
          refine ⟨r, hr, fun htrue => ⟨q, hq, hd.mono (fun p' hp' => ?_) (hiff.1 htrue)⟩,
            fun n hn hshort => ?_⟩
          · obtain ⟨r', hr', hsound, -⟩ := hinner p'
            exact hsound (Option.some.inj (hr'.symm.trans hp'))
          · obtain ⟨m, q', hm, hq', hholds⟩ := hn.entered
            obtain rfl : q = q' := Option.some.inj (hq.symm.trans hq')
            -- the shortest derivation asks for nothing that is as high as `q` itself
            classical
            have hsome : ∃ m, holds (Derives enter holds m) q := ⟨m, hholds⟩
            have hbound : Nat.find hsome ≤ m := Nat.find_min' hsome hholds
            refine hiff.2 (hd.mono (fun p' hp' => ?_) (Nat.find_spec hsome))
            obtain ⟨r', hr', -, hcomplete⟩ := hinner p'
            rw [hr', hcomplete _ hp']
            intro q' hq' k hk
            obtain rfl | hq' := List.mem_cons.1 hq'
            · exact Nat.find_min hsome hk
            · exact hshort q' hq' k (by omega)

/-- A search that may ask as often as there are questions answers yes where there is a
derivation. -/
theorem search_iff (hd : Decides holds answer) (S : Finset Q) (hS : ∀ p q, enter p = some q → q ∈ S)
    {fuel : Nat} (hfuel : S.card < fuel) (p : P) :
    ∃ r, search enter answer fuel [] p = some r ∧ (r = true ↔ ∃ n, Derives enter holds n p) := by
  obtain ⟨r, hr, hsound, hcomplete⟩ := search_answers hd S hS fuel [] p .nil nofun
    (by simpa using hfuel)
  exact ⟨r, hr, fun htrue => ⟨_, hsound htrue⟩, fun ⟨n, hn⟩ => hcomplete n hn nofun⟩

/-- A derivation need not be longer than there are questions. -/
theorem Derives.bounded (hmono : ∀ {S T : P → Prop}, (∀ p, S p → T p) → ∀ {q}, holds S q →
    holds T q)
    (S : Finset Q) (hS : ∀ p q, enter p = some q → q ∈ S) {n : Nat} {p : P}
    (hp : Derives enter holds n p) : Derives enter holds (S.card + 1) p := by
  classical
  have hd : Decides holds fun ask q => some (decide (holds (fun p => ask p = some true) q)) :=
    ⟨hmono, fun ask _ q => ⟨_, rfl, decide_eq_true_iff⟩⟩
  obtain ⟨r, -, hsound, hcomplete⟩ := search_answers hd S hS (S.card + 1) [] p .nil nofun
    (by simp)
  exact hsound (hcomplete n hp nofun)

/-! ## Loops that ask -/

section Loops

variable {α : Type*} {ask : α → Option Bool} {xs : List α}

theorem anyM_answers (h : ∀ x ∈ xs, ∃ r, ask x = some r) :
    ∃ r, xs.anyM ask = some r ∧ (r = true ↔ ∃ x ∈ xs, ask x = some true) := by
  induction xs with
  | nil => exact ⟨false, rfl, by simp⟩
  | cons x xs ih =>
    obtain ⟨r, hr⟩ := h x (by simp)
    rw [List.anyM_cons, hr]
    cases r with
    | true => exact ⟨true, rfl, by simp [hr]⟩
    | false =>
      obtain ⟨r', hr', hiff⟩ := ih fun y hy => h y (by simp [hy])
      exact ⟨r', hr', by simp [hiff, hr]⟩

theorem anyM_true (h : xs.anyM ask = some true) : ∃ x ∈ xs, ask x = some true := by
  induction xs with
  | nil => cases h
  | cons x xs ih =>
    rw [List.anyM_cons] at h
    cases hx : ask x with
    | none =>
      rw [hx] at h
      cases h
    | some r =>
      rw [hx] at h
      cases r with
      | true => exact ⟨x, List.mem_cons_self, hx⟩
      | false =>
        obtain ⟨y, hy, h⟩ := ih h
        exact ⟨y, List.mem_cons_of_mem _ hy, h⟩

theorem anyM_false (h : xs.anyM ask = some false) : ∀ x ∈ xs, ask x = some false := by
  induction xs with
  | nil => exact nofun
  | cons x xs ih =>
    rw [List.anyM_cons] at h
    cases hx : ask x with
    | none =>
      rw [hx] at h
      cases h
    | some r =>
      rw [hx] at h
      cases r with
      | true => cases h
      | false =>
        intro y hy
        obtain rfl | hy := List.mem_cons.mp hy
        · exact hx
        · exact ih h y hy

theorem allM_answers (h : ∀ x ∈ xs, ∃ r, ask x = some r) :
    ∃ r, xs.allM ask = some r ∧ (r = true ↔ ∀ x ∈ xs, ask x = some true) := by
  induction xs with
  | nil => exact ⟨true, rfl, by simp⟩
  | cons x xs ih =>
    obtain ⟨r, hr⟩ := h x (by simp)
    rw [List.allM_cons, hr]
    cases r with
    | false => exact ⟨false, rfl, by simp [hr]⟩
    | true =>
      obtain ⟨r', hr', hiff⟩ := ih fun y hy => h y (by simp [hy])
      exact ⟨r', hr', by simp [hiff, hr]⟩

end Loops

end PathSearch
