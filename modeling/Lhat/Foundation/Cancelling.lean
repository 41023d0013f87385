import Mathlib.Data.List.Basic

/-!
# Names and what takes them back

In a word of names, `up` takes back the name right before it. What is left when nothing can
be taken back any more is a run of `up` and names behind it, and a fold over the word computes
it. The fold that lets `up` take back an `up` as well keeps the names and the parity of the run
(`strikes_eq`).
-/

namespace Cancelling

variable {β : Type*} {up : β} {v w : List β}

/-- What a word comes to: the climbs that had no name before them, and the names, the last
one first. -/
@[ext] structure Left (up : β) where
  climbs : Nat
  names : List β
  clean : up ∉ names

namespace Left

/-- The word that is left, its last segment first. -/
def stack (f : Left up) : List β := f.names ++ List.replicate f.climbs up

def word (f : Left up) : List β := f.stack.reverse

theorem word_eq (f : Left up) : f.word = List.replicate f.climbs up ++ f.names.reverse := by
  rw [word, stack, List.reverse_append, List.reverse_replicate]

variable (up) in
def empty : Left up := ⟨0, [], List.not_mem_nil⟩

variable [DecidableEq β]

/-- One segment more. -/
def read (f : Left up) (s : β) : Left up :=
  if hs : s = up then
    match hnames : f.names with
    | [] => ⟨f.climbs + 1, [], List.not_mem_nil⟩
    | _ :: rest => ⟨f.climbs, rest, fun h => f.clean (hnames ▸ List.mem_cons_of_mem _ h)⟩
  else ⟨f.climbs, s :: f.names, fun h => (List.mem_cons.1 h).elim (fun h => hs h.symm) f.clean⟩

instance : DecidableEq (Left up) := fun f g =>
  decidable_of_iff (f.climbs = g.climbs ∧ f.names = g.names) Left.ext_iff.symm

@[simp] theorem read_name {f : Left up} {s : β} (hs : s ≠ up) :
    (f.read s).climbs = f.climbs ∧ (f.read s).names = s :: f.names := by
  simp [read, hs]

theorem read_up_nil {f : Left up} (hnames : f.names = []) :
    f.read up = ⟨f.climbs + 1, [], List.not_mem_nil⟩ := by
  obtain ⟨climbs, names, clean⟩ := f
  subst hnames
  simp [read]

theorem read_up_cons {f : Left up} {n : β} {rest : List β} (hnames : f.names = n :: rest) :
    (f.read up).climbs = f.climbs ∧ (f.read up).names = rest := by
  obtain ⟨climbs, names, clean⟩ := f
  subst hnames
  simp [read]

end Left

section Fold

variable [DecidableEq β]

variable (up) in
/-- The word read from its beginning. -/
def left (w : List β) : Left up := w.foldl Left.read (Left.empty up)

theorem mem_of_mem_left {s : β} (hs : s ∈ (left up w).names) : s ∈ w := by
  have hread : ∀ (w : List β) (f : Left up), s ∈ (w.foldl Left.read f).names →
      s ∈ w ∨ s ∈ f.names := by
    intro w
    induction w with
    | nil => exact fun _ h => .inr h
    | cons t w ih =>
      intro f h
      rcases ih _ h with h | h
      · exact .inl (List.mem_cons_of_mem _ h)
      · by_cases ht : t = up
        · subst ht
          cases hnames : f.names with
          | nil =>
            rw [f.read_up_nil hnames] at h
            exact absurd h List.not_mem_nil
          | cons n rest =>
            rw [(f.read_up_cons hnames).2] at h
            exact .inr (List.mem_cons_of_mem _ h)
        · rw [(f.read_name ht).2] at h
          rcases List.mem_cons.1 h with rfl | h
          · exact .inl List.mem_cons_self
          · exact .inr h
  exact (hread w _ hs).elim id fun h => absurd h List.not_mem_nil

theorem run_inj {m n : Nat} (hv : up ∉ v) (hw : up ∉ w)
    (h : List.replicate m up ++ v = List.replicate n up ++ w) : m = n ∧ v = w := by
  obtain rfl : m = n := by
    have hcount := congrArg (List.count up) h
    simpa [List.count_eq_zero.2 hv, List.count_eq_zero.2 hw] using hcount
  exact ⟨rfl, List.append_cancel_left h⟩

/-! ### Taking back an `up` as well -/

variable (up) in
/-- One segment more, where `up` takes back whatever stands before it. -/
def strike (stack : List β) (s : β) : List β :=
  if s = up ∧ stack ≠ [] then stack.tail else s :: stack

theorem strike_stack (f : Left up) (s : β) :
    strike up (f.names ++ List.replicate (f.climbs % 2) up) s =
      (f.read s).names ++ List.replicate ((f.read s).climbs % 2) up := by
  by_cases hs : s = up
  · subst hs
    cases hnames : f.names with
    | nil =>
      rw [f.read_up_nil hnames]
      rcases Nat.mod_two_eq_zero_or_one f.climbs with h | h
      · simp [strike, h, Nat.add_mod]
      · simp [strike, h, Nat.add_mod]
    | cons n rest =>
      obtain ⟨hclimbs, hrest⟩ := f.read_up_cons hnames
      simp [strike, hclimbs, hrest]
  · obtain ⟨hclimbs, hnames⟩ := f.read_name hs
    simp [strike, hs]

theorem strikes_eq (w : List β) : w.foldl (strike up) [] =
    (left up w).names ++ List.replicate ((left up w).climbs % 2) up := by
  suffices h : ∀ f : Left up, w.foldl (strike up) (f.names ++ List.replicate (f.climbs % 2) up) =
      (w.foldl Left.read f).names ++ List.replicate ((w.foldl Left.read f).climbs % 2) up by
    exact h (Left.empty up)
  induction w with
  | nil => exact fun f => rfl
  | cons s w ih => exact fun f => by rw [List.foldl_cons, List.foldl_cons, strike_stack, ih]

/-- Names behind at most one `up` are pushed one after the other. -/
theorem strikes_of_tail (hw : up ∉ w.tail) : w.foldl (strike up) [] = w.reverse := by
  have hpush : ∀ (w stack : List β), up ∉ w → w.foldl (strike up) stack = w.reverse ++ stack := by
    intro w
    induction w with
    | nil => exact fun _ _ => rfl
    | cons s w ih =>
      intro stack hup
      have hs : s ≠ up := fun h => hup (h ▸ List.mem_cons_self)
      rw [List.foldl_cons, ih _ fun h => hup (List.mem_cons_of_mem _ h)]
      simp [strike, hs]
  cases w with
  | nil => rfl
  | cons s w => rw [List.foldl_cons, hpush w _ hw]; simp [strike]

/-- As many `up` as there are segments on top take just these off. -/
theorem strikes_back (stack : List β) (w : List β) :
    (List.replicate w.length up).foldl (strike up) (w ++ stack) = stack := by
  induction w with
  | nil => rfl
  | cons s w ih => simpa [List.replicate_succ, strike] using ih

end Fold

end Cancelling
