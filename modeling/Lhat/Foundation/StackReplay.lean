import Mathlib.Data.List.Nodup
import Mathlib.Data.List.Perm.Basic

/-!
# Histories of a stack

What was pushed on a stack and what was popped from it, newest first. A history
replays when every pop took what stood on top. Nothing is then popped more often than
it was pushed, and what was pushed last is popped first.
-/

namespace Lhat

/-- One use of a stack. -/
inductive StackUse (α : Type*) where
  | push (a : α)
  | pop (a : α)
deriving DecidableEq

section Replay

variable {α : Type*}

/-- What a history pushed. -/
def pushed (uses : List (StackUse α)) : List α :=
  uses.filterMap fun
    | .push a => some a
    | .pop _ => none

/-- What a history popped. -/
def popped (uses : List (StackUse α)) : List α :=
  uses.filterMap fun
    | .push _ => none
    | .pop a => some a

@[simp] theorem pushed_push (a : α) (uses : List (StackUse α)) :
    pushed (.push a :: uses) = a :: pushed uses := rfl

@[simp] theorem pushed_pop (a : α) (uses : List (StackUse α)) :
    pushed (.pop a :: uses) = pushed uses := rfl

@[simp] theorem popped_push (a : α) (uses : List (StackUse α)) :
    popped (.push a :: uses) = popped uses := rfl

@[simp] theorem popped_pop (a : α) (uses : List (StackUse α)) :
    popped (.pop a :: uses) = a :: popped uses := rfl

variable [DecidableEq α]

/-- What a history leaves on the stack, the top first. There is no answer when a pop took
something else than the top. -/
def replay : List (StackUse α) → Option (List α)
  | [] => some []
  | .push a :: uses => (replay uses).map (a :: ·)
  | .pop a :: uses =>
    match replay uses with
    | some (b :: left) => if a = b then some left else none
    | _ => none

theorem replay_push {uses : List (StackUse α)} {left : List α} (h : replay uses = some left)
    (a : α) : replay (.push a :: uses) = some (a :: left) := by
  simp [replay, h]

theorem replay_pop {uses : List (StackUse α)} {a : α} {left : List α}
    (h : replay uses = some (a :: left)) : replay (.pop a :: uses) = some left := by
  simp [replay, h]

theorem replay_pop_iff {uses : List (StackUse α)} {a : α} {left : List α} :
    replay (.pop a :: uses) = some left ↔ replay uses = some (a :: left) := by
  constructor
  · intro h
    unfold replay at h
    split at h
    · rename_i b rest hrest
      split at h
      · subst a
        cases h
        exact hrest
      · cases h
    · cases h
  · exact replay_pop

theorem perm_of_replay {uses : List (StackUse α)} {left : List α} (h : replay uses = some left) :
    (popped uses ++ left).Perm (pushed uses) := by
  induction uses generalizing left with
  | nil =>
    cases h
    exact .nil
  | cons use uses ih =>
    cases use with
    | push a =>
      obtain ⟨rest, hrest, rfl⟩ := Option.map_eq_some_iff.mp h
      rw [popped_push, pushed_push]
      exact List.perm_middle.trans ((ih hrest).cons a)
    | pop a =>
      rw [popped_pop, pushed_pop]
      exact List.perm_middle.symm.trans (ih (replay_pop_iff.mp h))

theorem nodup_popped_of_replay {uses : List (StackUse α)} {left : List α}
    (h : replay uses = some left) (hpushed : (pushed uses).Nodup) : (popped uses).Nodup :=
  List.Nodup.of_append_left ((perm_of_replay h).nodup_iff.mpr hpushed)

end Replay

end Lhat
