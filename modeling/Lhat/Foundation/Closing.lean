import Mathlib.Data.List.Nodup
import Mathlib.Data.List.Perm.Subperm
import Mathlib.Logic.Relation

/-!
# Closing a set under edges

The nodes from which one of a set can be reached, by going over all the nodes again and again
until a pass finds none. The edges are looked up from their start only.
-/

namespace Lhat

variable {α : Type*} [DecidableEq α] (edges : α → List α)

/-- One node of a pass: it joins the set if an edge leads into it. -/
def join (set : List α) (u : α) : List α :=
  if u ∈ set then set else if (edges u).any (· ∈ set) then set ++ [u] else set

def pass (nodes set : List α) : List α := nodes.foldl (join edges) set

/-- Passes until one finds nothing, in no more turns than are given. -/
def closing (nodes : List α) : Nat → List α → List α
  | 0, set => set
  | turns + 1, set =>
    if (pass edges nodes set).length = set.length then set
    else closing nodes turns (pass edges nodes set)

/-- An edge of one of the nodes. -/
def Leads (nodes : List α) (u v : α) : Prop := u ∈ nodes ∧ v ∈ edges u

variable {edges} {nodes set : List α} {u v start : α}

theorem prefix_join (set : List α) (u : α) : set <+: join edges set u := by
  unfold join
  split
  · exact List.prefix_rfl
  · split
    · exact List.prefix_append _ _
    · exact List.prefix_rfl

theorem prefix_pass (nodes : List α) : ∀ set : List α, set <+: pass edges nodes set := by
  induction nodes with
  | nil => exact fun set => List.prefix_rfl
  | cons u nodes ih => exact fun set => (prefix_join set u).trans (ih _)

/-- What a set has that was closed from one start. -/
structure Gathered (edges : α → List α) (nodes : List α) (start : α) (set : List α) : Prop where
  here : start ∈ set
  nodup : set.Nodup
  reaches : ∀ u ∈ set, Relation.ReflTransGen (Leads edges nodes) u start
  inside : ∀ u ∈ set, u = start ∨ u ∈ nodes

omit [DecidableEq α] in
theorem Gathered.single (edges : α → List α) (nodes : List α) (start : α) :
    Gathered edges nodes start [start] where
  here := List.mem_singleton_self start
  nodup := List.nodup_singleton start
  reaches u hu := by
    rw [List.mem_singleton.mp hu]
  inside u hu := .inl (List.mem_singleton.mp hu)

theorem Gathered.join (h : Gathered edges nodes start set) (hu : u ∈ nodes) :
    Gathered edges nodes start (join edges set u) := by
  unfold Lhat.join
  split
  · exact h
  · rename_i hnew
    split
    · rename_i hedge
      obtain ⟨v, hv, hin⟩ := List.any_eq_true.mp hedge
      rw [decide_eq_true_eq] at hin
      refine ⟨List.mem_append_left _ h.here, ?_, fun w hw => ?_, fun w hw => ?_⟩
      · exact h.nodup.append (List.nodup_singleton u) (by simpa using hnew)
      · obtain hw | hw := List.mem_append.mp hw
        · exact h.reaches w hw
        · rw [List.mem_singleton.mp hw]
          exact .head ⟨hu, hv⟩ (h.reaches v hin)
      · obtain hw | hw := List.mem_append.mp hw
        · exact h.inside w hw
        · exact .inr (List.mem_singleton.mp hw ▸ hu)
    · exact h

theorem Gathered.foldl_join (some : List α) : ∀ {set : List α}, some ⊆ nodes →
    Gathered edges nodes start set → Gathered edges nodes start (some.foldl (Lhat.join edges) set) := by
  induction some with
  | nil => exact fun _ h => h
  | cons u some ih =>
    intro set hsub h
    exact ih (List.subset_of_cons_subset hsub) (h.join (hsub List.mem_cons_self))

theorem Gathered.pass (h : Gathered edges nodes start set) :
    Gathered edges nodes start (pass edges nodes set) := h.foldl_join nodes (List.Subset.refl _)

omit [DecidableEq α] in
theorem Gathered.length_le (h : Gathered edges nodes start set) :
    set.length ≤ nodes.length + 1 := by
  have hsub : set ⊆ start :: nodes := fun u hu => by
    obtain rfl | hin := h.inside u hu
    · exact List.mem_cons_self
    · exact List.mem_cons_of_mem _ hin
  have := (List.subperm_of_subset h.nodup hsub).length_le
  simpa using this

theorem closed_of_pass (nodes : List α) : ∀ {set : List α}, pass edges nodes set = set →
    ∀ u ∈ nodes, ∀ v ∈ edges u, v ∈ set → u ∈ set := by
  induction nodes with
  | nil => exact fun _ u hu => (nomatch hu)
  | cons w nodes ih =>
    intro set hpass u hu v hv hin
    -- Nothing is taken out again, so the first node did not join either.
    have hjoin : join edges set w = set := by
      have hle : join edges set w <+: set := by
        have hmore : join edges set w <+: pass edges nodes (join edges set w) :=
          prefix_pass nodes _
        rwa [show pass edges nodes (join edges set w) = set from hpass] at hmore
      exact hle.eq_of_length_le (prefix_join set w).length_le
    obtain rfl | hu := List.mem_cons.mp hu
    · by_contra hnot
      unfold join at hjoin
      rw [if_neg hnot, if_pos (List.any_eq_true.mpr ⟨v, hv, decide_eq_true hin⟩)] at hjoin
      have := congrArg List.length hjoin
      rw [List.length_append, List.length_singleton] at this
      omega
    · have hrest : pass edges nodes set = set := by
        have : pass edges nodes (join edges set w) = set := hpass
        rwa [hjoin] at this
      exact ih hrest u hu v hv hin

theorem closing_gathered (turns : Nat) : ∀ {set : List α}, Gathered edges nodes start set →
    nodes.length + 2 ≤ turns + set.length →
    Gathered edges nodes start (closing edges nodes turns set) ∧
      pass edges nodes (closing edges nodes turns set) = closing edges nodes turns set := by
  induction turns with
  | zero =>
    intro set h hle
    have := h.length_le
    omega
  | succ turns ih =>
    intro set h hle
    unfold closing
    split
    · rename_i heq
      exact ⟨h, ((prefix_pass nodes set).eq_of_length heq.symm).symm⟩
    · rename_i hne
      have hle : set <+: pass edges nodes set := prefix_pass nodes set
      have := hle.length_le
      exact ih h.pass (by omega)

/-- The set that is closed holds each node once from which the start can be reached, and no
other. -/
theorem mem_closing (edges : α → List α) (nodes : List α) (start : α) :
    (closing edges nodes (nodes.length + 1) [start]).Nodup ∧
      ∀ u, u ∈ closing edges nodes (nodes.length + 1) [start] ↔
        Relation.ReflTransGen (Leads edges nodes) u start := by
  obtain ⟨h, hpass⟩ := closing_gathered (nodes.length + 1) (Gathered.single edges nodes start)
    (by simp)
  refine ⟨h.nodup, fun u => ⟨h.reaches u, fun hreach => ?_⟩⟩
  induction hreach using Relation.ReflTransGen.head_induction_on with
  | refl => exact h.here
  | head hedge _ ih => exact closed_of_pass nodes hpass _ hedge.1 _ hedge.2 ih

end Lhat
