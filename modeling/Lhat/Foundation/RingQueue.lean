import Mathlib.Data.List.Basic
import Mathlib.Data.Nat.ModEq

/-!
# A queue in a ring

The slots are an array and the queue stands in it from `head` on, past the end of the array
back at its start. A ring without room is unrolled into a larger one.
-/

namespace Lhat

structure Ring (α : Type*) where
  slots : List (Option α)
  head : Nat
  count : Nat
deriving DecidableEq

namespace Ring

variable {α : Type*}

def empty : Ring α := ⟨[], 0, 0⟩

def capacity (q : Ring α) : Nat := q.slots.length

/-- The slot of the `i`th in the queue. -/
def place (q : Ring α) (i : Nat) : Nat := (q.head + i) % q.capacity

def item (q : Ring α) (i : Nat) : Option α := (q.slots[q.place i]?).join

/-- The queue at the start of an array of `wanted` slots. -/
def unroll (q : Ring α) (wanted : Nat) : Ring α :=
  ⟨(List.range q.count).map q.item ++ List.replicate (wanted - q.count) none, 0, q.count⟩

/-- Room for one more. `grows` says whether a larger array can be had. -/
def makeRoom (q : Ring α) (grows : Bool) : Option (Ring α) :=
  if q.count < q.capacity then some q
  else if grows then some (q.unroll (if 0 < q.capacity then q.capacity * 2 else 8))
  else none

def enqueue (q : Ring α) (x : α) : Ring α :=
  ⟨q.slots.set (q.place q.count) (some x), q.head, q.count + 1⟩

def dequeue (q : Ring α) : Ring α := ⟨q.slots, (q.head + 1) % q.capacity, q.count - 1⟩

/-- The ring is the queue `xs`. -/
structure Denotes (q : Ring α) (xs : List α) : Prop where
  count : q.count = xs.length
  room : q.count ≤ q.capacity
  head : q.head < q.capacity ∨ q.capacity = 0 ∧ q.head = 0
  item : ∀ i x, xs[i]? = some x → q.slots[q.place i]? = some (some x)

variable {q : Ring α} {xs : List α}

theorem Denotes.empty : (empty : Ring α).Denotes [] :=
  ⟨rfl, Nat.le_refl 0, .inr ⟨rfl, rfl⟩, fun _ _ h => nomatch h⟩

theorem Denotes.item_eq (h : q.Denotes xs) {i : Nat} {x : α} (hx : xs[i]? = some x) :
    q.item i = some x := by
  rw [Ring.item, h.item i x hx, Option.join_some]

theorem Denotes.items (h : q.Denotes xs) : (List.range q.count).map q.item = xs.map some := by
  refine List.ext_getElem (by simp [h.count]) fun i hi _ => ?_
  have hlt : i < xs.length := by simpa [h.count] using hi
  rw [List.getElem_map, List.getElem_map, List.getElem_range,
    h.item_eq (List.getElem?_eq_getElem hlt)]

theorem Denotes.eq (h : q.Denotes xs) : (List.range q.count).filterMap q.item = xs := by
  have hsome : ∀ ys : List α, (ys.map some).filterMap id = ys := by
    intro ys
    simp
  rw [← hsome xs, ← h.items, List.filterMap_map]
  rfl

theorem Denotes.capacity_pos (h : q.Denotes xs) (hne : xs ≠ []) : 0 < q.capacity :=
  Nat.lt_of_lt_of_le (List.length_pos_of_ne_nil hne) (h.count ▸ h.room)

theorem capacity_unroll {wanted : Nat} (hroom : q.count ≤ wanted) :
    (q.unroll wanted).capacity = wanted := by
  rw [capacity, unroll, List.length_append, List.length_map, List.length_range,
    List.length_replicate, Nat.add_sub_cancel' hroom]

theorem Denotes.unroll (h : q.Denotes xs) {wanted : Nat} (hroom : q.count < wanted) :
    (q.unroll wanted).Denotes xs := by
  have hcap : (q.unroll wanted).capacity = wanted := capacity_unroll (Nat.le_of_lt hroom)
  refine ⟨h.count, ?_, .inl ?_, fun i x hx => ?_⟩
  · rw [hcap]
    exact Nat.le_of_lt hroom
  · rw [hcap]
    exact Nat.zero_lt_of_lt hroom
  · have hi : i < xs.length := (List.getElem?_eq_some_iff.mp hx).1
    have hlt : i < wanted := Nat.lt_trans hi (h.count ▸ hroom)
    have hplace : (q.unroll wanted).place i = i := by
      rw [place, hcap]
      show (0 + i) % wanted = i
      rw [Nat.zero_add, Nat.mod_eq_of_lt hlt]
    rw [hplace, Ring.unroll, h.items, List.getElem?_append_left (by rwa [List.length_map]),
      List.getElem?_map, hx]
    rfl

theorem Denotes.makeRoom (h : q.Denotes xs) {grows : Bool} {q' : Ring α}
    (hroom : q.makeRoom grows = some q') : q'.Denotes xs ∧ q'.count < q'.capacity := by
  unfold Ring.makeRoom at hroom
  split at hroom
  · cases hroom
    exact ⟨h, ‹_›⟩
  · split at hroom
    · cases hroom
      rename_i hfull _
      have hcount : q.count = q.capacity := Nat.le_antisymm h.room (Nat.le_of_not_lt hfull)
      have hlarger : q.count < if 0 < q.capacity then q.capacity * 2 else 8 := by
        split <;> omega
      refine ⟨h.unroll hlarger, ?_⟩
      rw [capacity_unroll (Nat.le_of_lt hlarger)]
      exact hlarger
    · cases hroom

theorem place_inj {i j : Nat} (hi : i < q.capacity) (hj : j < q.capacity)
    (h : q.place i = q.place j) : i = j := by
  have hmod : Nat.ModEq q.capacity i j := Nat.ModEq.add_left_cancel' q.head h
  rwa [Nat.ModEq, Nat.mod_eq_of_lt hi, Nat.mod_eq_of_lt hj] at hmod

theorem Denotes.enqueue (h : q.Denotes xs) (hroom : q.count < q.capacity) (x : α) :
    (q.enqueue x).Denotes (xs ++ [x]) := by
  have hcap : (q.enqueue x).capacity = q.capacity := List.length_set ..
  refine ⟨?_, ?_, ?_, fun i y hy => ?_⟩
  · rw [List.length_append, ← h.count]
    rfl
  · rw [hcap]
    exact hroom
  · rw [hcap]
    exact h.head
  · have hplace : (q.enqueue x).place i = q.place i := by
      rw [place, hcap]
      rfl
    have hlast : q.place q.count < q.slots.length :=
      Nat.mod_lt _ (Nat.zero_lt_of_lt hroom)
    rw [hplace]
    show (q.slots.set (q.place q.count) (some x))[q.place i]? = _
    rw [List.getElem?_append] at hy
    split at hy
    · rename_i hlt
      have hne : q.place q.count ≠ q.place i := by
        intro heq
        have := place_inj hroom (Nat.lt_trans hlt (h.count ▸ hroom)) heq
        rw [h.count] at this
        exact Nat.ne_of_lt hlt this.symm
      rw [List.getElem?_set_ne hne]
      exact h.item i y hy
    · have hi : i = q.count := by
        have := (List.getElem?_eq_some_iff.mp hy).1
        rw [List.length_singleton] at this
        have := h.count
        omega
      subst hi
      rw [h.count, Nat.sub_self, List.getElem?_cons_zero] at hy
      rw [List.getElem?_set_self hlast, ← hy]

theorem Denotes.dequeue {x : α} (h : q.Denotes (x :: xs)) : q.dequeue.Denotes xs := by
  have hcap : 0 < q.capacity := h.capacity_pos (List.cons_ne_nil _ _)
  have hcount := h.count
  have hroom := h.room
  rw [List.length_cons] at hcount
  refine ⟨?_, ?_, .inl (Nat.mod_lt _ hcap), fun i y hy => ?_⟩
  · show q.count - 1 = _
    omega
  · show q.count - 1 ≤ q.capacity
    omega
  · have hplace : q.dequeue.place i = q.place (i + 1) := by
      show ((q.head + 1) % q.capacity + i) % q.capacity = (q.head + (i + 1)) % q.capacity
      rw [Nat.mod_add_mod, Nat.add_assoc, Nat.add_comm 1]
    rw [hplace]
    exact h.item (i + 1) y hy

theorem Denotes.first {x : α} (h : q.Denotes (x :: xs)) : q.slots[q.head]? = some (some x) := by
  have hcap : 0 < q.capacity := h.capacity_pos (List.cons_ne_nil _ _)
  have hhead : q.head < q.capacity := by
    rcases h.head with hlt | ⟨hnone, -⟩
    · exact hlt
    · omega
  have := h.item 0 x rfl
  rwa [place, Nat.add_zero, Nat.mod_eq_of_lt hhead] at this

end Ring

end Lhat
