import Lhat.Foundation.MergePasses
import Lhat.Table.Natives
import Lhat.Table.Upkeep
import Lhat.Foundation.OrderedPasses

/-!
# Sorting a table

`table_sort` merges in passes between the table and an auxiliary one. A comparator is
a body of the program, so nothing is known of it but that it leaves the table alone:
every call answers a status and a value, and the call is told by its number.

A sort that a comparator stops in a pass over the auxiliary loses nothing. In a pass
that writes the table back an element may stand there twice and another not at all
(`sort_keeps_iff`).
-/

namespace Lhat

open MergePasses

/-- What orders a sort: `vm_three_way`, where no comparator is written, or what the
calls of the written one answer. -/
inductive Comparator where
  | builtIn (threeWay : LhatValue → LhatValue → Option Int)
  | written (call : Nat → LhatValue → LhatValue → LhatRunStatus × LhatValue)

/-- `lhat_number_as_real`, of a number. -/
def lhatNumberAsReal : LhatValue → Option Binary64
  | .integer i => some (Binary64.ofInt i.toInt)
  | .real d => some d
  | _ => none

/-- The statuses of a run that did not come back. -/
abbrev Failure := { status : LhatRunStatus // status ≠ .ok }

def typeFailure : Failure := ⟨.typeError, by decide⟩

/-- `sort_compare`, in the call of a number. -/
def sortCompare (cmp : Comparator) (calls : Nat) (x y : LhatValue) : Except Failure Int :=
  match cmp with
  | .builtIn threeWay =>
    match threeWay x y with
    | some outcome => .ok outcome
    | none => .error typeFailure
  | .written call =>
    if hran : (call calls x y).1 = .ok then
      match lhatNumberAsReal (call calls x y).2 with
      | none => .error typeFailure
      | some answer =>
        if answer.lt (Binary64.ofInt 0) then .ok (-1)
        else if (Binary64.ofInt 0).lt answer then .ok 1
        else .ok 0
    else .error ⟨(call calls x y).1, hran⟩

/-- Equals keep their order. -/
def sortTakesLeft (cmp : Comparator) (calls : Nat) (x y : LhatValue) : Except Failure Bool :=
  (sortCompare cmp calls x y).map fun outcome => decide (outcome ≤ 0)

/-- The elements written at the positions of the auxiliary table, from one on. It is
the machine's own, neither shared nor of a definition, so `vm_set_key` is
`lhat_table_set` there. -/
def copyPositions (h : Heap) : List LhatValue → Nat → Memory → LhatTable →
    Option (Option LhatTable × Memory)
  | [], _, m, aux => some (some aux, m)
  | value :: rest, i, m, aux =>
    match lhatTableSet h m aux (.integer (Int64.ofNat i)) value with
    | none => none
    | some made =>
      if made.ok then copyPositions h rest (i + 1) made.memory made.table
      else some (none, made.memory)

/-- The auxiliary table of a sort, if memory holds out. -/
def sortAux (h : Heap) (m : Memory) (t : LhatTable) : Option (Option LhatTable × Memory) :=
  if m.granted tableSize then copyPositions h t.array 0 (m.request tableSize) lhatTableNew
  else some (none, m.request tableSize)

/-- The passes of a sort. The first reads the auxiliary. -/
def sortPasses (cmp : Comparator) (aux t : LhatTable) :
    Except (Bool × Fault LhatValue Failure) (List LhatValue) :=
  mergePasses (sortTakesLeft cmp) .nil t.array.length t.array.length 1 true 0 aux.array t.array

/-- What a sort answers and leaves. -/
structure SortRun where
  status : LhatRunStatus
  table : LhatTable
  memory : Memory

/-- `table_sort`. The ordered run is copied into the table where it ends in the
auxiliary. -/
def tableSort (h : Heap) (m : Memory) (t : LhatTable) (cmp : Comparator) : Option SortRun :=
  if t.array.length < 2 then some { status := .ok, table := t, memory := m }
  else
    match sortAux h m t with
    | none => none
    | some (none, memory) => some { status := .outOfMemory, table := t, memory }
    | some (some aux, memory) =>
      match sortPasses cmp aux t with
      | .ok ordered => some { status := .ok, table := { t with array := ordered }, memory }
      | .error stop =>
        some { status := stop.2.cause.1, table := { t with array := kept stop }, memory }

section Sorting

variable {h : Heap} {m : Memory} {t aux : LhatTable} {cmp : Comparator}

theorem LhatTable.Wf.append_position (hw : aux.Wf h) (hentries : aux.entries = []) (m : Memory)
    (value : LhatValue) :
    ∃ made, lhatTableSet h m aux (.integer (Int64.ofNat aux.array.length)) value = some made ∧
      (made.ok = true → made.table.Wf h ∧ made.table.entries = [] ∧
        made.table.array = aux.array ++ [value]) := by
  have hcount : aux.entryCount = 0 := by
    rw [hw.counted, hentries]
    rfl
  have hindex : arrayIndex aux (.integer (Int64.ofNat aux.array.length)) = none := by
    have hlen := hw.length_lt
    simp only [arrayIndex, Int64.toInt_ofNat_of_lt (show aux.array.length < 2 ^ 63 by omega)]
    rw [if_pos (Or.inr (Int.le_refl _))]
  have hnext : namesNext aux (.integer (Int64.ofNat aux.array.length)) = true :=
    namesNext_iff.2 rfl
  have hrefused : refusedKey h (.integer (Int64.ofNat aux.array.length)) = false := rfl
  have hnormal : normaliseKey (.integer (Int64.ofNat aux.array.length)) =
    .integer (Int64.ofNat aux.array.length) := rfl
  unfold lhatTableSet
  simp only [hrefused, hnormal, hindex, hnext, if_true]
  rcases (hw.makeRoom m).2.2 with ⟨hok, -⟩ | ⟨hok, capacity, htable, hlt, hbytes⟩
  · exact ⟨_, by simp [hok]; rfl, by simp [hok]⟩
  · -- No entry waits at the position after the one written.
    have hdrain : Lhat.drainIntoArray h (Lhat.makeRoom m aux).memory
        ((Lhat.makeRoom m aux).table.append value) =
          some ((Lhat.makeRoom m aux).table.append value, (Lhat.makeRoom m aux).memory) := by
      rw [htable]
      unfold Lhat.drainIntoArray Lhat.drain Lhat.findEntry
      simp [LhatTable.append, hcount]
    refine ⟨_, by simp only [hok, hdrain]; rfl, fun _ => ?_⟩
    rw [htable]
    exact ⟨hw.append capacity hlt hbytes value, hentries, rfl⟩

theorem copyPositions_spec (rest : List LhatValue) {done : List LhatValue} (hw : aux.Wf h) (hentries : aux.entries = [])
    (harray : aux.array = done) :
    ∃ made, copyPositions h rest done.length m aux = some made ∧
      ∀ aux', made.1 = some aux' → aux'.array = done ++ rest := by
  induction rest generalizing done m aux with
  | nil =>
    refine ⟨_, rfl, fun aux' haux => ?_⟩
    obtain rfl := Option.some.inj haux
    rw [harray, List.append_nil]
  | cons value rest ih =>
    subst harray
    obtain ⟨made, hmade, hsaid⟩ := hw.append_position hentries m value
    unfold copyPositions
    rw [hmade]
    cases hok : made.ok with
    | false => exact ⟨(none, made.memory), by simp [hok], nofun⟩
    | true =>
      obtain ⟨hw', hentries', harray'⟩ := hsaid hok
      obtain ⟨made', hmade', hcopied⟩ := ih (m := made.memory) hw' hentries' harray'
      rw [List.length_append, List.length_singleton] at hmade'
      refine ⟨made', by simpa [hok] using hmade', fun aux' haux => ?_⟩
      rw [hcopied aux' haux, List.append_assoc, List.singleton_append]

theorem sortAux_spec (h : Heap) (m : Memory) (t : LhatTable) :
    ∃ made, sortAux h m t = some made ∧ ∀ aux, made.1 = some aux → aux.array = t.array := by
  unfold sortAux
  split
  · obtain ⟨made, hmade, hcopied⟩ := copyPositions_spec (m := m.request tableSize) t.array
      (wf_new h) rfl rfl
    exact ⟨made, hmade, hcopied⟩
  · exact ⟨(none, m.request tableSize), rfl, nofun⟩

/-- The comparison a sort stops at, if it stops at one, is made in a pass over the
auxiliary, or what the block of the table still holds unwritten is what the auxiliary
has of it that was not moved yet. -/
def KeepsElements (h : Heap) (m : Memory) (t : LhatTable) (cmp : Comparator) : Prop :=
  ∀ aux memory stop, sortAux h m t = some (some aux, memory) → sortPasses cmp aux t = .error stop →
    stop.1 = true → stop.2.Unspoilt

theorem sortPasses_kept {stop : Bool × Fault LhatValue Failure}
    (harray : aux.array = t.array) (hstop : sortPasses cmp aux t = .error stop) :
    (kept stop).Perm t.array ↔ (stop.1 = true → stop.2.Unspoilt) := by
  unfold sortPasses at hstop
  rw [harray] at hstop
  exact mergePasses_error_perm _ _ Nat.one_pos (fun n _ v => rfl) rfl (List.Perm.refl _) hstop

theorem sortPasses_short (hshort : t.array.length < 2) : sortPasses cmp aux t = .ok aux.array := by
  unfold sortPasses
  cases hlen : t.array.length with
  | zero => rfl
  | succ n => exact if_neg (by omega)

end Sorting

/-- The numbers in order, but for a call that faults. -/
def faultingAt (n : Nat) : Comparator :=
  .written fun calls x y =>
    if calls = n then (.panic, .nil)
    else
      match x, y with
      | .integer a, .integer b => (.ok, .integer (if a < b then -1 else if b < a then 1 else 0))
      | _, _ => (.ok, .integer 0)

def fiveNumbers : LhatTable :=
  { array := [.integer 3, .integer 4, .integer 1, .integer 2, .integer 5], arrayCapacity := 8 }

end Lhat

/-!
# A sort that succeeds

A comparator that answers every pair as one total preorder gets the sequence back in
order, with what it calls equal as it stood. Only the auxiliary can be refused, and
then the table is as it was.
-/

namespace Lhat

open MergePasses

/-- Every call answers, by the place of its arguments in a total preorder of the
elements. -/
structure Comparator.Orders (cmp : Comparator) (le : LhatValue → LhatValue → Bool)
    (among : List LhatValue) : Prop where
  answers : ∀ calls, ∀ x ∈ among, ∀ y ∈ among, ∃ outcome, sortCompare cmp calls x y = .ok outcome ∧
    (outcome ≤ 0 ↔ le x y = true) ∧ (0 ≤ outcome ↔ le y x = true)
  total : ∀ x ∈ among, ∀ y ∈ among, le x y = true ∨ le y x = true
  trans : ∀ x ∈ among, ∀ y ∈ among, ∀ z ∈ among, le x y = true → le y z = true → le x z = true

section Ordered

variable {cmp : Comparator} {le : LhatValue → LhatValue → Bool} {among : List LhatValue}

/-- The preorder of the elements with everything else behind them. -/
def withRest (le : LhatValue → LhatValue → Bool) (among : List LhatValue)
    (x y : LhatValue) : Bool :=
  if x ∈ among then if y ∈ among then le x y else true else decide (y ∉ among)

theorem withRest_of_mem {x y : LhatValue} (hx : x ∈ among) (hy : y ∈ among) :
    withRest le among x y = le x y := by
  rw [withRest, if_pos hx, if_pos hy]

theorem Comparator.Orders.withRest_total (ho : cmp.Orders le among) (x y : LhatValue) :
    (withRest le among x y || withRest le among y x) = true := by
  unfold withRest
  by_cases hx : x ∈ among <;> by_cases hy : y ∈ among <;> simp only [hx, hy, if_true, if_false]
  · simpa using ho.total x hx y hy
  all_goals rfl

theorem Comparator.Orders.withRest_trans (ho : cmp.Orders le among) (x y z : LhatValue)
    (hxy : withRest le among x y = true) (hyz : withRest le among y z = true) :
    withRest le among x z = true := by
  unfold withRest at *
  by_cases hx : x ∈ among <;> by_cases hy : y ∈ among <;> by_cases hz : z ∈ among <;>
    simp_all
  exact ho.trans x hx y hy z hz hxy hyz

theorem Comparator.Orders.answersBy (ho : cmp.Orders le among) :
    AnswersBy (sortTakesLeft cmp) (withRest le among) among := by
  intro calls x hx y hy
  obtain ⟨outcome, hran, hle, -⟩ := ho.answers calls x hx y hy
  rw [sortTakesLeft, hran, withRest_of_mem hx hy]
  show Except.ok (decide (outcome ≤ 0)) = Except.ok (le x y)
  cases hxy : le x y with
  | true => rw [decide_eq_true (hle.2 hxy)]
  | false =>
    refine congrArg Except.ok (decide_eq_false fun hneg => ?_)
    rw [hle.1 hneg] at hxy
    cases hxy

theorem sortPasses_ordered {aux t : LhatTable} (ho : cmp.Orders le t.array)
    (harray : aux.array = t.array) :
    ∃ ordered, sortPasses cmp aux t = .ok ordered ∧ ordered.Perm t.array ∧
      (ordered.Pairwise fun x y => le x y = true) ∧
      ∀ x ∈ t.array, ordered.filter (tied le x) = t.array.filter (tied le x) := by
  unfold sortPasses
  rw [harray]
  obtain ⟨ordered, hpasses, hpairs, hties⟩ := mergePasses_ordered .nil
    ho.withRest_trans ho.withRest_total t.array.length Nat.one_pos ho.answersBy
    (runs_one t.array) (show t.array.length = t.array.length from rfl) (by rw [Nat.mul_one]; exact Nat.lt_two_pow_self.le) true 0
  have hperm : ordered.Perm t.array := hties.perm ho.withRest_total
  refine ⟨ordered, hpasses, hperm, ?_, fun x hx => ?_⟩
  · refine hpairs.imp_of_mem fun {x y} hx hy hxy => ?_
    rwa [withRest_of_mem (hperm.mem_iff.1 hx) (hperm.mem_iff.1 hy)] at hxy
  · have hsame : ∀ y ∈ t.array, tied le x y = tied (withRest le t.array) x y := by
      intro y hy
      rw [tied, tied, withRest_of_mem hx hy, withRest_of_mem hy hx]
    rw [List.filter_congr hsame, List.filter_congr fun y hy => hsame y (hperm.mem_iff.1 hy)]
    exact hties x

end Ordered

/-- The tens of integers, and nothing else, are told apart. -/
def byTens : Comparator :=
  .written fun _ x y =>
    match x, y with
    | .integer a, .integer b => (.ok, .integer (a / 10 - b / 10))
    | _, _ => (.ok, .integer 0)

def tensLe : LhatValue → LhatValue → Bool
  | .integer a, .integer b => decide (a / 10 ≤ b / 10)
  | _, _ => true

def fiveTens : LhatTable :=
  { array := [.integer 31, .integer 12, .integer 32, .integer 11, .integer 20], arrayCapacity := 8 }

end Lhat
