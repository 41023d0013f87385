import Lhat.Table.Natives
import Lhat.Table.Walk
import Mathlib.Logic.Function.Basic

/-!
# Walking a table in place

A loop over a table takes its steps from a coroutine that `lhat_table_iterator` makes, or lays
the cursor in its own four registers and makes none. The body sees neither: it has the machine
but for those registers and that coroutine. `for_in_place` is that it cannot tell the two
apart, whatever it does to the table between two steps.
-/

namespace Lhat.InPlace

/-- `LhatCoroutineState`. -/
inductive CoroutineState where
  | fresh | suspended | running | done
deriving DecidableEq, Repr

/-- A coroutine whose source is a table. -/
structure WalkCoroutine where
  state : CoroutineState := .fresh
  cursor : LhatWalkCursor

/-- The natives a loop may find as the walk of what it is over. -/
inductive NativeKind where
  | iterate | keys | values | other
deriving DecidableEq, Repr

/-- Tables that fit the address space. -/
structure SizedStore where
  store : Store
  sized : ∀ a t, store.table a = some t → t.array.length < 2 ^ 63 ∧ t.entries.length < 2 ^ 63

/-- The machine, as far as a loop reads it. `world` is the rest. -/
structure View (World : Type) where
  slots : Nat → LhatValue
  slotCapacity : Nat
  tables : SizedStore
  walks : Address → Option WalkCoroutine
  answerRun : Nat → LhatValue
  world : World

/-- What the heap has, and the kind of each native. The fields of an error and the members of an
enum are tables. -/
structure Kinds where
  heap : Heap
  native : Address → NativeKind
  fields : ∀ o f, heap.object o = some (.error f) → f ≠ 0 → heap.object f = some .table
  members : ∀ o m, heap.object o = some (.enum m) → m ≠ 0 → heap.object m = some .table

/-- How a step is put down. -/
inductive WalkMode where
  | asValue | asRun | asAnswer
deriving DecidableEq, Repr

/-- The registers of a loop: four for the walk, and above them where a step is put down and
where the end is asked for. -/
structure Registers where
  walk : Nat
  taken : Nat
  test : Nat
  taken_above : walk + 4 ≤ taken
  test_above : walk + 4 ≤ test

section Source

variable {World : Type}

def View.set (v : View World) (i : Nat) (value : LhatValue) : View World :=
  { v with slots := Function.update v.slots i value }

def partCode : LhatWalkPart → Int64
  | .pair => 0
  | .keys => 1
  | .values => 2
  | .range => 3
  | .reverse => 4

def isProjection (part : LhatWalkPart) : Bool := part = .keys || part = .values

/-- `lhat_is_object_kind`, for the kinds a loop asks about. -/
def isKind (k : Kinds) (value : LhatValue) (kind : LhatObjectKind) : Bool :=
  match value with
  | .object o =>
    match k.heap.object o with
    | some .table => kind = .table
    | some (.other found) => kind = found
    | _ => false
  | _ => false

/-! ### The head of the loop -/

/-- The part that a native walks. -/
def walkPart : NativeKind → LhatWalkPart
  | .keys => .keys
  | .values => .values
  | _ => .pair

/-- `lay_walk_inline`. -/
def layWalkInline (k : Kinds) (v : View World) (at_ : Nat) : Option (View World) :=
  match v.slots at_ with
  | .object o =>
    if isKind k (.object o) .native then
      let part := walkPart (k.native o)
      let walked := vmTableOf k.heap (v.slots (at_ + 1))
      if (k.native o ≠ .iterate ∧ part = .pair) ∨ walked = 0 then none
      else some ((((v.set at_ (.object walked)).set (at_ + 1) (.integer (partCode part))).set
        (at_ + 2)
        (.integer 0)).set (at_ + 3) (.integer 0))
    else none
  | _ => none

/-- The call of the native that was found, bound to the receiver; any other call is left out.
`fresh` is where the coroutine is put, if there is room for one. -/
def callWalk (k : Kinds) (fresh : Option Address) (v : View World) (at_ : Nat) :
    Option (LhatRunStatus ⊕ View World) :=
  match v.slots at_ with
  | .object o =>
    let bound := v.slots (at_ + 1)
    if isKind k (.object o) .native ∧ k.native o ≠ .other then
      if k.native o = .iterate ∧ isKind k bound .coroutine then some (.inr (v.set at_ bound))
      else
        let walked := vmTableOf k.heap bound
        if walked = 0 then some (.inl .notCallable)
        else
          match fresh with
          | none => some (.inl .outOfMemory)
          | some co =>
            let cursor : LhatWalkCursor := { walking := walked, part := walkPart (k.native o) }
            some (.inr ({ v with
              walks := Function.update v.walks co (some { cursor := cursor }) }.set at_
              (.object co)))
    else none
  | _ => none

/-! ### One step -/

/-- `read_walk_inline`. -/
def readWalkInline (v : View World) (at_ : Nat) : Option LhatWalkCursor :=
  match v.slots at_, v.slots (at_ + 1), v.slots (at_ + 2), v.slots (at_ + 3) with
  | .object walking, .integer part, .integer array, .integer entry =>
    if part < 0 ∨ partCode .values < part ∨ array < 0 ∨ entry < 0 then none
    else some
      { walking
        atArray := array.toInt.toNat
        atEntry := entry.toInt.toNat
        part := if part = partCode .keys then .keys
          else if part = partCode .values then .values
          else .pair }
  | _, _, _, _ => none

/-- `vm_step_walk`: whether a step was taken, and the cursor after. -/
def vmStepWalk (cursor : LhatWalkCursor) (mode : WalkMode) (at_ : Nat) (v : View World) :
    Bool × LhatWalkCursor × View World :=
  if isProjection cursor.part then
    match lhatTableWalk v.tables.store cursor with
    | (none, cursor) => (false, cursor, v.set at_ .nil)
    | (some (key, value), cursor) =>
      (true, cursor, v.set at_ (if cursor.part = .keys then key else value))
  else
    match mode with
    | .asValue =>
      if cursor.part = .range ∨ cursor.part = .reverse then
        match lhatTableWalk v.tables.store cursor with
        | (none, cursor) => (false, cursor, v.set at_ .nil)
        | (some (_, value), cursor) => (true, cursor, v.set at_ value)
      else
        -- only the dense half, by index
        match v.tables.store.table cursor.walking with
        | none => (false, cursor, v.set at_ .nil)
        | some t =>
          if t.array.length ≤ cursor.atArray then (false, cursor, v.set at_ .nil)
          else (true, { cursor with atArray := cursor.atArray + 1 },
            v.set at_ (t.slot cursor.atArray))
    | .asRun =>
      match lhatTableWalk v.tables.store cursor with
      | (none, cursor) => (false, cursor, v.set at_ .nil)
      | (some (key, value), cursor) =>
        (true, cursor, ((v.set at_ (.run 2)).set (at_ + 1) key).set (at_ + 2) value)
    | .asAnswer =>
      match lhatTableWalk v.tables.store cursor with
      | (none, cursor) => (false, cursor, v.set at_ .nil)
      | (some (key, value), cursor) =>
        (true, cursor, { v with
          answerRun := Function.update (Function.update v.answerRun 1 key) 2 value }.set at_
            (.run 2))

/-- The mode that the operand of `RESUME` says. -/
def resumeMode (cc : UInt8) : WalkMode :=
  if cc &&& 0x80 ≠ 0 then .asValue else if 3 ≤ cc then .asRun else if cc = 2 then .asValue
  else .asAnswer

/-- `LHAT_BC_RESUME`, up to the coroutines whose source is no table. -/
def resume (k : Kinds) (a b : Nat) (cc : UInt8) (v : View World) :
    Option (LhatRunStatus ⊕ View World) :=
  let mode := resumeMode cc
  if isKind k (v.slots b) .table then
    match readWalkInline v b with
    | none => some (.inl .typeError)
    | some cursor =>
      if mode = .asRun ∧ (cursor.part ≠ .pair ∨ cc ≠ 3 ∨ v.slotCapacity ≤ a + 2) then
        some (.inl .tupleArity)
      else
        let (took, cursor, v) := vmStepWalk cursor mode a v
        if took then
          some (.inr ((v.set (b + 2) (.integer (Int64.ofNat cursor.atArray))).set (b + 3)
            (.integer (Int64.ofNat cursor.atEntry))))
        else some (.inr (v.set b .nil))
  else if isKind k (v.slots b) .coroutine then
    match v.slots b with
    | .object o =>
      match v.walks o with
      | none => none
      | some co =>
        if co.state = .done ∨ co.state = .running then some (.inl .deadCoroutine)
        else if mode = .asRun ∧
            (isProjection co.cursor.part ∨ cc ≠ 3 ∨ v.slotCapacity ≤ a + 2) then
          some (.inl .tupleArity)
        else
          let (took, cursor, v) := vmStepWalk co.cursor mode a v
          some (.inr { v with
            walks := Function.update v.walks o
              (some { co with cursor, state := if took then .suspended else .done }) })
    | _ => none
  else some (.inl .typeError)

/-- `LHAT_BC_ISDONE`. Only a coroutine with a body is given back to the machine at its end. -/
def isDone (k : Kinds) (a b : Nat) (v : View World) : LhatRunStatus ⊕ View World :=
  if v.slots b = .nil ∨ isKind k (v.slots b) .table = true then
    .inr (v.set a (.bool (v.slots b).isNil))
  else if isKind k (v.slots b) .coroutine then
    match v.slots b with
    | .object o =>
      match v.walks o with
      | none => .inr (v.set a (.bool false))
      | some co => .inr (v.set a (.bool (decide (co.state = .done))))
    | _ => .inl .typeError
  else .inl .typeError

/-! ### The loop -/

/-- A turn of the body, from what it sees: it comes to its end and the loop goes on or is left,
or it yields first. -/
inductive Turn (World : Type) where
  | done (goesOn : Bool) (v : View World)
  | yields (v : View World) (resumed : View World → Turn World)

/-- What is seen of a loop from outside. -/
inductive Event (World : Type) where
  | took (v : View World)
  | yielded (v : View World)

/-- How far a loop came. -/
inductive Ending where
  | ended
  | left
  | faulted (status : LhatRunStatus)
  | abandoned
  | elsewhere
  | running
deriving DecidableEq, Repr

/-- The registers of the walk, and the coroutine that may be in them, are the loop's own. -/
def hide (r : Registers) (co : Address) (v : View World) : View World :=
  { v with
    slots := fun i => if r.walk ≤ i ∧ i < r.walk + 4 then .nil else v.slots i
    walks := Function.update v.walks co none }

/-- What was hidden stands as it did. -/
def restore (r : Registers) (co : Address) (v w : View World) : View World :=
  { w with
    slots := fun i => if r.walk ≤ i ∧ i < r.walk + 4 then v.slots i else w.slots i
    walks := Function.update w.walks co (v.walks co) }

/-- A turn, where whoever is yielded to does what it will and resumes, or never does. -/
def runTurn (resumer : View World → Option (View World)) :
    Turn World → List (Event World) × Option (Bool × View World)
  | .done goesOn v => ([], some (goesOn, v))
  | .yields v resumed =>
    match resumer v with
    | none => ([.yielded v], none)
    | some w =>
      let (events, left) := runTurn resumer (resumed w)
      (.yielded v :: events, left)

/-- So many turns of the loop: `RESUME`, `ISDONE` and the body. -/
def loop (k : Kinds) (r : Registers) (co : Address) (cc : UInt8)
    (resumer : View World → Option (View World)) (body : View World → Turn World) :
    Nat → View World → List (Event World) × Ending × View World
  | 0, v => ([], .running, hide r co v)
  | turns + 1, v =>
    match resume k r.taken r.walk cc (v.set r.taken .nil) with
    | none => ([], .elsewhere, hide r co v)
    | some (.inl status) => ([], .faulted status, hide r co v)
    | some (.inr v) =>
      match isDone k r.test r.walk v with
      | .inl status => ([], .faulted status, hide r co v)
      | .inr v =>
        if v.slots r.test = .bool true then ([], .ended, hide r co v)
        else
          let v := v.set r.test (.bool true)
          let (events, left) := runTurn resumer (body (hide r co v))
          match left with
          | none => (.took (hide r co v) :: events, .abandoned, hide r co v)
          | some (false, w) => (.took (hide r co v) :: events, .left, hide r co w)
          | some (true, w) =>
            let (more, rest) := loop k r co cc resumer body turns (restore r co v w)
            (.took (hide r co v) :: events ++ more, rest)

/-- The loop over what its native and its receiver, laid in its registers, make of it. -/
def forStepping (k : Kinds) (r : Registers) (co : Address) (cc : UInt8)
    (resumer : View World → Option (View World)) (body : View World → Turn World) (turns : Nat)
    (v : View World) : List (Event World) × Ending × View World :=
  match callWalk k (some co) v r.walk with
  | none => ([], .elsewhere, hide r co v)
  | some (.inl status) => ([], .faulted status, hide r co v)
  | some (.inr v) => loop k r co cc resumer body turns v

/-- The same, where `ITERPREP` lays the walk inline if it can. -/
def forInPlace (k : Kinds) (r : Registers) (co : Address) (cc : UInt8)
    (resumer : View World → Option (View World)) (body : View World → Turn World) (turns : Nat)
    (v : View World) : List (Event World) × Ending × View World :=
  match layWalkInline k v r.walk with
  | some v => loop k r co cc resumer body turns v
  | none => forStepping k r co cc resumer body turns v

end Source

/-! ### What is hidden -/

section Hidden

variable {World : Type} {k : Kinds} {r : Registers} {co : Address} {v w : View World}
  {cursor : LhatWalkCursor} {mode : WalkMode}

theorem hide_set_inside {i : Nat} (hi : r.walk ≤ i ∧ i < r.walk + 4) (value : LhatValue) :
    hide r co (v.set i value) = hide r co v := by
  simp only [hide, View.set, View.mk.injEq, and_true]
  funext j
  by_cases hj : j = i
  · rw [hj, if_pos hi, if_pos hi]
  · rw [Function.update_of_ne hj]

theorem hide_set_outside {i : Nat} (hi : r.walk + 4 ≤ i) (value : LhatValue) :
    hide r co (v.set i value) = (hide r co v).set i value := by
  simp only [hide, View.set, View.mk.injEq, and_true]
  funext j
  by_cases hj : j = i
  · rw [hj, if_neg (by omega), Function.update_self, Function.update_self]
  · rw [Function.update_of_ne hj, Function.update_of_ne hj]

theorem hide_walks (found : Option WalkCoroutine) :
    hide r co { v with walks := Function.update v.walks co found } = hide r co v := by
  simp only [hide, Function.update_idem]

theorem hide_restore (r : Registers) (co : Address) (v w : View World) :
    hide r co (restore r co v w) = hide r co w := by
  simp only [hide, restore, Function.update_idem, View.mk.injEq, and_true]
  funext j
  split
  · rfl
  · rfl

/-- What a step puts down. -/
inductive Laid where
  | one (value : LhatValue)
  | run (key value : LhatValue)
  | answer (key value : LhatValue)

def Laid.lay (at_ : Nat) (v : View World) : Laid → View World
  | .one value => v.set at_ value
  | .run key value => ((v.set at_ (.run 2)).set (at_ + 1) key).set (at_ + 2) value
  | .answer key value => { v with
      answerRun := Function.update (Function.update v.answerRun 1 key) 2 value }.set at_ (.run 2)

theorem nextKeyed_le (t : LhatTable) (left i : Nat) : (nextKeyed t left i).2 ≤ i + left := by
  induction left generalizing i with
  | zero => exact Nat.le_refl _
  | succ left ih =>
    unfold nextKeyed
    simp only
    split
    · exact (ih (i + 1)).trans (by omega)
    · dsimp only
      omega

theorem lhatTableWalk_cursor (tables : SizedStore) (cursor : LhatWalkCursor) :
    (lhatTableWalk tables.store cursor).2.walking = cursor.walking ∧
      (lhatTableWalk tables.store cursor).2.part = cursor.part ∧
      (cursor.part ≠ .range → cursor.part ≠ .reverse → cursor.atArray < 2 ^ 63 →
        cursor.atEntry < 2 ^ 63 → (lhatTableWalk tables.store cursor).2.atArray < 2 ^ 63 ∧
          (lhatTableWalk tables.store cursor).2.atEntry < 2 ^ 63) := by
  unfold lhatTableWalk
  cases htable : tables.store.table cursor.walking with
  | none => exact ⟨rfl, rfl, fun _ _ ha he => ⟨ha, he⟩⟩
  | some t =>
    obtain ⟨harray, hentries⟩ := tables.sized _ _ htable
    have hkeyed := nextKeyed_le t (t.entries.length - cursor.atEntry) cursor.atEntry
    dsimp only
    split
    · next hpart => split <;> exact ⟨rfl, rfl, fun _ h => absurd hpart h⟩
    · next hpart => split <;> exact ⟨rfl, rfl, fun h => absurd hpart h⟩
    all_goals
      split
      · exact ⟨rfl, rfl, fun _ _ _ he => ⟨by dsimp only; omega, he⟩⟩
      · exact ⟨rfl, rfl, fun _ _ ha he => ⟨ha, by dsimp only; omega⟩⟩

theorem vmStepWalk_eq (cursor : LhatWalkCursor) (mode : WalkMode) (tables : SizedStore) :
    ∃ took after laid, (∀ v : View World, v.tables = tables → ∀ at_,
        vmStepWalk cursor mode at_ v = (took, after, Laid.lay at_ v laid)) ∧
      after.walking = cursor.walking ∧ after.part = cursor.part ∧
      (cursor.part ≠ .range → cursor.part ≠ .reverse → cursor.atArray < 2 ^ 63 →
        cursor.atEntry < 2 ^ 63 → after.atArray < 2 ^ 63 ∧ after.atEntry < 2 ^ 63) := by
  obtain ⟨hwalking, hpart, hbounds⟩ := lhatTableWalk_cursor tables cursor
  cases hstep : lhatTableWalk tables.store cursor with
  | mk found after =>
    rw [hstep] at hwalking hpart hbounds
    by_cases hprojection : isProjection cursor.part = true
    · cases found with
      | none =>
        refine ⟨false, after, .one .nil, ?_, hwalking, hpart, hbounds⟩
        rintro v rfl at_
        unfold vmStepWalk
        rw [if_pos hprojection, hstep]
        rfl
      | some pair =>
        refine ⟨true, after, .one (if after.part = .keys then pair.1 else pair.2), ?_, hwalking,
          hpart, hbounds⟩
        rintro v rfl at_
        unfold vmStepWalk
        rw [if_pos hprojection, hstep]
        rfl
    · cases mode with
      | asRun =>
        cases found with
        | none =>
          refine ⟨false, after, .one .nil, ?_, hwalking, hpart, hbounds⟩
          rintro v rfl at_
          rw [vmStepWalk, if_neg hprojection, hstep]
          rfl
        | some pair =>
          refine ⟨true, after, .run pair.1 pair.2, ?_, hwalking, hpart, hbounds⟩
          rintro v rfl at_
          rw [vmStepWalk, if_neg hprojection, hstep]
          rfl
      | asAnswer =>
        cases found with
        | none =>
          refine ⟨false, after, .one .nil, ?_, hwalking, hpart, hbounds⟩
          rintro v rfl at_
          rw [vmStepWalk, if_neg hprojection, hstep]
          rfl
        | some pair =>
          refine ⟨true, after, .answer pair.1 pair.2, ?_, hwalking, hpart, hbounds⟩
          rintro v rfl at_
          rw [vmStepWalk, if_neg hprojection, hstep]
          rfl
      | asValue =>
        by_cases hrange : cursor.part = .range ∨ cursor.part = .reverse
        · cases found with
          | none =>
            refine ⟨false, after, .one .nil, ?_, hwalking, hpart, hbounds⟩
            rintro v rfl at_
            rw [vmStepWalk, if_neg hprojection]
            rw [if_pos hrange, hstep]
            rfl
          | some pair =>
            refine ⟨true, after, .one pair.2, ?_, hwalking, hpart, hbounds⟩
            rintro v rfl at_
            rw [vmStepWalk, if_neg hprojection]
            rw [if_pos hrange, hstep]
            rfl
        · cases htable : tables.store.table cursor.walking with
          | none =>
            refine ⟨false, cursor, .one .nil, ?_, rfl, rfl, fun _ _ ha he => ⟨ha, he⟩⟩
            rintro v rfl at_
            rw [vmStepWalk, if_neg hprojection]
            rw [if_neg hrange, htable]
            rfl
          | some t =>
            have hsized := (tables.sized _ _ htable).1
            by_cases hend : t.array.length ≤ cursor.atArray
            · refine ⟨false, cursor, .one .nil, ?_, rfl, rfl, fun _ _ ha he => ⟨ha, he⟩⟩
              rintro v rfl at_
              rw [vmStepWalk, if_neg hprojection]
              rw [if_neg hrange, htable]
              dsimp only
              rw [if_pos hend]
              rfl
            · refine ⟨true, { cursor with atArray := cursor.atArray + 1 },
                .one (t.slot cursor.atArray), ?_, rfl, rfl,
                fun _ _ _ he => ⟨by dsimp only; omega, he⟩⟩
              rintro v rfl at_
              rw [vmStepWalk, if_neg hprojection]
              rw [if_neg hrange, htable]
              dsimp only
              rw [if_neg hend]
              rfl

theorem Laid.hide_lay (laid : Laid) (v : View World) :
    hide r co (Laid.lay r.taken v laid) = Laid.lay r.taken (hide r co v) laid := by
  have h₀ := r.taken_above
  cases laid with
  | one value => exact hide_set_outside h₀ value
  | run key value =>
    simp only [Laid.lay, hide_set_outside h₀,
      hide_set_outside (show r.walk + 4 ≤ r.taken + 1 by omega),
      hide_set_outside (show r.walk + 4 ≤ r.taken + 2 by omega)]
  | answer key value =>
    simp only [Laid.lay, hide_set_outside h₀]
    rfl

theorem Laid.lay_hidden (laid : Laid) (v : View World) :
    (Laid.lay r.taken v laid).walks = v.walks ∧
      ∀ i < r.walk + 4, (Laid.lay r.taken v laid).slots i = v.slots i := by
  have h₀ := r.taken_above
  have hset : ∀ {u : View World} {j : Nat} {value : LhatValue} {i : Nat}, r.taken ≤ j →
      i < r.walk + 4 → (u.set j value).slots i = u.slots i :=
    fun hj hi => Function.update_of_ne (by omega) _ _
  cases laid with
  | one value => exact ⟨rfl, fun i hi => hset (Nat.le_refl _) hi⟩
  | run key value =>
    refine ⟨rfl, fun i hi => ?_⟩
    rw [Laid.lay, hset (by omega) hi, hset (by omega) hi, hset (Nat.le_refl _) hi]
  | answer key value => exact ⟨rfl, fun i hi => hset (Nat.le_refl _) hi⟩

end Hidden

/-! ### The two loops side by side -/

section Agrees

variable {World : Type} {k : Kinds} {r : Registers} {co : Address} {v w : View World}
  {cursor : LhatWalkCursor}

theorem isKind_unique {value : LhatValue} {kind other : LhatObjectKind}
    (h : isKind k value kind = true) (hne : kind ≠ other) : isKind k value other = false := by
  unfold isKind at h ⊢
  split at h
  · split at h
    · simp only [decide_eq_true_eq] at h
      simp [← h, hne.symm]
    · simp only [decide_eq_true_eq] at h
      simp [← h, hne.symm]
    · cases h
  · cases h

/-- One loop has the cursor in its registers, and the other in a coroutine that may be resumed. -/
structure Agrees (k : Kinds) (r : Registers) (co : Address) (v w : View World)
    (cursor : LhatWalkCursor) : Prop where
  same : hide r co v = hide r co w
  walking : v.slots r.walk = .object cursor.walking
  part : v.slots (r.walk + 1) = .integer (partCode cursor.part)
  array : v.slots (r.walk + 2) = .integer (Int64.ofNat cursor.atArray)
  entry : v.slots (r.walk + 3) = .integer (Int64.ofNat cursor.atEntry)
  table : isKind k (.object cursor.walking) .table = true
  whole : cursor.part ≠ .range ∧ cursor.part ≠ .reverse
  small : cursor.atArray < 2 ^ 63 ∧ cursor.atEntry < 2 ^ 63
  made : w.slots r.walk = .object co
  coroutine : isKind k (.object co) .coroutine = true
  waits : ∃ state, w.walks co = some { state, cursor } ∧ (state = .fresh ∨ state = .suspended)

theorem Agrees.tables (h : Agrees k r co v w cursor) :
    v.tables = w.tables ∧ v.slotCapacity = w.slotCapacity := by
  have htables := congrArg View.tables h.same
  have hcapacity := congrArg View.slotCapacity h.same
  exact ⟨htables, hcapacity⟩

theorem Agrees.set (h : Agrees k r co v w cursor) {i : Nat} (hi : r.walk + 4 ≤ i)
    (value : LhatValue) : Agrees k r co (v.set i value) (w.set i value) cursor := by
  have hset : ∀ {u : View World} {j : Nat}, j < r.walk + 4 → (u.set i value).slots j = u.slots j :=
    fun hj => Function.update_of_ne (by omega) _ _
  refine ⟨?_, (hset (by omega)).trans h.walking, (hset (by omega)).trans h.part,
    (hset (by omega)).trans h.array, (hset (by omega)).trans h.entry, h.table, h.whole, h.small,
    (hset (by omega)).trans h.made, h.coroutine, h.waits⟩
  rw [hide_set_outside hi, hide_set_outside hi, h.same]

theorem Agrees.restore (h : Agrees k r co v w cursor) (u : View World) :
    Agrees k r co (restore r co v u) (restore r co w u) cursor := by
  have hin : ∀ {x : View World} {j : Nat}, r.walk ≤ j → j < r.walk + 4 →
      (InPlace.restore r co x u).slots j = x.slots j := fun hj hlt => if_pos ⟨hj, hlt⟩
  refine ⟨by rw [hide_restore, hide_restore], (hin (by omega) (by omega)).trans h.walking,
    (hin (by omega) (by omega)).trans h.part, (hin (by omega) (by omega)).trans h.array,
    (hin (by omega) (by omega)).trans h.entry, h.table, h.whole, h.small,
    (hin (by omega) (by omega)).trans h.made, h.coroutine, ?_⟩
  obtain ⟨state, hwalks, hstate⟩ := h.waits
  exact ⟨state, (Function.update_self ..).trans hwalks, hstate⟩

theorem not_neg_ofNat {n : Nat} (hn : n < 2 ^ 63) :
    ¬Int64.ofNat n < 0 ∧ (Int64.ofNat n).toInt.toNat = n := by
  have hint : (Int64.ofNat n).toInt = n := Int64.toInt_ofNat_of_lt hn
  refine ⟨?_, by rw [hint, Int.toNat_natCast]⟩
  rw [Int64.lt_iff_toInt_lt, hint]
  simp

theorem Agrees.read (h : Agrees k r co v w cursor) : readWalkInline v r.walk = some cursor := by
  obtain ⟨harray, hatArray⟩ := not_neg_ofNat h.small.1
  obtain ⟨hentry, hatEntry⟩ := not_neg_ofNat h.small.2
  unfold readWalkInline
  rw [h.walking, h.part, h.array, h.entry]
  simp only [harray, hentry, hatArray, hatEntry, or_false]
  obtain ⟨walking, atArray, atEntry, part⟩ := cursor
  cases part with
  | pair => rfl
  | keys => rfl
  | values => rfl
  | range => exact absurd rfl h.whole.1
  | reverse => exact absurd rfl h.whole.2

/-- The last step of both. -/
structure Ends (r : Registers) (co : Address) (v w : View World) : Prop where
  same : hide r co v = hide r co w
  cleared : v.slots r.walk = .nil
  made : w.slots r.walk = .object co
  done : ∃ cursor, w.walks co = some { state := .done, cursor }

theorem Agrees.resume (h : Agrees k r co v w cursor) (cc : UInt8) :
    (∃ status, resume k r.taken r.walk cc v = some (.inl status) ∧
      resume k r.taken r.walk cc w = some (.inl status)) ∨
    ∃ v' w', resume k r.taken r.walk cc v = some (.inr v') ∧
      resume k r.taken r.walk cc w = some (.inr w') ∧
      (Ends r co v' w' ∨ ∃ cursor', Agrees k r co v' w' cursor') := by
  obtain ⟨state, hwalks, hstate⟩ := h.waits
  have hnot : ¬(state = .done ∨ state = .running) := by
    rcases hstate with rfl | rfl <;> simp
  have hcoroutine : isKind k (.object co) .table = false := isKind_unique h.coroutine (by decide)
  obtain ⟨htables, hcapacity⟩ := h.tables
  have hpart : cursor.part ≠ .pair ↔ isProjection cursor.part = true := by
    obtain ⟨hrange, hreverse⟩ := h.whole
    cases hcursor : cursor.part <;> simp_all [isProjection]
  have hwalk := @vmStepWalk_eq World cursor (resumeMode cc) w.tables
  obtain ⟨took, after, laid, hstep, hwalking, hsame, hbounds⟩ := hwalk
  unfold InPlace.resume
  simp only [h.walking, h.table, if_true, h.read, h.made, hcoroutine, h.coroutine,
    Bool.false_eq_true, if_false, hwalks, hnot, hpart, hcapacity, hstep v htables,
    hstep w rfl]
  split
  · exact .inl ⟨_, rfl, rfl⟩
  · obtain ⟨hvwalks, hvslots⟩ := Laid.lay_hidden (r := r) laid v
    obtain ⟨hwwalks, hwslots⟩ := Laid.lay_hidden (r := r) laid w
    have hlaid : hide r co (Laid.lay r.taken v laid) = hide r co (Laid.lay r.taken w laid) := by
      rw [Laid.hide_lay, Laid.hide_lay, h.same]
    cases took with
    | false =>
      refine .inr ⟨_, _, rfl, rfl, .inl ⟨?_, Function.update_self .., ?_, after,
        Function.update_self ..⟩⟩
      · rw [hide_set_inside (by omega), hide_walks, hlaid]
      · exact (hwslots _ (by omega)).trans h.made
    | true =>
      refine .inr ⟨_, _, rfl, rfl, .inr ⟨after, ?_, ?_, ?_, Function.update_of_ne
        (by omega) _ _ |>.trans
        (Function.update_self ..), Function.update_self .., hwalking ▸ h.table, hsame ▸ h.whole,
        hbounds h.whole.1 h.whole.2 h.small.1 h.small.2, (hwslots _ (by omega)).trans h.made,
        h.coroutine, .suspended, Function.update_self .., .inr rfl⟩⟩
      · rw [hide_set_inside (by omega), hide_set_inside (by omega), hide_walks, hlaid]
      · rw [hwalking]
        exact (Function.update_of_ne (by omega) _ _).trans ((Function.update_of_ne
          (by omega) _ _).trans
          ((hvslots _ (by omega)).trans h.walking))
      · rw [hsame]
        exact (Function.update_of_ne (by omega) _ _).trans ((Function.update_of_ne
          (by omega) _ _).trans
          ((hvslots _ (by omega)).trans h.part))

theorem Agrees.isDone (h : Agrees k r co v w cursor) :
    isDone k r.test r.walk v = .inr (v.set r.test (.bool false)) ∧
      isDone k r.test r.walk w = .inr (w.set r.test (.bool false)) := by
  obtain ⟨state, hwalks, hstate⟩ := h.waits
  have hnot : state ≠ .done := by rcases hstate with rfl | rfl <;> simp
  have hcoroutine : isKind k (.object co) .table = false := isKind_unique h.coroutine (by decide)
  constructor
  · unfold InPlace.isDone
    rw [h.walking, if_pos (.inr h.table)]
    rfl
  · unfold InPlace.isDone
    rw [h.made, if_neg (by simp [hcoroutine]), if_pos h.coroutine]
    simp only [hwalks, hnot, decide_false]

theorem Ends.isDone (h : Ends r co v w) (hcoroutine : isKind k (.object co) .coroutine = true) :
    InPlace.isDone k r.test r.walk v = .inr (v.set r.test (.bool true)) ∧
      InPlace.isDone k r.test r.walk w = .inr (w.set r.test (.bool true)) := by
  obtain ⟨cursor, hwalks⟩ := h.done
  have htable : isKind k (.object co) .table = false := isKind_unique hcoroutine (by decide)
  constructor
  · unfold InPlace.isDone
    rw [h.cleared, if_pos (.inl rfl)]
    rfl
  · unfold InPlace.isDone
    rw [h.made, if_neg (by simp [htable]), if_pos hcoroutine]
    simp only [hwalks, decide_true]

theorem Agrees.loop (h : Agrees k r co v w cursor) (cc : UInt8)
    (resumer : View World → Option (View World)) (body : View World → Turn World) (turns : Nat) :
    loop k r co cc resumer body turns v = loop k r co cc resumer body turns w := by
  induction turns generalizing v w cursor with
  | zero =>
    rw [InPlace.loop, InPlace.loop, h.same]
  | succ turns ih =>
    have hcleared := h.set r.taken_above .nil
    have htest : ∀ (x : View World) (value : LhatValue),
      (x.set r.test value).slots r.test = value :=
      fun x value => Function.update_self ..
    rw [InPlace.loop, InPlace.loop]
    rcases hcleared.resume cc with ⟨status, hv, hw⟩ | ⟨v', w', hv, hw, hends | ⟨cursor', hnext⟩⟩
    · rw [hv, hw, h.same]
    · obtain ⟨hvdone, hwdone⟩ := hends.isDone h.coroutine
      rw [hv, hw]
      dsimp only
      rw [hvdone, hwdone]
      dsimp only
      rw [if_pos (htest _ _), if_pos (htest _ _), hide_set_outside r.test_above,
        hide_set_outside r.test_above, hends.same]
    · obtain ⟨hvdone, hwdone⟩ := hnext.isDone
      have hturn := (hnext.set r.test_above (.bool false)).set r.test_above (.bool true)
      rw [hv, hw]
      dsimp only
      rw [hvdone, hwdone]
      dsimp only
      rw [if_neg (by rw [htest]; simp), if_neg (by rw [htest]; simp), hturn.same]
      cases runTurn resumer (body (hide r co ((w'.set r.test (.bool false)).set r.test
        (.bool true)))) with
      | mk events left =>
        cases left with
        | none => rfl
        | some left =>
          obtain ⟨goesOn, u⟩ := left
          cases goesOn with
          | false => rfl
          | true =>
            dsimp only
            rw [ih (hturn.restore u)]

theorem isKind_tableOf {value : LhatValue} (h : vmTableOf k.heap value ≠ 0) :
    isKind k (.object (vmTableOf k.heap value)) .table = true := by
  have htable : k.heap.object (vmTableOf k.heap value) = some .table := by
    unfold vmTableOf at h ⊢
    split
    · split
      · next hobject => exact hobject
      · next hobject =>
          simp only [hobject] at h
          exact k.fields _ _ hobject h
      · next hobject =>
          simp only [hobject] at h
          exact k.members _ _ hobject h
      · next o _ hnone herror henum =>
          exfalso
          cases hobject : k.heap.object o with
          | none => simp [hobject] at h
          | some object => cases object <;> simp_all
    · next hno => cases value <;> simp_all
  simp [isKind, htable]

theorem not_coroutine_of_tableOf {value : LhatValue} (h : vmTableOf k.heap value ≠ 0) :
    isKind k value .coroutine = false := by
  cases value with
  | object o =>
    cases hobject : k.heap.object o with
    | none => simp [isKind, hobject]
    | some object =>
      cases object with
      | other kind => simp [vmTableOf, hobject] at h
      | _ => simp [isKind, hobject]
  | _ => rfl

theorem layWalkInline_some {at_ : Nat} (h : layWalkInline k v at_ = some w) :
    ∃ o, v.slots at_ = .object o ∧ isKind k (.object o) .native = true ∧ k.native o ≠ .other ∧
      vmTableOf k.heap (v.slots (at_ + 1)) ≠ 0 ∧
      w = (((v.set at_ (.object (vmTableOf k.heap (v.slots (at_ + 1))))).set (at_ + 1)
        (.integer (partCode (walkPart (k.native o))))).set (at_ + 2) (.integer 0)).set (at_ + 3)
          (.integer 0) := by
  unfold layWalkInline at h
  cases hslot : v.slots at_ with
  | object o =>
    rw [hslot] at h
    dsimp only at h
    split at h
    · next hkind =>
        split at h
        · cases h
        · next hno =>
            obtain ⟨hpart, hover⟩ := not_or.1 hno
            exact ⟨o, rfl, hkind, fun hother => hpart (by simp [hother, walkPart]), hover,
              (Option.some.inj h).symm⟩
    · cases h
  | _ =>
    rw [hslot] at h
    cases h

/-- A loop sees no difference between the walk laid in its registers and the coroutine that
`lhat_table_iterator` would make of it. -/
theorem for_in_place (hcoroutine : isKind k (.object co) .coroutine = true) (cc : UInt8)
    (resumer : View World → Option (View World)) (body : View World → Turn World) (turns : Nat)
    (v : View World) :
    forInPlace k r co cc resumer body turns v = forStepping k r co cc resumer body turns v := by
  unfold forInPlace
  cases hlaid : layWalkInline k v r.walk with
  | none => rfl
  | some w =>
    obtain ⟨o, hslot, hkind, hnative, hover, rfl⟩ := layWalkInline_some hlaid
    generalize hcursor : (LhatWalkCursor.mk (vmTableOf k.heap (v.slots (r.walk + 1))) 0 0
      (walkPart (k.native o))) = cursor
    have hcall : callWalk k (some co) v r.walk = some (.inr ({ v with
        walks := Function.update v.walks co (some { cursor }) }.set r.walk (.object co))) := by
      have hreceiver := not_coroutine_of_tableOf hover
      unfold callWalk
      rw [hslot, ← hcursor]
      dsimp only
      rw [if_pos ⟨hkind, hnative⟩, if_neg (by simp [hreceiver]), if_neg hover]
    have hset : ∀ {u : View World} {i j : Nat} {value : LhatValue}, j ≠ i →
        (u.set i value).slots j = u.slots j := fun hne => Function.update_of_ne hne _ _
    have hset_self : ∀ {u : View World} {i : Nat} {value : LhatValue},
        (u.set i value).slots i = value := Function.update_self ..
    unfold forStepping
    rw [hcall]
    dsimp only
    refine @Agrees.loop _ _ _ _ _ _ cursor ⟨?_, ?_, ?_, ?_, hset_self.trans ?_, ?_, ?_, ?_,
      hset_self,
      hcoroutine, .fresh, ?_, .inl rfl⟩ cc resumer body turns
    · rw [hide_set_inside (by omega), hide_set_inside (by omega), hide_set_inside (by omega),
        hide_set_inside (by omega), hide_set_inside (by omega), hide_walks]
    · rw [hset (by omega), hset (by omega), hset (by omega), hset_self, ← hcursor]
    · rw [hset (by omega), hset (by omega), hset_self, ← hcursor]
    · rw [hset (by omega), hset_self, ← hcursor]
      rfl
    · rw [← hcursor]
      rfl
    · rw [← hcursor]
      exact isKind_tableOf hover
    · rw [← hcursor]
      cases hfound : k.native o <;> simp [walkPart]
    · rw [← hcursor]
      exact ⟨Nat.two_pow_pos 63, Nat.two_pow_pos 63⟩
    · exact Function.update_self co (some { cursor := cursor }) v.walks

end Agrees

/-- A table, the native that walks it, and room for a coroutine. -/
def loopKinds : Kinds where
  heap :=
    { object := fun a => if a = 16 then some .table else if a = 32 then some (.other .native)
        else if a = 48 then some (.other .coroutine) else none
      depth := 0
      scratch := fun _ => true
      object_null := rfl }
  native _ := .iterate
  fields := by
    intro o f hobject
    dsimp only at hobject
    split at hobject
    · cases hobject
    · split at hobject
      · cases hobject
      · split at hobject <;> cases hobject
  members := by
    intro o m hobject
    dsimp only at hobject
    split at hobject
    · cases hobject
    · split at hobject
      · cases hobject
      · split at hobject <;> cases hobject

/-- The table at `16`, with that sequence. -/
def tablesOf (array : List LhatValue) (hlen : array.length < 2 ^ 63) : SizedStore where
  store := [(16, { array })]
  sized := by
    intro a t htable
    unfold Store.table at htable
    rw [List.lookup_cons] at htable
    split at htable
    · cases htable
      exact ⟨hlen, Nat.two_pow_pos 63⟩
    · cases htable

/-- The body cuts the sequence short on its first turn. -/
theorem for_in_place_cut : ∃ events v,
    forInPlace loopKinds ⟨0, 4, 5, by decide, by decide⟩ 48 2 some
      (fun v => .done true { v with tables := tablesOf [.bool true] (by decide) }) 5
      { slots := fun i => if i = 0 then .object 32 else if i = 1 then .object 16 else .nil
        slotCapacity := 8
        tables := tablesOf [.bool true, .bool true, .bool false] (by decide)
        walks := fun _ => none
        answerRun := fun _ => .nil
        world := () } = (events, .ended, v) ∧ events.length = 1 := by
  have heq := @for_in_place Unit loopKinds ⟨0, 4, 5, by decide, by decide⟩ 48 rfl 2 some
    (fun v => .done true { v with tables := tablesOf [.bool true] (by decide) }) 5
    { slots := fun i => if i = 0 then .object 32 else if i = 1 then .object 16 else .nil
      slotCapacity := 8
      tables := tablesOf [.bool true, .bool true, .bool false] (by decide)
      walks := fun _ => none
      answerRun := fun _ => .nil
      world := () }
  rw [heq]
  exact ⟨_, _, rfl, rfl⟩

end Lhat.InPlace
