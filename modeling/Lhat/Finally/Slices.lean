import Lhat.Finally.Steps

/-!
# Slices

A run with a budget stops where it turns back on itself or has entered a body once too
often, and the host goes on with it later. What the frames hold stands until then; what
`run_frames_loop` keeps for itself is begun anew.
-/

namespace Lhat.Finally

namespace Machine

/-- What stands of a machine while nothing runs it. -/
def standing (m : Machine) : Machine :=
  { m with loops := m.loops.map fun loop => { baseDepth := loop.baseDepth } }

/-- `lhat_machine_continue`, after the loop was left at the end of a slice. -/
def lhatMachineContinue (m : Machine) : Machine :=
  match m.loops with
  | loop :: _ => m.vmFinish.vmRunFrames loop.baseDepth
  | [] => m

end Machine

/-- A program, with what the machine holds beside its cleanups: what comes next, what it
makes of the rest, and whether it is a turn that polls the budget. -/
structure Program (σ : Type*) where
  fetch : σ → Machine → Move
  effect : σ → Machine → Machine → σ
  polls : σ → Machine → Bool

/-- A run in slices: `stepsLeft` of the slice under way and how many were over before. -/
structure Sliced (σ : Type*) where
  rest : σ
  machine : Machine
  stepsLeft : Nat
  slice : Nat := 0

namespace Program

variable {σ : Type*} (p : Program σ) (budgets : Nat → Nat)

/-- What comes next. -/
def next (s : σ × Machine) : σ × Machine :=
  let machine := s.2.act (p.fetch s.1 s.2.standing)
  (p.effect s.1 s.2.standing machine.standing, machine)

/-- One turn of a run without a budget. -/
def turn (s : σ × Machine) : σ × Machine := if s.2.loops = [] then s else p.next s

/-- A run without a budget. -/
def whole (s : σ × Machine) : Nat → σ × Machine
  | 0 => s
  | n + 1 => p.turn (whole s n)

/-- `LHAT_SLICE_POLL` stands in the turn. A run inside another has no budget. -/
def polled (r : Sliced σ) : Bool :=
  decide (r.machine.loops.length = 1) &&
    (decide ((p.next (r.rest, r.machine)).2.loops.length = 1) &&
      (p.polls r.rest r.machine.standing && decide (r.stepsLeft ≠ 0)))

/-- The slice ends with the turn. -/
def runsOut (r : Sliced σ) : Bool := p.polled r && decide (r.stepsLeft = 1)

/-- One turn of a run in slices, and the host goes on where a slice ends. A budget of zero
is none. -/
def slicedTurn (r : Sliced σ) : Sliced σ :=
  if r.machine.loops = [] then r
  else
    let next := p.next (r.rest, r.machine)
    if p.runsOut r then
      { rest := next.1
        machine := next.2.lhatMachineContinue
        stepsLeft := budgets (r.slice + 1)
        slice := r.slice + 1 }
    else
      { r with
        rest := next.1
        machine := next.2
        stepsLeft := if p.polled r then r.stepsLeft - 1 else r.stepsLeft }

/-- A run in slices, the first of them begun with the first budget. -/
def sliced (s : σ × Machine) : Nat → Sliced σ
  | 0 => { rest := s.1, machine := s.2, stepsLeft := budgets 0 }
  | n + 1 => p.slicedTurn budgets (sliced s n)

/-- The run in slices goes through what the other goes through. -/
def SameRun (s : σ × Machine) : Prop :=
  ∀ n, (p.sliced budgets s n).rest = (p.whole s n).1 ∧
    (p.sliced budgets s n).machine.standing = (p.whole s n).2.standing

end Program

namespace Machine

/-- A loop that is ending has swept. -/
def Swept (m : Machine) : Prop := ∀ loop ∈ m.loops, loop.ending = true → loop.endSwept = true

variable {m m' : Machine}

section

variable (h : m.Swept)
include h

theorem Swept.subset (hloops : m'.loops ⊆ m.loops) : m'.Swept :=
  fun loop hmem => h loop (hloops hmem)

theorem Swept.vmFinish : m.vmFinish.Swept :=
  h.subset fun _ => List.mem_of_mem_tail

theorem Swept.vmRunFrames (baseDepth : Nat) : (m.vmRunFrames baseDepth).Swept := by
  intro loop hmem hending
  rcases List.mem_cons.mp hmem with rfl | hmem
  · cases hending
  · exact h loop hmem hending

theorem Swept.note (frame : Frame) (event : Nat → Event) :
    (m.note frame event).Swept := by
  unfold Machine.note
  split
  · exact h
  · exact h

theorem Swept.holdPendingDisposals (white : List Nat) :
    (m.holdPendingDisposals white).Swept := by
  unfold Machine.holdPendingDisposals
  induction white generalizing m with
  | nil => exact h
  | cons co white ih =>
    refine ih ?_
    unfold Machine.hold
    split
    · split
      · exact h
      · exact h
    · exact h

theorem Swept.finishCoroutine (frame : Frame) : (m.finishCoroutine frame).Swept := by
  unfold Machine.finishCoroutine
  split
  · exact h
  · exact h

theorem Swept.popFrame (loop : Loop) : (m.popFrame loop).Swept := by
  unfold Machine.popFrame
  split
  · exact h.vmFinish
  · exact h

theorem Swept.leaveFrame (frame : Frame) (loop : Loop) (white : List Nat) :
    (m.leaveFrame frame loop white).Swept := by
  unfold Machine.leaveFrame
  split
  case isFalse => exact (h.finishCoroutine frame).popFrame loop
  dsimp only
  have hends : ∀ (m' : Machine) (swept : Loop), swept.endSwept = true →
      m'.loops = swept :: m.loops.tail → m'.Swept := by
    intro m' swept hswept hloops l hmem hending
    rw [hloops] at hmem
    rcases List.mem_cons.mp hmem with rfl | hmem
    · exact hswept
    · exact h l (List.mem_of_mem_tail hmem) hending
  split
  · exact Swept.popFrame (hends _ _ rfl rfl) loop
  · exact hends _ _ rfl rfl

theorem Swept.drain (white : List Nat) : (m.drain white).Swept := by
  unfold Machine.drain
  split
  case h_2 => exact h
  split
  · refine Swept.note ?_ _ _
    exact h
  split
  · exact h.leaveFrame _ _ white
  · exact h

theorem Swept.yield (frame : Frame) (loop : Loop) : (m.yield frame loop).Swept := by
  unfold Machine.yield
  split
  · exact h.vmFinish
  split
  · exact h.vmFinish
  split
  · refine Swept.vmFinish ?_
    exact h
  · refine Swept.popFrame ?_ loop
    exact h

theorem Swept.resume (co : Nat) (slot : Frame) : (m.resume co slot).Swept := by
  unfold Machine.resume
  split
  · exact h.vmFinish
  split
  · exact h.vmFinish
  · exact h

theorem Swept.native (kind : Native) (co : Nat) (slot : Frame) (white : List Nat) :
    (m.native kind co slot white).Swept := by
  unfold Machine.native
  split
  · exact h.vmFinish
  split
  · exact h.vmFinish
  split
  · exact h.vmFinish
  split
  · split
    · exact h
    · exact h.vmFinish
  split
  · exact h.vmFinish
  split
  · refine Swept.drain ?_ white
    exact h
  · exact h

theorem Swept.execute (frame : Frame) (loop : Loop) (slot : Frame) (white : List Nat)
    (instruction : Instruction) : (m.execute frame loop slot white instruction).Swept := by
  cases instruction with
  | pushCleanup bx =>
    unfold Machine.execute
    dsimp only
    split
    · exact h.vmFinish
    · refine Swept.note ?_ _ _
      exact h
  | popCleanup a =>
    refine Swept.drain ?_ white
    exact h
  | endCleanup => exact h.drain white
  | ret =>
    refine Swept.drain ?_ white
    exact h
  | yield => exact h.yield frame loop
  | resume co => exact h.resume co slot
  | native kind co => exact h.native kind co slot white
  | call => exact h
  | coroutine => exact h
  | other pc => exact h

theorem Swept.disposePending (slot : Frame) (white : List Nat) :
    (m.disposePending slot white).Swept := by
  unfold Machine.disposePending
  split
  · exact h
  split
  · exact h
  · refine Swept.drain ?_ white
    exact h

theorem Swept.turn (instruction : Instruction) (slot : Frame) (white : List Nat) :
    (m.turn instruction slot white).Swept := by
  unfold Machine.turn
  split
  case h_2 => exact h
  split
  · exact h.disposePending slot white
  split
  · exact h.drain white
  · refine Swept.execute ?_ _ _ slot white instruction
    exact h

theorem Swept.act (move : Move) : (m.act move).Swept := by
  cases move with
  | turn instruction slot white => exact h.turn instruction slot white
  | leave => exact h.vmFinish
  | collect white => exact h.holdPendingDisposals white
  | run slot => exact h.vmRunFrames _
  | coroutine => exact h
  | carryOn baseDepth => exact h.vmRunFrames baseDepth
  | resume co slot => exact (h.vmRunFrames _).resume co slot
  | runOneDisposal slot white =>
    unfold Machine.act
    dsimp only
    split
    · exact h
    · exact (h.vmRunFrames _).disposePending slot white
  | abandon depth => exact h

theorem lhatMachineContinue_eq (hone : m.loops.length = 1)
    (hunswept : ∀ loop ∈ m.loops, loop.endSwept = false) : m.lhatMachineContinue = m := by
  obtain ⟨loop, hloops⟩ := List.length_eq_one_iff.mp hone
  have hmem : loop ∈ m.loops := hloops ▸ List.mem_cons_self
  have hswept := hunswept loop hmem
  have hending : loop.ending = false := by
    cases hend : loop.ending with
    | false => rfl
    | true => rw [h loop hmem hend] at hswept; cases hswept
  have hfresh : loop = { baseDepth := loop.baseDepth } := by
    cases loop
    cases hswept
    cases hending
    rfl
  unfold lhatMachineContinue vmFinish vmRunFrames
  rw [hloops]
  show { m with loops := [{ baseDepth := loop.baseDepth }] } = m
  rw [← hfresh, ← hloops]

end

end Machine

namespace Program

variable {σ : Type*} (p : Program σ) (budgets : Nat → Nat)

/-- No slice ends once the run has swept. -/
def EndsUnswept (s : σ × Machine) : Prop :=
  ∀ n, p.runsOut (p.sliced budgets s n) = true →
    ∀ loop ∈ (p.next ((p.sliced budgets s n).rest, (p.sliced budgets s n).machine)).2.loops,
      loop.endSwept = false

variable {p budgets}

theorem slicedTurn_eq (budgets : Nat → Nat) {r : Sliced σ} (hswept : r.machine.Swept)
    (hunswept : p.runsOut r = true →
      ∀ loop ∈ (p.next (r.rest, r.machine)).2.loops, loop.endSwept = false) :
    (p.slicedTurn budgets r).machine.Swept ∧
      ((p.slicedTurn budgets r).rest, (p.slicedTurn budgets r).machine) =
        p.turn (r.rest, r.machine) := by
  have hnext : (p.next (r.rest, r.machine)).2.Swept := hswept.act _
  unfold slicedTurn turn
  split
  · exact ⟨hswept, rfl⟩
  dsimp only
  split
  · rename_i hout
    have hpolled := Bool.and_elim_left hout
    have hone : (p.next (r.rest, r.machine)).2.loops.length = 1 :=
      of_decide_eq_true (Bool.and_elim_left (Bool.and_elim_right hpolled))
    rw [Machine.lhatMachineContinue_eq hnext hone (hunswept hout)]
    exact ⟨hnext, rfl⟩
  · exact ⟨hnext, rfl⟩

/-- A run of which no slice ends after the sweep goes through what the run without a budget
goes through. -/
theorem sameRun_of_endsUnswept {rest : σ} {m : Machine} (hidle : m.loops = []) (baseDepth : Nat)
    (hunswept : p.EndsUnswept budgets (rest, m.vmRunFrames baseDepth)) :
    p.SameRun budgets (rest, m.vmRunFrames baseDepth) := by
  have hbegun : (m.vmRunFrames baseDepth).Swept :=
    Machine.Swept.vmRunFrames (fun loop hmem => by rw [hidle] at hmem; cases hmem) baseDepth
  have hsame : ∀ n, (p.sliced budgets (rest, m.vmRunFrames baseDepth) n).machine.Swept ∧
      ((p.sliced budgets (rest, m.vmRunFrames baseDepth) n).rest,
        (p.sliced budgets (rest, m.vmRunFrames baseDepth) n).machine) =
          p.whole (rest, m.vmRunFrames baseDepth) n := by
    intro n
    induction n with
    | zero => exact ⟨hbegun, rfl⟩
    | succ n ih =>
      obtain ⟨hswept, heq⟩ := ih
      obtain ⟨hswept', hturn⟩ := slicedTurn_eq budgets hswept (hunswept n)
      exact ⟨hswept', hturn.trans (congrArg p.turn heq)⟩
  intro n
  have heq := (hsame n).2
  exact ⟨congrArg Prod.fst heq, congrArg (fun s => s.2.standing) heq⟩

/-! ### A run that drops a coroutine in a cleanup -/

theorem sliced_over {s : σ × Machine} {n : Nat} (hover : (p.sliced budgets s n).machine.loops = [])
    (k : Nat) : (p.sliced budgets s (n + k)).machine.loops = [] := by
  induction k with
  | zero => exact hover
  | succ k ih =>
    show (p.slicedTurn budgets (p.sliced budgets s (n + k))).machine.loops = []
    unfold slicedTurn
    rw [if_pos ih]
    exact ih

theorem endsUnswept_of_over {s : σ × Machine} {n : Nat}
    (hover : (p.sliced budgets s n).machine.loops = [])
    (hbefore : ∀ k < n, p.runsOut (p.sliced budgets s k) = true →
      ∀ loop ∈ (p.next ((p.sliced budgets s k).rest, (p.sliced budgets s k).machine)).2.loops,
        loop.endSwept = false) : p.EndsUnswept budgets s := by
  intro k hout
  by_cases hk : k < n
  · exact hbefore k hk hout
  · have hidle := sliced_over hover (k - n)
    rw [Nat.add_sub_cancel' (Nat.not_lt.mp hk)] at hidle
    have hone := of_decide_eq_true (Bool.and_elim_left (Bool.and_elim_left hout))
    rw [hidle] at hone
    cases hone

/-- The main body turns back once, starts a coroutine and drops it. That one starts another
in its `finally^`, drops it too, and turns back once. -/
def droppingCode : Option Nat → Nat → Instruction
  | none, 0 => .other 2
  | none, 1 => .other 3
  | none, 2 => .other 1
  | none, 3 => .coroutine
  | none, 4 => .native .start 0
  | none, _ => .ret
  | some _, 0 => .pushCleanup 10
  | some _, 1 => .yield
  | some 0, 10 => .coroutine
  | some 0, 11 => .native .start 1
  | some 0, 12 => .other 14
  | some 0, 14 => .other 13
  | some _, _ => .endCleanup

/-- What a collection finds white, where nobody holds a coroutine. -/
def dropped (m : Machine) : List Nat :=
  (List.range m.coroutines.length).filter fun co =>
    (m.coroutines[co]?.any fun c => c.state == .suspended) && !m.pendingDispose.contains co

/-- The jumps that lead back are polled. -/
def dropping : Program Unit where
  fetch _ m :=
    match m.frames with
    | frame :: _ => .turn (droppingCode frame.coroutine frame.pc) {} (dropped m)
    | [] => .leave
  effect _ _ _ := ()
  polls _ m :=
    m.frames.head?.any fun frame =>
      (frame.coroutine, frame.pc) == (none, 2) || (frame.coroutine, frame.pc) == (some 0, 14)

/-- A slice of one poll first, and no budget for what is left. -/
theorem sameRun_dropping :
    dropping.SameRun (fun slice => if slice = 0 then 1 else 0)
      ((), ({ frames := [{}] } : Machine).vmRunFrames 0) :=
  sameRun_of_endsUnswept rfl 0 (endsUnswept_of_over (n := 17) (by decide) (by decide))

/-- A second slice ends in the cleanup that the sweep led to. The run sweeps again, and has
the other coroutine disposed of as well. -/
theorem not_sameRun :
    ¬ ∀ (p : Program Unit) (budgets : Nat → Nat) (m : Machine), m.loops = [] →
      ∀ baseDepth, p.SameRun budgets ((), m.vmRunFrames baseDepth) := by
  intro hsame
  have hframes := congrArg Machine.frames
    (hsame dropping (fun _ => 1) { frames := [{}] } rfl 0 17).2
  exact absurd hframes (by decide)

end Program

end Lhat.Finally
