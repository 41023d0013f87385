import Lhat.Collector.Basic
import Lhat.Foundation.StackReplay

/-!
# Frames, coroutines and their cleanups

A frame remembers where the `finally^` bodies it has entered stand, and runs them on
its way out. A coroutine that yields takes them along. There are three ways back into
it: a resume, a dispose, and the list of those that the collector held back.

An instruction is known here by what it does to the cleanups. What the registers hold
is not followed, so the coroutine that an instruction names comes with it, and so does
what a collection finds white.
-/

namespace Lhat.Finally

open Gc (CoroutineState)

/-- `LHAT_MAX_CLEANUPS`. -/
def maxCleanups : Nat := 32

/-- `LHAT_COROUTINE_CLEANUPS`. -/
def coroutineCleanups : Nat := maxCleanups

/-- A body that a frame remembers, by the instruction it starts at. The machine keeps
no more than that; `push` tells the pushes of one body apart. -/
structure Cleanup where
  start : Nat
  push : Nat
deriving DecidableEq

/-- `LhatCoroutine` with the frame it keeps. The first of `cleanups` is the
innermost. -/
structure LhatCoroutine where
  state : CoroutineState := .fresh
  pc : Nat := 0
  cleanups : List Cleanup := []
deriving DecidableEq

/-- `Frame`. The first of `cleanups` is the innermost. -/
structure Frame where
  coroutine : Option Nat := none
  pc : Nat := 0
  cleanups : List Cleanup := []
  drainTarget : Nat := 0
  resume : Nat := 0
  returning : Bool := false
  disposing : Bool := false
deriving DecidableEq

/-- What `run_frames_loop` keeps for itself. -/
structure Loop where
  baseDepth : Nat
  ending : Bool := false
  endSwept : Bool := false
deriving DecidableEq

/-- What happened to the cleanups of a coroutine, and in which state it was entered to
have them run. -/
inductive Event where
  | pushed (co : Nat) (cleanup : Cleanup)
  | ran (co : Nat) (cleanup : Cleanup)
  | disposing (co : Nat) (state : CoroutineState)
deriving DecidableEq

/-- The part of `LhatMachine` that has to do with cleanups: `frames` starts at the top,
`loops` at the run under way, and a coroutine is known by the order it was made in.
`log`, the newest first, is for the statements alone. -/
structure Machine where
  frames : List Frame := []
  coroutines : List LhatCoroutine := []
  pendingDispose : List Nat := []
  cleanupCarriers : Nat := 0
  loops : List Loop := []
  log : List Event := []
deriving DecidableEq

/-- What a coroutine answers to. -/
inductive Native where
  | start | resume | dispose
deriving DecidableEq

/-- The instructions that have to do with cleanups, and what the others do: a native of a
coroutine is called, a body is, a coroutine is made, or the frame goes on elsewhere.
`resume` is `LHAT_BC_RESUME`. -/
inductive Instruction where
  | pushCleanup (bx : Nat)
  | popCleanup (a : Nat)
  | endCleanup
  | ret
  | yield
  | resume (co : Nat)
  | native (kind : Native) (co : Nat)
  | call
  | coroutine
  | other (pc : Nat)
deriving DecidableEq

/-- The cleanup that the drain runs next, and those it leaves. -/
def Frame.next (frame : Frame) : Option (Cleanup × List Cleanup) :=
  match frame.cleanups with
  | cleanup :: rest =>
    if frame.drainTarget < rest.length + 1 then some (cleanup, rest) else none
  | [] => none

namespace Machine

variable (m : Machine)

/-- The loop is left, with an answer or with a fault. The frames stand as they are. -/
def vmFinish : Machine := { m with loops := m.loops.tail }

/-- The top frame is written. -/
def setFrame (frame : Frame) : Machine := { m with frames := frame :: m.frames.tail }

/-- What happened to a cleanup of a frame, where the frame is a coroutine's. -/
def note (frame : Frame) (event : Nat → Event) : Machine :=
  match frame.coroutine with
  | some co => { m with log := event co :: m.log }
  | none => m

/-- `vm_push_frame`. What `slot` held stays where it is not written. -/
def vmPushFrame (slot : Frame) : Machine :=
  { m with
    frames :=
      { slot with
        coroutine := none
        pc := 0
        cleanups := []
        returning := false
        disposing := false } :: m.frames }

/-- A suspended coroutine with cleanups left. -/
def carries (c : LhatCoroutine) : Bool := decide (c.state = .suspended) && !c.cleanups.isEmpty

/-- The cleanups of a coroutine are a frame's now. -/
def takeUp (co : Nat) (c : LhatCoroutine) : Machine :=
  { m with
    coroutines := m.coroutines.set co { c with state := .running }
    cleanupCarriers := if carries c then m.cleanupCarriers - 1 else m.cleanupCarriers }

/-- `vm_enter_resume_frame`. -/
def vmEnterResumeFrame (co : Nat) (c : LhatCoroutine) (slot : Frame) : Machine :=
  { m.takeUp co c with
    frames :=
      { slot with
        coroutine := some co
        pc := c.pc
        cleanups := c.cleanups
        returning := false
        disposing := false } :: m.frames }

/-- `vm_enter_disposal_frame`. -/
def vmEnterDisposalFrame (co : Nat) (c : LhatCoroutine) (slot : Frame) : Machine :=
  { m.takeUp co c with
    frames :=
      { slot with
        coroutine := some co
        pc := c.pc
        cleanups := c.cleanups
        drainTarget := 0
        returning := true
        disposing := true } :: m.frames
    log := .disposing co c.state :: m.log }

/-- One coroutine that the collector found white, in `hold_pending_disposals`. -/
def hold (co : Nat) : Machine :=
  match m.coroutines[co]? with
  | some c => if carries c then { m with pendingDispose := co :: m.pendingDispose } else m
  | none => m

/-- `hold_pending_disposals`, over what is white in the order of the heap. -/
def holdPendingDisposals (white : List Nat) : Machine := white.foldl hold m

/-- `lhat_gc_take_pending`. -/
def lhatGcTakePending : Machine := { m with pendingDispose := m.pendingDispose.tail }

/-- The body of a coroutine is over. -/
def finishCoroutine (frame : Frame) : Machine :=
  match frame.coroutine with
  | some co =>
    { m with
      coroutines := m.coroutines.modify co fun c => { c with state := .done, cleanups := [] } }
  | none => m

/-- The top frame goes, and the loop with it where the frame was its first. -/
def popFrame (loop : Loop) : Machine :=
  if m.frames.tail.length = loop.baseDepth then
    { m with frames := m.frames.tail }.vmFinish
  else { m with frames := m.frames.tail }

/-- The end of a frame that has nothing more to run. The last frame of a run asks the
collector once more what the program dropped, and stands at the instruction that ended it
until that has been seen to. -/
def leaveFrame (frame : Frame) (loop : Loop) (white : List Nat) : Machine :=
  if m.frames.length = loop.baseDepth + 1 ∧ loop.endSwept = false ∧ m.cleanupCarriers ≠ 0 then
    let swept := (m.finishCoroutine frame).holdPendingDisposals white
    if swept.pendingDispose = [] then
      { swept with loops := { loop with endSwept := true } :: m.loops.tail }.popFrame loop
    else
      { swept with loops := { loop with endSwept := true, ending := true } :: m.loops.tail }.setFrame
        { frame with pc := frame.pc - 1 }
  else (m.finishCoroutine frame).popFrame loop

/-- `drain`: the innermost cleanup that is left, or where the frame goes from there. -/
def drain (white : List Nat) : Machine :=
  match m.frames, m.loops with
  | frame :: _, loop :: _ =>
    match frame.next with
    | some (cleanup, rest) =>
      (m.setFrame { frame with pc := cleanup.start, cleanups := rest }).note frame
        (.ran · cleanup)
    | none =>
      if frame.returning then m.leaveFrame frame loop white
      else m.setFrame { frame with pc := frame.resume }
  | _, _ => m

/-- `LHAT_BC_YIELD`. -/
def yield (frame : Frame) (loop : Loop) : Machine :=
  match frame.coroutine with
  | none => m.vmFinish
  | some co =>
    if frame.disposing then m.vmFinish
    else if coroutineCleanups < frame.cleanups.length then
      { m with
        coroutines :=
          m.coroutines.modify co fun c =>
            { c with pc := frame.pc, state := .suspended } }.vmFinish
    else
      { m with
        coroutines :=
          m.coroutines.set co
            { state := .suspended, pc := frame.pc, cleanups := frame.cleanups }
        cleanupCarriers :=
          if frame.cleanups = [] then m.cleanupCarriers else m.cleanupCarriers + 1 }.popFrame
        loop

/-- `LHAT_BC_RESUME`, and what `lhat_machine_resume` does. -/
def resume (co : Nat) (slot : Frame) : Machine :=
  match m.coroutines[co]? with
  | none => m.vmFinish
  | some c =>
    if c.state = .done ∨ c.state = .running then m.vmFinish
    else m.vmEnterResumeFrame co c slot

/-- A native of a coroutine, its questions in the order they are asked in. -/
def native (kind : Native) (co : Nat) (slot : Frame) (white : List Nat) : Machine :=
  match m.coroutines[co]? with
  | none => m.vmFinish
  | some c =>
    if kind = .start ∧ c.state ≠ .fresh then m.vmFinish
    else if kind = .resume ∧ c.state = .fresh then m.vmFinish
    else if c.state = .done ∨ (kind = .dispose ∧ c.state = .fresh) then
      if kind = .dispose then
        { m with coroutines := m.coroutines.set co { c with state := .done } }
      else m.vmFinish
    else if c.state = .running then m.vmFinish
    else if kind = .dispose then (m.vmEnterDisposalFrame co c slot).drain white
    else m.vmEnterResumeFrame co c slot

/-- `vm_coroutine_new`. -/
def vmCoroutineNew : Machine := { m with coroutines := m.coroutines ++ [{ state := .fresh }] }

/-- One instruction, in a frame that is past it already. -/
def execute (frame : Frame) (loop : Loop) (slot : Frame) (white : List Nat) :
    Instruction → Machine
  | .pushCleanup bx =>
    if maxCleanups ≤ frame.cleanups.length then m.vmFinish
    else
      let cleanup : Cleanup := ⟨bx, m.log.length⟩
      (m.setFrame { frame with cleanups := cleanup :: frame.cleanups }).note frame
        (.pushed · cleanup)
  | .popCleanup a =>
    (m.setFrame { frame with drainTarget := a, resume := frame.pc, returning := false }).drain
      white
  | .endCleanup => m.drain white
  | .ret => (m.setFrame { frame with drainTarget := 0, returning := true }).drain white
  | .yield => m.yield frame loop
  | .resume co => m.resume co slot
  | .native kind co => m.native kind co slot white
  | .call => m.vmPushFrame slot
  | .coroutine => m.vmCoroutineNew
  | .other pc => m.setFrame { frame with pc := pc }

/-- The first coroutine held back is taken, to have its cleanups run. -/
def disposePending (slot : Frame) (white : List Nat) : Machine :=
  match m.pendingDispose with
  | [] => m
  | co :: _ =>
    match m.coroutines[co]? with
    | none => m
    | some c => (m.lhatGcTakePending.vmEnterDisposalFrame co c slot).drain white

/-- Whether a turn of the loop begins with a coroutine held back. A frame that is disposing
is not cut into. -/
def takesPending (frame : Frame) : Bool := !m.pendingDispose.isEmpty && !frame.disposing

/-- Whether the frame on top waits for nothing but to go. -/
def waits (loop : Loop) : Bool :=
  loop.ending && decide (m.frames.length = loop.baseDepth + 1)

/-- One turn of `run_frames_loop`, from an instruction boundary to the next. -/
def turn (instruction : Instruction) (slot : Frame) (white : List Nat) : Machine :=
  match m.frames, m.loops with
  | frame :: _, loop :: _ =>
    if m.takesPending frame then m.disposePending slot white
    else if m.waits loop then m.drain white
    else
      (m.setFrame { frame with pc := frame.pc + 1 }).execute { frame with pc := frame.pc + 1 }
        loop slot white instruction
  | _, _ => m

/-- `vm_run_frames`, over the frames above `baseDepth`. -/
def vmRunFrames (baseDepth : Nat) : Machine :=
  { m with loops := { baseDepth := baseDepth } :: m.loops }

/-- Whether the frame on top is disposing. -/
def disposes : Bool :=
  match m.frames with
  | frame :: _ => frame.disposing
  | [] => false

end Machine

/-- What the loop, the collector or the host does next. `slot` is what the frame array held
where a frame is put, and `white` what a collection finds white. -/
inductive Move where
  /-- One turn of the loop. -/
  | turn (instruction : Instruction) (slot : Frame) (white : List Nat)
  /-- The loop ends with a fault, or at the end of a slice. -/
  | leave
  /-- A cycle of the collector comes to its end. -/
  | collect (white : List Nat)
  /-- The host runs a body. -/
  | run (slot : Frame)
  /-- The host makes a coroutine. -/
  | coroutine
  /-- The host goes on with what was left standing. -/
  | carryOn (baseDepth : Nat)
  /-- `lhat_machine_resume`. -/
  | resume (co : Nat) (slot : Frame)
  /-- `run_one_disposal`. -/
  | runOneDisposal (slot : Frame) (white : List Nat)
  /-- The frames above a depth are given up. -/
  | abandon (depth : Nat)

namespace Machine

/-- What a move makes of the machine. -/
def act (m : Machine) : Move → Machine
  | .turn instruction slot white => m.turn instruction slot white
  | .leave => m.vmFinish
  | .collect white => m.holdPendingDisposals white
  | .run slot => (m.vmRunFrames m.frames.length).vmPushFrame slot
  | .coroutine => m.vmCoroutineNew
  | .carryOn baseDepth => m.vmRunFrames baseDepth
  | .resume co slot => (m.vmRunFrames m.frames.length).resume co slot
  | .runOneDisposal slot white =>
    if m.disposes || m.pendingDispose.isEmpty then m
    else (m.vmRunFrames m.frames.length).disposePending slot white
  | .abandon depth => { m with frames := m.frames.drop (m.frames.length - depth) }

/-- What a collection may find white: each coroutine once, and none of those held back
already, which are roots. -/
def White (m : Machine) (white : List Nat) : Prop :=
  white.Nodup ∧ ∀ co ∈ white, co ∉ m.pendingDispose

/-- What the collector itself sees to. -/
def Allowed (m : Machine) : Move → Prop
  | .turn _ _ white | .collect white | .runOneDisposal _ white => m.White white
  | _ => True

end Machine

end Lhat.Finally

/-!
# What holds of the cleanups

A coroutine's cleanups are in one place: with the coroutine as long as it is suspended,
and else in the one frame it has. What was pushed and run before leaves just these.
-/

namespace Lhat.Finally

variable {m m' : Machine}

/-- What an event did to the cleanups of a coroutine. -/
def Event.use (co : Nat) : Event → Option (StackUse Cleanup)
  | .pushed c cleanup => if c = co then some (.push cleanup) else none
  | .ran c cleanup => if c = co then some (.pop cleanup) else none
  | .disposing _ _ => none

/-- The history of the cleanups of one coroutine. -/
def uses (log : List Event) (co : Nat) : List (StackUse Cleanup) := log.filterMap (Event.use co)

theorem uses_pushed (log : List Event) (co : Nat) (cleanup : Cleanup) :
    uses (.pushed co cleanup :: log) co = .push cleanup :: uses log co :=
  List.filterMap_cons_some (by simp [Event.use])

theorem uses_ran (log : List Event) (co : Nat) (cleanup : Cleanup) :
    uses (.ran co cleanup :: log) co = .pop cleanup :: uses log co :=
  List.filterMap_cons_some (by simp [Event.use])

theorem uses_pushed_of_ne (log : List Event) {co d : Nat} (h : co ≠ d) (cleanup : Cleanup) :
    uses (.pushed co cleanup :: log) d = uses log d :=
  List.filterMap_cons_none (by simp [Event.use, h])

theorem uses_ran_of_ne (log : List Event) {co d : Nat} (h : co ≠ d) (cleanup : Cleanup) :
    uses (.ran co cleanup :: log) d = uses log d :=
  List.filterMap_cons_none (by simp [Event.use, h])

theorem uses_disposing (log : List Event) (co d : Nat) (state : Gc.CoroutineState) :
    uses (.disposing co state :: log) d = uses log d :=
  List.filterMap_cons_none rfl

/-- Every push carries its place in the log. -/
def Stamped : List Event → Prop
  | [] => True
  | .pushed _ cleanup :: log => cleanup.push = log.length ∧ Stamped log
  | .ran _ _ :: log | .disposing _ _ :: log => Stamped log

theorem Stamped.push_lt {log : List Event} (h : Stamped log) {co : Nat} {cleanup : Cleanup}
    (hmem : cleanup ∈ pushed (uses log co)) : cleanup.push < log.length := by
  induction log with
  | nil => cases hmem
  | cons event log ih =>
    cases event with
    | pushed d x =>
      by_cases hd : d = co
      · subst d
        rw [uses_pushed, pushed_push, List.mem_cons] at hmem
        rcases hmem with rfl | hmem
        · rw [h.1, List.length_cons]
          exact Nat.lt_succ_self _
        · exact Nat.lt_succ_of_lt (ih h.2 hmem)
      · rw [uses_pushed_of_ne log hd] at hmem
        exact Nat.lt_succ_of_lt (ih h.2 hmem)
    | ran d x =>
      by_cases hd : d = co
      · subst d
        rw [uses_ran, pushed_pop] at hmem
        exact Nat.lt_succ_of_lt (ih h hmem)
      · rw [uses_ran_of_ne log hd] at hmem
        exact Nat.lt_succ_of_lt (ih h hmem)
    | disposing d state =>
      rw [uses_disposing] at hmem
      exact Nat.lt_succ_of_lt (ih h hmem)

theorem Stamped.nodup {log : List Event} (h : Stamped log) (co : Nat) :
    (pushed (uses log co)).Nodup := by
  induction log with
  | nil => exact .nil
  | cons event log ih =>
    cases event with
    | pushed d x =>
      by_cases hd : d = co
      · subst d
        rw [uses_pushed, pushed_push, List.nodup_cons]
        refine ⟨fun hmem => ?_, ih h.2⟩
        have := Stamped.push_lt h.2 hmem
        rw [h.1] at this
        exact Nat.lt_irrefl _ this
      · rw [uses_pushed_of_ne log hd]
        exact ih h.2
    | ran d x =>
      by_cases hd : d = co
      · subst d
        rw [uses_ran, pushed_pop]
        exact ih h
      · rw [uses_ran_of_ne log hd]
        exact ih h
    | disposing d state =>
      rw [uses_disposing]
      exact ih h

/-- A list whose coroutines each are suspended with cleanups left, and on it once. -/
structure Machine.Waiting (m : Machine) : Prop where
  once : m.pendingDispose.Nodup
  owes : ∀ co ∈ m.pendingDispose, ∃ c, m.coroutines[co]? = some c ∧ c.state = .suspended ∧
    c.cleanups ≠ []

/-- What a program may rely on: a cleanup runs at most once, and the last pushed before
the others; a coroutine is entered to run its cleanups only as a suspended one, and it
waits for that once at most, and only while it is suspended with cleanups left. -/
structure Machine.Unwinds (m : Machine) : Prop where
  once : ∀ co, (popped (uses m.log co)).Nodup
  innermost : ∀ co, ∃ left, replay (uses m.log co) = some left
  entered : ∀ co state, Event.disposing co state ∈ m.log → state = .suspended
  waiting : m.Waiting

/-- A coroutine that a frame may not be put on the stack for any more. -/
def LhatCoroutine.Taken (c : LhatCoroutine) : Prop := c.state = .running ∨ c.state = .done

/-- What the cleanups are like at an instruction boundary. -/
structure Machine.Inv (m : Machine) : Prop where
  stamped : Stamped m.log
  innermost : ∀ co, ∃ left, replay (uses m.log co) = some left
  entered : ∀ co state, Event.disposing co state ∈ m.log → state = .suspended
  waiting : m.Waiting
  /-- A coroutine has one frame at most. -/
  frames : (m.frames.filterMap Frame.coroutine).Nodup
  /-- The cleanups of a coroutine with a frame are the frame's. -/
  held : ∀ f ∈ m.frames, ∀ co, f.coroutine = some co →
    (∃ c, m.coroutines[co]? = some c ∧ c.Taken) ∧ replay (uses m.log co) = some f.cleanups
  /-- Those of a coroutine that may be taken up are its own. -/
  saved : ∀ co c, m.coroutines[co]? = some c → ¬ c.Taken →
    replay (uses m.log co) = some c.cleanups ∧ c.cleanups.length ≤ maxCleanups
  room : ∀ f ∈ m.frames, f.cleanups.length ≤ maxCleanups
  unborn : ∀ co, m.coroutines.length ≤ co → replay (uses m.log co) = some []

theorem Machine.Inv.unwinds (hi : m.Inv) : m.Unwinds where
  once := fun co =>
    have ⟨_, hleft⟩ := hi.innermost co
    nodup_popped_of_replay hleft (hi.stamped.nodup co)
  innermost := hi.innermost
  entered := hi.entered
  waiting := hi.waiting

end Lhat.Finally
