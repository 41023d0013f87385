import Lhat.Runtime.Value
import Mathlib.Logic.Function.Basic

/-!
# The array of frames

A frame is taken off by counting one less. What it held stays in the array, and the next
frame at that place writes what its own way of entering writes and leaves the rest. The
loop that runs hot writes even less of a frame it enters and makes up for it when it
leaves.

A frame is kept as far as it decides what its caller is handed. Beside each stands an
`Entry`, which says how the frame was entered and what it answered: nothing is decided by
it.
-/

namespace Lhat.Frames

/-- The operations that a comparison is written as. -/
inductive Comparison where
  | eq | ne | lt | le | gt | ge
deriving DecidableEq, Repr

/-- What a body answers with: a value, or the positions of a tuple. -/
inductive Answer where
  | value (v : LhatValue)
  | run (positions : List LhatValue)
deriving DecidableEq, Repr

namespace Answer

/-- The slot that stands for the answer. -/
def head : Answer → LhatValue
  | value v => v
  | run positions => .run (Int64.ofNat positions.length)

/-- `lhat_nil` as an answer. -/
def nil : Answer := value .nil

end Answer

/-- How two values compare. -/
structure Judges where
  lhatValueEqual : LhatValue → LhatValue → Bool
  vmThreeWay : LhatValue → LhatValue → Option Int

namespace Judges

variable (judges : Judges)

/-- `ordering`. -/
def ordering (op : Comparison) (left right : LhatValue) : Option Bool :=
  match judges.vmThreeWay left right with
  | none => none
  | some outcome =>
    match op with
    | .lt => some (decide (outcome < 0))
    | .le => some (decide (outcome ≤ 0))
    | .gt => some (decide (outcome > 0))
    | .ge => some (decide (outcome ≥ 0))
    | .eq | .ne => none

/-- What a comparison makes of the answer of the operator it called. `none` is
`LHAT_RUN_TYPE_ERROR`. -/
def derived (derive : Comparison) (deriveEqual : Bool) (value : LhatValue) : Option LhatValue :=
  if deriveEqual then
    match value with
    | .bool b => some (.bool (b == decide (derive = .eq)))
    | _ => none
  else
    match derive with
    | .eq | .ne =>
      some (.bool (judges.lhatValueEqual value (.integer 0) == decide (derive = .eq)))
    | derive => (judges.ordering derive value (.integer 0)).map .bool

end Judges

/-- `Frame`. -/
structure Frame where
  base : Nat := 0
  result : Nat := 0
  prepared : Nat := 0
  cleanupCount : Nat := 0
  returning : Bool := false
  coroutine : Option Nat := none
  disposing : Bool := false
  dropAnswer : Bool := false
  derive : Option Comparison := none
  deriveEqual : Bool := false
  answer : Answer := .nil
  drainTarget : Nat := 0
deriving DecidableEq, Repr

/-- What a frame was entered for. -/
inductive Purpose where
  | call
  | comparison (op : Comparison) (equal : Bool)
  | disposal
deriving DecidableEq, Repr

/-- How a frame was entered, and what it has answered. -/
structure Entry where
  purpose : Purpose
  result : Nat
  prepared : Nat
  drops : Bool := false
  answered : Answer := .nil
deriving DecidableEq, Repr

/-- What a frame that goes away hands on: to the slots of the frame below, or to the host
where the run ends with it. -/
inductive Delivery where
  | slots (into reserved : Nat) (answer : Option Answer)
  | host (answer : Answer)
deriving DecidableEq, Repr

/-- The frames of a machine. `bases` are the depths that the runs under way began at, the
innermost first, and `hot` is `initialized_depth` while the hot loop runs. -/
structure Machine where
  frames : Nat → Frame := fun _ => {}
  frameCount : Nat := 0
  bases : List Nat := []
  hot : Option Nat := none
  entries : Nat → Entry := fun _ => { purpose := .call, result := 0, prepared := 0 }
  log : List (Entry × Delivery) := []

namespace Machine

variable (judges : Judges) (m : Machine)

/-- The base of the innermost run. -/
def baseDepth : Nat := m.bases.headD 0

/-- The frame on top. -/
def frame : Frame := m.frames (m.frameCount - 1)

/-- What the array holds where the next frame will stand. -/
def slot : Frame := m.frames m.frameCount

def entry : Entry := m.entries (m.frameCount - 1)

/-- One frame more. -/
def push (frame : Frame) (entry : Entry) : Machine :=
  { m with
    frames := Function.update m.frames m.frameCount frame
    entries := Function.update m.entries m.frameCount entry
    frameCount := m.frameCount + 1 }

/-- The frame on top is written. -/
def setFrame (frame : Frame) (entry : Entry) : Machine :=
  { m with
    frames := Function.update m.frames (m.frameCount - 1) frame
    entries := Function.update m.entries (m.frameCount - 1) entry }

/-- `vm_push_frame`. -/
def vmPushFrame (base result prepared : Nat) : Machine :=
  m.push
    { m.slot with
      base, result, prepared
      cleanupCount := 0
      returning := false
      coroutine := none
      disposing := false
      derive := none
      deriveEqual := false
      dropAnswer := false
      answer := .nil }
    { purpose := .call, result, prepared }

/-- `call_operator`. Where the operator was not called for a comparison, `derive` is
`LHAT_FRAME_NO_DERIVE`. -/
def callOperator (base result : Nat) (derive : Option Comparison) (deriveEqual : Bool) : Machine :=
  m.push
    { m.slot with
      base, result
      prepared := 1
      cleanupCount := 0
      returning := false
      coroutine := none
      disposing := false
      dropAnswer := false
      answer := .nil
      derive, deriveEqual }
    { purpose := match derive with
        | some op => .comparison op deriveEqual
        | none => .call
      result
      prepared := 1 }

/-- `vm_enter_resume_frame`. -/
def vmEnterResumeFrame (co base result prepared cleanupCount : Nat) : Machine :=
  m.push
    { m.slot with
      base, result, prepared, cleanupCount
      coroutine := some co
      disposing := false
      dropAnswer := false
      answer := .nil
      derive := none
      deriveEqual := false
      returning := false }
    { purpose := .call, result, prepared }

/-- `vm_enter_disposal_frame`. -/
def vmEnterDisposalFrame (co base result cleanupCount : Nat) : Machine :=
  m.push
    { m.slot with
      base, result, cleanupCount
      prepared := 1
      coroutine := some co
      dropAnswer := false
      disposing := true
      returning := true
      drainTarget := 0
      answer := .nil }
    { purpose := .disposal, result, prepared := 1 }

/-- `LHAT_BC_TAILCALL`. `kept` says that the frame is a session's top level. -/
def tailCall (base result prepared : Nat) (drop kept : Bool) : Machine :=
  if m.frame.cleanupCount = 0 ∧ m.frame.coroutine = none ∧ kept = false then
    m.setFrame
      { m.frame with returning := false, dropAnswer := m.frame.dropAnswer || drop }
      { m.entry with drops := m.entry.drops || drop }
  else m.vmPushFrame base result prepared

/-- The frame on top goes, and this is what it hands on. -/
def pop (entry : Entry) (delivery : Delivery) : Machine :=
  { m with
    frameCount := m.frameCount - 1
    bases := if m.frameCount - 1 = m.baseDepth then m.bases.tail else m.bases
    log := (entry, delivery) :: m.log }

/-- The run is over before its frames are. -/
def abandon : Machine := { m with frameCount := m.baseDepth, bases := m.bases.tail }

/-- The end of the drain. `swept` says that the sweep at the end of the run held something
back, which keeps the frame where it is. -/
def leave (swept : Bool) : Machine :=
  let answer := if m.frame.dropAnswer then .nil else m.frame.answer
  if m.frameCount - 1 = m.baseDepth then
    if swept then m else m.pop m.entry (.host answer)
  else
    match m.frame.derive with
    | none => m.pop m.entry (.slots m.frame.result m.frame.prepared (some answer))
    | some op =>
      match judges.derived op m.frame.deriveEqual answer.head with
      | some value => m.pop m.entry (.slots m.frame.result m.frame.prepared (some (.value value)))
      | none => (m.pop m.entry (.slots m.frame.result m.frame.prepared none)).abandon

/-- `drain`. -/
def drain (swept : Bool) : Machine :=
  if m.frame.drainTarget < m.frame.cleanupCount then
    m.setFrame { m.frame with cleanupCount := m.frame.cleanupCount - 1 } m.entry
  else if m.frame.returning = false then m
  else m.leave judges swept

/-- `LHAT_BC_RETURN`. `plain` says that nothing is captured and no coroutine has a cleanup
waiting, where an ordinary frame goes at once. -/
def ret (answer : Answer) (plain swept : Bool) : Machine :=
  let answered := { m.entry with answered := answer }
  match answer with
  | .value value =>
    if m.baseDepth + 1 < m.frameCount ∧ plain = true ∧ m.frame.cleanupCount = 0 ∧
        m.frame.coroutine = none ∧ m.frame.derive = none ∧ m.frame.prepared ≤ 1 then
      m.pop answered (.slots m.frame.result m.frame.prepared
        (some (if m.frame.dropAnswer then .nil else .value value)))
    else
      (m.setFrame { m.frame with drainTarget := 0, returning := true, answer } answered).drain
        judges swept
  | .run _ =>
    (m.setFrame { m.frame with drainTarget := 0, returning := true, answer } answered).drain
      judges swept

/-- `LHAT_BC_YIELD`. -/
def yield (answer : Answer) : Machine :=
  if m.frame.coroutine = none ∨ m.frame.disposing = true then m.abandon
  else
    m.pop { m.entry with answered := answer }
      (if m.frameCount - 1 = m.baseDepth then .host answer
      else .slots m.frame.result m.frame.prepared (some answer))

/-- A call in the hot loop. -/
def hotCall (base result prepared : Nat) : Machine :=
  m.push { m.slot with base, result, prepared } { purpose := .call, result, prepared }

/-- `vm_hot_leave`. -/
def vmHotLeave (initializedDepth : Nat) : Machine :=
  { m with
    frames := fun i =>
      if initializedDepth ≤ i ∧ i < m.frameCount then
        { m.frames i with
          cleanupCount := 0
          returning := false
          coroutine := none
          disposing := false
          derive := none
          deriveEqual := false
          dropAnswer := false
          answer := .nil }
      else m.frames i
    hot := none }

/-- A return in the hot loop. What it does not do itself it leaves to the other loop. -/
def hotReturn (initializedDepth : Nat) (answer : Answer) (plain : Bool) : Machine :=
  let pending := decide (initializedDepth < m.frameCount)
  match answer with
  | .value value =>
    if m.frameCount ≤ m.baseDepth + 1 ∨ plain = false ∨
        (pending = false ∧ (m.frame.cleanupCount ≠ 0 ∨ m.frame.coroutine ≠ none ∨
          m.frame.derive ≠ none)) ∨ 1 < m.frame.prepared then
      m.vmHotLeave initializedDepth
    else
      { m.pop { m.entry with answered := answer }
          (.slots m.frame.result m.frame.prepared
            (some (if pending = false ∧ m.frame.dropAnswer = true then .nil else .value value)))
        with hot := some (min initializedDepth (m.frameCount - 1)) }
  | .run _ => m.vmHotLeave initializedDepth

end Machine

/-- What happens to the frames. A run begins with the frame that its host pushes next. -/
inductive Move where
  | begin
  | call (base result prepared : Nat)
  | operator (base result : Nat) (derive : Option Comparison) (deriveEqual : Bool)
  | resume (co base result prepared cleanupCount : Nat)
  | dispose (co base result cleanupCount : Nat)
  | tailCall (base result prepared : Nat) (drop kept : Bool)
  | pushCleanup
  | popCleanup (a : Nat) (swept : Bool)
  | endCleanup (swept : Bool)
  | ret (answer : Answer) (plain swept : Bool)
  | yield (answer : Answer)
  | fault
  | hotLoop
  | hotCall (base result prepared : Nat)
  | hotReturn (answer : Answer) (plain : Bool)
  | hotLeave

namespace Machine

variable (judges : Judges) (m : Machine)

/-- What can happen next: an instruction needs a frame of the run under way. -/
def permits : Move → Bool
  | .begin => m.hot.isNone
  | .call .. | .resume .. | .dispose .. => m.hot.isNone && !m.bases.isEmpty
  | .hotCall .. | .hotReturn .. | .hotLeave => m.hot.isSome
  | _ => m.hot.isNone && !m.bases.isEmpty && decide (m.baseDepth < m.frameCount)

def perform : Move → Machine
  | .begin => { m with bases := m.frameCount :: m.bases }
  | .call base result prepared => m.vmPushFrame base result prepared
  | .operator base result derive deriveEqual => m.callOperator base result derive deriveEqual
  | .resume co base result prepared cleanupCount =>
    m.vmEnterResumeFrame co base result prepared cleanupCount
  | .dispose co base result cleanupCount => m.vmEnterDisposalFrame co base result cleanupCount
  | .tailCall base result prepared drop kept => m.tailCall base result prepared drop kept
  | .pushCleanup => m.setFrame { m.frame with cleanupCount := m.frame.cleanupCount + 1 } m.entry
  | .popCleanup a swept =>
    (m.setFrame { m.frame with drainTarget := a, returning := false } m.entry).drain judges swept
  | .endCleanup swept => m.drain judges swept
  | .ret answer plain swept => m.ret judges answer plain swept
  | .yield answer => m.yield answer
  | .fault => m.abandon
  | .hotLoop => { m with hot := some m.frameCount }
  | .hotCall base result prepared => m.hotCall base result prepared
  | .hotReturn answer plain => m.hotReturn (m.hot.getD 0) answer plain
  | .hotLeave => m.vmHotLeave (m.hot.getD 0)

def act (move : Move) : Machine := if m.permits move then m.perform judges move else m

/-- The moves one after the other. -/
def run (moves : List Move) : Machine := moves.foldl (fun m move => m.act judges move) m

end Machine

end Lhat.Frames
