import Lhat.Runtime.Value
import Mathlib.Logic.Function.Basic

/-!
# Captured places

A closure names a place: a register of a frame that stands, a saved register of a coroutine, or
a value of its own once the frame is gone. The machine's open list holds the first kind, and
each suspended coroutine has a list of the second. The frames, the calls and the coroutines are
here as far as they move registers about; what the instructions compute is a value that is
written.

Objects are never freed here.
-/

namespace Lhat.Captures

/-- Whose a register is. The session's are those of the frame of a unit at the top level, which
outlive it. Every other call has a number of its own. -/
inductive Activation where
  | session
  | frame (call : Nat)
  | body (co : Nat)
deriving DecidableEq, Repr

/-- `LhatSlotRef`: where the value of a capture is. -/
inductive Location where
  | slot (place : Nat)
  | saved (co offset : Nat)
  | closed (v : LhatValue)
deriving DecidableEq, Repr

/-- `Frame`. Nothing the machine does depends on `activation` but what `coroutine` tells. -/
structure Frame where
  base : Nat
  activation : Activation
  kept : Nat := 0
deriving DecidableEq, Repr

/-- `LhatCoroutineState`. -/
inductive CoroutineState where
  | fresh
  | suspended
  | running
  | done
deriving DecidableEq, Repr

/-- `LhatCoroutine`, with its frame. -/
structure LhatCoroutine where
  state : CoroutineState := .fresh
  registers : List LhatValue := []
  openUpvalues : List Nat := []

/-- `LhatCostateEntry`. A capture is an upvalue and its register. -/
structure CostateEntry where
  coroutine : Nat
  state : CoroutineState
  registers : List LhatValue
  captures : List (Nat × Nat)

/-- `Machine`. The upvalues, the coroutines and the costates are numbered as they are made. -/
structure Machine where
  slots : Nat → LhatValue := fun _ => .nil
  frames : List Frame := []
  calls : Nat := 0
  locations : Nat → Option Location := fun _ => none
  upvalueCount : Nat := 0
  openUpvalues : List Nat := []
  coroutines : Nat → LhatCoroutine := fun _ => {}
  coroutineCount : Nat := 0
  costates : List (List CostateEntry) := []

/-- `frame->coroutine`. -/
def Frame.coroutine (frame : Frame) : Option Nat :=
  match frame.activation with
  | .body co => some co
  | .session | .frame _ => none

namespace Machine

variable (m : Machine)

/-- `lhat_ref_get`. -/
def get : Location → LhatValue
  | .slot place => m.slots place
  | .saved co offset => (m.coroutines co).registers.getD offset .nil
  | .closed v => v

/-- `location.value`, as the lists compare it. -/
def offset (u : Nat) : Nat :=
  match m.locations u with
  | some (.slot place) => place
  | some (.saved _ offset) => offset
  | some (.closed _) | none => 0

/-- `close_into_cell`, of some. -/
def closeIntoCell (going : List Nat) : Machine :=
  { m with
    locations := fun u =>
      if u ∈ going then (m.locations u).map fun location => .closed (m.get location)
      else m.locations u }

/-- `vm_close_upvalues`. -/
def vmCloseUpvalues (above : Nat) : Machine :=
  { m.closeIntoCell (m.openUpvalues.takeWhile fun u => above ≤ m.offset u) with
    openUpvalues := m.openUpvalues.dropWhile fun u => above ≤ m.offset u }

/-- `vm_close_one_upvalue`. -/
def vmCloseOneUpvalue (slot : Nat) : Machine :=
  { m.closeIntoCell (m.openUpvalues.filter fun u => m.offset u = slot) with
    openUpvalues := m.openUpvalues.filter fun u => m.offset u ≠ slot }

/-- `vm_capture`. -/
def vmCapture (slot : Nat) : Machine :=
  let above := m.openUpvalues.takeWhile fun u => slot + 1 ≤ m.offset u
  let link := m.openUpvalues.dropWhile fun u => slot + 1 ≤ m.offset u
  if link.head?.any fun u => m.offset u = slot then m
  else
    { m with
      locations := Function.update m.locations m.upvalueCount (some (.slot slot))
      upvalueCount := m.upvalueCount + 1
      openUpvalues := above ++ m.upvalueCount :: link }

/-- Values laid into the slots from a place on. -/
def lay (place : Nat) (values : List LhatValue) : Machine :=
  { m with
    slots := fun n => if place ≤ n then values.getD (n - place) (m.slots n) else m.slots n }

/-- The base of the frame on top, which those above it are counted from. -/
def base : Nat := (m.frames.head?.map Frame.base).getD 0

/-- `vm_push_frame`, of a call. -/
def vmPushFrame (base : Nat) : Machine :=
  { m with
    frames := { base, activation := .frame m.calls } :: m.frames
    calls := m.calls + 1 }

def setCoroutine (co : Nat) (c : LhatCoroutine) : Machine :=
  { m with coroutines := Function.update m.coroutines co c }

/-- `reattach_upvalues`. -/
def reattachUpvalues (co base : Nat) : Machine :=
  let going := (m.coroutines co).openUpvalues
  { m with
    locations := fun u =>
      if u ∈ going then some (.slot (base + m.offset u)) else m.locations u
    openUpvalues := going.reverse ++ m.openUpvalues
    coroutines := Function.update m.coroutines co { m.coroutines co with openUpvalues := [] } }

/-- `vm_enter_resume_frame` and `vm_enter_disposal_frame`. -/
def vmEnterFrame (co base : Nat) : Machine :=
  let m := (m.lay base (m.coroutines co).registers).reattachUpvalues co base
  { m.setCoroutine co { m.coroutines co with state := .running } with
    frames := { base, activation := .body co } :: m.frames }

/-- `LHAT_BC_YIELD`. -/
def yield (frame : Frame) (co : Nat) : Machine :=
  let c := m.coroutines co
  let going := m.openUpvalues.takeWhile fun u => frame.base ≤ m.offset u
  { m with
    frames := m.frames.tail
    locations := fun u =>
      if u ∈ going then some (.saved co (m.offset u - frame.base)) else m.locations u
    openUpvalues := m.openUpvalues.dropWhile fun u => frame.base ≤ m.offset u
    coroutines := Function.update m.coroutines co
      { state := .suspended
        registers := (List.range c.registers.length).map fun r => m.slots (frame.base + r)
        openUpvalues := going.reverse ++ c.openUpvalues } }

/-- The drain where a frame leaves. -/
def leave (frame : Frame) : Machine :=
  let m := m.vmCloseUpvalues (frame.base + frame.kept)
  let m := { m with frames := m.frames.tail }
  match frame.coroutine with
  | some co => m.setCoroutine co { m.coroutines co with state := .done }
  | none => m

/-- `LHAT_BC_TAILCALL`, where the frame is taken over. -/
def tailCall (frame : Frame) (laid : List LhatValue) : Machine :=
  let m := (m.vmCloseUpvalues frame.base).lay frame.base laid
  { m with
    frames := { base := frame.base, activation := .frame m.calls } :: m.frames.tail
    calls := m.calls + 1 }

/-- `vm_coroutine_save`, of the coroutines of an `await^` chain. -/
def vmCoroutineSave (chain : List Nat) : Machine :=
  { m with
    costates := m.costates ++ [chain.map fun co =>
      let c := m.coroutines co
      { coroutine := co
        state := c.state
        registers := c.registers
        captures := c.openUpvalues.map fun u => (u, m.offset u) }] }

/-- `vm_coroutine_load`, of one entry. -/
def loadEntry (entry : CostateEntry) : Machine :=
  let going := (m.coroutines entry.coroutine).openUpvalues
  let captured := entry.captures.map Prod.fst
  let m := m.closeIntoCell (going.filter fun u => u ∉ captured)
  { m with
    locations := fun u =>
      match entry.captures.lookup u with
      | some slot => some (.saved entry.coroutine slot)
      | none => m.locations u
    coroutines := Function.update m.coroutines entry.coroutine
      { state := entry.state, registers := entry.registers, openUpvalues := captured } }

/-- `vm_coroutine_load`. -/
def vmCoroutineLoad (state : List CostateEntry) : Machine := state.foldl loadEntry m

/-- `lhat_run_arguments`, up to where the frame of the unit is pushed. -/
def reset (reserved : Nat) : Machine :=
  let m := { m with frames := [] }.vmCloseUpvalues reserved
  { m with slots := fun n => if reserved ≤ n then .nil else m.slots n }

/-- A fault in what the host began: the frames above a depth are given up, `run_one_disposal`
and `lhat_machine_run_seeded`. -/
def abandon (depth : Nat) (frame : Frame) : Machine :=
  let m := m.vmCloseUpvalues frame.base
  { m with frames := m.frames.drop (m.frames.length - depth) }

end Machine

/-- What a machine does, as far as places are concerned. What a frame is entered with is laid
from its base on, so many slots above the base of the frame on top. -/
inductive Move where
  | call (above : Nat) (laid : List LhatValue)
  | set (register : Nat) (v : LhatValue)
  | closure (register : Nat)
  | setUpvalue (u : Nat) (v : LhatValue)
  | close (register : Nat)
  | closeOne (register : Nat)
  | ret
  | tailCall (laid : List LhatValue)
  | coroutineNew (registers : List LhatValue)
  | resume (co above : Nat)
  /-- The frame a coroutine is disposed of in. -/
  | dispose (co above : Nat)
  /-- `dispose^` of a coroutine with nothing to clean up. -/
  | finish (co : Nat)
  | yield
  | save (chain : List Nat)
  | load (state : Nat)
  | reset (reserved : Nat)
  /-- The frame of a unit at the top level, once the machine was reset for it. -/
  | unit (kept : Nat)
  | abandon (depth : Nat)
deriving DecidableEq, Repr

namespace Machine

variable (m : Machine)

/-- What a write through a capture reaches. -/
def setPlace (location : Location) (u : Nat) (v : LhatValue) : Machine :=
  match location with
  | .slot place => { m with slots := Function.update m.slots place v }
  | .saved co offset =>
    m.setCoroutine co
      { m.coroutines co with registers := (m.coroutines co).registers.set offset v }
  | .closed _ => { m with locations := Function.update m.locations u (some (.closed v)) }

/-- A coroutine that can be taken up. -/
def resumable (co : Nat) : Bool :=
  decide (co < m.coroutineCount) &&
    ((m.coroutines co).state = .fresh || (m.coroutines co).state = .suspended)

/-- A coroutine whose frame is in it and not among the frames. -/
def idle (co : Nat) : Bool :=
  decide (co < m.coroutineCount) && (m.coroutines co).state ≠ .running

/-- One move. A machine that cannot make it stays as it is. -/
def act : Move → Machine
  | .call above laid => (m.lay (m.base + above) laid).vmPushFrame (m.base + above)
  | .set register v => { m with slots := Function.update m.slots (m.base + register) v }
  | .closure register =>
    if m.frames.isEmpty then m else m.vmCapture (m.base + register)
  | .setUpvalue u v =>
    match m.locations u with
    | some location => m.setPlace location u v
    | none => m
  | .close register => if m.frames.isEmpty then m else m.vmCloseUpvalues (m.base + register)
  | .closeOne register =>
    if m.frames.isEmpty then m else m.vmCloseOneUpvalue (m.base + register)
  | .ret =>
    match m.frames with
    | frame :: _ => m.leave frame
    | [] => m
  | .tailCall laid =>
    match m.frames with
    | frame :: _ =>
      if frame.coroutine = none ∧ frame.kept = 0 then m.tailCall frame laid else m
    | [] => m
  | .coroutineNew registers =>
    { m with
      coroutines := Function.update m.coroutines m.coroutineCount { registers }
      coroutineCount := m.coroutineCount + 1 }
  | .resume co above =>
    if m.resumable co then m.vmEnterFrame co (m.base + above) else m
  | .dispose co above => m.vmEnterFrame co (m.base + above)
  | .finish co =>
    if m.resumable co then m.setCoroutine co { m.coroutines co with state := .done } else m
  | .yield =>
    match m.frames with
    | frame :: _ =>
      match frame.coroutine with
      | some co => m.yield frame co
      | none => m
    | [] => m
  | .save chain =>
    if chain.all m.idle then m.vmCoroutineSave chain
    else m
  | .load state =>
    match m.costates[state]? with
    | some entries =>
      if entries.all fun entry => m.idle entry.coroutine then m.vmCoroutineLoad entries else m
    | none => m
  | .reset reserved => m.reset reserved
  | .unit kept =>
    if m.frames.isEmpty then { m with frames := [{ base := 0, activation := .session, kept }] }
    else m
  | .abandon depth =>
    match m.frames.reverse[depth]? with
    | some frame => if frame.activation = .session then m else m.abandon depth frame
    | none => m

/-! ### What captures are of -/

end Machine

/-- What a capture is of, whatever becomes of the frame: a register of an activation that goes
on, or the last value that was in it. -/
inductive Home where
  | bound (activation : Activation) (register : Nat)
  | free (v : LhatValue)
deriving DecidableEq, Repr

/-- Where a register is: in the frame of the activation if one stands, among the saved registers
of a coroutine if not. The session's registers stand at the bottom of the slots. -/
def placeAmong (frames : List Frame) (activation : Activation) (register : Nat) :
    Option Location :=
  match frames.find? fun frame => frame.activation = activation with
  | some frame => some (.slot (frame.base + register))
  | none =>
    match activation with
    | .session => some (.slot register)
    | .body co => some (.saved co register)
    | .frame _ => none

namespace Machine

variable (m : Machine)

/-- Where a register is now. -/
def place (activation : Activation) (register : Nat) : Option Location :=
  placeAmong m.frames activation register

/-- The activation on top. -/
def current : Option Activation := m.frames.head?.map Frame.activation

/-- Some registers are given up: what is captured of them holds the value they have. -/
def release (homes : Nat → Option Home) (gone : Activation → Nat → Bool) : Nat → Option Home :=
  fun u =>
    match homes u with
    | some (.bound activation register) =>
      if gone activation register then
        (m.place activation register).map fun location => .free (m.get location)
      else homes u
    | home => home

/-- What an entry of a costate makes of the captures. -/
def loadHomes (homes : Nat → Option Home) (entry : CostateEntry) : Nat → Option Home :=
  fun u =>
    match entry.captures.lookup u with
    | some register => some (.bound (.body entry.coroutine) register)
    | none => m.release homes (fun activation _ => activation = .body entry.coroutine) u

/-- What captures are of after a move. A `yield^`, a resume and a call change nothing. -/
def homes (homes : Nat → Option Home) : Move → Nat → Option Home
  | .call _ _ | .set _ _ | .coroutineNew _ | .resume _ _ | .dispose _ _ | .finish _ | .yield
  | .save _ | .unit _ => homes
  | .closure register =>
    match m.current with
    | some activation =>
      if (List.range m.upvalueCount).any fun u =>
          homes u = some (.bound activation register) then homes
      else Function.update homes m.upvalueCount (some (.bound activation register))
    | none => homes
  | .setUpvalue u v =>
    match homes u with
    | some (.free _) => Function.update homes u (some (.free v))
    | some (.bound _ _) | none => homes
  | .close register =>
    m.release homes fun activation r => m.current = some activation && decide (register ≤ r)
  | .closeOne register =>
    m.release homes fun activation r => m.current = some activation && decide (r = register)
  | .ret =>
    match m.frames with
    | frame :: _ =>
      m.release homes fun activation r =>
        frame.activation = activation && decide (frame.kept ≤ r)
    | [] => homes
  | .tailCall _ =>
    match m.frames with
    | frame :: _ =>
      if frame.coroutine = none ∧ frame.kept = 0 then
        m.release homes fun activation _ => frame.activation = activation
      else homes
    | [] => homes
  | .load state =>
    match m.costates[state]? with
    | some entries =>
      if entries.all fun entry => m.idle entry.coroutine then
        (entries.foldl (fun s entry => (s.1.loadEntry entry, s.1.loadHomes s.2 entry))
          (m, homes)).2
      else homes
    | none => homes
  | .reset reserved =>
    m.release homes fun activation r =>
      match activation with
      | .session => decide (reserved ≤ r)
      | .frame _ => true
      | .body _ => m.frames.any fun frame => frame.activation = activation
  | .abandon depth =>
    match m.frames.reverse[depth]? with
    | some frame =>
      if frame.activation = .session then homes
      else
        m.release homes fun activation _ =>
          (m.frames.take (m.frames.length - depth)).any fun frame =>
            frame.activation = activation
    | none => homes

/-- The captures are what they are of, and stand on the list that they belong on. -/
structure Captured (homes : Nat → Option Home) : Prop where
  /-- The open list goes down, with one upvalue for a slot. -/
  descending : m.openUpvalues.Pairwise fun u w => m.offset w < m.offset u
  /-- The list of a coroutine goes up. -/
  ascending : ∀ co, (m.coroutines co).openUpvalues.Pairwise fun u w => m.offset u < m.offset w
  /-- On the open list is what is in a slot, -/
  opened : ∀ u, u ∈ m.openUpvalues ↔ ∃ place, m.locations u = some (.slot place)
  /-- and on a coroutine's what is in a register it saved. -/
  carried : ∀ u co, u ∈ (m.coroutines co).openUpvalues ↔
    ∃ offset, m.locations u = some (.saved co offset)
  bound : ∀ u activation register, homes u = some (.bound activation register) →
    (m.locations u).isSome ∧ m.locations u = m.place activation register
  free : ∀ u v, homes u = some (.free v) → m.locations u = some (.closed v)

/-- Nothing that is captured stands where a frame is put, and no coroutine is entered twice at a
time. Nor is a frame given up that stands among what the next unit keeps. -/
def Clear : Move → Prop
  | .call above _ | .resume _ above => ∀ u ∈ m.openUpvalues, m.offset u < m.base + above
  | .dispose co above =>
    m.resumable co = true ∧ ∀ u ∈ m.openUpvalues, m.offset u < m.base + above
  | .reset reserved => ∀ frame ∈ m.frames, frame.activation ≠ .session → reserved ≤ frame.base
  | _ => True

end Machine

/-- A run, with what its captures are of. -/
structure Run where
  machine : Machine := {}
  homes : Nat → Option Home := fun _ => none

namespace Run

def act (r : Run) (move : Move) : Run :=
  { machine := r.machine.act move, homes := r.machine.homes r.homes move }

def after (moves : List Move) : Run := moves.foldl act {}

end Run

end Lhat.Captures
