import Lhat.Foundation.SwapRemove
import Mathlib

/-!
# Waits

The table of a program holds what its machines wait for: a deadline, which the clock makes
ready, or a push from anywhere. A wait is owned by the address of the machine it was armed on,
or by none.

Each call holds the lock of the table, so it is one step, but for `wait`, which gives the lock
back in each turn of its loop. A table that cannot grow is left as it is, and the caller is
answered 0. The caller's seconds are milliseconds here, as `milliseconds_of` has them.
-/

namespace Lhat.Waits

/-- Where a machine stands. -/
abbrev Address := Nat

/-- A machine itself: the how manieth that was made. -/
abbrev Machine := Nat

structure Waiting where
  id : Int64
  dueMs : Int64
  timed : Bool
  ready : Bool
  owner : Option Address
deriving DecidableEq

structure AsyncModule where
  waits : List Waiting
  nextId : Int64
deriving DecidableEq

/-- `mine`: armed for the machine, or for none. -/
def Waiting.mine (wait : Waiting) (machine : Option Address) : Bool :=
  wait.owner.isNone || decide (wait.owner = machine)

def Waiting.isReady (wait : Waiting) (now : Int64) : Bool :=
  wait.ready || (wait.timed && decide (wait.dueMs ≤ now))

namespace AsyncModule

/-- `add_wait`. The clock's sum wraps where it leaves the range. -/
def addWait (t : AsyncModule) (owner : Option Address) (timed : Bool) (dueMs : Int64) :
    AsyncModule where
  waits := t.waits ++ [⟨t.nextId, dueMs, timed, false, owner⟩]
  nextId := t.nextId + 1

/-- The first wait that is asked for, and the table without it. -/
def takeFirst (t : AsyncModule) (asked : Waiting → Bool) : Option (Waiting × AsyncModule) :=
  match t.waits.findIdx? asked with
  | some i => (t.waits[i]?).map fun wait => (wait, { t with waits := swapRemove t.waits i })
  | none => none

def takeReady (t : AsyncModule) (machine : Option Address) (now : Int64) :
    Option (Int64 × AsyncModule) :=
  (t.takeFirst fun wait => wait.mine machine && wait.isReady now).map fun (wait, t) => (wait.id, t)

/-- `take_this`: 1 taken, 0 outstanding, -1 no such wait of this machine's. -/
def takeThis (t : AsyncModule) (machine : Option Address) (now id : Int64) : Int × AsyncModule :=
  match t.takeFirst fun wait => decide (wait.id = id) && wait.mine machine with
  | some (wait, taken) => if wait.isReady now then (1, taken) else (0, t)
  | none => (-1, t)

/-- `until_next`. -/
def untilNext (t : AsyncModule) (machine : Option Address) (now : Int64) : Option Int64 :=
  t.waits.foldl (fun soonest wait =>
    if wait.timed && wait.mine machine then
      let left := max 0 (wait.dueMs - now)
      match soonest with
      | some n => if left < n then some left else some n
      | none => some left
    else soonest) none

/-- `async_drop`. -/
def drop (t : AsyncModule) (machine : Option Address) (id : Int64) : Option AsyncModule :=
  (t.takeFirst fun wait => decide (wait.id = id) && wait.mine machine).map Prod.snd

/-- `lhatstdlib_async_complete`, where the id is found. -/
def complete (t : AsyncModule) (id : Int64) : Option AsyncModule :=
  match t.waits.findIdx? fun wait => decide (wait.id = id) with
  | some i => some { t with waits := t.waits.modify i fun wait => { wait with ready := true } }
  | none => none

end AsyncModule

/-- `HOST_PAUSE_MS`. -/
def hostPauseMs : Int64 := 20

/-- What a turn of the loop of `async_wait` comes to. -/
inductive Turn where
  | answered (id : Int64) (t : AsyncModule)
  | gaveUp
  | naps (ms : Int64)
deriving DecidableEq

def waitTurn (t : AsyncModule) (machine : Option Address) (now giveUpAt : Int64) : Turn :=
  match t.takeReady machine now with
  | some (id, t) => .answered id t
  | none =>
    if giveUpAt ≤ now then .gaveUp
    else
      let upTo := match t.untilNext machine now with
        | some soonest => if now + soonest < giveUpAt then now + soonest else giveUpAt
        | none => giveUpAt
      .naps (min (upTo - now) hostPauseMs)

/-! ### A program and its machines -/

/-- What happened to a wait. -/
inductive Event where
  /-- The machine is the one it was armed on, and the deadline is the clock's at that time and
  what was asked for. -/
  | armed (id : Int64) (machine : Option Machine) (deadline : Option Int)
  | completed (id : Int64)
  | answered (id : Int64) (machine : Option Machine) (now : Int64)
  | dropped (id : Int64)
deriving DecidableEq

/-- The table, with the clock, which machine stands at which address and what happened before,
the last first. -/
structure World where
  table : AsyncModule
  now : Int64
  standing : Address → Option Machine
  made : Nat
  log : List Event

/-- What is done to the table, or to the machines of the program. -/
inductive Act where
  | makeMachine (address : Address)
  | dispose (address : Address)
  | tick (now : Int64)
  | timer (machine : Address) (ms : Int64)
  | external (machine : Option Address)
  | complete (id : Int64)
  | drop (machine : Address) (id : Int64)
  | wait (machine : Address) (giveUpAt : Int64)
  | take (machine : Option Address) (id : Int64)
deriving DecidableEq

namespace World

/-- A program that `std.async` is registered with. -/
def new (now : Int64) : World := ⟨⟨[], 1⟩, now, fun _ => none, 0, []⟩

/-- Who calls is a machine that stands, or no machine. -/
def callable (w : World) : Option Address → Bool
  | some a => (w.standing a).isSome
  | none => true

def machineAt (w : World) (machine : Option Address) : Option Machine := machine.bind w.standing

def arm (w : World) (owner : Option Address) (timed : Bool) (dueMs : Int64)
    (deadline : Option Int) : World :=
  { w with
    table := w.table.addWait owner timed dueMs
    log := .armed w.table.nextId (w.machineAt owner) deadline :: w.log }

def answer (w : World) (machine : Option Address) (id : Int64) (table : AsyncModule) : World :=
  { w with
    table := table
    log := .answered id (w.machineAt machine) w.now :: w.log }

def step (w : World) : Act → Option World
  | .makeMachine a =>
    if (w.standing a).isNone then
      some { w with standing := Function.update w.standing a (some w.made), made := w.made + 1 }
    else none
  | .dispose a => some { w with standing := Function.update w.standing a none }
  | .tick now => if w.now ≤ now then some { w with now := now } else none
  | .timer a ms =>
    if w.callable (some a) && decide (0 ≤ ms) then
      some (w.arm (some a) true (w.now + ms) (some (w.now.toInt + ms.toInt)))
    else none
  | .external owner => if w.callable owner then some (w.arm owner false 0 none) else none
  | .complete id =>
    match w.table.complete id with
    | some table => some { w with table := table, log := .completed id :: w.log }
    | none => some w
  | .drop a id =>
    if w.callable (some a) then
      match w.table.drop (some a) id with
      | some table => some { w with table := table, log := .dropped id :: w.log }
      | none => some w
    else none
  | .wait a giveUpAt =>
    if w.callable (some a) then
      match waitTurn w.table (some a) w.now giveUpAt with
      | .answered id table => some (w.answer (some a) id table)
      | _ => some w
    else none
  | .take machine id =>
    if w.callable machine then
      match w.table.takeThis machine w.now id with
      | (1, table) => some (w.answer machine id table)
      | _ => some w
    else none

end World

/-! ### What is promised -/

/-- An id that was answered or dropped. -/
def Gone (id : Int64) (log : List Event) : Prop :=
  .dropped id ∈ log ∨ ∃ machine now, .answered id machine now ∈ log

/-- Each answer is the only one of its id, is of a wait that was completed or whose deadline had
passed, and goes to the machine it was armed on, or to any if it was armed on none. -/
def Fair : List Event → Prop
  | .answered id machine now :: log => Fair log ∧
      (∀ machine' now', .answered id machine' now' ∉ log) ∧
      ∃ armedOn deadline, .armed id armedOn deadline ∈ log ∧
        (armedOn = none ∨ armedOn = machine) ∧
        (.completed id ∈ log ∨ ∃ d ∈ deadline, d ≤ now.toInt)
  | _ :: log => Fair log
  | [] => True

/-- A wait that was armed stays in the table, once, until it is answered or dropped. -/
def Kept (w : World) : Prop :=
  ∀ id machine deadline, .armed id machine deadline ∈ w.log →
    (¬Gone id w.log → w.table.waits.countP (·.id = id) = 1) ∧
    (Gone id w.log → w.table.waits.countP (·.id = id) = 0)

/-- A machine is not made at an address that a wait still names, and neither a deadline nor the
ids leave the range of their type. -/
def Sound (w : World) : Act → Prop
  | .makeMachine a => ∀ wait ∈ w.table.waits, wait.owner ≠ some a
  | .timer _ ms => w.now.toInt + ms.toInt < 2 ^ 63 ∧ w.table.nextId.toInt + 1 < 2 ^ 63
  | .external _ => w.table.nextId.toInt + 1 < 2 ^ 63
  | _ => True

instance (w : World) (act : Act) : Decidable (Sound w act) := by
  cases act <;> unfold Sound <;> infer_instance

/-- A run whose steps are all sound. -/
inductive Reached : World → Prop where
  | new {now : Int64} : 0 ≤ now → Reached (.new now)
  | step {w w' : World} (act : Act) : Reached w → Sound w act → w.step act = some w' → Reached w'

end Lhat.Waits
