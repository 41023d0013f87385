import Lhat.Foundation.RingQueue
import Mathlib.Logic.Function.Basic

/-!
# Channels

A channel is a queue of carried values behind one lock. What an operation does while it has
the lock is one step, and what it does before and after is a step of its own: a value is
carried before the lock is taken and rebuilt after it is given back, and the waits that a push
takes off the channel are told one after another, outside the lock.

The waits stand in the table of `std.async`, which has a lock of its own. A job that hands one
over is parked on it until a worker finds it ready.
-/

namespace Lhat.Channels

/-- A carried value, as its address. -/
abbrev Carried := Nat

/-- A machine that was told to wait: the table of the program it belongs to, and the wait in it. -/
structure Waiter where
  waits : Nat
  id : Nat
deriving DecidableEq

structure Channel where
  items : Ring Carried
  sent : UInt64
  received : UInt64
  waiters : List Waiter
  atomicOwner : Option Nat

namespace Channel

def new : Channel := ⟨.empty, 0, 0, [], none⟩

def holding (c : Channel) (machine : Nat) : Bool := c.atomicOwner = some machine

/-- Whether the lock can be had, or is had already. -/
def enters (c : Channel) (machine : Nat) : Bool :=
  c.atomicOwner = none || c.holding machine

/-- The whole list is taken off the channel, so that it can be told outside the lock. -/
def takeWaiters (c : Channel) : List Waiter × Channel := (c.waiters, { c with waiters := [] })

def rememberWaiter (c : Channel) (waiter : Waiter) : Channel :=
  { c with waiters := c.waiters ++ [waiter] }

/-- The number of the item comes with the channel. -/
def pushLocked (c : Channel) (item : Carried) (grows : Bool) : Option (UInt64 × Channel) :=
  (c.items.makeRoom grows).map fun items =>
    (c.sent + 1, { c with items := items.enqueue item, sent := c.sent + 1 })

def popLocked (c : Channel) : Option Carried × Channel :=
  if c.items.count = 0 then (none, c)
  else ((c.items.slots[c.items.head]?).join,
    { c with items := c.items.dequeue, received := c.received + 1 })

/-- The loop of `clear_locked`, for as many items as there are. -/
def popAll : Nat → Channel → List Carried × Channel
  | 0, c => ([], c)
  | count + 1, c =>
    let (item, popped) := c.popLocked
    let (items, cleared) := popped.popAll count
    (item.toList ++ items, cleared)

/-- The items that are freed come with the channel. -/
def clearLocked (c : Channel) : List Carried × Channel :=
  let (items, cleared) := c.popAll c.items.count
  (items, { cleared with received := cleared.sent })

/-- A real was made an integer before. -/
def hasRead (c : Channel) (id : Int64) : Bool := id ≤ 0 || id.toUInt64 ≤ c.received

end Channel

/-! ### The waits -/

structure Waiting where
  id : Nat
  dueMs : Int
  timed : Bool
  ready : Bool
  owner : Option Nat
deriving DecidableEq

def Waiting.mine (wait : Waiting) (machine : Nat) : Bool :=
  wait.owner = none || wait.owner = some machine

def Waiting.isReady (wait : Waiting) (now : Int) : Bool :=
  wait.ready || (wait.timed && wait.dueMs ≤ now)

structure AsyncModule where
  waits : List Waiting
  nextId : Nat

namespace AsyncModule

def new : AsyncModule := ⟨[], 1⟩

/-- The last wait takes the place of the one at `i`. -/
def remove (a : AsyncModule) (i : Nat) : AsyncModule :=
  match a.waits.getLast? with
  | none => a
  | some last => { a with waits := (a.waits.set i last).dropLast }

def addWait (a : AsyncModule) (owner : Option Nat) (timed : Bool) (dueMs : Int) : AsyncModule :=
  ⟨a.waits ++ [⟨a.nextId, dueMs, timed, false, owner⟩], a.nextId + 1⟩

def takeReady (a : AsyncModule) (machine : Nat) (now : Int) : AsyncModule :=
  match a.waits.findIdx? fun wait => wait.mine machine && wait.isReady now with
  | none => a
  | some i => a.remove i

/-- Whether the wait is still outstanding, and the table after one that is ready was taken. -/
def takeThis (a : AsyncModule) (machine : Nat) (now : Int) (id : Nat) : Bool × AsyncModule :=
  match a.waits.findIdx? fun wait => wait.id = id && wait.mine machine with
  | none => (false, a)
  | some i =>
    if (a.waits[i]?).any fun wait => wait.isReady now then (false, a.remove i) else (true, a)

def drop (a : AsyncModule) (machine : Nat) (id : Nat) : AsyncModule :=
  match a.waits.findIdx? fun wait => wait.id = id && wait.mine machine with
  | none => a
  | some i => a.remove i

def complete (a : AsyncModule) (id : Nat) : AsyncModule :=
  match a.waits.findIdx? fun wait => wait.id = id with
  | none => a
  | some i => { a with waits := a.waits.modify i fun wait => { wait with ready := true } }

end AsyncModule

/-! ### The machines -/

/-- What a machine is in the middle of. -/
inductive Doing where
  | idle
  /-- `push`, with what it has carried. -/
  | pushing (item : Carried)
  /-- `supply`, with what it has carried. -/
  | supplying (item : Carried)
  /-- A list that was taken off the channel is told. -/
  | telling (waiters : List Waiter)
  /-- `supply` waits for its item, which has this number, to be taken. -/
  | supplied (item : Carried) (id : UInt64)
  | demanding
  /-- What was popped is rebuilt. -/
  | rebuilding (item : Carried)
  /-- The turn of a job ended at a wait, and the worker has still to put it aside. -/
  | filing (id : Nat)
  | parked (id : Nat)
deriving DecidableEq

/-- How an item left the queue. -/
inductive Leaving where
  | handed (machine : Nat)
  | cleared (machine : Nat)
deriving DecidableEq

/-- The channel, the tables of waits and the machines, with the history of the channel. -/
structure World where
  channel : Channel
  freed : Bool
  async : Nat → AsyncModule
  doing : Nat → Doing
  /-- How many values were carried. The next one has this address. -/
  carried : Nat
  pushed : List Carried
  left : List (Carried × Leaving)
  /-- The carried values that were freed. -/
  released : List Carried
  /-- Each wait that was armed through the channel, with the number of pushes before it. -/
  armed : List (Waiter × Nat)

namespace World

def start : World :=
  ⟨.new, false, fun _ => .new, fun _ => .idle, 0, [], [], [], []⟩

def does (w : World) (machine : Nat) (doing : Doing) : World :=
  { w with doing := Function.update w.doing machine doing }

def enters (w : World) (machine : Nat) : Bool := !w.freed && w.channel.enters machine

/-- There was no room for the item. -/
def refuse (w : World) (machine : Nat) (item : Carried) : World :=
  { w with released := w.released ++ [item] }.does machine .idle

/-- `channel_push`, up to where the lock is given back. -/
def push (w : World) (machine : Nat) (item : Carried) (grows : Bool) : World :=
  match w.channel.pushLocked item grows with
  | none => w.refuse machine item
  | some (_, pushed) =>
    { w with channel := pushed.takeWaiters.2, pushed := w.pushed ++ [item] }.does machine
      (.telling pushed.takeWaiters.1)

/-- `channel_supply`, up to where it waits. Inside `atomic` it does not. -/
def supply (w : World) (machine : Nat) (item : Carried) (grows : Bool) : World :=
  match w.channel.pushLocked item grows with
  | none => w.refuse machine item
  | some (id, pushed) =>
    { w with channel := pushed, pushed := w.pushed ++ [item] }.does machine
      (if pushed.holding machine then .idle else .supplied item id)

/-- `pop_locked`. Where there is nothing to take the machine goes on with `otherwise`. -/
def pop (w : World) (machine : Nat) (otherwise : World → World) : World :=
  match w.channel.popLocked with
  | (none, _) => otherwise w
  | (some item, popped) =>
    { w with channel := popped, left := w.left ++ [(item, Leaving.handed machine)] }.does machine
      (.rebuilding item)

/-- One look of `channel_demand`. -/
def demand (w : World) (machine : Nat) : World :=
  w.pop machine fun w => if w.channel.holding machine then w.does machine .idle else w

def clear (w : World) (machine : Nat) : World :=
  let (items, cleared) := w.channel.clearLocked
  { w with
    channel := cleared
    left := w.left ++ items.map fun item => (item, Leaving.cleared machine)
    released := w.released ++ items }

def setAsync (w : World) (waits : Nat) (a : AsyncModule) : World :=
  { w with async := Function.update w.async waits a }

/-- `arm_wait`. `grows` says whether the table has room and `remembered` whether the list has. -/
def armWait (w : World) (machine : Nat) (waits : Option Nat) (grows remembered : Bool) : World :=
  match waits with
  | none => w
  | some waits =>
    if grows then
      let waiter : Waiter := ⟨waits, (w.async waits).nextId⟩
      let added := (w.async waits).addWait (some machine) false 0
      let armed := { w with armed := w.armed ++ [(waiter, w.pushed.length)] }
      if remembered then
        { armed with channel := w.channel.rememberWaiter waiter }.setAsync waits added
      else armed.setAsync waits (added.complete waiter.id)
    else w

def awaitable (w : World) (machine : Nat) (waits : Option Nat) (grows remembered : Bool) : World :=
  if w.channel.items.count = 0 then w.armWait machine waits grows remembered else w

def takeStep (w : World) (machine : Nat) (waits : Option Nat) (grows remembered : Bool) : World :=
  w.pop machine fun w => w.armWait machine waits grows remembered

/-- `after_turn` of a job that handed over `id`. -/
def afterTurn (w : World) (machine waits : Nat) (now : Int) (id : Nat) : World :=
  let (outstanding, taken) := (w.async waits).takeThis machine now id
  (w.setAsync waits taken).does machine (if outstanding then .filing id else .idle)

/-- One job that `move_ready` looks at. Without room in the queue it stays where it is. -/
def moveReady (w : World) (machine waits : Nat) (now : Int) (id : Nat) (grows : Bool) : World :=
  let (outstanding, taken) := (w.async waits).takeThis machine now id
  (w.setAsync waits taken).does machine
    (if outstanding then .parked id else if grows then .idle else .parked 0)

/-- `channel_free`, up to where the waits are told. -/
def free (w : World) (machine : Nat) : World :=
  { w with
    channel := w.channel.takeWaiters.2
    freed := true
    released := w.released ++ (List.range w.channel.items.count).filterMap w.channel.items.item
    }.does machine (.telling w.channel.takeWaiters.1)

end World

/-! ### Steps -/

inductive Move where
  | carry (machine : Nat) (supplies : Bool)
  | push (machine : Nat) (grows : Bool)
  | supply (machine : Nat) (grows : Bool)
  | tell (machine : Nat)
  | settle (machine : Nat)
  | giveUp (machine : Nat)
  | pop (machine : Nat)
  | demand (machine : Nat)
  | rebuild (machine : Nat)
  | look (machine : Nat)
  | clear (machine : Nat)
  | atomic (machine : Nat)
  | awaitable (machine : Nat) (grows remembered : Bool)
  | takeStep (machine : Nat) (grows remembered : Bool)
  | arm (waits : Nat)
  | drop (machine : Nat)
  | wait (machine : Nat)
  | complete (waits : Nat)
  | afterTurn (machine : Nat)
  | park (machine : Nat) (filed : Bool)
  | moveReady (machine : Nat)
  | free (machine : Nat)

/-- One step of one machine, or of a worker on behalf of one. `waitsOf` says which table the
waits of a machine stand in, if `std.async` is registered. -/
inductive Step (waitsOf : Nat → Option Nat) : World → Move → World → Prop where
  | carry {w : World} {m : Nat} (supplies : Bool) : w.doing m = .idle →
      Step waitsOf w (.carry m supplies) ({ w with carried := w.carried + 1 }.does m
        (if supplies then .supplying w.carried else .pushing w.carried))
  | push {w : World} {m : Nat} {item : Carried} (grows : Bool) : w.doing m = .pushing item →
      w.enters m → Step waitsOf w (.push m grows) (w.push m item grows)
  | supply {w : World} {m : Nat} {item : Carried} (grows : Bool) : w.doing m = .supplying item →
      w.enters m → Step waitsOf w (.supply m grows) (w.supply m item grows)
  | tell {w : World} {m : Nat} {waiter : Waiter} {waiters : List Waiter} :
      w.doing m = .telling (waiter :: waiters) →
      Step waitsOf w (.tell m) ((w.setAsync waiter.waits
        ((w.async waiter.waits).complete waiter.id)).does m (.telling waiters))
  | told {w : World} {m : Nat} : w.doing m = .telling [] →
      Step waitsOf w (.tell m) (w.does m .idle)
  | settle {w : World} {m : Nat} {item : Carried} {id : UInt64} :
      w.doing m = .supplied item id → w.enters m → id ≤ w.channel.received →
      Step waitsOf w (.settle m) (w.does m .idle)
  | giveUp {w : World} {m : Nat} :
      w.doing m = .demanding ∨ (∃ item id, w.doing m = .supplied item id) →
      Step waitsOf w (.giveUp m) (w.does m .idle)
  | pop {w : World} {m : Nat} : w.doing m = .idle → w.enters m →
      Step waitsOf w (.pop m) (w.pop m id)
  | demands {w : World} {m : Nat} : w.doing m = .idle →
      Step waitsOf w (.demand m) (w.does m .demanding)
  | demand {w : World} {m : Nat} : w.doing m = .demanding → w.enters m →
      Step waitsOf w (.demand m) (w.demand m)
  | rebuild {w : World} {m : Nat} {item : Carried} : w.doing m = .rebuilding item →
      Step waitsOf w (.rebuild m) ({ w with released := w.released ++ [item] }.does m .idle)
  /-- `peek`, `count` and `hasRead`. -/
  | look {w : World} {m : Nat} : w.doing m = .idle → w.enters m → Step waitsOf w (.look m) w
  | clear {w : World} {m : Nat} : w.doing m = .idle → w.enters m →
      Step waitsOf w (.clear m) (w.clear m)
  | atomic {w : World} {m : Nat} : w.doing m = .idle → w.enters m →
      Step waitsOf w (.atomic m) { w with channel := { w.channel with atomicOwner := some m } }
  | leaveAtomic {w : World} {m : Nat} : w.doing m = .idle → w.channel.holding m →
      Step waitsOf w (.atomic m) { w with channel := { w.channel with atomicOwner := none } }
  | awaitable {w : World} {m : Nat} (grows remembered : Bool) : w.doing m = .idle → w.enters m →
      Step waitsOf w (.awaitable m grows remembered)
        (w.awaitable m (waitsOf m) grows remembered)
  | takeStep {w : World} {m : Nat} (grows remembered : Bool) : w.doing m = .idle → w.enters m →
      Step waitsOf w (.takeStep m grows remembered) (w.takeStep m (waitsOf m) grows remembered)
  /-- `timer` and `external`, or a host that arms a wait. -/
  | arm {w : World} {waits : Nat} (owner : Option Nat) (timed : Bool) (dueMs : Int) :
      Step waitsOf w (.arm waits)
        (w.setAsync waits ((w.async waits).addWait owner timed dueMs))
  | drop {w : World} {m waits : Nat} (id : Nat) : waitsOf m = some waits →
      Step waitsOf w (.drop m) (w.setAsync waits ((w.async waits).drop m id))
  | wait {w : World} {m waits : Nat} (now : Int) : waitsOf m = some waits →
      Step waitsOf w (.wait m) (w.setAsync waits ((w.async waits).takeReady m now))
  /-- Whoever else has an id may complete it. -/
  | complete {w : World} {waits : Nat} (id : Nat) :
      Step waitsOf w (.complete waits) (w.setAsync waits ((w.async waits).complete id))
  | afterTurn {w : World} {m waits : Nat} (now : Int) (id : Nat) : waitsOf m = some waits →
      w.doing m = .idle → Step waitsOf w (.afterTurn m) (w.afterTurn m waits now id)
  | park {w : World} {m id : Nat} (filed : Bool) : w.doing m = .filing id →
      Step waitsOf w (.park m filed) (w.does m (if filed then .parked id else .idle))
  | moveReady {w : World} {m id waits : Nat} (now : Int) (grows : Bool) :
      waitsOf m = some waits → w.doing m = .parked id →
      Step waitsOf w (.moveReady m) (w.moveReady m waits now id grows)
  | free {w : World} {m : Nat} : w.doing m = .idle → w.freed = false →
      Step waitsOf w (.free m) (w.free m)

/-- The worlds that are reached by steps which all meet the condition. -/
inductive Reached (waitsOf : Nat → Option Nat) (meets : World → Move → Prop) : World → Prop where
  | start : Reached waitsOf meets .start
  | step {w w' : World} {move : Move} : Reached waitsOf meets w →
      Step waitsOf w move w' → meets w move → Reached waitsOf meets w'

end Lhat.Channels
