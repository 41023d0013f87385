import Lhat.Foundation.RingQueue
import Mathlib.Data.Int.Basic
import Mathlib.Logic.Function.Basic

/-!
# Tasks

A pool of workers takes turns at tasks. What is done under the lock of the pool, or of a task, is
one step; between two of them any other worker, and any machine that calls, may have its own.
A worker that has nothing to do may look again at any time, so neither the sleep nor the
condition it waits on is kept here, nor that a machine joins the workers it stopped.

Every request for memory may be refused, and what the machine of a task answers to a turn is not
said here.
-/

namespace Lhat.Tasks

/-- A task, as its address. -/
abbrev TaskId := Nat

/-- `LhatRunStatus`, as far as it is told apart. -/
inductive RunStatus where
  | ok
  | suspended
  | typeError
  | outOfMemory
  | faulted
deriving DecidableEq

/-- What the worker does to a task next. -/
inductive TaskMove where
  | moveStart
  | moveResume
  | moveContinue
  | moveNone
deriving DecidableEq

/-- What a turn answered, which is how the worker files the task. -/
inductive StepResult where
  | stepAgain
  | stepPark
  | stepDone
deriving DecidableEq

inductive RanValue where
  | coroutine
  | integer (n : Int64)
  | other
deriving DecidableEq

/-- `LhatRunResult`. -/
structure Ran where
  status : RunStatus := .ok
  value : RanValue := .other
deriving DecidableEq

/-- Whether the machine stands is all that is kept of it, and of the answer whether there is
one. -/
structure Task where
  machine : Bool := false
  drivingSet : Bool := false
  ran : Ran := {}
  move : TaskMove := .moveStart
  parkedOn : Int64 := 0
  finished : Bool := false
  status : RunStatus := .ok
  detached : Bool := false
  taken : Bool := false
  resultRefused : Bool := false
  awaitId : Int64 := 0
  holds : Int := 1
  freed : Bool := false
deriving DecidableEq

/-! ### One turn -/

/-- What `lhatstdlib_async_take` answers: 1, 0 and -1. -/
inductive Taking where
  | ready
  | outstanding
  | absent
deriving DecidableEq

/-- What a turn meets outside the pool. -/
structure Meets where
  /-- Whether there was a machine, whether the program was installed on it and whether the job
  could be rebuilt there. -/
  machineMade : Bool
  installed : Bool
  rebuilt : Bool
  /-- Whether the job is a subroutine, and not a coroutine that was carried in. -/
  subroutine : Bool
  ran : Ran
  coroutineDone : Bool
  /-- Whether `std.async` is registered. -/
  waits : Bool
  taking : Taking
deriving DecidableEq

def afterTurn (meets : Meets) (task : Task) : StepResult × Task :=
  match task.ran.status with
  | .suspended => (.stepAgain, { task with move := .moveContinue })
  | .ok =>
    if !task.drivingSet then
      match task.ran.value with
      | .coroutine => (.stepAgain, { task with drivingSet := true, move := .moveResume })
      | _ => (.stepDone, { task with status := .ok, move := .moveNone })
    else if meets.coroutineDone then (.stepDone, { task with status := .ok, move := .moveNone })
    else
      let id := match task.ran.value with
        | .integer n => n
        | _ => 0
      if !meets.waits || id ≤ 0 then (.stepAgain, { task with move := .moveResume })
      else if meets.taking ≠ .outstanding then (.stepAgain, { task with move := .moveResume })
      else (.stepPark, { task with move := .moveResume, parkedOn := id })
  | status => (.stepDone, { task with status := status, move := .moveNone })

def taskBegin (meets : Meets) (task : Task) : StepResult × Task :=
  let made := { task with machine := meets.machineMade }
  if !meets.machineMade || !meets.installed || !meets.rebuilt then
    (.stepDone, { made with status := .outOfMemory, move := .moveNone })
  else if meets.subroutine then afterTurn meets { made with ran := meets.ran }
  else afterTurn meets { made with drivingSet := true, ran := meets.ran }

def taskTurn (meets : Meets) (task : Task) : StepResult × Task :=
  match task.move with
  | .moveStart => taskBegin meets task
  | .moveResume => afterTurn meets { task with ran := meets.ran }
  | .moveContinue => afterTurn meets { task with ran := meets.ran }
  | .moveNone => (.stepDone, task)

/-- `LhatDetachStatus`. -/
inductive Detaching where
  | done
  | outOfMemory
  | refused
deriving DecidableEq

def taskConclude (detaching : Detaching) (task : Task) : Task :=
  let task :=
    if task.status = .ok ∧ task.machine then
      match detaching with
      | .done => { task with detached := true }
      | .outOfMemory => { task with status := .outOfMemory }
      | .refused => { task with resultRefused := true }
    else task
  { task with machine := false }

/-! ### The pool -/

/-- What a worker is in the middle of. -/
inductive Worker where
  | idle
  | holding (task : TaskId)
  | turned (task : TaskId) (step : StepResult)
  /-- The task was not put back: it ends where it stands. -/
  | ending (task : TaskId)
  | concluded (task : TaskId)
  | finished (task : TaskId)
  | gone
deriving DecidableEq

/-- What a call goes on with once the pool is stopped. -/
inductive After where
  | answer
  | start
deriving DecidableEq

/-- What a machine that called is in the middle of. -/
inductive Caller where
  | idle
  /-- `stop_pool`, in its first loop or its second. -/
  | stopping (overParked : Bool) (after : After)
  | dropping (task : TaskId) (overParked : Bool) (after : After)
  | dropped (task : TaskId) (overParked : Bool) (after : After)
  | starting
  | spawning (started : Nat)
  /-- `async`, with a task that no wrapper holds yet. -/
  | making (task : TaskId)
  | wrapped (task : TaskId)
  /-- The queue did not take the task. -/
  | refused (task : TaskId)
deriving DecidableEq

/-- What the lock of the module covers, and who is at work on it. -/
structure Pool where
  running : Bool
  queue : Ring TaskId
  parked : List TaskId
  parkedCapacity : Nat
  workers : List Worker
  callers : List Caller

namespace Pool

def queuePush (p : Pool) (task : TaskId) (grows : Bool) : Option Pool :=
  (p.queue.makeRoom grows).map fun queue => { p with queue := queue.enqueue task }

def queuePop (p : Pool) : Option (TaskId × Pool) :=
  if p.queue.count = 0 then none
  else ((p.queue.slots[p.queue.head]?).join).map fun task =>
    (task, { p with queue := p.queue.dequeue })

def park (p : Pool) (task : TaskId) (grows : Bool) : Option Pool :=
  if p.parked.length < p.parkedCapacity then some { p with parked := p.parked ++ [task] }
  else if grows then
    some { p with
      parked := p.parked ++ [task]
      parkedCapacity := if 0 < p.parkedCapacity then p.parkedCapacity * 2 else 8 }
  else none

def setWorker (p : Pool) (i : Nat) (worker : Worker) : Pool :=
  { p with workers := p.workers.set i worker }

def setCaller (p : Pool) (i : Nat) (caller : Caller) : Pool :=
  { p with callers := p.callers.set i caller }

/-- What `file_task` does to the pool, where it takes the task back. -/
def file (p : Pool) (task : TaskId) (step : StepResult) (grows : Bool) : Option Pool :=
  if p.running then
    if step = .stepPark then p.park task grows else p.queuePush task grows
  else none

/-- The loop of `move_ready`: the tasks that stay, with the others in the queue. -/
def moveEach (stays grows : TaskId → Bool) : List TaskId → Pool → List TaskId × Pool
  | [], p => ([], p)
  | task :: rest, p =>
    if stays task then
      let (kept, p) := moveEach stays grows rest p
      (task :: kept, p)
    else
      match p.queuePush task (grows task) with
      | some p => moveEach stays grows rest p
      | none =>
        let (kept, p) := moveEach stays grows rest p
        (task :: kept, p)

def moveReady (p : Pool) (stays grows : TaskId → Bool) : Pool :=
  let (kept, moved) := moveEach stays grows p.parked p
  { moved with parked := kept }

end Pool

/-- A value of some machine that names a task. -/
structure Wrapper where
  task : TaskId
  released : Bool
deriving DecidableEq

/-- The pool, the tasks, and what names them outside it: wrappers, and the nodes of carried
trees. The lists at the end are the history: the tasks whose handle was answered, each end and
each answer that was taken. -/
structure World where
  pool : Pool
  tasks : TaskId → Task
  /-- How many tasks were made. The next one has this address. -/
  made : Nat
  wrappers : List Wrapper
  trees : List TaskId
  handed : List TaskId
  ended : List TaskId
  delivered : List TaskId

namespace World

def new : World :=
  ⟨⟨false, .empty, [], 0, [], []⟩, fun _ => {}, 0, [], [], [], [], []⟩

def modify (w : World) (task : TaskId) (f : Task → Task) : World :=
  { w with tasks := Function.update w.tasks task (f (w.tasks task)) }

/-- `task_retain`. -/
def retain (w : World) (task : TaskId) : World :=
  w.modify task fun t => { t with holds := t.holds + 1 }

/-- `task_let_go`. The last to let go frees the task, and its machine if that still stands. -/
def letGo (w : World) (task : TaskId) : World :=
  w.modify task fun t =>
    let last : Bool := t.holds - 1 ≤ 0
    { t with
      holds := t.holds - 1
      freed := t.freed || last
      machine := t.machine && !last }

/-- `task_finished`. -/
def finish (w : World) (task : TaskId) : World :=
  { w with ended := w.ended ++ [task] }.modify task fun t => { t with finished := true }

def setWorker (w : World) (i : Nat) (worker : Worker) : World :=
  { w with pool := w.pool.setWorker i worker }

def setCaller (w : World) (i : Nat) (caller : Caller) : World :=
  { w with pool := w.pool.setCaller i caller }

/-- Where a call goes on when `stop_pool` returns. -/
def stopped : After → Caller
  | .answer => .idle
  | .start => .starting

/-- `stop_pool`, up to its first loop. -/
def stop (w : World) (i : Nat) (after : After) : World :=
  if w.pool.running then
    { w with pool := { w.pool with running := false } }.setCaller i (.stopping false after)
  else w.setCaller i (stopped after)

/-- A turn of the loops of `stop_pool`, up to where the lock is given back. -/
def drain (w : World) (i : Nat) (overParked : Bool) (after : After) : World :=
  if overParked then
    match w.pool.parked.getLast? with
    | some task =>
      { w with pool := { w.pool with parked := w.pool.parked.dropLast } }.modify task
        (fun t => { t with status := .suspended }) |>.setCaller i (.dropping task true after)
    | none => w.setCaller i (stopped after)
  else
    match w.pool.queuePop with
    | some (task, pool) =>
      { w with pool := pool }.modify task (fun t => { t with status := .typeError })
        |>.setCaller i (.dropping task false after)
    | none => w.setCaller i (.stopping true after)

/-- `move_ready`, of a wait that is no longer outstanding. -/
def moveReady (w : World) (stays grows : TaskId → Bool) : World :=
  { w with
    pool := w.pool.moveReady stays grows
    tasks := fun t =>
      if t ∈ w.pool.parked ∧ stays t = false then { w.tasks t with parkedOn := 0 } else w.tasks t }

/-- `file_task`, and what a worker does with a task that it could not put back. -/
def file (w : World) (i : Nat) (task : TaskId) (step : StepResult) (grows : Bool) : World :=
  if step = .stepDone then w.setWorker i (.ending task)
  else
    match w.pool.file task step grows with
    | some pool => { w with pool := pool }.setWorker i .idle
    | none =>
      (w.modify task fun t => { t with status := .suspended }).setWorker i (.ending task)

/-- One more wrapper of a task. -/
def wrapOne (w : World) (task : TaskId) : World :=
  { w with wrappers := w.wrappers ++ [(⟨task, false⟩ : Wrapper)] }

/-- The end of `task_async`: the queue takes a hold of its own. -/
def submit (w : World) (i : Nat) (task : TaskId) (grows : Bool) : World :=
  let held := (w.wrapOne task).retain task
  match if held.pool.running then held.pool.queuePush task grows else none with
  | some pool => { held with pool := pool, handed := held.handed ++ [task] }.setCaller i .idle
  | none => held.setCaller i (.refused task)

/-- A wrapper is given back. -/
def giveBack (w : World) (i : Nat) (task : TaskId) : World :=
  { w with wrappers := w.wrappers.set i ⟨task, true⟩ }.letGo task

/-- `task_await`, where the task has ended. -/
def await (w : World) (task : TaskId) : World :=
  if (w.tasks task).taken then w
  else
    { w with delivered := w.delivered ++ [task] }.modify task fun t =>
      { t with taken := true, detached := false }

end World

/-! ### Steps -/

inductive Act where
  | look (worker : Nat)
  | take (worker : Nat)
  | leave (worker : Nat)
  | turn (worker : Nat)
  | file (worker : Nat)
  | conclude (worker : Nat)
  | finish (worker : Nat)
  | letGo (worker : Nat)
  | call
  | stop (caller : Nat)
  | drain (caller : Nat)
  | finishDropped (caller : Nat)
  | letGoDropped (caller : Nat)
  | start (caller : Nat)
  | spawn (caller : Nat)
  | started (caller : Nat)
  | make (caller : Nat)
  | wrap (caller : Nat)
  | submit (caller : Nat)
  | refuse (caller : Nat)
  | dispose (wrapper : Nat)
  | collect (wrapper : Nat)
  | carry (wrapper : Nat)
  | rebuild (node : Nat)
  | freeTree (node : Nat)
  | await (wrapper : Nat)
  | awaitable (wrapper : Nat)
deriving DecidableEq

inductive Step : World → Act → World → Prop where
  /-- `take_task`, where some are parked and it is time to look at them. -/
  | look {w : World} {i : Nat} (stays grows : TaskId → Bool) :
      w.pool.workers[i]? = some .idle → w.pool.running = true →
      Step w (.look i) (w.moveReady stays grows)
  | take {w : World} {i : Nat} {task : TaskId} {pool : Pool} :
      w.pool.workers[i]? = some .idle → w.pool.running = true →
      w.pool.queuePop = some (task, pool) →
      Step w (.take i) ({ w with pool := pool }.setWorker i (.holding task))
  | leave {w : World} {i : Nat} :
      w.pool.workers[i]? = some .idle → w.pool.running = false →
      Step w (.leave i) (w.setWorker i .gone)
  | turn {w : World} {i : Nat} {task : TaskId} (meets : Meets) :
      w.pool.workers[i]? = some (.holding task) →
      Step w (.turn i) ((w.modify task fun t => (taskTurn meets t).2).setWorker i
        (.turned task (taskTurn meets (w.tasks task)).1))
  | file {w : World} {i : Nat} {task : TaskId} {step : StepResult} (grows : Bool) :
      w.pool.workers[i]? = some (.turned task step) →
      Step w (.file i) (w.file i task step grows)
  | conclude {w : World} {i : Nat} {task : TaskId} (detaching : Detaching) :
      w.pool.workers[i]? = some (.ending task) →
      Step w (.conclude i) ((w.modify task (taskConclude detaching)).setWorker i
        (.concluded task))
  | finish {w : World} {i : Nat} {task : TaskId} :
      w.pool.workers[i]? = some (.concluded task) →
      Step w (.finish i) ((w.finish task).setWorker i (.finished task))
  | letGo {w : World} {i : Nat} {task : TaskId} :
      w.pool.workers[i]? = some (.finished task) →
      Step w (.letGo i) ((w.letGo task).setWorker i .idle)
  /-- One more machine, on a thread of its own. -/
  | call {w : World} :
      Step w .call { w with pool := { w.pool with callers := w.pool.callers ++ [Caller.idle] } }
  | stop {w : World} {i : Nat} (after : After) :
      w.pool.callers[i]? = some .idle → Step w (.stop i) (w.stop i after)
  | drain {w : World} {i : Nat} {overParked : Bool} {after : After} :
      w.pool.callers[i]? = some (.stopping overParked after) →
      Step w (.drain i) (w.drain i overParked after)
  | finishDropped {w : World} {i : Nat} {task : TaskId} {overParked : Bool} {after : After} :
      w.pool.callers[i]? = some (.dropping task overParked after) →
      Step w (.finishDropped i) ((w.finish task).setCaller i (.dropped task overParked after))
  | letGoDropped {w : World} {i : Nat} {task : TaskId} {overParked : Bool} {after : After} :
      w.pool.callers[i]? = some (.dropped task overParked after) →
      Step w (.letGoDropped i) ((w.letGo task).setCaller i (.stopping overParked after))
  /-- `task_start`, once there is no pool. Without room for the threads it answers an error. -/
  | start {w : World} {i : Nat} (granted : Bool) :
      w.pool.callers[i]? = some .starting →
      Step w (.start i) (if granted then
        { w with pool := { w.pool with running := true } }.setCaller i (.spawning 0)
        else w.setCaller i .idle)
  | spawn {w : World} {i n : Nat} :
      w.pool.callers[i]? = some (.spawning n) →
      Step w (.spawn i)
        ({ w with pool := { w.pool with workers := w.pool.workers ++ [Worker.idle] } }.setCaller i
          (.spawning (n + 1)))
  | started {w : World} {i n : Nat} :
      w.pool.callers[i]? = some (.spawning n) →
      Step w (.started i) (if n = 0 then w.stop i .answer else w.setCaller i .idle)
  /-- `task_async`, up to where the task is made. The wrapper that is answered is counted
  already. -/
  | make {w : World} {i : Nat} :
      w.pool.callers[i]? = some .idle →
      Step w (.make i) ({ w with
        made := w.made + 1
        tasks := Function.update w.tasks w.made {} }.setCaller i (.making w.made))
  /-- The type, the job or the wrapper could not be made. -/
  | makeFails {w : World} {i : Nat} {task : TaskId} :
      w.pool.callers[i]? = some (.making task) →
      Step w (.wrap i) ((w.letGo task).setCaller i .idle)
  | wrap {w : World} {i : Nat} {task : TaskId} :
      w.pool.callers[i]? = some (.making task) →
      Step w (.wrap i) (w.setCaller i (.wrapped task))
  | submit {w : World} {i : Nat} {task : TaskId} (grows : Bool) :
      w.pool.callers[i]? = some (.wrapped task) →
      Step w (.submit i) (w.submit i task grows)
  | refuse {w : World} {i : Nat} {task : TaskId} :
      w.pool.callers[i]? = some (.refused task) →
      Step w (.refuse i) ((w.letGo task).setCaller i .idle)
  /-- `dispose^` by hand. It is not asked whether the wrapper was given back before. -/
  | dispose {w : World} {i : Nat} {wrapper : Wrapper} :
      w.wrappers[i]? = some wrapper →
      Step w (.dispose i) (w.giveBack i wrapper.task)
  /-- The collector, or the end of the machine. -/
  | collect {w : World} {i : Nat} {task : TaskId} :
      w.wrappers[i]? = some ⟨task, false⟩ →
      Step w (.collect i) (w.giveBack i task)
  | carry {w : World} {i : Nat} {task : TaskId} :
      w.wrappers[i]? = some ⟨task, false⟩ →
      Step w (.carry i) ({ w with trees := w.trees ++ [task] }.retain task)
  | rebuild {w : World} {j : Nat} {task : TaskId} :
      w.trees[j]? = some task →
      Step w (.rebuild j) ((w.wrapOne task).retain task)
  | freeTree {w : World} {j : Nat} {task : TaskId} :
      w.trees[j]? = some task →
      Step w (.freeTree j) ({ w with trees := w.trees.eraseIdx j }.letGo task)
  | await {w : World} {i : Nat} {wrapper : Wrapper} :
      w.wrappers[i]? = some wrapper → (w.tasks wrapper.task).finished = true →
      Step w (.await i) (w.await wrapper.task)
  | awaitable {w : World} {i : Nat} {wrapper : Wrapper} (id : Int64) :
      w.wrappers[i]? = some wrapper →
      Step w (.awaitable i) (w.modify wrapper.task fun t =>
        { t with awaitId := if t.awaitId = 0 then id else t.awaitId })

end Lhat.Tasks
