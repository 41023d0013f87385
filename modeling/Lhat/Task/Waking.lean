import Lhat.Task.Ledger

/-!
# Who looks after the tasks

A worker that finds nothing to run and nothing parked sleeps until it is signalled. Only what
enters the run queue signals, so what is parked is looked after by a worker that is still on its
feet. One signal wakes one worker, and that one may find that another took what it was woken
for.

This is the pool while it runs, with as many workers as were started.
-/

namespace Lhat.Tasks

/-- What a worker is in the middle of, with how it waits for a task. -/
inductive Phase where
  /-- At the lock of the pool. -/
  | looking
  /-- Asleep for `TASK_LOOK_MS`. -/
  | napping
  /-- Asleep on `work`. -/
  | waiting
  /-- A signal for `work` has reached it, and it is at the lock again. -/
  | woken
  /-- Inside a job, which may never return. -/
  | inside (task : TaskId)
  | filing (task : TaskId) (step : StepResult)
  | ending (task : TaskId)
deriving DecidableEq

def Phase.worker : Phase → Worker
  | looking | napping | waiting | woken => .idle
  | inside task => .holding task
  | filing task step => .turned task step
  | ending task => .ending task

/-- On its feet: it comes to the lock, whatever the others do. -/
def Phase.afoot : Phase → Bool
  | looking | napping | woken => true
  | _ => false

/-- `lhat_condition_signal`: one of those that wait is woken, if there are any. -/
inductive Signal : List Phase → List Phase → Prop where
  | wakes {phases : List Phase} {i : Nat} :
      phases[i]? = some .waiting → Signal phases (phases.set i .woken)
  | nobody {phases : List Phase} : .waiting ∉ phases → Signal phases phases

/-- As many signals as there are pushes. -/
inductive Signals : Nat → List Phase → List Phase → Prop where
  | none {phases : List Phase} : Signals 0 phases phases
  | more {n : Nat} {phases phases' phases'' : List Phase} :
      Signal phases phases' → Signals n phases' phases'' → Signals (n + 1) phases phases''

structure Watch where
  pool : Pool
  phases : List Phase

namespace Watch

def enter (w : Watch) (i : Nat) (phase : Phase) : Watch :=
  ⟨w.pool.setWorker i phase.worker, w.phases.set i phase⟩

/-- The end of a turn of `take_task`, with the lock held. -/
def goOn (w : Watch) (i : Nat) : Watch :=
  match w.pool.queuePop with
  | some (task, pool) => { w with pool := pool }.enter i (.inside task)
  | none => if w.pool.parked = [] then w.enter i .waiting else w.enter i .napping

/-- The parked tasks are looked at, when it is time. -/
def looked (p : Pool) (due : Bool) (stays grows : TaskId → Bool) : Pool :=
  if p.parked ≠ [] ∧ due then p.moveReady stays grows else p

inductive Act where
  | spawn
  | submit
  | wake (worker : Nat)
  | round (worker : Nat)
  | turn (worker : Nat)
  | file (worker : Nat)
  | conclude (worker : Nat)

inductive Step : Watch → Act → Watch → Prop where
  | spawn {w : Watch} :
      Step w .spawn ⟨{ w.pool with workers := w.pool.workers ++ [.idle] }, w.phases ++ [.looking]⟩
  /-- A push from outside or from a job, whoever makes it. -/
  | submit {w : Watch} {pool : Pool} {phases : List Phase} (task : TaskId) (grows : Bool) :
      w.pool.queuePush task grows = some pool → Signal w.phases phases →
      Step w .submit ⟨pool, phases⟩
  /-- A worker may be woken by nothing at all. -/
  | wake {w : Watch} {i : Nat} :
      w.phases[i]? = some .waiting → Step w (.wake i) (w.enter i .woken)
  /-- A turn of the loop of `take_task`. -/
  | round {w : Watch} {i : Nat} {phase : Phase} {phases : List Phase} (due : Bool)
      (stays grows : TaskId → Bool) :
      w.phases[i]? = some phase → phase.afoot = true →
      Signals ((looked w.pool due stays grows).queued.length - w.pool.queued.length) w.phases
        phases →
      Step w (.round i) (goOn ⟨looked w.pool due stays grows, phases⟩ i)
  | turn {w : Watch} {i : Nat} {task : TaskId} (step : StepResult) :
      w.phases[i]? = some (.inside task) → Step w (.turn i) (w.enter i (.filing task step))
  | park {w : Watch} {i : Nat} {task : TaskId} {pool : Pool} (grows : Bool) :
      w.phases[i]? = some (.filing task .stepPark) →
      w.pool.file task .stepPark grows = some pool →
      Step w (.file i) ({ w with pool := pool }.enter i .looking)
  | again {w : Watch} {i : Nat} {task : TaskId} {pool : Pool} {phases : List Phase}
      (grows : Bool) :
      w.phases[i]? = some (.filing task .stepAgain) →
      w.pool.file task .stepAgain grows = some pool → Signal w.phases phases →
      Step w (.file i) (enter ⟨pool, phases⟩ i .looking)
  /-- The task has ended, or there is no room for it. -/
  | ends {w : Watch} {i : Nat} {task : TaskId} {step : StepResult} (grows : Bool) :
      w.phases[i]? = some (.filing task step) →
      step = .stepDone ∨ w.pool.file task step grows = none →
      Step w (.file i) (w.enter i (.ending task))
  | conclude {w : Watch} {i : Nat} {task : TaskId} :
      w.phases[i]? = some (.ending task) → Step w (.conclude i) (w.enter i .looking)

/-- What a pool that was just started comes to. -/
inductive Reached : Watch → Prop where
  | start {p : Pool} : p.running = true → p.queue.Denotes [] → p.parked = [] → p.workers = [] →
      Reached ⟨p, []⟩
  | step {w w' : Watch} {act : Act} : Reached w → Step w act w' → Reached w'

end Watch

/-! ### Signals -/

variable {phases phases' : List Phase} {i n : Nat} {a b : Phase}

theorem Signal.afoot (h : Signal phases phases') (hwait : .waiting ∈ phases') :
    .waiting ∈ phases ∧ phases'.countP Phase.afoot = phases.countP Phase.afoot + 1 := by
  cases h with
  | wakes hi =>
    refine ⟨List.mem_of_getElem? hi, ?_⟩
    have := countP_set_add (b := .woken) hi Phase.afoot
    simpa [Phase.afoot] using this
  | nobody hnot => exact absurd hwait hnot

theorem Signals.afoot (h : Signals n phases phases') (hwait : .waiting ∈ phases') :
    .waiting ∈ phases ∧ phases'.countP Phase.afoot = phases.countP Phase.afoot + n := by
  induction h with
  | none => exact ⟨hwait, rfl⟩
  | more hone _ ih =>
    obtain ⟨hwait', hmore⟩ := ih hwait
    obtain ⟨hwait'', hcount⟩ := hone.afoot hwait'
    exact ⟨hwait'', by omega⟩

theorem Signal.keeps (h : Signal phases phases') (ha : phases[i]? = some a)
    (hne : a ≠ .waiting) : phases'[i]? = some a := by
  cases h with
  | @wakes j hj =>
    by_cases hij : j = i
    · subst hij
      rw [hj] at ha
      exact absurd (Option.some.inj ha).symm hne
    · rwa [List.getElem?_set_ne hij]
  | nobody _ => exact ha

theorem Signals.keeps (h : Signals n phases phases') (ha : phases[i]? = some a)
    (hne : a ≠ .waiting) : phases'[i]? = some a := by
  induction h with
  | none => exact ha
  | more hone _ ih => exact ih (hone.keeps ha hne)

theorem Signal.exists (phases : List Phase) : ∃ phases', Signal phases phases' := by
  by_cases h : Phase.waiting ∈ phases
  · obtain ⟨i, hi⟩ := List.mem_iff_getElem?.mp h
    exact ⟨_, .wakes hi⟩
  · exact ⟨_, .nobody h⟩

theorem Signals.exists (n : Nat) : ∀ phases : List Phase, ∃ phases', Signals n phases phases' := by
  induction n with
  | zero => exact fun phases => ⟨phases, .none⟩
  | succ n ih =>
    intro phases
    obtain ⟨phases', hone⟩ := Signal.exists phases
    obtain ⟨phases'', hmore⟩ := ih phases'
    exact ⟨phases'', .more hone hmore⟩

/-! ### What is looked after -/

namespace Watch

variable {p p' : Pool} {w w' : Watch}

/-- How many have to be on their feet while one waits: one for each task in the queue, and one
for those that are parked. -/
def needed (p : Pool) : Nat := p.queued.length + if p.parked = [] then 0 else 1

structure Watched (w : Watch) : Prop where
  ring : w.pool.queue.Denotes w.pool.queued
  afoot : .waiting ∈ w.phases → needed w.pool ≤ w.phases.countP Phase.afoot

theorem waiting_of_set (hb : b ≠ .waiting)
    (hwait : .waiting ∈ phases.set i b) : .waiting ∈ phases := by
  obtain hin | heq := List.mem_or_eq_of_mem_set hwait
  · exact hin
  · exact absurd heq.symm hb

section

variable (hring : p.queue.Denotes p.queued)
include hring

theorem queuePush_needed {task : TaskId} {grows : Bool}
    (h : p.queuePush task grows = some p') :
    p'.queue.Denotes p'.queued ∧ needed p' = needed p + 1 := by
  obtain ⟨hdenotes, hp⟩ := Pool.queuePush_queued hring h
  have hqueued := Pool.queued_eq hdenotes
  refine ⟨hqueued ▸ hdenotes, ?_⟩
  unfold needed
  rw [hqueued, List.length_append, List.length_singleton, hp]
  dsimp only
  omega

theorem park_needed {task : TaskId} {grows : Bool}
    (h : p.park task grows = some p') : p'.queue.Denotes p'.queued ∧ needed p' ≤ needed p + 1 := by
  have hp : p'.queue = p.queue := by
    unfold Pool.park at h
    split at h
    · cases h
      rfl
    · split at h
      · cases h
        rfl
      · cases h
  have hqueued : p'.queued = p.queued := by
    unfold Pool.queued
    rw [hp]
  refine ⟨by rwa [hqueued, hp], ?_⟩
  unfold needed
  rw [hqueued]
  split <;> split <;> omega

theorem looked_needed (due : Bool)
    (stays grows : TaskId → Bool) :
    (looked p due stays grows).queue.Denotes (looked p due stays grows).queued ∧
      needed (looked p due stays grows) ≤
        needed p + ((looked p due stays grows).queued.length - p.queued.length) := by
  unfold looked
  split
  · rename_i hdue
    rcases hmoved : Pool.moveEach stays grows p.parked p with ⟨kept, moved⟩
    obtain ⟨hring', -, hcount⟩ := Pool.moveEach_place stays grows p.parked hring hmoved
    have hmoveReady : p.moveReady stays grows = { moved with parked := kept } := by
      unfold Pool.moveReady
      rw [hmoved]
    have hqueued : (p.moveReady stays grows).queued = moved.queued := by
      rw [hmoveReady]
      rfl
    rw [hmoveReady] at hqueued ⊢
    refine ⟨by rwa [hqueued], ?_⟩
    unfold needed
    rw [hqueued, if_neg hdue.1]
    split <;> omega
  · refine ⟨hring, ?_⟩
    omega

theorem queuePop_needed {task : TaskId}
    (h : p.queuePop = some (task, p')) : p'.queue.Denotes p'.queued ∧ needed p' + 1 = needed p := by
  obtain ⟨hputs, hring'⟩ := Pool.Puts.queuePop hring h
  refine ⟨hring', ?_⟩
  unfold Pool.queuePop at h
  split at h
  · cases h
  · rename_i hcount
    obtain ⟨x, -, h⟩ := Option.map_eq_some_iff.mp h
    cases h
    have hlength := hring.count
    have hlength' := hring'.count
    have hdequeue : p.queue.dequeue.count = p.queue.count - 1 := rfl
    unfold needed
    dsimp only at hlength' ⊢
    omega

theorem queued_of_queuePop (h : p.queuePop = none) :
    p.queued = [] := by
  unfold Pool.queuePop at h
  split at h
  · rename_i hcount
    rw [hring.count] at hcount
    exact List.length_eq_zero_iff.mp hcount
  · cases hq : p.queued with
    | nil => rfl
    | cons x rest =>
      rw [hq] at hring
      rw [hring.first] at h
      cases h

end

theorem Watched.enter (hw : Watched w) (ha : w.phases[i]? = some a) (hb : b ≠ .waiting)
    (hafoot : a.afoot = true → b.afoot = true) : Watched (w.enter i b) := by
  refine ⟨hw.ring, fun hwait => (hw.afoot (waiting_of_set hb hwait)).trans ?_⟩
  have hcount := countP_set_add (b := b) ha Phase.afoot
  have hle : a.afoot.toNat ≤ b.afoot.toNat := by
    cases h : a.afoot
    · exact Nat.zero_le _
    · rw [hafoot h]
  change w.phases.countP Phase.afoot ≤ (w.phases.set i b).countP Phase.afoot
  omega

theorem watched_goOn (hw : Watched w) (ha : w.phases[i]? = some a) (hafoot : a.afoot = true) :
    Watched (w.goOn i) := by
  unfold goOn
  split
  · rename_i task pool hpop
    obtain ⟨hring, hneeded⟩ := queuePop_needed hw.ring hpop
    refine ⟨hring, fun hwait => ?_⟩
    have hle := hw.afoot (waiting_of_set (by simp) hwait)
    have hcount := countP_set_add (b := .inside task) ha Phase.afoot
    rw [hafoot] at hcount
    change needed pool ≤ (w.phases.set i (.inside task)).countP Phase.afoot
    simp only [Phase.afoot, Bool.toNat_true, Bool.toNat_false] at hcount
    omega
  · rename_i hpop
    split
    · rename_i hparked
      refine ⟨hw.ring, fun _ => ?_⟩
      change needed w.pool ≤ _
      unfold needed
      rw [queued_of_queuePop hw.ring hpop, if_pos hparked]
      exact Nat.zero_le _
    · exact hw.enter ha (by simp) fun _ => rfl

theorem Watched.step {act : Act} (hw : Watched w) (h : Step w act w') : Watched w' := by
  cases h with
  | spawn =>
    refine ⟨hw.ring, fun hwait => ?_⟩
    have hold : Phase.waiting ∈ w.phases := by simpa using hwait
    refine (hw.afoot hold).trans ?_
    change _ ≤ (w.phases ++ [Phase.looking]).countP Phase.afoot
    rw [List.countP_append]
    exact Nat.le_add_right _ _
  | submit task grows hpush hsignal =>
    obtain ⟨hring, hneeded⟩ := queuePush_needed hw.ring hpush
    refine ⟨hring, fun hwait => ?_⟩
    obtain ⟨hold, hcount⟩ := hsignal.afoot hwait
    have := hw.afoot hold
    dsimp only
    omega
  | wake hi => exact hw.enter hi (by simp) fun _ => rfl
  | @round _ _ phases due stays grows hi hafoot hsignals =>
    obtain ⟨hring, hneeded⟩ := looked_needed hw.ring due stays grows
    have hlooked : Watched ⟨looked w.pool due stays grows, phases⟩ := by
      refine ⟨hring, fun hwait => ?_⟩
      obtain ⟨hold, hcount⟩ := hsignals.afoot hwait
      have := hw.afoot hold
      dsimp only
      omega
    refine watched_goOn hlooked (hsignals.keeps hi ?_) hafoot
    rintro rfl
    cases hafoot
  | turn step hi => exact hw.enter hi (by simp) fun h => by cases h
  | park grows hi hfile =>
    unfold Pool.file at hfile
    split at hfile
    · rename_i pool _
      obtain ⟨hring, hneeded⟩ := park_needed hw.ring hfile
      refine ⟨hring, fun hwait => ?_⟩
      have := hw.afoot (waiting_of_set (by simp) hwait)
      have hcount := countP_set_add (b := .looking) hi Phase.afoot
      change needed pool ≤ (w.phases.set _ .looking).countP Phase.afoot
      simp only [Phase.afoot, Bool.toNat_true, Bool.toNat_false] at hcount
      omega
    · cases hfile
  | again grows hi hfile hsignal =>
    unfold Pool.file at hfile
    split at hfile
    · obtain ⟨hring, hneeded⟩ := queuePush_needed hw.ring hfile
      refine Watched.enter ⟨hring, fun hwait => ?_⟩ (hsignal.keeps hi (by simp)) (by simp)
        fun _ => rfl
      obtain ⟨hold, hcount⟩ := hsignal.afoot hwait
      have := hw.afoot hold
      dsimp only
      omega
    · cases hfile
  | ends grows hi _ => exact hw.enter hi (by simp) fun h => by cases h
  | conclude hi => exact hw.enter hi (by simp) fun _ => rfl

theorem Reached.watched (h : Reached w) : Watched w := by
  induction h with
  | start _ hring _ _ =>
    refine ⟨?_, fun hwait => (nomatch hwait)⟩
    rwa [Pool.queued_eq hring]
  | step _ hstep ih => exact ih.step hstep

/-! ### The workers of the pool -/

/-- The phases tell more of the workers than the pool does, and nothing else. -/
def Told (w : Watch) : Prop := w.pool.workers = w.phases.map Phase.worker

theorem Told.enter (hw : Told w) (i : Nat) (b : Phase) : Told (w.enter i b) := by
  change w.pool.workers.set i b.worker = (w.phases.set i b).map Phase.worker
  rw [List.map_set, hw]

theorem Signal.worker (h : Signal phases phases') :
    phases'.map Phase.worker = phases.map Phase.worker := by
  cases h with
  | @wakes i hi =>
    rw [List.map_set]
    refine List.ext_getElem? fun j => ?_
    rw [List.getElem?_set]
    split
    · rename_i hij
      obtain ⟨hlt, hget⟩ := List.getElem?_eq_some_iff.mp hi
      subst hij
      simp [hlt, hget, Phase.worker]
    · rfl
  | nobody _ => rfl

theorem Signals.worker (h : Signals n phases phases') :
    phases'.map Phase.worker = phases.map Phase.worker := by
  induction h with
  | none => rfl
  | more hone _ ih => rw [ih, Signal.worker hone]

theorem looked_workers (due : Bool) (stays grows : TaskId → Bool)
    (hring : p.queue.Denotes p.queued) : (looked p due stays grows).workers = p.workers := by
  unfold looked
  split
  · rcases hmoved : Pool.moveEach stays grows p.parked p with ⟨kept, moved⟩
    obtain ⟨-, hp, -⟩ := Pool.moveEach_place stays grows p.parked hring hmoved
    unfold Pool.moveReady
    rw [hmoved, hp]
  · rfl

theorem Told.goOn (hw : Told w) (hring : w.pool.queue.Denotes w.pool.queued) (i : Nat) :
    Told (w.goOn i) := by
  unfold Watch.goOn
  split
  · rename_i task pool hpop
    refine Told.enter ?_ i _
    change pool.workers = _
    rw [← (Pool.Puts.queuePop hring hpop).1.workers]
    exact hw
  · split
    · exact hw.enter i _
    · exact hw.enter i _

theorem Told.step {act : Act} (hw : Told w) (hring : w.pool.queue.Denotes w.pool.queued)
    (h : Step w act w') : Told w' := by
  unfold Told at hw
  cases h with
  | spawn =>
    change w.pool.workers ++ [.idle] = (w.phases ++ [Phase.looking]).map Phase.worker
    rw [List.map_append, hw]
    rfl
  | submit task grows hpush hsignal =>
    change _ = List.map Phase.worker _
    rw [Signal.worker hsignal, (Pool.Puts.queuePush hring hpush).workers, hw]
  | wake _ => exact Told.enter hw _ _
  | round due stays grows _ _ hsignals =>
    refine Told.goOn ?_ (looked_needed hring due stays grows).1 _
    change _ = List.map Phase.worker _
    rw [Signals.worker hsignals, looked_workers due stays grows hring, hw]
  | turn _ _ => exact Told.enter hw _ _
  | park grows _ hfile =>
    refine Told.enter ?_ _ _
    change _ = List.map Phase.worker _
    rw [(Pool.Puts.file hring hfile).workers, hw]
  | again grows _ hfile hsignal =>
    refine Told.enter ?_ _ _
    change _ = List.map Phase.worker _
    rw [Signal.worker hsignal, (Pool.Puts.file hring hfile).workers, hw]
  | ends _ _ _ => exact Told.enter hw _ _
  | conclude _ => exact Told.enter hw _ _

theorem Reached.told (h : Reached w) : Told w := by
  induction h with
  | start _ _ _ hworkers => exact hworkers
  | step hreached hstep ih => exact ih.step hreached.watched.ring hstep

/-! ### Nobody sleeps over a task -/

theorem round_exists (hi : w.phases[i]? = some a) (ha : a.afoot = true) :
    ∃ w', Step w (.round i) w' := by
  obtain ⟨phases', hsignals⟩ := Signals.exists ((looked w.pool true (fun _ => false)
    fun _ => true).queued.length - w.pool.queued.length) w.phases
  exact ⟨_, .round true _ _ hi ha hsignals⟩

/-- Where there is a task in the queue, or one is parked, and a worker waits with no signal on
its way to it, another is on its feet, in no job, and looks at the tasks again. -/
theorem Reached.looked_after (h : Reached w) (htasks : w.pool.parked ≠ [] ∨ w.pool.queue.count ≠ 0)
    (hi : w.phases[i]? = some .waiting) :
    ∃ j phase, j ≠ i ∧ w.phases[j]? = some phase ∧
      (phase = .looking ∨ phase = .napping ∨ phase = .woken) ∧
      w.pool.workers[j]? = some .idle ∧ ∃ w', Step w (.round j) w' := by
  have hwatched := h.watched
  have hneeded := hwatched.afoot (List.mem_of_getElem? hi)
  have hpos : 0 < needed w.pool := by
    unfold needed
    obtain hparked | hcount := htasks
    · rw [if_neg hparked]
      exact Nat.succ_pos _
    · rw [hwatched.ring.count] at hcount
      omega
  obtain ⟨phase, hmem, hafoot⟩ := List.countP_pos_iff.mp (hpos.trans_le hneeded)
  obtain ⟨j, hj⟩ := List.mem_iff_getElem?.mp hmem
  refine ⟨j, phase, ?_, hj, ?_, ?_, round_exists hj hafoot⟩
  · rintro rfl
    rw [hi] at hj
    cases hj
    cases hafoot
  · cases phase <;> simp_all [Phase.afoot]
  · rw [h.told, List.getElem?_map, hj]
    cases phase <;> simp_all [Phase.afoot, Phase.worker]

/-- Two workers went to sleep, and one of them is woken for a task. -/
theorem looked_after_submitted : ∃ w, Reached w ∧ w.pool.queue.count = 1 ∧
    w.phases = [.woken, .waiting] ∧
    ∃ j phase, j ≠ 1 ∧ w.phases[j]? = some phase ∧
      (phase = .looking ∨ phase = .napping ∨ phase = .woken) ∧
      w.pool.workers[j]? = some .idle ∧ ∃ w', Step w (.round j) w' := by
  let never : TaskId → Bool := fun _ => false
  have h₀ : Reached ⟨⟨true, .empty, [], 0, [], []⟩, []⟩ := .start rfl .empty rfl rfl
  have h₂ := (h₀.step .spawn).step .spawn
  have h₃ := h₂.step (.round (i := 0) false never never rfl rfl .none)
  have h₄ := h₃.step (.round (i := 1) false never never rfl rfl .none)
  have h₅ := h₄.step (.submit 0 true rfl (.wakes (i := 0) rfl))
  exact ⟨_, h₅, rfl, rfl, h₅.looked_after (.inr (by decide)) rfl⟩

end Watch

end Lhat.Tasks
