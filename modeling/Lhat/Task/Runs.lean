import Lhat.Task.Steps

/-!
# A task has one place and one end

Whatever the workers and the machines that call do, in whatever order: a task whose handle was
answered stands in one place until it ends, it ends once and is answered once, and it is freed by
the last that names it. What the pool is stopped with is one more place: a task that `stop_pool`
has taken out of the queue is in nobody else's hands until it is finished.
-/

namespace Lhat.Tasks

variable {w w' : World} {a : Act} {i : Nat} {t u : TaskId}

/-- A handle is not used any more once it was given back by hand. -/
def World.Uses (w : World) : Act → Prop
  | .dispose i | .await i | .awaitable i => ∀ x, w.wrappers[i]? = some x → x.released = false
  | _ => True

/-- What runs lead to in which no handle is used after it was given back. -/
inductive Reached : World → Prop where
  | new : Reached World.new
  | step {w w' : World} {a : Act} : Reached w → w.Uses a → Step w a w' → Reached w'

theorem Inv.new : Inv World.new where
  ring := .empty
  fair t := by
    have hunborn : ¬ (World.new.ledger t).born = true := fun hborn =>
      Nat.not_lt_zero t (of_decide_eq_true hborn)
    exact ⟨fun _ => ⟨rfl, rfl, rfl⟩, fun hborn => absurd hborn hunborn,
      fun hborn => absurd hborn hunborn, rfl, Nat.zero_le 1, le_rfl,
      fun hborn => absurd hborn hunborn, fun hborn => absurd hborn hunborn⟩

theorem Inv.born {j : Nat} (hw : Inv w) (h : w.wrappers[j]? = some ⟨u, false⟩) : u < w.made := by
  have hlive : 0 < (w.ledger u).live := by
    refine List.countP_pos_iff.mpr ⟨_, List.mem_of_getElem? h, ?_⟩
    simp
  by_contra hborn
  have := ((hw.fair u).unborn (decide_eq_false hborn)).1
  unfold Ledger.named at this
  omega

theorem Wrapper.eq_of_used {x : Wrapper} (h : x.released = false) : x = ⟨x.task, false⟩ := by
  cases x
  cases h
  rfl

theorem Inv.step (hw : Inv w) (huses : w.Uses a) (hstep : Step w a w') : Inv w' := by
  cases hstep with
  | look stays grows _ _ => exact hw.moveReady stays grows
  | take hidle _ hpop => exact hw.take hidle hpop
  | leave hidle _ => exact hw.quiet (Quiet.setWorker hw hidle (fun _ => rfl) fun _ => rfl)
  | @turn _ task meets hholding =>
    exact hw.works hholding (.turned task _) (fun _ => rfl) (fun _ => rfl)
      (fun t => (taskTurn meets t).2) (taskTurn_kept meets)
  | file grows hturned => exact hw.file hturned grows
  | @conclude _ task detaching hending =>
    exact hw.works hending (.concluded task) (fun _ => rfl) (fun _ => rfl)
      (taskConclude detaching) (taskConclude_kept detaching)
  | finish hconcluded => exact hw.finish hconcluded
  | letGo hfinished => exact hw.letGo_worker hfinished
  | call => exact hw.called
  | stop after hidle => exact hw.stop hidle (fun _ => ⟨rfl, rfl, rfl, rfl⟩) after
  | drain hstopping => exact hw.drain hstopping
  | finishDropped hdropping => exact hw.finishDropped hdropping
  | letGoDropped hdropped =>
    refine hw.letGo_caller hdropped (fun _ => ⟨rfl, rfl, rfl, rfl⟩) (fun _ => rfl) fun t => ?_
    simp [Caller.owes, Caller.refuses, Caller.makes, eq_comm]
  | start granted hstarting =>
    split
    · exact (hw.setRunning true).setCaller hstarting fun _ => ⟨rfl, rfl, rfl, rfl⟩
    · exact hw.setCaller hstarting fun _ => ⟨rfl, rfl, rfl, rfl⟩
  | spawn hspawning => exact hw.spawned.setCaller hspawning fun _ => ⟨rfl, rfl, rfl, rfl⟩
  | started hspawning =>
    split
    · exact hw.stop hspawning (fun _ => ⟨rfl, rfl, rfl, rfl⟩) .answer
    · exact hw.setCaller hspawning fun _ => ⟨rfl, rfl, rfl, rfl⟩
  | make hidle => exact hw.make hidle
  | makeFails hmaking =>
    refine hw.letGo_caller hmaking (fun _ => ⟨rfl, rfl, rfl, rfl⟩) (fun _ => rfl) fun t => ?_
    simp [Caller.owes, Caller.refuses, Caller.makes, eq_comm]
  | wrap hmaking => exact hw.setCaller hmaking fun _ => ⟨rfl, rfl, rfl, rfl⟩
  | submit grows hwrapped => exact hw.submit hwrapped grows
  | refuse hrefused =>
    refine hw.letGo_caller hrefused (fun _ => ⟨rfl, rfl, rfl, rfl⟩) (fun _ => rfl) fun t => ?_
    simp [Caller.owes, Caller.refuses, Caller.makes, eq_comm]
  | dispose hwrapper =>
    rw [Wrapper.eq_of_used (huses _ hwrapper)] at hwrapper
    exact hw.giveBack hwrapper
  | collect hwrapper => exact hw.giveBack hwrapper
  | carry hwrapper => exact hw.carry hwrapper
  | rebuild hnode => exact hw.rebuild hnode
  | freeTree hnode => exact hw.freeTree hnode
  | await hwrapper _ =>
    rw [Wrapper.eq_of_used (huses _ hwrapper)] at hwrapper
    exact hw.await (hw.born hwrapper)
  | awaitable id _ => exact hw.quiet (Quiet.modify hw ⟨rfl, rfl, rfl, rfl⟩)

theorem Reached.inv (h : Reached w) : Inv w := by
  induction h with
  | new => exact Inv.new
  | step _ huses hstep ih => exact ih.step huses hstep

/-! ### Who works on a machine -/

/-- What a turn reads and writes of a task, its machine first. -/
def Task.driven (t : Task) : Bool × Bool × Ran × TaskMove :=
  (t.machine, t.drivingSet, t.ran, t.move)

theorem letGo_driven (h : ((w.letGo u).tasks t).freed = false) :
    ((w.letGo u).tasks t).driven = (w.tasks t).driven := by
  by_cases ht : t = u
  · subst ht
    simp only [World.letGo, World.modify, Function.update_self, Bool.or_eq_false_iff] at h ⊢
    simp only [Task.driven, h.2, Bool.not_false, Bool.and_true]
  · simp only [World.letGo, World.modify, Function.update_of_ne ht]

theorem letGo_finished : ((w.letGo u).tasks t).finished = (w.tasks t).finished := by
  by_cases ht : t = u
  · subst ht
    simp only [World.letGo, World.modify, Function.update_self]
  · simp only [World.letGo, World.modify, Function.update_of_ne ht]

theorem update_driven {tasks : TaskId → Task} {task : Task} (h : task.driven = (tasks u).driven) :
    (Function.update tasks u task t).driven = (tasks t).driven := by
  by_cases ht : t = u
  · subst ht
    rw [Function.update_self, h]
  · rw [Function.update_of_ne ht]

theorem submit_driven (grows : Bool) :
    ((w.submit i u grows).tasks t).driven = (w.tasks t).driven := by
  have hheld : (((w.wrapOne u).retain u).tasks t).driven = (w.tasks t).driven :=
    update_driven rfl
  unfold World.submit
  dsimp only
  split <;> exact hheld

theorem drain_driven {overParked : Bool} {after : After} :
    ((w.drain i overParked after).tasks t).driven = (w.tasks t).driven := by
  unfold World.drain
  split
  · split
    · exact update_driven rfl
    · rfl
  · split
    · exact update_driven rfl
    · rfl

theorem file_driven {step : StepResult} {grows : Bool} :
    ((w.file i u step grows).tasks t).driven = (w.tasks t).driven := by
  unfold World.file
  split
  · rfl
  · split
    · rfl
    · exact update_driven rfl

theorem Step.driven (hstep : Step w a w') (hborn : t < w.made)
    (hheld : (w'.tasks t).finished = (w.tasks t).finished → w'.handed = w.handed →
      (w'.tasks t).freed = false)
    (hchanged : (w'.tasks t).driven ≠ (w.tasks t).driven) :
    ∃ i worker, (a = .turn i ∨ a = .conclude i) ∧ w.pool.workers[i]? = some worker ∧
      worker.works t = true := by
  have hsame : ∀ {task : Task} {u : TaskId},
      (Function.update w.tasks u task t).driven ≠ (w.tasks t).driven → u = t := by
    intro task u hne
    by_contra ht
    exact hne (by rw [Function.update_of_ne (Ne.symm ht)])
  cases hstep with
  | @turn i task meets hholding =>
    exact ⟨i, _, .inl rfl, hholding, decide_eq_true (hsame hchanged)⟩
  | @conclude i task detaching hending =>
    exact ⟨i, _, .inr rfl, hending, decide_eq_true (hsame hchanged)⟩
  | look stays grows _ _ =>
    refine absurd ?_ hchanged
    unfold World.moveReady
    dsimp only
    split <;> rfl
  | take _ _ _ => exact absurd rfl hchanged
  | leave _ _ => exact absurd rfl hchanged
  | file grows _ => exact absurd file_driven hchanged
  | finish _ => exact (hchanged (update_driven rfl)).elim
  | letGo _ => exact absurd (letGo_driven (hheld letGo_finished rfl)) hchanged
  | call => exact absurd rfl hchanged
  | stop after _ =>
    refine absurd ?_ hchanged
    unfold World.stop
    split <;> rfl
  | drain _ => exact absurd drain_driven hchanged
  | finishDropped _ => exact (hchanged (update_driven rfl)).elim
  | letGoDropped _ => exact absurd (letGo_driven (hheld letGo_finished rfl)) hchanged
  | start granted _ =>
    refine absurd ?_ hchanged
    split <;> rfl
  | spawn _ => exact absurd rfl hchanged
  | started _ =>
    refine absurd ?_ hchanged
    unfold World.stop
    split
    · split <;> rfl
    · rfl
  | make _ =>
    refine absurd ?_ hchanged
    simp only [World.setCaller, Function.update_of_ne (Nat.ne_of_lt hborn)]
  | makeFails _ => exact absurd (letGo_driven (hheld letGo_finished rfl)) hchanged
  | wrap _ => exact absurd rfl hchanged
  | submit grows _ => exact absurd (submit_driven grows) hchanged
  | refuse _ => exact absurd (letGo_driven (hheld letGo_finished rfl)) hchanged
  | dispose _ => exact absurd (letGo_driven (w := { w with wrappers := _ }) (hheld letGo_finished rfl)) hchanged
  | collect _ => exact absurd (letGo_driven (w := { w with wrappers := _ }) (hheld letGo_finished rfl)) hchanged
  | carry _ => exact (hchanged (update_driven rfl)).elim
  | rebuild _ => exact (hchanged (update_driven rfl)).elim
  | freeTree _ => exact absurd (letGo_driven (w := { w with trees := _ }) (hheld letGo_finished rfl)) hchanged
  | await _ _ =>
    refine absurd ?_ hchanged
    unfold World.await
    split
    · rfl
    · exact update_driven rfl
  | awaitable id _ => exact (hchanged (update_driven rfl)).elim

/-! ### The pool -/

theorem Inv.handed (hw : Inv w) (ht : t ∈ w.handed) :
    t < w.made ∧ w.pool.place t + (w.tasks t).finished.toNat = 1 ∧
      w.ended.count t = (w.tasks t).finished.toNat ∧ w.delivered.count t ≤ 1 ∧
      w.pool.owes t ≤ (w.tasks t).finished.toNat ∧
      (w.tasks t).holds = (w.wrappers.countP (fun x => x.task = t && !x.released) +
        w.trees.count t + (w.pool.place t + w.pool.owes t) : Nat) ∧
      ((w.tasks t).freed = true ↔ w.wrappers.countP (fun x => x.task = t && !x.released) +
        w.trees.count t + (w.pool.place t + w.pool.owes t) = 0) := by
  have hfair := hw.fair t
  have hhanded : 0 < (w.ledger t).handed := List.count_pos_iff.mpr ht
  have hborn : (w.ledger t).born = true := by
    by_contra hunborn
    have := (hfair.unborn (Bool.eq_false_iff.mpr hunborn)).2.1
    omega
  have hbegun := hfair.begun
  have honce := hfair.once
  have howed := hfair.owed
  have hholds := hfair.holds hborn
  have hfreed := hfair.freed hborn
  have hdelivered := hfair.taken hborn
  have hended : (w.ledger t).ended = (w.tasks t).finished.toNat := by
    have hfinished : (w.tasks t).finished = true ↔ 0 < (w.ledger t).ended := hfair.finished hborn
    cases hf : (w.tasks t).finished with
    | false =>
      have : ¬ 0 < (w.ledger t).ended := fun hpos => by
        rw [hfinished.mpr hpos] at hf
        cases hf
      change _ = 0
      omega
    | true =>
      have := hfinished.mp hf
      change _ = 1
      omega
  have hnamed : (w.ledger t).named = (w.ledger t).live + (w.ledger t).trees +
      ((w.ledger t).place + (w.ledger t).owes) := by
    unfold Ledger.named
    omega
  rw [hnamed] at hholds hfreed
  refine ⟨of_decide_eq_true hborn, ?_, hended, ?_, ?_, hholds, hfreed⟩
  · change (w.ledger t).place + _ = 1
    omega
  · have := (w.tasks t).taken.toNat_le
    exact hdelivered.trans_le this
  · rw [← hended]
    exact howed

theorem Inv.driven (hw : Inv w) (huses : w.Uses a) (hstep : Step w a w') (ht : t ∈ w.handed)
    (hfinished : (w.tasks t).finished = false)
    (hchanged : (w'.tasks t).driven ≠ (w.tasks t).driven) :
    ∃ i worker, (a = .turn i ∨ a = .conclude i) ∧ w.pool.workers[i]? = some worker ∧
      worker.works t = true := by
  refine hstep.driven (hw.handed ht).1 (fun hsame hhanded => ?_) hchanged
  obtain ⟨-, hplace, -, -, -, -, hfreed⟩ := (hw.step huses hstep).handed (t := t) (hhanded ▸ ht)
  rw [hsame, hfinished] at hplace
  refine Bool.eq_false_iff.mpr fun hf => ?_
  have := hfreed.mp hf
  change _ + 0 = 1 at hplace
  omega

/-- Until a task is finished it is in one place, and nobody but the worker that has it touches
its machine. It ends once and its answer is taken once. Those that hold it are the wrappers, the
carried trees and the pool, and it is freed when none is left. -/
theorem task_one_place_one_end (h : Reached w) (ht : t ∈ w.handed) :
    ((w.tasks t).finished = false → w.pool.place t = 1 ∧
      ∀ (a : Act) (w' : World), w.Uses a → Step w a w' →
        (w'.tasks t).driven ≠ (w.tasks t).driven → ∃ i worker, (a = .turn i ∨ a = .conclude i) ∧
          w.pool.workers[i]? = some worker ∧ worker.works t = true) ∧
      w.ended.count t = (w.tasks t).finished.toNat ∧
      w.delivered.count t ≤ 1 ∧
      w.pool.place t + w.pool.owes t ≤ 1 ∧
      (w.tasks t).holds = (w.wrappers.countP (fun x => x.task = t && !x.released) +
        w.trees.count t + (w.pool.place t + w.pool.owes t) : Nat) ∧
      ((w.tasks t).freed = true ↔ (w.tasks t).holds = 0) := by
  obtain ⟨-, hplace, hended, hdelivered, howes, hholds, hfreed⟩ := h.inv.handed ht
  refine ⟨fun hfinished => ⟨?_, fun a w' huses hstep hchanged => ?_⟩, hended, hdelivered, by omega,
    hholds, ?_⟩
  · rw [hfinished] at hplace
    exact hplace
  · exact h.inv.driven huses hstep ht hfinished hchanged
  · rw [hfreed]
    omega

/-- A pool of one worker, and one machine. -/
def onePool : World :=
  { World.new with
    pool := { World.new.pool with running := true, workers := [.idle], callers := [.idle] } }

/-- The machine has called `async`, and the worker has not looked yet. -/
def oneQueued : World :=
  (({ onePool with
    made := 1
    tasks := Function.update onePool.tasks 0 {} }.setCaller 0 (.making 0)).setCaller 0
      (.wrapped 0)).submit 0 0 true

theorem onePool_reached : Reached onePool := by
  have hcall := Reached.new.step (a := .call) trivial .call
  have hstop := hcall.step (a := .stop 0) trivial (.stop .start rfl)
  have hstart := hstop.step (a := .start 0) trivial (.start true rfl)
  have hspawn := hstart.step (a := .spawn 0) trivial (.spawn rfl)
  have hstarted := hspawn.step (a := .started 0) trivial (.started rfl)
  exact hstarted

theorem oneQueued_reached : Reached oneQueued := by
  have hmake := onePool_reached.step (a := .make 0) trivial (.make rfl)
  have hwrap := hmake.step (a := .wrap 0) trivial (.wrap rfl)
  have hsubmit := hwrap.step (a := .submit 0) trivial (.submit true rfl)
  exact hsubmit

theorem task_one_place_one_end_queued :
    (0 ∈ oneQueued.handed ∧ (oneQueued.tasks 0).finished = false) ∧ oneQueued.pool.place 0 = 1 := by
  have hhanded : 0 ∈ oneQueued.handed := by decide
  exact ⟨⟨hhanded, by decide⟩,
    ((task_one_place_one_end oneQueued_reached hhanded).1 (by decide)).1⟩

/-- `stop_pool` takes a task out of the queue before it is finished: it is then in neither of
the places where the workers look for it, and in the hands of none. -/
theorem not_place_of_stopping : ¬ ∀ w : World, Reached w → ∀ t ∈ w.handed,
    (w.tasks t).finished = false →
      w.pool.queued.count t + w.pool.parked.count t + w.pool.workers.countP (·.works t) = 1 := by
  intro hall
  have hstop := oneQueued_reached.step (a := .stop 0) trivial (.stop .answer rfl)
  have hdrain := hstop.step (a := .drain 0) trivial (@Step.drain _ 0 false .answer rfl)
  exact absurd (hall _ hdrain 0 (by decide) (by decide)) (by decide)

end Lhat.Tasks
