import Lhat.Task.Basic

/-!
# What is kept of a task

For each task a ledger says who names it: the wrappers and the nodes of carried trees, the place
where it waits for its end, a worker or a machine that has ended it and has still to let it go,
and a call of `async` that is at work on it. The ledger is fair when the holds are those that
name the task, and when its place and its ends are what was handed out.
-/

namespace Lhat.Tasks

variable {a b : Caller} {grows : Bool}

/-! ### Who has a task -/

def Worker.works (t : TaskId) : Worker → Bool
  | holding u | turned u _ | ending u | concluded u => u = t
  | _ => false

def Worker.owes (t : TaskId) : Worker → Bool
  | finished u => u = t
  | _ => false

def Caller.drops (t : TaskId) : Caller → Bool
  | dropping u _ _ => u = t
  | _ => false

def Caller.owes (t : TaskId) : Caller → Bool
  | dropped u _ _ => u = t
  | _ => false

def Caller.refuses (t : TaskId) : Caller → Bool
  | refused u => u = t
  | _ => false

def Caller.makes (t : TaskId) : Caller → Bool
  | making u | wrapped u => u = t
  | _ => false

namespace Pool

/-- The run queue. -/
def queued (p : Pool) : List TaskId := (List.range p.queue.count).filterMap p.queue.item

/-- How often a task stands in the run queue, in the parked set, in the hands of a worker or in
those of a machine that stops the pool. -/
def place (p : Pool) (t : TaskId) : Nat :=
  p.queued.count t + p.parked.count t + p.workers.countP (·.works t) +
    p.callers.countP (·.drops t)

def owes (p : Pool) (t : TaskId) : Nat :=
  p.workers.countP (·.owes t) + p.callers.countP (·.owes t)

def refuses (p : Pool) (t : TaskId) : Nat := p.callers.countP (·.refuses t)

def makes (p : Pool) (t : TaskId) : Nat := p.callers.countP (·.makes t)

end Pool

@[ext]
structure Ledger where
  born : Bool
  holds : Int
  freed : Bool
  finished : Bool
  taken : Bool
  live : Nat
  trees : Nat
  place : Nat
  owes : Nat
  refuses : Nat
  makes : Nat
  handed : Nat
  ended : Nat
  delivered : Nat

/-- How many name the task. -/
def Ledger.named (l : Ledger) : Nat :=
  l.live + l.trees + l.place + l.owes + l.refuses + l.makes

structure Ledger.Fair (l : Ledger) : Prop where
  unborn : l.born = false → l.named = 0 ∧ l.handed = 0 ∧ l.delivered = 0
  holds : l.born = true → l.holds = l.named
  freed : l.born = true → (l.freed = true ↔ l.named = 0)
  once : l.place + l.ended = l.handed
  begun : l.handed + l.makes + l.refuses ≤ 1
  owed : l.owes ≤ l.ended
  finished : l.born = true → (l.finished = true ↔ 0 < l.ended)
  taken : l.born = true → l.delivered = l.taken.toNat

def World.ledger (w : World) (t : TaskId) : Ledger where
  born := decide (t < w.made)
  holds := (w.tasks t).holds
  freed := (w.tasks t).freed
  finished := (w.tasks t).finished
  taken := (w.tasks t).taken
  live := w.wrappers.countP fun x => x.task = t && !x.released
  trees := w.trees.count t
  place := w.pool.place t
  owes := w.pool.owes t
  refuses := w.pool.refuses t
  makes := w.pool.makes t
  handed := w.handed.count t
  ended := w.ended.count t
  delivered := w.delivered.count t

/-- The ring is a queue, and every ledger is fair. -/
structure Inv (w : World) : Prop where
  ring : w.pool.queue.Denotes w.pool.queued
  fair : ∀ t, (w.ledger t).Fair

/-! ### Entries of a ledger -/

namespace Ledger

variable {l l' : Ledger}

/-- One that names the task lets it go. -/
structure Loses (l l' : Ledger) : Prop where
  born : l'.born = l.born
  holds : l'.holds = l.holds - 1
  freed : l'.freed = (l.freed || decide (l.holds - 1 ≤ 0))
  finished : l'.finished = l.finished
  taken : l'.taken = l.taken
  named : l'.named + 1 = l.named
  place : l'.place = l.place
  owes : l'.owes ≤ l.owes
  refuses : l'.refuses ≤ l.refuses
  makes : l'.makes ≤ l.makes
  handed : l'.handed = l.handed
  ended : l'.ended = l.ended
  delivered : l'.delivered = l.delivered

theorem Fair.loses (hl : l.Fair) (h : Loses l l') : l'.Fair := by
  have hborn : l.born = true := by
    by_contra hunborn
    have := (hl.unborn (Bool.eq_false_iff.mpr hunborn)).1
    have := h.named
    omega
  have hholds := hl.holds hborn
  have hnamed := h.named
  have hplace := h.place
  have hended := h.ended
  have hhanded := h.handed
  refine ⟨fun hun => ?_, fun _ => ?_, fun _ => ?_, ?_, ?_, ?_, fun _ => ?_, fun _ => ?_⟩
  · rw [h.born, hborn] at hun
    cases hun
  · rw [h.holds]
    omega
  · have hopen : l.freed = false := Bool.eq_false_iff.mpr fun hf => by
      have := (hl.freed hborn).mp hf
      omega
    rw [h.freed, hopen, Bool.false_or, decide_eq_true_eq]
    omega
  · rw [hplace, hended, hhanded]
    exact hl.once
  · have := hl.begun
    have := h.refuses
    have := h.makes
    omega
  · have := hl.owed
    have := h.owes
    omega
  · rw [h.finished, hended]
    exact hl.finished hborn
  · rw [h.delivered, h.taken]
    exact hl.taken hborn

theorem Fair.gains (hl : l.Fair) (hheld : 0 < l.named) {live trees : Nat}
    (hmore : live + trees = l.live + l.trees + 1) :
    Fair { l with holds := l.holds + 1, live := live, trees := trees } := by
  have hborn : l.born = true := by
    by_contra hunborn
    have := (hl.unborn (Bool.eq_false_iff.mpr hunborn)).1
    omega
  have hholds := hl.holds hborn
  have hnamed : Ledger.named { l with holds := l.holds + 1, live := live, trees := trees } =
      l.named + 1 := by
    simp only [Ledger.named]
    omega
  refine ⟨fun hun => ?_, fun _ => ?_, fun _ => ?_, hl.once, hl.begun, hl.owed, hl.finished,
    hl.taken⟩
  · rw [hborn] at hun
    cases hun
  · rw [hnamed]
    change l.holds + 1 = _
    omega
  · rw [hnamed]
    have := hl.freed hborn
    constructor
    · intro hf
      have := this.mp hf
      omega
    · intro hzero
      omega

theorem Fair.ends (hl : l.Fair) {place : Nat} (hplace : place + 1 = l.place) :
    Fair { l with
      place := place, owes := l.owes + 1, ended := l.ended + 1, finished := true } := by
  have hborn : l.born = true := by
    by_contra hunborn
    have := (hl.unborn (Bool.eq_false_iff.mpr hunborn)).1
    simp only [Ledger.named] at this
    omega
  have hnamed : Ledger.named { l with
      place := place, owes := l.owes + 1, ended := l.ended + 1, finished := true } = l.named := by
    simp only [Ledger.named]
    omega
  refine ⟨fun hun => ?_, fun _ => ?_, fun _ => ?_, ?_, hl.begun, ?_, fun _ => ?_, hl.taken⟩
  · rw [hborn] at hun
    cases hun
  · rw [hnamed]
    exact hl.holds hborn
  · rw [hnamed]
    exact hl.freed hborn
  · have := hl.once
    change place + (l.ended + 1) = l.handed
    omega
  · have := hl.owed
    change l.owes + 1 ≤ l.ended + 1
    omega
  · exact iff_of_true rfl (Nat.succ_pos _)

theorem Fair.submits (hl : l.Fair) {makes : Nat} (hmakes : makes + 1 = l.makes) (queued : Bool) :
    Fair { l with
      holds := l.holds + 1
      live := l.live + 1
      makes := makes
      place := l.place + queued.toNat
      handed := l.handed + queued.toNat
      refuses := l.refuses + (!queued).toNat } := by
  have hborn : l.born = true := by
    by_contra hunborn
    have := (hl.unborn (Bool.eq_false_iff.mpr hunborn)).1
    simp only [Ledger.named] at this
    omega
  have hone : queued.toNat + (!queued).toNat = 1 := by cases queued <;> rfl
  have hholds := hl.holds hborn
  have hfreed := hl.freed hborn
  have hbegun := hl.begun
  have honce := hl.once
  simp only [Ledger.named] at hholds hfreed
  refine ⟨fun hun => ?_, fun _ => ?_, fun _ => ?_, ?_, ?_, hl.owed, hl.finished, hl.taken⟩
  · rw [hborn] at hun
    cases hun
  · simp only [Ledger.named]
    omega
  · simp only [Ledger.named]
    constructor
    · intro hf
      have := hfreed.mp hf
      omega
    · intro hzero
      omega
  · simp only
    omega
  · simp only
    omega

theorem Fair.takes (hl : l.Fair) (hborn : l.born = true) (htaken : l.taken = false) :
    Fair { l with taken := true, delivered := l.delivered + 1 } := by
  refine ⟨fun hun => ?_, hl.holds, hl.freed, hl.once, hl.begun, hl.owed, hl.finished, fun _ => ?_⟩
  · change l.born = false at hun
    rw [hborn] at hun
    cases hun
  · have := hl.taken hborn
    rw [htaken] at this
    simp [this]

theorem Fair.makes (hl : l.Fair) (hborn : l.born = false) :
    Fair { l with
      born := true
      holds := 1
      freed := false
      finished := false
      taken := false
      makes := l.makes + 1 } := by
  obtain ⟨hnamed, hhanded, hdelivered⟩ := hl.unborn hborn
  have honce := hl.once
  simp only [Ledger.named] at hnamed
  refine ⟨fun hun => (nomatch hun), fun _ => ?_, fun _ => ?_, honce, ?_, hl.owed, fun _ => ?_,
    fun _ => hdelivered⟩
  · simp only [Ledger.named]
    omega
  · simp only [Ledger.named]
    constructor
    · intro hf
      cases hf
    · intro hzero
      omega
  · simp only
    omega
  · constructor
    · intro hf
      cases hf
    · intro hpos
      change 0 < l.ended at hpos
      omega

end Ledger

/-! ### Where the pool moves tasks -/

section Counting

variable {α : Type*} {l : List α} {i : Nat} {a b : α}

theorem countP_set_add (h : l[i]? = some a) (q : α → Bool) :
    (l.set i b).countP q + (q a).toNat = l.countP q + (q b).toNat := by
  induction l generalizing i with
  | nil => cases h
  | cons x l ih =>
    cases i with
    | zero =>
      cases h
      simp only [List.set_cons_zero, List.countP_cons]
      cases q a <;> cases q b <;> simp
    | succ i =>
      have := ih h
      simp only [List.set_cons_succ, List.countP_cons]
      omega

theorem count_snoc [DecidableEq α] (l : List α) (a b : α) :
    (l ++ [a]).count b = l.count b + (decide (a = b)).toNat := by
  rw [List.count_append, List.count_singleton]
  by_cases h : a = b <;> simp [h]

end Counting

namespace Pool

variable {p p' : Pool} {i : Nat} {t u : TaskId}

theorem setWorker_place {a b : Worker} (h : p.workers[i]? = some a) :
    (p.setWorker i b).place t + (a.works t).toNat = p.place t + (b.works t).toNat := by
  have := countP_set_add (b := b) h (·.works t)
  simp only [place, queued, setWorker]
  omega

theorem setWorker_owes {a b : Worker} (h : p.workers[i]? = some a) :
    (p.setWorker i b).owes t + (a.owes t).toNat = p.owes t + (b.owes t).toNat := by
  have := countP_set_add (b := b) h (·.owes t)
  simp only [owes, setWorker]
  omega

section

variable (h : p.callers[i]? = some a)
include h

theorem setCaller_place :
    (p.setCaller i b).place t + (a.drops t).toNat = p.place t + (b.drops t).toNat := by
  have := countP_set_add (b := b) h (·.drops t)
  simp only [place, queued, setCaller]
  omega

theorem setCaller_owes :
    (p.setCaller i b).owes t + (a.owes t).toNat = p.owes t + (b.owes t).toNat := by
  have := countP_set_add (b := b) h (·.owes t)
  simp only [owes, setCaller]
  omega

theorem setCaller_refuses :
    (p.setCaller i b).refuses t + (a.refuses t).toNat = p.refuses t + (b.refuses t).toNat :=
  countP_set_add h (·.refuses t)

theorem setCaller_makes :
    (p.setCaller i b).makes t + (a.makes t).toNat = p.makes t + (b.makes t).toNat :=
  countP_set_add h (·.makes t)

end

/-- The tasks of one pool are those of the other, but for one more in a place. -/
structure Puts (p p' : Pool) (u : TaskId) : Prop where
  ring : p'.queue.Denotes p'.queued
  place : ∀ t, p'.place t = p.place t + (decide (u = t)).toNat
  workers : p'.workers = p.workers
  callers : p'.callers = p.callers

theorem queued_eq {xs : List TaskId} (h : p.queue.Denotes xs) : p.queued = xs := h.eq

section

variable (hring : p.queue.Denotes p.queued)
include hring

theorem queuePush_queued
    (h : p.queuePush u grows = some p') :
    p'.queue.Denotes (p.queued ++ [u]) ∧ p' = { p with queue := p'.queue } := by
  obtain ⟨q, hroom, rfl⟩ := Option.map_eq_some_iff.mp h
  obtain ⟨hdenotes, hlt⟩ := hring.makeRoom hroom
  exact ⟨hdenotes.enqueue hlt u, rfl⟩

theorem Puts.queuePush
    (h : p.queuePush u grows = some p') : Puts p p' u := by
  obtain ⟨hdenotes, hp⟩ := queuePush_queued hring h
  have hqueued := queued_eq hdenotes
  refine ⟨hqueued ▸ hdenotes, fun t => ?_, by rw [hp], by rw [hp]⟩
  have hcount := count_snoc p.queued u t
  rw [← hqueued] at hcount
  rw [Pool.place, hcount, hp]
  simp only [Pool.place]
  omega

theorem Puts.park
    (h : p.park u grows = some p') : Puts p p' u := by
  have hcount := fun t => count_snoc p.parked u t
  unfold Pool.park at h
  split at h
  · cases h
    refine ⟨hring, fun t => ?_, rfl, rfl⟩
    change p.queued.count t + (p.parked ++ [u]).count t + _ + _ =
      p.queued.count t + p.parked.count t + _ + _ + _
    rw [hcount]
    dsimp only
    omega
  · split at h
    · cases h
      refine ⟨hring, fun t => ?_, rfl, rfl⟩
      change p.queued.count t + (p.parked ++ [u]).count t + _ + _ =
        p.queued.count t + p.parked.count t + _ + _ + _
      rw [hcount]
      dsimp only
      omega
    · cases h

theorem Puts.file {step : StepResult}
    (h : p.file u step grows = some p') : Puts p p' u := by
  unfold Pool.file at h
  split at h
  · split at h
    · exact Puts.park hring h
    · exact Puts.queuePush hring h
  · cases h

theorem Puts.queuePop (h : p.queuePop = some (u, p')) :
    Puts p' p u ∧ p'.queue.Denotes p'.queued := by
  unfold Pool.queuePop at h
  split at h
  · cases h
  · rename_i hcount
    obtain ⟨x, hx, h⟩ := Option.map_eq_some_iff.mp h
    cases h
    cases hq : p.queued with
    | nil =>
      have := hring.count
      rw [hq] at this
      exact absurd this hcount
    | cons y rest =>
      rw [hq] at hring
      rw [hring.first] at hx
      cases hx
      have hdenotes := hring.dequeue
      have hqueued : Pool.queued { p with queue := p.queue.dequeue } = rest := hdenotes.eq
      refine ⟨⟨hq ▸ hring, fun t => ?_, rfl, rfl⟩, hqueued ▸ hdenotes⟩
      have := List.count_cons (a := t) (b := u) (l := rest)
      simp only [Pool.place, hqueued, hq, this]
      by_cases ht : u = t
      · simp [ht]
        omega
      · simp [ht]

end

theorem moveEach_place (stays grows : TaskId → Bool) (l : List TaskId) : ∀ {p p' : Pool}
    {kept : List TaskId}, p.queue.Denotes p.queued → moveEach stays grows l p = (kept, p') →
    p'.queue.Denotes p'.queued ∧ p' = { p with queue := p'.queue } ∧
      ∀ t, kept.count t + p'.queued.count t = l.count t + p.queued.count t := by
  induction l with
  | nil =>
    intro p p' kept hring h
    cases h
    exact ⟨hring, rfl, fun t => rfl⟩
  | cons u l ih =>
    intro p p' kept hring h
    have hstay : ∀ {kept' : List TaskId}, moveEach stays grows l p = (kept', p') →
        kept = u :: kept' → p'.queue.Denotes p'.queued ∧ p' = { p with queue := p'.queue } ∧
          ∀ t, kept.count t + p'.queued.count t = (u :: l).count t + p.queued.count t := by
      rintro kept' hmoved rfl
      obtain ⟨hring', hp, hcount⟩ := ih hring hmoved
      refine ⟨hring', hp, fun t => ?_⟩
      have := hcount t
      rw [List.count_cons, List.count_cons]
      omega
    unfold moveEach at h
    split at h
    · rcases hmoved : moveEach stays grows l p with ⟨kept', q⟩
      rw [hmoved] at h
      cases h
      exact hstay hmoved rfl
    · split at h
      · rename_i q hpush
        obtain ⟨hdenotes, hq⟩ := queuePush_queued hring hpush
        have hqueued := queued_eq hdenotes
        obtain ⟨hring', hp, hcount⟩ := ih (hqueued ▸ hdenotes) h
        refine ⟨hring', by rw [hp, hq], fun t => ?_⟩
        have := hcount t
        have hsnoc := count_snoc p.queued u t
        rw [← hqueued] at hsnoc
        rw [List.count_cons]
        by_cases ht : u = t
        · simp [ht] at hsnoc ⊢
          omega
        · simp [ht] at hsnoc ⊢
          omega
      · rcases hmoved : moveEach stays grows l p with ⟨kept', q⟩
        rw [hmoved] at h
        cases h
        exact hstay hmoved rfl

end Pool

end Lhat.Tasks
