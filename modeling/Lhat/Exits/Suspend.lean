import Lhat.Exits.Nesting

/-!
# A body that is suspended

`LHAT_BC_YIELD` and `vm_enter_resume_frame`. A coroutine takes the registers, the place and the
cleanups of its frame along, and is put back into an entry of the frame array that other frames
have used. How far a drain was to go, where it was to go on from there and the answer that
waited stay behind. That is of no consequence until a drain reads them again.
-/

namespace Lhat.Exits

variable {n : Nat} {instruction : Instruction}

/-- `LHAT_COROUTINE_CLEANUPS`. -/
def coroutineCleanups : Nat := maxCleanups

/-- `LhatCoroutineFrame`. -/
structure CoroutineFrame (σ : Type*) where
  registers : σ
  pc : Nat
  sentInto : Nat
  cleanups : List Nat

/-- Whether what waits is lost, after an instruction. -/
def Instruction.loses : Instruction → Bool → Bool
  | .yield _, _ => true
  | .popCleanup _, _ | .ret _, _ | .retNil, _ => false
  | _, lost => lost

namespace Frame

variable {σ V : Type*} (A : Atoms σ V) (code : List Instruction)

/-- What a `yield^` takes along. -/
def suspend (f : Frame σ V) (sentInto : Nat) : CoroutineFrame σ :=
  { registers := f.state, pc := f.pc, sentInto, cleanups := f.cleanups }

/-- `vm_enter_resume_frame`, in an entry of the frame array. What was sent arrives. -/
def vmEnterResumeFrame (entry : Frame σ V) (co : CoroutineFrame σ) : Frame σ V :=
  { entry with
    pc := co.pc
    answer := none
    returning := false
    cleanups := co.cleanups
    status := .running
    state := A.run co.sentInto co.registers }

/-- One turn of the loop, where a `yield^` suspends the frame and a resume puts it into an
entry of the frame array. -/
def resumedStep (entry f : Frame σ V) : Frame σ V :=
  match f.status, code[f.pc]? with
  | .running, some (.yield a) =>
    if coroutineCleanups < f.cleanups.length then
      { f with pc := f.pc + 1, status := .stackOverflow }
    else entry.vmEnterResumeFrame A ({ f with pc := f.pc + 1 }.suspend a)
  | _, _ => f.step A code

/-- So many turns, with the entry that is found at each. -/
def resumedRun (entries : Nat → Frame σ V) (f : Frame σ V) : Nat → Frame σ V
  | 0 => f
  | n + 1 => resumedStep A code (entries n) (resumedRun entries f n)

/-- Two frames stand at the same place, with the same cleanups and the same registers, and have
answered the same. -/
structure SameControl (f f' : Frame σ V) : Prop where
  pc : f'.pc = f.pc
  cleanups : f'.cleanups = f.cleanups
  status : f'.status = f.status
  state : f'.state = f.state

/-- A body goes on after every `yield^` as if that had been a call, whatever the entries of the
frame array hold. -/
def KeepsControl (f : Frame σ V) : Prop :=
  ∀ entries n, SameControl ((step A code)^[n] f) (resumedRun A code entries f n)

/-- Whether a `yield^` was the last to touch what waits. -/
def lost (f : Frame σ V) : Nat → Bool
  | 0 => false
  | n + 1 =>
    match ((step A code)^[n] f).status, code[((step A code)^[n] f).pc]? with
    | .running, some instruction => instruction.loses (lost f n)
    | _, _ => lost f n

/-- A `finally^` body comes to its end with what waits lost. -/
def EndsLost (f : Frame σ V) (n : Nat) : Prop :=
  ((step A code)^[n] f).status = .running ∧
    code[((step A code)^[n] f).pc]? = some .endCleanup ∧ lost A code f n = true

/-- What a drain reads is the same in two frames. -/
structure SameWaiting (f f' : Frame σ V) : Prop where
  drainTarget : f'.drainTarget = f.drainTarget
  returning : f'.returning = f.returning
  answer : f.returning = true → f'.answer = f.answer
  resume : f.returning = false → f'.resume = f.resume

variable {A code} {f f' : Frame σ V}

theorem SameWaiting.refl (f : Frame σ V) : SameWaiting f f :=
  ⟨rfl, rfl, fun _ => rfl, fun _ => rfl⟩

theorem SameWaiting.along {g g' : Frame σ V} (h : SameWaiting f f')
    (hf : SameDrain f g) (hf' : SameDrain f' g') : SameWaiting g g' := by
  refine ⟨?_, ?_, ?_, ?_⟩
  · rw [hf'.drainTarget, hf.drainTarget, h.drainTarget]
  · rw [hf'.returning, hf.returning, h.returning]
  · rw [hf'.answer, hf.answer, hf.returning]
    exact h.answer
  · rw [hf'.resume, hf.resume, hf.returning]
    exact h.resume

theorem drain_cases (f : Frame σ V) :
    (∃ cleanup rest, f.cleanups = cleanup :: rest ∧ f.drainTarget ≤ rest.length) ∨
      f.cleanups.length ≤ f.drainTarget := by
  cases hcleanups : f.cleanups with
  | nil => exact Or.inr (Nat.zero_le _)
  | cons cleanup rest =>
    rcases Nat.lt_or_ge rest.length f.drainTarget with hlt | hle
    · exact Or.inr hlt
    · exact Or.inl ⟨cleanup, rest, rfl, hle⟩

theorem SameControl.drain (h : SameControl f f') (hwaiting : SameWaiting f f') :
    SameControl f.drain f'.drain ∧ SameWaiting f.drain f'.drain := by
  rcases drain_cases f with ⟨cleanup, rest, hcleanups, htarget⟩ | hdone
  · rw [drain_cons hcleanups htarget,
      drain_cons (h.cleanups.trans hcleanups) (hwaiting.drainTarget ▸ htarget)]
    exact ⟨⟨rfl, rfl, h.status, h.state⟩,
      ⟨hwaiting.drainTarget, hwaiting.returning, hwaiting.answer, hwaiting.resume⟩⟩
  · rw [drain_done hdone, drain_done (by rw [h.cleanups, hwaiting.drainTarget]; exact hdone)]
    rcases Bool.eq_false_or_eq_true f.returning with hreturning | hreturning
    · rw [if_pos hreturning, if_pos (hwaiting.returning.trans hreturning)]
      have hanswer := hwaiting.answer hreturning
      exact ⟨⟨h.pc, h.cleanups, congrArg Status.answered hanswer, h.state⟩,
        ⟨hwaiting.drainTarget, hwaiting.returning, hwaiting.answer, hwaiting.resume⟩⟩
    · have hreturning' := hwaiting.returning.trans hreturning
      rw [if_neg (Bool.eq_false_iff.mp hreturning), if_neg (Bool.eq_false_iff.mp hreturning')]
      have hresume := hwaiting.resume hreturning
      exact ⟨⟨hresume, h.cleanups, h.status, h.state⟩,
        ⟨hwaiting.drainTarget, hwaiting.returning, hwaiting.answer, hwaiting.resume⟩⟩

theorem drain_cleanups (f : Frame σ V) : f.drain.cleanups.length ≤ f.cleanups.length := by
  rcases drain_cases f with ⟨cleanup, rest, hcleanups, htarget⟩ | hdone
  · rw [drain_cons hcleanups htarget, hcleanups]
    exact Nat.le_succ _
  · rw [drain_done hdone]
    split <;> exact Nat.le_refl _

theorem step_cleanups (hroom : f.cleanups.length ≤ maxCleanups) :
    (f.step A code).cleanups.length ≤ maxCleanups := by
  unfold step
  split
  · rename_i instruction hrunning hat
    cases instruction with
    | act a | yield a | jump target | jumpFalse c target | turn c target => exact hroom
    | pushCleanup bx =>
      unfold execute
      dsimp only
      split
      · exact hroom
      · rename_i hfull
        exact Nat.not_le.mp hfull
    | popCleanup a | endCleanup | ret a | retNil =>
      exact Nat.le_trans (drain_cleanups _) hroom
  · exact hroom

/-- One instruction keeps two frames together, unless it is the end of a `finally^` body that
reads what is lost. -/
theorem SameControl.execute {lost : Bool} (h : SameControl f f')
    (hwaiting : lost = false → SameWaiting f f')
    (hends : instruction = .endCleanup → lost = false) :
    SameControl (f.execute A instruction) (f'.execute A instruction) ∧
      (instruction.loses lost = false →
        SameWaiting (f.execute A instruction) (f'.execute A instruction)) := by
  obtain ⟨hpc, hcleanups, hstatus, hstate⟩ := h
  cases instruction with
  | act a =>
    exact ⟨⟨hpc, hcleanups, hstatus, congrArg (A.run a) hstate⟩, fun hlost =>
      (hwaiting hlost).along ⟨rfl, rfl, rfl, rfl⟩ ⟨rfl, rfl, rfl, rfl⟩⟩
  | yield a => exact ⟨⟨hpc, hcleanups, hstatus, congrArg (A.run a) hstate⟩, nofun⟩
  | jump target =>
    exact ⟨⟨rfl, hcleanups, hstatus, hstate⟩, fun hlost =>
      (hwaiting hlost).along ⟨rfl, rfl, rfl, rfl⟩ ⟨rfl, rfl, rfl, rfl⟩⟩
  | jumpFalse c target =>
    unfold Frame.execute
    rw [hstate, hpc]
    exact ⟨⟨rfl, hcleanups, hstatus, rfl⟩, fun hlost =>
      (hwaiting hlost).along ⟨rfl, rfl, rfl, rfl⟩ ⟨rfl, rfl, rfl, rfl⟩⟩
  | turn c target =>
    unfold Frame.execute
    rw [hstate, hpc]
    exact ⟨⟨rfl, hcleanups, hstatus, rfl⟩, fun hlost =>
      (hwaiting hlost).along ⟨rfl, rfl, rfl, rfl⟩ ⟨rfl, rfl, rfl, rfl⟩⟩
  | pushCleanup bx =>
    unfold Frame.execute
    dsimp only
    rw [hcleanups]
    split
    · exact ⟨⟨hpc, rfl, rfl, hstate⟩, fun hlost =>
      (hwaiting hlost).along ⟨rfl, rfl, rfl, rfl⟩ ⟨rfl, rfl, rfl, rfl⟩⟩
    · exact ⟨⟨hpc, rfl, hstatus, hstate⟩, fun hlost =>
      (hwaiting hlost).along ⟨rfl, rfl, rfl, rfl⟩ ⟨rfl, rfl, rfl, rfl⟩⟩
  | popCleanup a =>
    have hset : SameControl
        { f with drainTarget := a, resume := f.pc, returning := false }
        { f' with drainTarget := a, resume := f'.pc, returning := false } :=
      ⟨hpc, hcleanups, hstatus, hstate⟩
    have hdrained := hset.drain ⟨rfl, rfl, nofun, fun _ => hpc⟩
    exact ⟨hdrained.1, fun _ => hdrained.2⟩
  | endCleanup =>
    have hsame : SameControl f f' := ⟨hpc, hcleanups, hstatus, hstate⟩
    have hdrained := hsame.drain (hwaiting (hends rfl))
    exact ⟨hdrained.1, fun _ => hdrained.2⟩
  | ret a =>
    have hset : SameControl
        { f with drainTarget := 0, returning := true, answer := some (A.value a f.state) }
        { f' with drainTarget := 0, returning := true, answer := some (A.value a f'.state) } :=
      ⟨hpc, hcleanups, hstatus, hstate⟩
    have hdrained := hset.drain
      ⟨rfl, rfl, fun _ => congrArg (fun s => some (A.value a s)) hstate, nofun⟩
    exact ⟨hdrained.1, fun _ => hdrained.2⟩
  | retNil =>
    have hset : SameControl
        { f with drainTarget := 0, returning := true, answer := none }
        { f' with drainTarget := 0, returning := true, answer := none } :=
      ⟨hpc, hcleanups, hstatus, hstate⟩
    have hdrained := hset.drain ⟨rfl, rfl, fun _ => rfl, nofun⟩
    exact ⟨hdrained.1, fun _ => hdrained.2⟩

theorem resumedStep_eq {entry : Frame σ V}
    (hat : f.status = .running → ∀ a, code[f.pc]? ≠ some (.yield a)) :
    resumedStep A code entry f = f.step A code := by
  unfold resumedStep
  split
  · rename_i a hrunning hyield
    exact absurd hyield (hat hrunning a)
  · rfl

theorem lost_succ (hrunning : ((step A code)^[n] f).status = .running)
    (hat : code[((step A code)^[n] f).pc]? = some instruction) :
    lost A code f (n + 1) = instruction.loses (lost A code f n) := by
  rw [lost, hrunning, hat]

theorem step_done (hdone : f.status = .running → code[f.pc]? = none) : f.step A code = f := by
  unfold step
  split
  · rename_i instruction hrunning hat
    cases (hdone hrunning).symm.trans hat
  · rfl

theorem lost_done (hdone : ((step A code)^[n] f).status = .running →
    code[((step A code)^[n] f).pc]? = none) : lost A code f (n + 1) = lost A code f n := by
  rw [lost]
  split
  · rename_i instruction hrunning hat
    cases (hdone hrunning).symm.trans hat
  · rfl

theorem SameControl.resumedStep_done {g entry g' : Frame σ V} (h : SameControl g g')
    (hdone : g.status = .running → code[g.pc]? = none) : resumedStep A code entry g' = g' := by
  rw [← h.status, ← h.pc] at hdone
  refine (resumedStep_eq fun hrunning a hyield => ?_).trans (step_done hdone)
  cases (hdone hrunning).symm.trans hyield

theorem SameControl.resumedStep_plain {g entry g' : Frame σ V} (h : SameControl g g') (hrunning : g.status = .running)
    (hat : code[g.pc]? = some instruction) (hplain : ∀ a, instruction ≠ .yield a) :
    resumedStep A code entry g' = { g' with pc := g'.pc + 1 }.execute A instruction := by
  have hat' : code[g'.pc]? = some instruction := h.pc ▸ hat
  refine (resumedStep_eq fun _ a hyield => ?_).trans (step_eq (h.status.trans hrunning) hat')
  cases hat'.symm.trans hyield
  exact hplain a rfl

theorem SameControl.resumedStep_yield {g entry g' : Frame σ V} {a : Nat} (h : SameControl g g')
    (hrunning : g.status = .running) (hat : code[g.pc]? = some (.yield a))
    (hroom : g.cleanups.length ≤ maxCleanups) :
    resumedStep A code entry g' =
      entry.vmEnterResumeFrame A ({ g' with pc := g'.pc + 1 }.suspend a) := by
  have hat' : code[g'.pc]? = some (.yield a) := h.pc ▸ hat
  unfold resumedStep
  rw [h.status, hrunning, hat']
  exact if_neg (by rw [h.cleanups]; exact Nat.not_lt.mpr hroom)

theorem SameControl.step {lost : Bool} {g g' : Frame σ V} (entry : Frame σ V) (h : SameControl g g')
    (hwaiting : lost = false → SameWaiting g g') (hroom : g.cleanups.length ≤ maxCleanups) (hrunning : g.status = .running)
    (hat : code[g.pc]? = some instruction) (hends : instruction = .endCleanup → lost = false) :
    SameControl (g.step A code) (resumedStep A code entry g') ∧
      (instruction.loses lost = false →
        SameWaiting (g.step A code) (resumedStep A code entry g')) := by
  rw [step_eq hrunning hat]
  by_cases hyield : ∃ a, instruction = .yield a
  · obtain ⟨a, rfl⟩ := hyield
    rw [h.resumedStep_yield hrunning hat hroom]
    exact ⟨⟨congrArg (· + 1) h.pc, h.cleanups, hrunning.symm, congrArg (A.run a) h.state⟩, nofun⟩
  · rw [h.resumedStep_plain hrunning hat fun a ha => hyield ⟨a, ha⟩]
    have hnext : SameControl { g with pc := g.pc + 1 } { g' with pc := g'.pc + 1 } :=
      ⟨congrArg (· + 1) h.pc, h.cleanups, h.status, h.state⟩
    exact hnext.execute
      (fun hlost => (hwaiting hlost).along ⟨rfl, rfl, rfl, rfl⟩ ⟨rfl, rfl, rfl, rfl⟩) hends

/-- A frame that is resumed and one that only calls are together after so many turns, and so is
what waits in them where it is not lost. -/
structure Together (A : Atoms σ V) (code : List Instruction) (entries : Nat → Frame σ V)
    (f : Frame σ V) (n : Nat) : Prop where
  control : SameControl ((Frame.step A code)^[n] f) (resumedRun A code entries f n)
  waiting : lost A code f n = false →
    SameWaiting ((Frame.step A code)^[n] f) (resumedRun A code entries f n)
  room : ((Frame.step A code)^[n] f).cleanups.length ≤ maxCleanups

theorem turn_cases (code : List Instruction) (f : Frame σ V) :
    (f.status = .running ∧ ∃ instruction, code[f.pc]? = some instruction) ∨
      (f.status = .running → code[f.pc]? = none) := by
  cases hat : code[f.pc]? with
  | none => exact Or.inr fun _ => rfl
  | some instruction =>
    by_cases hrunning : f.status = .running
    · exact Or.inl ⟨hrunning, instruction, rfl⟩
    · exact Or.inr fun h => absurd h hrunning

theorem Together.step {entries : Nat → Frame σ V} (h : Together A code entries f n)
    (hends : ¬ EndsLost A code f n) : Together A code entries f (n + 1) := by
  obtain ⟨hcontrol, hwaiting, hroom⟩ := h
  have hroom' : (((Frame.step A code)^[n] f).step A code).cleanups.length ≤ maxCleanups :=
    step_cleanups hroom
  rcases turn_cases code ((Frame.step A code)^[n] f) with
    ⟨hrunning, instruction, hat⟩ | hdone
  · obtain ⟨hcontrol', hwaiting'⟩ := hcontrol.step (entries n) hwaiting hroom hrunning hat
      fun he => by
        subst he
        exact Bool.eq_false_iff.mpr fun hlost => hends ⟨hrunning, hat, hlost⟩
    refine ⟨?_, ?_, ?_⟩
    · rw [Function.iterate_succ_apply']
      exact hcontrol'
    · rw [lost_succ hrunning hat, Function.iterate_succ_apply']
      exact hwaiting'
    · rw [Function.iterate_succ_apply']
      exact hroom'
  · have hstays : resumedRun A code entries f (n + 1) = resumedRun A code entries f n :=
      hcontrol.resumedStep_done hdone
    refine ⟨?_, ?_, ?_⟩
    · rw [hstays, Function.iterate_succ_apply', step_done hdone]
      exact hcontrol
    · rw [hstays, lost_done hdone, Function.iterate_succ_apply', step_done hdone]
      exact hwaiting
    · rw [Function.iterate_succ_apply']
      exact hroom'

theorem together (entries : Nat → Frame σ V) (hroom : f.cleanups.length ≤ maxCleanups)
    (hends : ∀ k < n, ¬ EndsLost A code f k) : Together A code entries f n := by
  induction n with
  | zero => exact ⟨⟨rfl, rfl, rfl, rfl⟩, fun _ => SameWaiting.refl f, hroom⟩
  | succ n ih =>
    exact (ih fun k hk => hends k (Nat.lt_succ_of_lt hk)).step (hends n (Nat.lt_succ_self n))

theorem execute_sameDrain (hloses : instruction.loses true = true)
    (hends : instruction ≠ .endCleanup) : SameDrain f (f.execute A instruction) := by
  cases instruction with
  | act a | yield a | jump target | jumpFalse c target | turn c target =>
    exact ⟨rfl, rfl, rfl, rfl⟩
  | pushCleanup bx =>
    unfold execute
    dsimp only
    split <;> exact ⟨rfl, rfl, rfl, rfl⟩
  | popCleanup a | ret a | retNil => cases hloses
  | endCleanup => exact absurd rfl hends

theorem lost_entry (entry : Frame σ V) (hroom : f.cleanups.length ≤ maxCleanups)
    (hends : ∀ k < n, ¬ EndsLost A code f k) (hlost : lost A code f n = true) :
    (resumedRun A code (fun _ => entry) f n).drainTarget = entry.drainTarget ∧
      (resumedRun A code (fun _ => entry) f n).resume = entry.resume ∧
        (resumedRun A code (fun _ => entry) f n).returning = false := by
  induction n with
  | zero => cases hlost
  | succ n ih =>
    have hbefore : ∀ k < n, ¬ EndsLost A code f k := fun k hk => hends k (Nat.lt_succ_of_lt hk)
    obtain ⟨hcontrol, -, hroom'⟩ := together (fun _ => entry) hroom hbefore
    rcases turn_cases code ((Frame.step A code)^[n] f) with
      ⟨hrunning, instruction, hat⟩ | hdone
    · rw [lost_succ hrunning hat] at hlost
      rw [resumedRun]
      by_cases hyield : ∃ a, instruction = .yield a
      · obtain ⟨a, rfl⟩ := hyield
        rw [hcontrol.resumedStep_yield hrunning hat hroom']
        exact ⟨rfl, rfl, rfl⟩
      · rw [hcontrol.resumedStep_plain hrunning hat fun a ha => hyield ⟨a, ha⟩]
        have hkept : instruction.loses true = true ∧ lost A code f n = true := by
          cases instruction with
          | yield a => exact absurd ⟨a, rfl⟩ hyield
          | popCleanup a | ret a | retNil => cases hlost
          | act a | jump target | jumpFalse c target | turn c target | pushCleanup bx
          | endCleanup => exact ⟨rfl, hlost⟩
        have hsame := execute_sameDrain (A := A) hkept.1
          (f := { resumedRun A code (fun _ => entry) f n with
            pc := (resumedRun A code (fun _ => entry) f n).pc + 1 })
          fun he => hends n (Nat.lt_succ_self n) ⟨hrunning, he ▸ hat, hkept.2⟩
        obtain ⟨htarget, hresume, hreturning⟩ := ih hbefore hkept.2
        exact ⟨hsame.drainTarget.trans htarget, hsame.resume.trans hresume,
          hsame.returning.trans hreturning⟩
    · rw [lost_done hdone] at hlost
      rw [resumedRun, hcontrol.resumedStep_done hdone]
      exact ih hbefore hlost

/-- A `finally^` body that comes to its end with what waits lost goes on elsewhere, where the
entry held something else. -/
theorem not_keepsControl_of_endsLost (hroom : f.cleanups.length ≤ maxCleanups)
    (hends : EndsLost A code f n) : ¬ KeepsControl A code f := by
  induction n using Nat.strongRecOn with
  | ind n ih =>
    by_cases hearlier : ∃ k < n, EndsLost A code f k
    · obtain ⟨k, hk, hends'⟩ := hearlier
      exact ih k hk hends'
    intro hkeeps
    have hbefore : ∀ k < n, ¬ EndsLost A code f k := fun k hk he => hearlier ⟨k, hk, he⟩
    obtain ⟨hrunning, hat, hlost⟩ := hends
    -- the entry of a frame that had nothing left to drain and went on at another place
    let entry : Frame σ V :=
      { drainTarget := maxCleanups
        resume := ((step A code)^[n + 1] f).pc + 1
        state := f.state }
    obtain ⟨hcontrol, -, hroom'⟩ := together (fun _ => entry) hroom hbefore
    obtain ⟨htarget, hresume, hreturning⟩ := lost_entry entry hroom hbefore hlost
    let g : Frame σ V :=
      { resumedRun A code (fun _ => entry) f n with
        pc := (resumedRun A code (fun _ => entry) f n).pc + 1 }
    have hdrain : resumedRun A code (fun _ => entry) f (n + 1) = g.drain :=
      hcontrol.resumedStep_plain hrunning hat nofun
    have hdone : g.cleanups.length ≤ g.drainTarget := by
      show (resumedRun A code (fun _ => entry) f n).cleanups.length ≤ _
      rw [hcontrol.cleanups, htarget]
      exact hroom'
    have hpc := (hkeeps (fun _ => entry) (n + 1)).pc
    rw [hdrain, drain_done hdone] at hpc
    have helsewhere : (resumedRun A code (fun _ => entry) f n).resume =
        ((step A code)^[n + 1] f).pc := by
      rwa [if_neg (Bool.eq_false_iff.mp hreturning)] at hpc
    rw [hresume] at helsewhere
    exact absurd helsewhere (Nat.succ_ne_self _)

/-- The control state of a body is kept exactly where no `finally^` body comes to its end after
a `yield^` that no drain has followed. -/
theorem keepsControl_iff (A : Atoms σ V) (code : List Instruction) (initial : σ) :
    KeepsControl A code ({ state := initial } : Frame σ V) ↔
      ∀ n, ¬ EndsLost A code ({ state := initial } : Frame σ V) n := by
  have hroom : ({ state := initial } : Frame σ V).cleanups.length ≤ maxCleanups := Nat.zero_le _
  constructor
  · intro hkeeps n hends
    exact not_keepsControl_of_endsLost hroom hends hkeeps
  · intro hends entries n
    exact (together entries hroom fun k _ => hends k).control

/-- A `return^` out of a block whose `finally^` body suspends. -/
def yieldInCleanup : List Instruction := compileProc (.block (.ret 0) (.yield 1))

/-- Put back into an entry that it left itself, the body begins anew instead of answering. -/
theorem not_keepsControl_yieldInCleanup :
    ¬ KeepsControl remembered yieldInCleanup ({ state := [] } : Frame (List Nat) Nat) := by
  intro hkeeps
  have hpc := (hkeeps (fun _ => { state := [] }) 4).status
  revert hpc
  decide

end Frame

end Lhat.Exits
