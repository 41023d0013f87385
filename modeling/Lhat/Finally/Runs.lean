import Lhat.Finally.Steps

/-!
# Every run

A turn of the loop keeps the cleanups in order unless the code of a disposal takes up a
coroutine that waits for its own. Such a coroutine would be entered once more, with the
cleanups it was suspended with.
-/

namespace Lhat.Finally

open Gc (CoroutineState)

variable {co : Nat} {move : Move}

variable {m : Machine} {slot : Frame} {white : List Nat}

/-- The coroutine that an instruction puts a frame of on the stack. -/
def Instruction.takesUp : Instruction → Option Nat
  | .resume co | .native .resume co | .native .dispose co => some co
  | _ => none

namespace Machine

theorem Inv.yield (hi : m.Inv) {frame : Frame} {below : List Frame} (loop : Loop)
    (hframes : m.frames = frame :: below) : (m.yield frame loop).Inv := by
  have hmem : frame ∈ m.frames := by
    rw [hframes]
    exact List.mem_cons_self
  have hroom := hi.room frame hmem
  unfold Machine.yield
  split
  case h_1 => exact hi.vmFinish
  case h_2 co hco =>
    split
    · exact hi.vmFinish
    · split
      · rename_i htoo
        exact absurd hroom (Nat.not_le.mpr htoo)
      · obtain ⟨⟨c, hc, htaken⟩, hreplay⟩ := hi.held frame hmem co hco
        have hnone : ∀ f ∈ m.frames.tail, f.coroutine ≠ some co := by
          intro f hf hfco
          have hnodup := hi.frames
          rw [hframes, List.filterMap_cons_some hco, List.nodup_cons] at hnodup
          rw [hframes] at hf
          exact hnodup.1 (List.mem_filterMap.mpr ⟨f, hf, hfco⟩)
        have hpopped := hi.sublist (List.tail_sublist m.frames)
        have hpending : co ∉ m.pendingDispose :=
          hi.not_pending hc fun h => not_taken_of_suspended h htaken
        refine inv_popFrame (Inv.congr (hpopped.write co (List.length_set ..)
          (fun d hd => List.getElem?_set_ne (Ne.symm hd)) hpending ?_ ?_) _ _) loop
        · intro f hf hfco
          exact absurd hfco (hnone f hf)
        · intro d hd hnot
          rw [List.getElem?_set_self (List.getElem?_eq_some_iff.mp hc).1] at hd
          cases hd
          exact ⟨hreplay, hroom⟩

theorem Inv.resume (hi : m.Inv) (hpending : co ∉ m.pendingDispose) (slot : Frame) :
    (m.resume co slot).Inv := by
  unfold Machine.resume
  split
  · exact hi.vmFinish
  · rename_i c hc
    split
    · exact hi.vmFinish
    · rename_i hstate
      exact hi.vmEnterResumeFrame slot hc (fun htaken => hstate htaken.symm) hpending

theorem Inv.native (hi : m.Inv) {kind : Native} (hpending : kind ≠ .start → co ∉ m.pendingDispose)
    (slot : Frame) (hwhite : m.White white) : (m.native kind co slot white).Inv := by
  unfold Machine.native
  split
  · exact hi.vmFinish
  · rename_i c hc
    split
    · exact hi.vmFinish
    · rename_i hstart
      split
      · exact hi.vmFinish
      · split
        · rename_i hover
          split
          · have hstate : c.state ≠ .suspended := by
              rintro h
              rcases hover with h' | ⟨-, h'⟩ <;> simp [h] at h'
            exact hi.setTaken (hi.not_pending hc hstate) (Or.inr rfl)
          · exact hi.vmFinish
        · rename_i hover
          split
          · exact hi.vmFinish
          · rename_i hrunning
            have hnot : ¬ c.Taken := fun htaken =>
              htaken.elim hrunning fun hdone => hover (Or.inl hdone)
            have hfree : co ∉ m.pendingDispose := by
              by_cases hkind : kind = .start
              · refine hi.not_pending hc fun h => hstart ⟨hkind, ?_⟩
                rw [h]
                nofun
              · exact hpending hkind
            split
            · rename_i hdispose
              have hsuspended : c.state = .suspended := by
                cases hstate : c.state with
                | fresh => exact absurd (Or.inr ⟨hdispose, hstate⟩) hover
                | suspended => rfl
                | running => exact absurd hstate hrunning
                | done => exact absurd (Or.inl hstate) hover
              exact (hi.vmEnterDisposalFrame slot hc hsuspended hfree).drain hwhite
            · exact hi.vmEnterResumeFrame slot hc hnot hfree

theorem Inv.execute (hi : m.Inv) {frame : Frame} {below : List Frame}
    (hframes : m.frames = frame :: below) (loop : Loop) (slot : Frame) (hwhite : m.White white)
    {instruction : Instruction}
    (hfree : ∀ co, instruction.takesUp = some co → co ∉ m.pendingDispose) :
    (m.execute frame loop slot white instruction).Inv := by
  have hmem : frame ∈ m.frames := by
    rw [hframes]
    exact List.mem_cons_self
  cases instruction with
  | pushCleanup bx =>
    simp only [Machine.execute]
    split
    · exact hi.vmFinish
    · rename_i hroom
      exact hi.pushed hframes bx (Nat.lt_of_not_le hroom)
  | popCleanup a =>
    refine Inv.drain ?_ hwhite
    exact hi.setFrame hframes rfl rfl
  | endCleanup => exact hi.drain hwhite
  | ret =>
    refine Inv.drain ?_ hwhite
    exact hi.setFrame hframes rfl rfl
  | yield => exact hi.yield loop hframes
  | resume co => exact hi.resume (hfree co rfl) slot
  | native kind co =>
    refine hi.native (fun hkind => hfree co ?_) slot hwhite
    cases kind with
    | start => exact absurd rfl hkind
    | resume => rfl
    | dispose => rfl
  | call => exact hi.vmPushFrame slot
  | coroutine => exact hi.vmCoroutineNew
  | other pc => exact hi.setFrame hframes rfl rfl

theorem Inv.disposePending (hi : m.Inv) (slot : Frame) (hwhite : m.White white) :
    (m.disposePending slot white).Inv := by
  unfold Machine.disposePending
  split
  · exact hi
  · rename_i co rest hpending
    split
    · exact hi
    · rename_i c hc
      have hnodup := hi.waiting.once
      rw [hpending, List.nodup_cons] at hnodup
      obtain ⟨d, hd, hsuspended, -⟩ := hi.waiting.owes co (by simp [hpending])
      cases hc.symm.trans hd
      have hrest : m.lhatGcTakePending.pendingDispose = rest := by
        simp [lhatGcTakePending, hpending]
      have htook : m.lhatGcTakePending.Inv := by
        refine ⟨hi.stamped, hi.innermost, hi.entered, ⟨?_, ?_⟩, hi.frames, hi.held, hi.saved,
          hi.room, hi.unborn⟩
        · rw [hrest]
          exact hnodup.2
        · intro e he
          exact hi.waiting.owes e (List.mem_of_mem_tail he)
      refine (htook.vmEnterDisposalFrame slot hc hsuspended (by rw [hrest]; exact hnodup.1)).drain
        ⟨hwhite.1, fun e he hmem => hwhite.2 e he (List.mem_of_mem_tail hmem)⟩

/-- Whether the next turn executes an instruction. -/
def fetches (m : Machine) : Bool :=
  match m.frames, m.loops with
  | frame :: _, loop :: _ => !m.takesPending frame && !m.waits loop
  | _, _ => false

/-- What no move may do: take up a coroutine that waits for its cleanups. -/
def Meets (m : Machine) : Move → Prop
  | .turn instruction _ _ =>
    m.fetches = true → ∀ co ∈ instruction.takesUp, co ∉ m.pendingDispose
  | .resume co _ => co ∉ m.pendingDispose
  | _ => True

instance (m : Machine) (move : Move) : Decidable (m.Meets move) := by
  cases move <;> unfold Meets <;> infer_instance

instance (m : Machine) (move : Move) : Decidable (m.Allowed move) := by
  cases move <;> unfold Allowed <;> try unfold White
  all_goals infer_instance

theorem Inv.turn (hi : m.Inv) {instruction : Instruction} (hwhite : m.White white)
    (hmeets : m.Meets (.turn instruction slot white)) : (m.turn instruction slot white).Inv := by
  unfold Machine.turn
  split
  case h_2 => exact hi
  case h_1 frame below loop loops hframes hloops =>
    split
    · exact hi.disposePending slot hwhite
    · rename_i htakes
      split
      · exact hi.drain hwhite
      · rename_i hwaits
        have hfetches : m.fetches = true := by
          simp [fetches, hframes, hloops, Bool.not_eq_true _ ▸ htakes, Bool.not_eq_true _ ▸ hwaits]
        have hnext : (m.setFrame { frame with pc := frame.pc + 1 }).Inv :=
          hi.setFrame hframes rfl rfl
        exact hnext.execute rfl loop slot hwhite (hmeets hfetches)

theorem Inv.act (hi : m.Inv) (hallowed : m.Allowed move) (hmeets : m.Meets move) :
    (m.act move).Inv := by
  cases move with
  | turn instruction slot white => exact hi.turn hallowed hmeets
  | leave => exact hi.vmFinish
  | collect white => exact hi.holdPendingDisposals hallowed
  | run slot => exact (hi.vmRunFrames _).vmPushFrame slot
  | coroutine => exact hi.vmCoroutineNew
  | carryOn baseDepth => exact hi.vmRunFrames baseDepth
  | resume co slot => exact (hi.vmRunFrames _).resume hmeets slot
  | runOneDisposal slot white =>
    simp only [Machine.act]
    split
    · exact hi
    · exact (hi.vmRunFrames _).disposePending slot hallowed
  | abandon depth => exact hi.sublist (List.drop_sublist _ _)

/-! ### What goes wrong else -/

theorem not_unwinds (m : Machine) {c : LhatCoroutine} (hco : co ∈ m.pendingDispose)
    (hc : m.coroutines[co]? = some c) (hrunning : c.state = .running) : ¬ m.Unwinds := by
  intro h
  obtain ⟨d, hd, hsuspended, -⟩ := h.waiting.owes co hco
  cases hc.symm.trans hd
  rw [hrunning] at hsuspended
  cases hsuspended

theorem takeUp_running (m : Machine) {c : LhatCoroutine}
    (hc : m.coroutines[co]? = some c) :
    (m.takeUp co c).coroutines[co]? = some { c with state := .running } :=
  List.getElem?_set_self (List.getElem?_eq_some_iff.mp hc).1

theorem Waiting.not_unwinds_resume (hw : m.Waiting) (hco : co ∈ m.pendingDispose)
    (slot : Frame) : ¬ (m.resume co slot).Unwinds := by
  obtain ⟨c, hc, hsuspended, -⟩ := hw.owes co hco
  have hresume : m.resume co slot = m.vmEnterResumeFrame co c slot := by
    simp [Machine.resume, hc, hsuspended]
  rw [hresume]
  exact not_unwinds _ hco (m.takeUp_running hc) rfl

theorem Waiting.not_unwinds_native (hw : m.Waiting) (hco : co ∈ m.pendingDispose)
    (slot : Frame) : ¬ (m.native .resume co slot white).Unwinds := by
  obtain ⟨c, hc, hsuspended, -⟩ := hw.owes co hco
  have hresume : m.native .resume co slot white = m.vmEnterResumeFrame co c slot := by
    simp [Machine.native, hc, hsuspended]
  rw [hresume]
  exact not_unwinds _ hco (m.takeUp_running hc) rfl

theorem Waiting.not_unwinds_dispose (hw : m.Waiting) (hco : co ∈ m.pendingDispose)
    {loop : Loop} {loops : List Loop} (hloops : m.loops = loop :: loops) (slot : Frame) :
    ¬ (m.native .dispose co slot white).Unwinds := by
  obtain ⟨c, hc, hsuspended, howes⟩ := hw.owes co hco
  have hdispose : m.native .dispose co slot white =
      (m.vmEnterDisposalFrame co c slot).drain white := by
    simp [Machine.native, hc, hsuspended]
  obtain ⟨cleanup, rest, hcleanups⟩ := List.exists_cons_of_ne_nil howes
  rw [hdispose]
  have hdrained : ((m.vmEnterDisposalFrame co c slot).drain white).pendingDispose =
        m.pendingDispose ∧
      ((m.vmEnterDisposalFrame co c slot).drain white).coroutines =
        (m.takeUp co c).coroutines := by
    simp [Machine.drain, vmEnterDisposalFrame, takeUp, hloops, Frame.next, hcleanups,
      Machine.note, Machine.setFrame]
  have hrunning : ((m.vmEnterDisposalFrame co c slot).drain white).coroutines[co]? =
      some { c with state := .running } := by
    rw [hdrained.2]
    exact m.takeUp_running hc
  exact not_unwinds _ (hdrained.1 ▸ hco) hrunning rfl

theorem Inv.not_unwinds_act (hi : m.Inv) (hnot : ¬ m.Meets move) : ¬ (m.act move).Unwinds := by
  cases move with
  | resume co slot =>
    have hco : co ∈ m.pendingDispose := not_not.mp hnot
    exact Waiting.not_unwinds_resume (hi.vmRunFrames m.frames.length).waiting hco slot
  | turn instruction slot white =>
    simp only [Meets, Option.mem_def, not_forall, not_not, exists_prop] at hnot
    obtain ⟨hfetches, co, htakes, hco⟩ := hnot
    cases hframes : m.frames with
    | nil => simp [fetches, hframes] at hfetches
    | cons frame below =>
      cases hloops : m.loops with
      | nil => simp [fetches, hframes, hloops] at hfetches
      | cons loop loops =>
        simp only [fetches, hframes, hloops, Bool.and_eq_true, Bool.not_eq_true'] at hfetches
        obtain ⟨htaken, hwaits⟩ := hfetches
        have hnext : (m.setFrame { frame with pc := frame.pc + 1 }).Inv :=
          hi.setFrame hframes rfl rfl
        have hturn : m.act (.turn instruction slot white) =
            (m.setFrame { frame with pc := frame.pc + 1 }).execute
              { frame with pc := frame.pc + 1 } loop slot white instruction := by
          simp [Machine.act, Machine.turn, hframes, hloops, htaken, hwaits]
        rw [hturn]
        cases instruction with
        | resume d =>
          cases htakes
          exact Waiting.not_unwinds_resume hnext.waiting hco slot
        | native kind d =>
          cases kind with
          | start => cases htakes
          | resume =>
            cases htakes
            exact hnext.waiting.not_unwinds_native hco slot
          | dispose =>
            cases htakes
            exact hnext.waiting.not_unwinds_dispose hco hloops slot
        | _ => cases htakes
  | _ => exact absurd trivial hnot

/-- Some property of every move, each where it is made. -/
def Throughout (P : Machine → Move → Prop) : Machine → List Move → Prop
  | _, [] => True
  | m, move :: moves => P m move ∧ Throughout P (m.act move) moves

instance decidableThroughout {P : Machine → Move → Prop} [∀ m move, Decidable (P m move)] :
    ∀ (m : Machine) (moves : List Move), Decidable (Throughout P m moves)
  | _, [] => inferInstanceAs (Decidable True)
  | m, move :: moves =>
    have := decidableThroughout (P := P) (m.act move) moves
    inferInstanceAs (Decidable (P m move ∧ Throughout P (m.act move) moves))

/-- The machine after some moves. -/
def acts (m : Machine) (moves : List Move) : Machine := moves.foldl act m

/-- The cleanups are in order after every number of moves. -/
def AlwaysUnwinds (m : Machine) (moves : List Move) : Prop :=
  ∀ before, before <+: moves → (m.acts before).Unwinds

theorem alwaysUnwinds_cons {moves : List Move} :
    m.AlwaysUnwinds (move :: moves) ↔ m.Unwinds ∧ (m.act move).AlwaysUnwinds moves := by
  constructor
  · intro h
    refine ⟨h [] (List.nil_prefix), fun before hbefore => ?_⟩
    exact h (move :: before) (List.cons_prefix_cons.mpr ⟨rfl, hbefore⟩)
  · rintro ⟨hnow, hlater⟩ before hbefore
    cases before with
    | nil => exact hnow
    | cons first before =>
      obtain ⟨rfl, hrest⟩ := List.cons_prefix_cons.mp hbefore
      exact hlater before hrest

theorem Inv.alwaysUnwinds_iff (hi : m.Inv) {moves : List Move}
    (hallowed : m.Throughout Allowed moves) : m.AlwaysUnwinds moves ↔ m.Throughout Meets moves := by
  induction moves generalizing m with
  | nil =>
    refine ⟨fun _ => trivial, fun _ before hbefore => ?_⟩
    rw [List.prefix_nil.mp hbefore]
    exact hi.unwinds
  | cons move moves ih =>
    rw [alwaysUnwinds_cons]
    constructor
    · rintro ⟨-, hlater⟩
      have hmeets : m.Meets move := by
        by_contra hnot
        exact hi.not_unwinds_act hnot (hlater [] List.nil_prefix)
      exact ⟨hmeets, (ih (hi.act hallowed.1 hmeets) hallowed.2).mp hlater⟩
    · rintro ⟨hmeets, hrest⟩
      exact ⟨hi.unwinds, (ih (hi.act hallowed.1 hmeets) hallowed.2).mpr hrest⟩

/-- Nothing was run yet. -/
def started : Machine := {}

theorem inv_started : started.Inv where
  stamped := trivial
  innermost := fun _ => ⟨[], rfl⟩
  entered := nofun
  waiting := ⟨.nil, nofun⟩
  frames := .nil
  held := nofun
  saved := nofun
  room := nofun
  unborn := fun _ _ => rfl

/-- In every run the cleanups are in order throughout if and only if no coroutine that
waits for its cleanups is taken up on the way, by a resume or by a dispose. -/
theorem alwaysUnwinds_iff_meets {moves : List Move} (hallowed : started.Throughout Allowed moves) :
    started.AlwaysUnwinds moves ↔ started.Throughout Meets moves :=
  inv_started.alwaysUnwinds_iff hallowed

/-- Two coroutines with a cleanup each are suspended and held back. -/
def twoHeld : List Move :=
  [.run {}, .coroutine, .coroutine, .turn (.native .start 0) {} [], .turn (.pushCleanup 10) {} [],
    .turn .yield {} [], .turn (.native .start 1) {} [], .turn (.pushCleanup 20) {} [],
    .turn .yield {} [], .collect [1, 0]]

/-- One after the other has its cleanup run. -/
theorem alwaysUnwinds_twoHeld :
    started.AlwaysUnwinds (twoHeld ++
      [.turn (.other 0) {} [], .turn .endCleanup {} [], .turn (.other 0) {} [],
        .turn .endCleanup {} [], .turn .ret {} []]) :=
  (alwaysUnwinds_iff_meets (by decide)).mpr (by decide)

/-- The cleanup of the first resumes the second, whose turn comes while it runs: what it
was suspended with is run, and then run once more as it returns. -/
theorem not_alwaysUnwinds :
    ¬ ∀ moves, started.Throughout Allowed moves → started.AlwaysUnwinds moves := by
  intro h
  have hagain := (h (twoHeld ++
    [.turn (.other 0) {} [], .turn (.native .resume 1) {} [], .turn (.other 0) {} [],
      .turn .endCleanup {} [], .turn .ret {} []]) (by decide) _ (List.prefix_refl _)).once 1
  revert hagain
  decide

end Machine

end Lhat.Finally
