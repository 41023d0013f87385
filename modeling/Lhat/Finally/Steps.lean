import Lhat.Finally.Basic

/-!
# What keeps the cleanups in order

Each part of a turn on its own: frames that go, a frame that is written, a cleanup that
is pushed or run, a coroutine that is taken up, suspended, finished or held back.
-/

namespace Lhat.Finally

open Gc (CoroutineState)

variable {frame frame' : Frame} {co : Nat} {c : LhatCoroutine} {below : List Frame}
  {white : List Nat}

variable {m : Machine}

namespace Machine

theorem Inv.congr (hi : m.Inv) (loops : List Loop) (carriers : Nat) :
    { m with loops := loops, cleanupCarriers := carriers }.Inv :=
  ⟨hi.stamped, hi.innermost, hi.entered, ⟨hi.waiting.once, hi.waiting.owes⟩, hi.frames, hi.held,
    hi.saved, hi.room, hi.unborn⟩

theorem Inv.vmFinish (hi : m.Inv) : m.vmFinish.Inv := hi.congr _ _

theorem Inv.vmRunFrames (hi : m.Inv) (baseDepth : Nat) : (m.vmRunFrames baseDepth).Inv :=
  hi.congr _ _

theorem Inv.sublist (hi : m.Inv) {frames : List Frame} (h : frames.Sublist m.frames) :
    { m with frames := frames }.Inv where
  stamped := hi.stamped
  innermost := hi.innermost
  entered := hi.entered
  waiting := ⟨hi.waiting.once, hi.waiting.owes⟩
  frames := (h.filterMap _).nodup hi.frames
  held := fun f hf => hi.held f (h.subset hf)
  saved := hi.saved
  room := fun f hf => hi.room f (h.subset hf)
  unborn := hi.unborn

theorem inv_popFrame (htail : { m with frames := m.frames.tail }.Inv) (loop : Loop) :
    (m.popFrame loop).Inv := by
  unfold Machine.popFrame
  split
  · exact htail.vmFinish
  · exact htail

theorem Inv.popFrame (hi : m.Inv) (loop : Loop) : (m.popFrame loop).Inv :=
  inv_popFrame (hi.sublist (List.tail_sublist _)) loop

theorem Inv.setFrame (hi : m.Inv)
    (hframes : m.frames = frame :: below) (hco : frame'.coroutine = frame.coroutine)
    (hcleanups : frame'.cleanups = frame.cleanups) : (m.setFrame frame').Inv where
  stamped := hi.stamped
  innermost := hi.innermost
  entered := hi.entered
  waiting := ⟨hi.waiting.once, hi.waiting.owes⟩
  frames := by
    have := hi.frames
    rw [hframes] at this
    simpa [Machine.setFrame, hframes, List.filterMap_cons, hco] using this
  held := by
    intro f hf co hfco
    rcases List.mem_cons.mp hf with rfl | hf
    · rw [hcleanups]
      exact hi.held frame (by rw [hframes]; exact List.mem_cons_self) co (hco ▸ hfco)
    · exact hi.held f (List.mem_of_mem_tail hf) co hfco
  saved := hi.saved
  room := by
    intro f hf
    rcases List.mem_cons.mp hf with rfl | hf
    · rw [hcleanups]
      exact hi.room frame (by rw [hframes]; exact List.mem_cons_self)
    · exact hi.room f (List.mem_of_mem_tail hf)
  unborn := hi.unborn

theorem Inv.vmPushFrame (hi : m.Inv) (slot : Frame) : (m.vmPushFrame slot).Inv where
  stamped := hi.stamped
  innermost := hi.innermost
  entered := hi.entered
  waiting := ⟨hi.waiting.once, hi.waiting.owes⟩
  frames := hi.frames
  held := by
    intro f hf co hfco
    rcases List.mem_cons.mp hf with rfl | hf
    · cases hfco
    · exact hi.held f hf co hfco
  saved := hi.saved
  room := by
    intro f hf
    rcases List.mem_cons.mp hf with rfl | hf
    · exact Nat.zero_le _
    · exact hi.room f hf
  unborn := hi.unborn

theorem Inv.note (hi : m.Inv)
    (hframes : m.frames = frame :: below) (event : Nat → Event)
    (hco : frame'.coroutine = frame.coroutine) (hstamped : ∀ co, Stamped (event co :: m.log))
    (hevent : ∀ co d state, .disposing d state ≠ event co)
    (hother : ∀ co d, co ≠ d → uses (event co :: m.log) d = uses m.log d)
    (hreplay : ∀ co, replay (uses m.log co) = some frame.cleanups →
      replay (uses (event co :: m.log) co) = some frame'.cleanups)
    (hroom : frame'.cleanups.length ≤ maxCleanups) :
    ((m.setFrame frame').note frame event).Inv := by
  have hmem : frame ∈ m.frames := by
    rw [hframes]
    exact List.mem_cons_self
  have hnodup : ((m.setFrame frame').frames.filterMap Frame.coroutine).Nodup := by
    have := hi.frames
    rw [hframes] at this
    simpa [Machine.setFrame, hframes, List.filterMap_cons, hco] using this
  have hrooms : ∀ f ∈ (m.setFrame frame').frames, f.cleanups.length ≤ maxCleanups := by
    intro f hf
    rcases List.mem_cons.mp hf with rfl | hf
    · exact hroom
    · exact hi.room f (List.mem_of_mem_tail hf)
  unfold Machine.note
  split
  case h_2 hnone =>
    refine ⟨hi.stamped, hi.innermost, hi.entered, ⟨hi.waiting.once, hi.waiting.owes⟩, hnodup, ?_,
      hi.saved, hrooms, hi.unborn⟩
    intro f hf co hfco
    rcases List.mem_cons.mp hf with rfl | hf
    · rw [hco, hnone] at hfco
      cases hfco
    · exact hi.held f (List.mem_of_mem_tail hf) co hfco
  case h_1 co hsome =>
    obtain ⟨⟨c, hc, htaken⟩, hleft⟩ := hi.held frame hmem co hsome
    have hnew := hreplay co hleft
    refine ⟨hstamped co, ?_, ?_, ⟨hi.waiting.once, hi.waiting.owes⟩, hnodup, ?_, ?_, hrooms, ?_⟩
    · intro d
      by_cases hd : co = d
      · subst d
        exact ⟨_, hnew⟩
      · have hleft := hi.innermost d
        rwa [← hother co d hd] at hleft
    · intro d state hmem
      rcases List.mem_cons.mp hmem with hd | hmem
      · exact absurd hd (hevent co d state)
      · exact hi.entered d state hmem
    · intro f hf d hfd
      rcases List.mem_cons.mp hf with rfl | hf
      · rw [hco, hsome] at hfd
        cases hfd
        exact ⟨⟨c, hc, htaken⟩, hnew⟩
      · have hd : co ≠ d := by
          rintro rfl
          have := hi.frames
          rw [hframes, List.filterMap_cons_some hsome, List.nodup_cons] at this
          rw [hframes] at hf
          exact this.1 (List.mem_filterMap.mpr ⟨f, hf, hfd⟩)
        have hleft := hi.held f (List.mem_of_mem_tail hf) d hfd
        rwa [← hother co d hd] at hleft
    · intro d e he hnot
      have hd : co ≠ d := by
        rintro rfl
        exact hnot (Option.some.inj (hc.symm.trans he) ▸ htaken)
      have hleft := hi.saved d e he hnot
      rwa [← hother co d hd] at hleft
    · intro d hd
      have hne : co ≠ d := by
        rintro rfl
        exact absurd (List.getElem?_eq_some_iff.mp hc).1 (Nat.not_lt.mpr hd)
      have hleft := hi.unborn d hd
      rwa [← hother co d hne] at hleft

theorem Inv.pushed (hi : m.Inv)
    (hframes : m.frames = frame :: below) (start : Nat)
    (hroom : frame.cleanups.length < maxCleanups) :
    ((m.setFrame { frame with cleanups := ⟨start, m.log.length⟩ :: frame.cleanups }).note frame
      (.pushed · ⟨start, m.log.length⟩)).Inv := by
  refine hi.note hframes (.pushed · ⟨start, m.log.length⟩) rfl ?_ ?_
    (fun co d hd => uses_pushed_of_ne _ hd _) ?_ hroom
  · intro co
    exact ⟨rfl, hi.stamped⟩
  · nofun
  · intro co hreplay
    rw [uses_pushed]
    exact replay_push hreplay _

theorem Inv.ran (hi : m.Inv) {cleanup : Cleanup}
    (hframes : m.frames = frame :: below) (hco : frame'.coroutine = frame.coroutine)
    (hcleanups : frame.cleanups = cleanup :: frame'.cleanups) :
    ((m.setFrame frame').note frame (.ran · cleanup)).Inv := by
  have hroom := hi.room frame (by rw [hframes]; exact List.mem_cons_self)
  rw [hcleanups] at hroom
  refine hi.note hframes (.ran · cleanup) hco (fun _ => hi.stamped) ?_
    (fun co d hd => uses_ran_of_ne _ hd _) ?_ (Nat.le_of_succ_le hroom)
  · nofun
  intro co hreplay
  rw [hcleanups] at hreplay
  rw [uses_ran]
  exact replay_pop hreplay

/-! ### Coroutines -/

theorem vmCoroutineNew_of_some (m : Machine)
    (hc : m.coroutines[co]? = some c) : m.vmCoroutineNew.coroutines[co]? = some c := by
  rw [Machine.vmCoroutineNew, List.getElem?_append_left (List.getElem?_eq_some_iff.mp hc).1]
  exact hc

section

variable (hi : m.Inv)
include hi

theorem Inv.vmCoroutineNew : m.vmCoroutineNew.Inv where
  stamped := hi.stamped
  innermost := hi.innermost
  entered := hi.entered
  waiting := by
    refine ⟨hi.waiting.once, fun co hco => ?_⟩
    obtain ⟨c, hc, howes⟩ := hi.waiting.owes co hco
    exact ⟨c, m.vmCoroutineNew_of_some hc, howes⟩
  frames := hi.frames
  held := by
    intro f hf co hco
    obtain ⟨⟨c, hc, htaken⟩, hreplay⟩ := hi.held f hf co hco
    exact ⟨⟨c, m.vmCoroutineNew_of_some hc, htaken⟩, hreplay⟩
  saved := by
    intro co c hc hnot
    by_cases hlen : co < m.coroutines.length
    · exact hi.saved co c (by rwa [Machine.vmCoroutineNew, List.getElem?_append_left hlen] at hc)
        hnot
    · rw [Machine.vmCoroutineNew, List.getElem?_append_right (Nat.not_lt.mp hlen),
        List.getElem?_singleton] at hc
      split at hc
      · cases hc
        exact ⟨hi.unborn co (Nat.not_lt.mp hlen), Nat.zero_le _⟩
      · cases hc
  room := hi.room
  unborn := by
    intro co hco
    rw [Machine.vmCoroutineNew, List.length_append] at hco
    exact hi.unborn co (Nat.le_of_add_right_le hco)

theorem Inv.write (co : Nat) {cs : List LhatCoroutine}
    (hlen : cs.length = m.coroutines.length) (hne : ∀ d, d ≠ co → cs[d]? = m.coroutines[d]?)
    (hpending : co ∉ m.pendingDispose)
    (hheld : ∀ f ∈ m.frames, f.coroutine = some co → ∃ c, cs[co]? = some c ∧ c.Taken)
    (hsaved : ∀ c, cs[co]? = some c → ¬ c.Taken →
      replay (uses m.log co) = some c.cleanups ∧ c.cleanups.length ≤ maxCleanups) :
    { m with coroutines := cs }.Inv where
  stamped := hi.stamped
  innermost := hi.innermost
  entered := hi.entered
  waiting := by
    refine ⟨hi.waiting.once, fun d hd => ?_⟩
    have : d ≠ co := by
      rintro rfl
      exact hpending hd
    rw [hne d this]
    exact hi.waiting.owes d hd
  frames := hi.frames
  held := by
    intro f hf d hfd
    by_cases hd : d = co
    · subst d
      exact ⟨hheld f hf hfd, (hi.held f hf co hfd).2⟩
    · rw [hne d hd]
      exact hi.held f hf d hfd
  saved := by
    intro d c hc hnot
    by_cases hd : d = co
    · subst d
      exact hsaved c hc hnot
    · rw [hne d hd] at hc
      exact hi.saved d c hc hnot
  room := hi.room
  unborn := fun d hd => hi.unborn d (hlen ▸ hd)

theorem Inv.setTaken (hpending : co ∉ m.pendingDispose) (hc : c.Taken) :
    { m with coroutines := m.coroutines.set co c }.Inv := by
  have hset : ∀ d, (m.coroutines.set co c)[co]? = some d → d = c := by
    intro d hd
    rw [List.getElem?_set_self'] at hd
    cases h : m.coroutines[co]? with
    | none =>
      rw [h] at hd
      cases hd
    | some e =>
      rw [h] at hd
      exact (Option.some.inj hd).symm
  refine hi.write co (List.length_set ..)
    (fun d hd => List.getElem?_set_ne (Ne.symm hd)) hpending ?_ ?_
  · intro f hf hco
    obtain ⟨⟨e, he, -⟩, -⟩ := hi.held f hf co hco
    exact ⟨c, List.getElem?_set_self (List.getElem?_eq_some_iff.mp he).1, hc⟩
  · intro d hd hnot
    rw [hset d hd] at hnot
    exact absurd hc hnot

theorem Inv.pushHeld
    (hc : m.coroutines[co]? = some c) (htaken : c.Taken) (hco : frame.coroutine = some co)
    (hnone : ∀ f ∈ m.frames, f.coroutine ≠ some co)
    (hreplay : replay (uses m.log co) = some frame.cleanups)
    (hroom : frame.cleanups.length ≤ maxCleanups) :
    { m with frames := frame :: m.frames }.Inv where
  stamped := hi.stamped
  innermost := hi.innermost
  entered := hi.entered
  waiting := ⟨hi.waiting.once, hi.waiting.owes⟩
  frames := by
    rw [List.filterMap_cons_some hco, List.nodup_cons]
    refine ⟨fun hmem => ?_, hi.frames⟩
    obtain ⟨f, hf, hfco⟩ := List.mem_filterMap.mp hmem
    exact hnone f hf hfco
  held := by
    intro f hf d hfd
    rcases List.mem_cons.mp hf with rfl | hf
    · rw [hco] at hfd
      cases hfd
      exact ⟨⟨c, hc, htaken⟩, hreplay⟩
    · exact hi.held f hf d hfd
  saved := hi.saved
  room := by
    intro f hf
    rcases List.mem_cons.mp hf with rfl | hf
    · exact hroom
    · exact hi.room f hf
  unborn := hi.unborn

theorem Inv.not_framed (hc : m.coroutines[co]? = some c) (hnot : ¬ c.Taken) :
    ∀ f ∈ m.frames, f.coroutine ≠ some co := by
  intro f hf hco
  obtain ⟨⟨e, he, htaken⟩, -⟩ := hi.held f hf co hco
  exact hnot (Option.some.inj (he.symm.trans hc) ▸ htaken)

theorem Inv.takeUp
    (hc : m.coroutines[co]? = some c) (hnot : ¬ c.Taken) (hpending : co ∉ m.pendingDispose)
    (hco : frame.coroutine = some co) (hcleanups : frame.cleanups = c.cleanups) :
    { m.takeUp co c with frames := frame :: m.frames }.Inv := by
  have htaken : LhatCoroutine.Taken { c with state := .running } := Or.inl rfl
  have htook : (m.takeUp co c).Inv := (hi.setTaken hpending htaken).congr _ _
  obtain ⟨hreplay, hroom⟩ := hi.saved co c hc hnot
  rw [← hcleanups] at hreplay hroom
  exact htook.pushHeld (List.getElem?_set_self (List.getElem?_eq_some_iff.mp hc).1) htaken hco
    (hi.not_framed hc hnot) hreplay hroom

theorem Inv.vmEnterResumeFrame (slot : Frame) (hc : m.coroutines[co]? = some c)
    (hnot : ¬ c.Taken) (hpending : co ∉ m.pendingDispose) : (m.vmEnterResumeFrame co c slot).Inv :=
  hi.takeUp hc hnot hpending rfl rfl

theorem Inv.disposing (co : Nat) :
    { m with log := .disposing co .suspended :: m.log }.Inv where
  stamped := hi.stamped
  innermost := by
    intro d
    rw [uses_disposing]
    exact hi.innermost d
  entered := by
    intro d state hmem
    rcases List.mem_cons.mp hmem with hd | hmem
    · cases hd
      rfl
    · exact hi.entered d state hmem
  waiting := ⟨hi.waiting.once, hi.waiting.owes⟩
  frames := hi.frames
  held := by
    intro f hf d hfd
    rw [uses_disposing]
    exact hi.held f hf d hfd
  saved := by
    intro d c hc hnot
    rw [uses_disposing]
    exact hi.saved d c hc hnot
  room := hi.room
  unborn := by
    intro d hd
    rw [uses_disposing]
    exact hi.unborn d hd

end

theorem not_taken_of_suspended (h : c.state = .suspended) : ¬ c.Taken := by
  simp [LhatCoroutine.Taken, h]

theorem Inv.vmEnterDisposalFrame (hi : m.Inv) (slot : Frame)
    (hc : m.coroutines[co]? = some c) (hsuspended : c.state = .suspended)
    (hpending : co ∉ m.pendingDispose) : (m.vmEnterDisposalFrame co c slot).Inv := by
  unfold Machine.vmEnterDisposalFrame
  rw [hsuspended]
  exact (hi.takeUp hc (not_taken_of_suspended hsuspended) hpending rfl rfl).disposing co

theorem Inv.finishCoroutine (hi : m.Inv) (hmem : frame ∈ m.frames) :
    (m.finishCoroutine frame).Inv := by
  unfold Machine.finishCoroutine
  split
  case h_2 => exact hi
  case h_1 co hco =>
    obtain ⟨⟨c, hc, htaken⟩, -⟩ := hi.held frame hmem co hco
    have hdone : (m.coroutines.modify co fun c => { c with state := .done, cleanups := [] })[co]? =
        some { c with state := .done, cleanups := [] } := by
      rw [List.getElem?_modify, hc]
      simp
    refine hi.write co (List.length_modify ..) ?_ ?_ ?_ ?_
    · intro d hd
      exact List.getElem?_modify_ne _ _ (Ne.symm hd)
    · intro hpending
      obtain ⟨e, he, hsuspended, -⟩ := hi.waiting.owes co hpending
      exact not_taken_of_suspended hsuspended (Option.some.inj (hc.symm.trans he) ▸ htaken)
    · intro f hf hfco
      exact ⟨_, hdone, Or.inr rfl⟩
    · intro d hd hnot
      rw [hdone] at hd
      cases hd
      exact absurd (Or.inr rfl) hnot

theorem Inv.not_pending (hi : m.Inv) (hc : m.coroutines[co]? = some c)
    (hstate : c.state ≠ .suspended) : co ∉ m.pendingDispose := by
  intro hmem
  obtain ⟨e, he, hsuspended, -⟩ := hi.waiting.owes co hmem
  exact hstate (Option.some.inj (hc.symm.trans he) ▸ hsuspended)

/-! ### The collector -/

theorem Inv.hold (hi : m.Inv) (hco : co ∉ m.pendingDispose) : (m.hold co).Inv := by
  unfold Machine.hold
  split
  case h_2 => exact hi
  case h_1 c hc =>
    split
    case isFalse => exact hi
    case isTrue hcarries =>
      simp only [carries, Bool.and_eq_true, decide_eq_true_eq, Bool.not_eq_true',
        List.isEmpty_eq_false_iff] at hcarries
      refine ⟨hi.stamped, hi.innermost, hi.entered, ⟨List.nodup_cons.mpr ⟨hco, hi.waiting.once⟩, ?_⟩,
        hi.frames, hi.held, hi.saved, hi.room, hi.unborn⟩
      intro d hd
      rcases List.mem_cons.mp hd with rfl | hd
      · exact ⟨c, hc, hcarries⟩
      · exact hi.waiting.owes d hd

theorem pendingDispose_hold (m : Machine) (co : Nat) :
    (m.hold co).pendingDispose ⊆ co :: m.pendingDispose := by
  unfold Machine.hold
  split
  · split
    · exact List.Subset.refl _
    · exact List.subset_cons_self ..
  · exact List.subset_cons_self ..

theorem Inv.holdPendingDisposals (hi : m.Inv) (hwhite : m.White white) :
    (m.holdPendingDisposals white).Inv := by
  induction white generalizing m with
  | nil => exact hi
  | cons co white ih =>
    obtain ⟨hnodup, hpending⟩ := hwhite
    refine ih (hi.hold (hpending co List.mem_cons_self)) ⟨hnodup.of_cons, fun d hd hmem => ?_⟩
    rcases List.mem_cons.mp (m.pendingDispose_hold co hmem) with rfl | hmem
    · exact (List.nodup_cons.mp hnodup).1 hd
    · exact hpending d (List.mem_cons_of_mem _ hd) hmem

/-! ### The drain -/

theorem pendingDispose_finishCoroutine (m : Machine) (frame : Frame) :
    (m.finishCoroutine frame).pendingDispose = m.pendingDispose := by
  unfold Machine.finishCoroutine
  split <;> rfl

theorem frames_finishCoroutine (m : Machine) (frame : Frame) :
    (m.finishCoroutine frame).frames = m.frames := by
  unfold Machine.finishCoroutine
  split <;> rfl

theorem frames_holdPendingDisposals (m : Machine) (white : List Nat) :
    (m.holdPendingDisposals white).frames = m.frames := by
  unfold Machine.holdPendingDisposals
  induction white generalizing m with
  | nil => rfl
  | cons co white ih =>
    refine (ih (m.hold co)).trans ?_
    unfold Machine.hold
    split
    · split <;> rfl
    · rfl

theorem Inv.leaveFrame (hi : m.Inv) (hframes : m.frames = frame :: below) (loop : Loop)
    (hwhite : m.White white) : (m.leaveFrame frame loop white).Inv := by
  have hfinished := hi.finishCoroutine (hframes ▸ List.mem_cons_self)
  have hswept : ((m.finishCoroutine frame).holdPendingDisposals white).Inv :=
    hfinished.holdPendingDisposals (by
      rw [White, pendingDispose_finishCoroutine]
      exact hwhite)
  unfold Machine.leaveFrame
  split
  · dsimp only
    split
    · exact (hswept.congr _ _).popFrame loop
    · have hstands : ((m.finishCoroutine frame).holdPendingDisposals white).frames =
          frame :: below := by
        rw [frames_holdPendingDisposals, frames_finishCoroutine]
        exact hframes
      exact (hswept.congr _ _).setFrame hstands rfl rfl
  · exact hfinished.popFrame loop

theorem Frame.next_eq {cleanup : Cleanup} {rest : List Cleanup}
    (h : frame.next = some (cleanup, rest)) : frame.cleanups = cleanup :: rest := by
  unfold Frame.next at h
  split at h
  · rename_i c r hcleanups
    split at h
    · cases h
      exact hcleanups
    · cases h
  · cases h

theorem Inv.drain (hi : m.Inv) (hwhite : m.White white) : (m.drain white).Inv := by
  unfold Machine.drain
  split
  case h_2 => exact hi
  case h_1 frame below loop loops hframes hloops =>
    split
    case h_1 cleanup rest hnext => exact hi.ran hframes rfl (Frame.next_eq hnext)
    case h_2 =>
      split
      · exact hi.leaveFrame hframes loop hwhite
      · exact hi.setFrame hframes rfl rfl

end Machine

end Lhat.Finally
