import Lhat.Exits.Basic

/-!
# Cleanups nest

The code of a statement is followed through a frame along the exits that `eval` gives the
statement. An exit that waits for cleanups is kept by the frame as the depth to drain to and
the place to go on at. It is there as long as no block inside the cleanup writes its own.
-/

namespace Lhat.Exits

variable {depth target mid c : Nat} {drains : Bool} {bindings : List (Nat × Nat)}

/-! ### Where the code stands -/

/-- A part of the code, at a place. -/
def Holds (code : List Instruction) (place : Nat) (part : List Instruction) : Prop :=
  ∀ i instruction, part[i]? = some instruction → code[place + i]? = some instruction

namespace Holds

variable {code part rest : List Instruction} {place : Nat} {instruction : Instruction}

theorem whole (code rest : List Instruction) : Holds (code ++ rest) 0 code := by
  intro i instruction h
  rw [Nat.zero_add, List.getElem?_append_left (List.getElem?_eq_some_iff.mp h).1]
  exact h

theorem left (h : Holds code place (part ++ rest)) : Holds code place part := by
  intro i instruction hi
  refine h i instruction ?_
  rw [List.getElem?_append_left (List.getElem?_eq_some_iff.mp hi).1]
  exact hi

theorem right (h : Holds code place (part ++ rest)) : Holds code (place + part.length) rest := by
  intro i instruction hi
  have := h (part.length + i) instruction
    (by rw [List.getElem?_append_right (Nat.le_add_right ..), Nat.add_sub_cancel_left]; exact hi)
  rwa [← Nat.add_assoc] at this

theorem head (h : Holds code place (instruction :: rest)) : code[place]? = some instruction :=
  h 0 instruction rfl

theorem tail (h : Holds code place (instruction :: rest)) : Holds code (place + 1) rest := by
  have happend : Holds code place ([instruction] ++ rest) := h
  exact happend.right

end Holds

theorem length_bindingCode (bodies : Nat) (bindings : List (Nat × Nat)) :
    (bindingCode bodies bindings).length = 2 * bindings.length := by
  induction bindings generalizing bodies with
  | nil => rfl
  | cons binding bindings ih =>
    show (bindingCode (bodies + 2) bindings).length + 1 + 1 = 2 * (bindings.length + 1)
    rw [ih]
    omega

theorem length_disposals (bindings : List (Nat × Nat)) :
    (disposals bindings).length = 2 * bindings.length := by
  induction bindings with
  | nil => rfl
  | cons binding bindings ih =>
    show (disposals bindings).length + 1 + 1 = 2 * (bindings.length + 1)
    rw [ih]
    omega

theorem length_emitCleanupDrain_succ (depth : Nat) :
    (emitCleanupDrain (depth + 1) depth) = [.popCleanup depth] := if_pos (Nat.lt_succ_self depth)

theorem length_compile (s : Stmt) (depth : Nat) (loops : List LoopContext) (place : Nat) :
    (compile depth loops place s).length = size depth (loops.map LoopContext.cleanupDepth) s := by
  induction s generalizing depth loops place with
  | skip | act a | yield a | ret a => rfl
  | seq s t ihs iht =>
    unfold compile size
    rw [List.length_append, ihs, iht]
  | ifThen c s ih =>
    unfold compile size
    rw [List.length_cons, ih, Nat.add_comm]
  | ifElse c s t ihs iht =>
    unfold compile size
    simp only [List.length_append, List.length_cons, ihs, iht]
    omega
  | block s cleanup ihs ihc =>
    unfold compile size
    simp only [List.length_append, List.length_cons, ihs, ihc, length_emitCleanupDrain_succ,
      List.length_nil]
    omega
  | withBlock bindings s ih =>
    unfold compile size
    simp only [List.length_append, List.length_cons, ih, length_bindingCode, length_disposals]
    omega
  | loop pre c s step ihp ihs =>
    unfold compile size
    simp only [List.length_append, List.length_cons, ihp, ihs, List.map_cons, List.length_nil]
    omega
  | counted prep turn s ih =>
    unfold compile size
    simp only [List.length_append, List.length_cons, ih, List.map_cons, List.length_nil]
    omega
  | brk level | nxt level =>
    unfold compile size
    rw [List.getElem?_map]
    cases loops[level]? with
    | none => rfl
    | some target => exact List.length_append ..

/-! ### What is not spoilt -/

namespace Outcome

variable {σ V : Type*} {o : Outcome σ V} {next : σ → Outcome σ V}

theorem spoilt_followedBy (h : (o.followedBy next).spoilt = false) :
    o.spoilt = false ∧ (next o.state).spoilt = false := Bool.or_eq_false_iff.mp h

theorem spoilt_andThen (h : (o.andThen next).spoilt = false) :
    o.spoilt = false ∧ (o.exit = some .normal → (next o.state).spoilt = false) := by
  unfold andThen at h
  split at h
  · exact (spoilt_followedBy h).imp id fun hnext _ => hnext
  · rename_i hexit
    exact ⟨h, fun hnormal => absurd hnormal hexit⟩

theorem spoilt_turn (h : (o.turn next).spoilt = false) :
    o.spoilt = false ∧ (o.exit = some .normal ∨ o.exit = some (.nxt 0) →
      (next o.state).spoilt = false) := by
  unfold turn at h
  split at h
  · exact (spoilt_followedBy h).imp id fun hnext _ => hnext
  · exact (spoilt_followedBy h).imp id fun hnext _ => hnext
  all_goals
    rename_i hexit
    exact ⟨h, fun hgoes => by rw [hexit] at hgoes; rcases hgoes with h' | h' <;> cases h'⟩

theorem spoilt_cleanedBy {cleanup : σ → Outcome σ V}
    (h : (o.cleanedBy depth cleanup).spoilt = false) :
    o.spoilt = false ∧ depth < maxCleanups ∧
      (o.exit ≠ none → (cleanup o.state).spoilt = false) := by
  unfold cleanedBy at h
  split at h
  · rename_i hexit
    obtain ⟨hspoilt, hroom⟩ := Bool.or_eq_false_iff.mp h
    exact ⟨hspoilt, Nat.not_le.mp (of_decide_eq_false hroom), fun hsome => absurd hexit hsome⟩
  · obtain ⟨hrest, -⟩ := Bool.or_eq_false_iff.mp h
    obtain ⟨hhere, hcleanup⟩ := Bool.or_eq_false_iff.mp hrest
    obtain ⟨hspoilt, hroom⟩ := Bool.or_eq_false_iff.mp hhere
    exact ⟨hspoilt, Nat.not_le.mp (of_decide_eq_false hroom), fun _ => hcleanup⟩

end Outcome

/-! ### Frames on their way -/

namespace Frame

variable {σ V : Type*} (A : Atoms σ V) (code : List Instruction)

/-- A frame comes to another. -/
def Reaches (f f' : Frame σ V) : Prop := ∃ n, (step A code)^[n] f = f'

/-- What a frame keeps for an exit that waits is the same in two frames. -/
structure SameDrain (f f' : Frame σ V) : Prop where
  drainTarget : f'.drainTarget = f.drainTarget
  resume : f'.resume = f.resume
  returning : f'.returning = f.returning
  answer : f'.answer = f.answer

variable {A code} {f f' f'' : Frame σ V}

theorem SameDrain.refl (f : Frame σ V) : SameDrain f f := ⟨rfl, rfl, rfl, rfl⟩

theorem SameDrain.trans (h : SameDrain f f') (h' : SameDrain f' f'') : SameDrain f f'' :=
  ⟨h'.drainTarget.trans h.drainTarget, h'.resume.trans h.resume,
    h'.returning.trans h.returning, h'.answer.trans h.answer⟩

theorem Reaches.refl (f : Frame σ V) : Reaches A code f f := ⟨0, rfl⟩

theorem Reaches.trans (h : Reaches A code f f') (h' : Reaches A code f' f'') :
    Reaches A code f f'' := by
  obtain ⟨n, rfl⟩ := h
  obtain ⟨k, rfl⟩ := h'
  exact ⟨k + n, Function.iterate_add_apply ..⟩

theorem step_eq {instruction : Instruction} (hrunning : f.status = .running)
    (hat : code[f.pc]? = some instruction) :
    f.step A code = { f with pc := f.pc + 1 }.execute A instruction := by
  unfold step
  rw [hrunning, hat]

theorem Reaches.one {instruction : Instruction} (hrunning : f.status = .running)
    (hat : code[f.pc]? = some instruction) :
    Reaches A code f ({ f with pc := f.pc + 1 }.execute A instruction) :=
  ⟨1, step_eq hrunning hat⟩

theorem drain_cons {cleanup : Nat} {rest : List Nat} (hcleanups : f.cleanups = cleanup :: rest)
    (htarget : f.drainTarget ≤ rest.length) :
    f.drain = { f with pc := cleanup, cleanups := rest } := by
  unfold drain
  rw [hcleanups]
  exact if_pos (Nat.lt_succ_of_le htarget)

theorem drain_done (hcleanups : f.cleanups.length ≤ f.drainTarget) :
    f.drain = if f.returning then { f with status := .answered f.answer }
      else { f with pc := f.resume } := by
  unfold drain
  split
  · rename_i cleanup rest heq
    rw [heq] at hcleanups
    exact if_neg (Nat.not_lt.mpr hcleanups)
  · rfl

theorem drain_state (f : Frame σ V) : f.drain.state = f.state := by
  unfold drain
  split
  · split
    · rfl
    · split <;> rfl
  · split <;> rfl

/-! ### Exits that wait -/

variable (code)

/-- A frame about to drain down to a depth and to go on at a place from there. -/
structure Heads (g : Frame σ V) (depth target : Nat) : Prop where
  running : g.status = .running
  drainTarget : g.drainTarget = depth
  returning : g.returning = false
  resume : code[g.resume]? = some (.jump target)

/-- A frame about to drain everything and to answer. -/
structure Answers (g : Frame σ V) (v : V) : Prop where
  running : g.status = .running
  drainTarget : g.drainTarget = 0
  returning : g.returning = true
  answer : g.answer = some v

/-- `f'` is at a place outside or at the jump to it, or drains what `f` has on its way
there. -/
def LeadsTo (f f' : Frame σ V) (drains : Bool) (depth target : Nat) : Prop :=
  (f.cleanups.length = depth ∧ f'.status = .running ∧
    (f'.pc = target ∨ code[f'.pc]? = some (.jump target)) ∧
    f'.cleanups = f.cleanups ∧ (drains = false → SameDrain f f')) ∨
  (depth < f.cleanups.length ∧
    ∃ g : Frame σ V, f' = g.drain ∧ g.cleanups = f.cleanups ∧ g.Heads code depth target)

/-- `f'` is where an exit of a statement leads to that `f` stands before. -/
def LeftBy (loops : List LoopContext) (past : Nat) (f f' : Frame σ V) (drains : Bool) :
    Exit V → Prop
  | .normal =>
    f'.status = .running ∧ f'.pc = past ∧ f'.cleanups = f.cleanups ∧
      (drains = false → SameDrain f f')
  | .brk level =>
    ∃ context, loops[level]? = some context ∧
      f.LeadsTo code f' drains context.cleanupDepth context.brkTo
  | .nxt level =>
    ∃ context, loops[level]? = some context ∧
      f.LeadsTo code f' drains context.cleanupDepth context.nxtTo
  | .ret v => ∃ g : Frame σ V, f' = g.drain ∧ g.cleanups = f.cleanups ∧ g.Answers v

variable (A)

/-- The code does from `f` on what a statement comes to, whose code ends before `past`. -/
def Follows (loops : List LoopContext) (past : Nat) (f : Frame σ V) (o : Outcome σ V) : Prop :=
  ∃ f', Reaches A code f f' ∧ f'.state = o.state ∧
    ∀ exit, o.exit = some exit → f.LeftBy code loops past f' o.drains exit

variable {A code} {loops : List LoopContext} {past : Nat} {o : Outcome σ V}

theorem Answers.same {g g' : Frame σ V} {v : V} (h : g.Answers v) (hsame : SameDrain g g')
    (hrunning : g'.status = .running) : g'.Answers v :=
  ⟨hrunning, hsame.drainTarget.trans h.drainTarget, hsame.returning.trans h.returning,
    hsame.answer.trans h.answer⟩

theorem Heads.same {g g' : Frame σ V} (h : g.Heads code depth target)
    (hsame : SameDrain g g') (hrunning : g'.status = .running) : g'.Heads code depth target :=
  ⟨hrunning, hsame.drainTarget.trans h.drainTarget, hsame.returning.trans h.returning, by
    rw [hsame.resume]
    exact h.resume⟩

theorem Heads.arrive {g : Frame σ V} (h : g.Heads code depth target)
    (hdepth : g.cleanups.length ≤ depth) : g.drain = { g with pc := g.resume } := by
  rw [drain_done (by rw [h.drainTarget]; exact hdepth), h.returning]
  rfl

theorem LeadsTo.after {drains' : Bool} (h : f'.LeadsTo code f'' drains' depth target)
    (hcleanups : f'.cleanups = f.cleanups) (hsame : drains = false → SameDrain f f') :
    f.LeadsTo code f'' (drains || drains') depth target := by
  unfold LeadsTo at h ⊢
  rw [hcleanups] at h
  refine h.imp ?_ id
  rintro ⟨hdepth, hrunning, hat, hkept, hdrain⟩
  refine ⟨hdepth, hrunning, hat, hkept, fun hnone => ?_⟩
  rw [Bool.or_eq_false_iff] at hnone
  exact (hsame hnone.1).trans (hdrain hnone.2)

theorem LeftBy.after {drains' : Bool} {exit : Exit V}
    (h : f'.LeftBy code loops past f'' drains' exit) (hcleanups : f'.cleanups = f.cleanups)
    (hsame : drains = false → SameDrain f f') :
    f.LeftBy code loops past f'' (drains || drains') exit := by
  cases exit with
  | normal =>
    obtain ⟨hrunning, hpc, hkept, hdrain⟩ := h
    refine ⟨hrunning, hpc, hkept.trans hcleanups, fun hnone => ?_⟩
    rw [Bool.or_eq_false_iff] at hnone
    exact (hsame hnone.1).trans (hdrain hnone.2)
  | brk level =>
    obtain ⟨context, hcontext, hleads⟩ := h
    exact ⟨context, hcontext, hleads.after hcleanups hsame⟩
  | nxt level =>
    obtain ⟨context, hcontext, hleads⟩ := h
    exact ⟨context, hcontext, hleads.after hcleanups hsame⟩
  | ret v =>
    obtain ⟨g, hg, hkept, hanswers⟩ := h
    exact ⟨g, hg, hkept.trans hcleanups, hanswers⟩

theorem LeftBy.inside {exit : Exit V} (h : f'.LeftBy code loops past f'' drains exit)
    (hcleanups : f'.cleanups = f.cleanups) : f.LeftBy code loops past f'' true exit := by
  have hnone : true = false → SameDrain f f' := nofun
  exact h.after hcleanups hnone

theorem Follows.after {o' : Outcome σ V} (h : f'.Follows A code loops past o)
    (hreach : Reaches A code f f') (hcleanups : f'.cleanups = f.cleanups)
    (hsame : drains = false → SameDrain f f') (hexit : o'.exit = o.exit)
    (hstate : o'.state = o.state) (hdrains : o'.drains = (drains || o.drains)) :
    f.Follows A code loops past o' := by
  obtain ⟨f'', hreach', hstate', hleft⟩ := h
  refine ⟨f'', hreach.trans hreach', hstate'.trans hstate.symm, fun exit he => ?_⟩
  rw [hdrains]
  exact (hleft exit (hexit ▸ he)).after hcleanups hsame

theorem Follows.before (h : f'.Follows A code loops past o) (hreach : Reaches A code f f')
    (hcleanups : f'.cleanups = f.cleanups) (hsame : SameDrain f f') :
    f.Follows A code loops past o := by
  have hnone : false = false → SameDrain f f' := fun _ => hsame
  exact h.after hreach hcleanups hnone rfl rfl (Bool.false_or _).symm

theorem Follows.normal (hreach : Reaches A code f f') (hrunning : f'.status = .running)
    (hpc : f'.pc = past) (hcleanups : f'.cleanups = f.cleanups) (hsame : SameDrain f f') :
    f.Follows A code loops past { exit := some .normal, state := f'.state } := by
  refine ⟨f', hreach, rfl, fun exit he => ?_⟩
  cases he
  exact ⟨hrunning, hpc, hcleanups, fun _ => hsame⟩

theorem Follows.jumps (h : f.Follows A code loops mid o)
    (hover : code[mid]? = some (.jump past)) : f.Follows A code loops past o := by
  obtain ⟨f', hreach, hstate, hleft⟩ := h
  cases hexit : o.exit with
  | none => exact ⟨f', hreach, hstate, fun exit he => by rw [hexit] at he; cases he⟩
  | some exit =>
    have hthis := hleft exit hexit
    cases exit with
    | normal =>
      obtain ⟨hrunning, rfl, hcleanups, hsame⟩ := hthis
      refine ⟨{ f' with pc := past }, hreach.trans (Reaches.one hrunning hover), hstate, ?_⟩
      intro exit he
      cases hexit.symm.trans he
      exact ⟨hrunning, rfl, hcleanups, fun hnone => ⟨(hsame hnone).drainTarget,
        (hsame hnone).resume, (hsame hnone).returning, (hsame hnone).answer⟩⟩
    | brk level | nxt level | ret v =>
      refine ⟨f', hreach, hstate, fun exit he => ?_⟩
      cases hexit.symm.trans he
      exact hthis

theorem Follows.andThen {next : σ → Outcome σ V} (h : f.Follows A code loops mid o)
    (hnext : ∀ f' : Frame σ V, o.exit = some .normal → f'.status = .running → f'.pc = mid →
      f'.cleanups = f.cleanups → f'.state = o.state →
        f'.Follows A code loops past (next f'.state)) :
    f.Follows A code loops past (o.andThen next) := by
  unfold Outcome.andThen
  split
  · rename_i hexit
    obtain ⟨f', hreach, hstate, hleft⟩ := h
    obtain ⟨hrunning, hpc, hcleanups, hsame⟩ := hleft _ hexit
    have hfollows := hnext f' hexit hrunning hpc hcleanups hstate
    rw [hstate] at hfollows
    exact hfollows.after hreach hcleanups hsame rfl rfl rfl
  · rename_i hexit
    obtain ⟨f', hreach, hstate, hleft⟩ := h
    refine ⟨f', hreach, hstate, fun exit he => ?_⟩
    have hother := hleft exit he
    cases exit with
    | normal => exact absurd he hexit
    | brk level => exact hother
    | nxt level => exact hother
    | ret v => exact hother

/-! ### Loops -/

theorem LeadsTo.lands
    (h : f.LeadsTo code f' drains depth target) (hdepth : f.cleanups.length = depth) :
    Reaches A code f' { f' with pc := target } ∧ f'.status = .running ∧
      f'.cleanups = f.cleanups ∧ (drains = false → SameDrain f f') := by
  rcases h with ⟨-, hrunning, hat, hcleanups, hsame⟩ | ⟨hlt, -⟩
  · refine ⟨?_, hrunning, hcleanups, hsame⟩
    rcases hat with rfl | hjump
    · exact Reaches.refl f'
    · exact Reaches.one hrunning hjump
  · exact absurd hlt (by omega)

theorem Follows.turn {context : LoopContext} {again : σ → Outcome σ V}
    (h : f.Follows A code (context :: loops) context.nxtTo o)
    (hdepth : f.cleanups.length = context.cleanupDepth)
    (hagain : ∀ f' : Frame σ V, (o.exit = some .normal ∨ o.exit = some (.nxt 0)) →
      f'.status = .running → f'.pc = context.nxtTo → f'.cleanups = f.cleanups →
        f'.state = o.state → f'.Follows A code loops context.brkTo (again f'.state)) :
    f.Follows A code loops context.brkTo (o.turn again) := by
  obtain ⟨f', hreach, hstate, hleft⟩ := h
  unfold Outcome.turn
  split
  · rename_i hexit
    obtain ⟨hrunning, hpc, hcleanups, hsame⟩ := hleft _ hexit
    have hfollows := hagain f' (Or.inl hexit) hrunning hpc hcleanups hstate
    rw [hstate] at hfollows
    exact hfollows.after hreach hcleanups hsame rfl rfl rfl
  · rename_i hexit
    obtain ⟨context', hcontext, hleads⟩ := hleft _ hexit
    cases hcontext
    obtain ⟨hjump, hrunning, hcleanups, hsame⟩ := hleads.lands hdepth
    have hfollows := hagain { f' with pc := context.nxtTo } (Or.inr hexit) hrunning rfl hcleanups
      hstate
    have hfollows' : Follows A code loops context.brkTo { f' with pc := context.nxtTo }
        (again o.state) := hstate ▸ hfollows
    have hsame' : o.drains = false → SameDrain f { f' with pc := context.nxtTo } := fun hnone =>
      ⟨(hsame hnone).drainTarget, (hsame hnone).resume, (hsame hnone).returning,
        (hsame hnone).answer⟩
    exact hfollows'.after (hreach.trans hjump) hcleanups hsame' rfl rfl rfl
  · rename_i hexit
    obtain ⟨context', hcontext, hleads⟩ := hleft _ hexit
    cases hcontext
    obtain ⟨hjump, hrunning, hcleanups, hsame⟩ := hleads.lands hdepth
    refine ⟨{ f' with pc := context.brkTo }, hreach.trans hjump, hstate, fun exit he => ?_⟩
    cases he
    exact ⟨hrunning, rfl, hcleanups, fun hnone => ⟨(hsame hnone).drainTarget,
      (hsame hnone).resume, (hsame hnone).returning, (hsame hnone).answer⟩⟩
  · rename_i level hexit
    obtain ⟨context', hcontext, hleads⟩ := hleft _ hexit
    refine ⟨f', hreach, hstate, fun exit he => ?_⟩
    cases he
    exact ⟨context', hcontext, hleads⟩
  · rename_i level hexit
    obtain ⟨context', hcontext, hleads⟩ := hleft _ hexit
    refine ⟨f', hreach, hstate, fun exit he => ?_⟩
    cases he
    exact ⟨context', hcontext, hleads⟩
  · rename_i v hexit
    refine ⟨f', hreach, hstate, fun exit he => ?_⟩
    rw [hexit] at he
    cases he
    exact hleft _ hexit
  · rename_i hexit
    refine ⟨f', hreach, hstate, fun exit he => ?_⟩
    rw [hexit] at he
    cases he

/-- The turns of a loop. `top` is where a turn begins, and `again` is what decides whether
there is one more. -/
theorem Follows.turns {context : LoopContext} (top : Nat) {body : σ → Outcome σ V}
    {again : σ → σ × Bool} {n : Nat}
    (hbody : ∀ f : Frame σ V, f.status = .running → f.pc = top →
      f.cleanups.length = context.cleanupDepth → (body f.state).spoilt = false →
        f.Follows A code (context :: loops) context.nxtTo (body f.state))
    (hagain : ∀ f : Frame σ V, f.status = .running → f.pc = context.nxtTo →
      Reaches A code f
        { f with
          pc := if (again f.state).2 then top else context.brkTo
          state := (again f.state).1 }) :
    ∀ f : Frame σ V, f.status = .running → f.pc = top →
      f.cleanups.length = context.cleanupDepth →
        (Outcome.turns body again n f.state).spoilt = false →
          f.Follows A code loops context.brkTo (Outcome.turns body again n f.state) := by
  induction n with
  | zero =>
    intro f hrunning hpc hdepth hspoilt
    exact ⟨f, Reaches.refl f, rfl, nofun⟩
  | succ n ih =>
    intro f hrunning hpc hdepth hspoilt
    have hturn : (body f.state).spoilt = false ∧
        (((body f.state).exit = some .normal ∨ (body f.state).exit = some (.nxt 0)) →
          (if (again (body f.state).state).2 then
            Outcome.turns body again n (again (body f.state).state).1
          else { exit := some .normal, state := (again (body f.state).state).1 }).spoilt =
            false) := Outcome.spoilt_turn hspoilt
    refine (hbody f hrunning hpc hdepth hturn.1).turn hdepth ?_
    intro f' hexit hrunning' hpc' hcleanups hstate
    have hgoes := hagain f' hrunning' hpc'
    have hspoilt' := hturn.2 hexit
    rw [← hstate] at hspoilt'
    split
    · rename_i hmore
      rw [if_pos hmore] at hgoes hspoilt'
      refine Follows.before ?_ hgoes rfl ⟨rfl, rfl, rfl, rfl⟩
      refine ih { f' with pc := top, state := (again f'.state).1 } hrunning' rfl ?_ hspoilt'
      exact (congrArg List.length hcleanups).trans hdepth
    · rename_i hmore
      rw [if_neg hmore] at hgoes
      exact Follows.normal hgoes hrunning' rfl rfl ⟨rfl, rfl, rfl, rfl⟩

/-! ### Blocks -/

/-- An exit that waits, in a frame that drains down to a block from inside it. -/
def WaitsFor (code : List Instruction) (loops : List LoopContext) (past depth : Nat)
    (g : Frame σ V) : Exit V → Prop
  | .normal => g.Heads code depth past
  | .brk level =>
    ∃ context, loops[level]? = some context ∧ context.cleanupDepth ≤ depth ∧
      g.Heads code context.cleanupDepth context.brkTo
  | .nxt level =>
    ∃ context, loops[level]? = some context ∧ context.cleanupDepth ≤ depth ∧
      g.Heads code context.cleanupDepth context.nxtTo
  | .ret v => g.Answers v

theorem WaitsFor.same {g g' : Frame σ V} {exit : Exit V}
    (h : g.WaitsFor code loops past depth exit) (hsame : SameDrain g g')
    (hrunning : g'.status = .running) : g'.WaitsFor code loops past depth exit := by
  cases exit with
  | normal => exact Heads.same h hsame hrunning
  | brk level =>
    obtain ⟨context, hcontext, hdepth, hheads⟩ := h
    exact ⟨context, hcontext, hdepth, hheads.same hsame hrunning⟩
  | nxt level =>
    obtain ⟨context, hcontext, hdepth, hheads⟩ := h
    exact ⟨context, hcontext, hdepth, hheads.same hsame hrunning⟩
  | ret v => exact Answers.same h hsame hrunning

theorem WaitsFor.bounds {g : Frame σ V} {exit : Exit V}
    (h : g.WaitsFor code loops past depth exit) : g.status = .running ∧ g.drainTarget ≤ depth := by
  cases exit with
  | normal => exact ⟨Heads.running h, Nat.le_of_eq (Heads.drainTarget h)⟩
  | brk level =>
    obtain ⟨context, -, hdepth, hheads⟩ := h
    exact ⟨hheads.running, hheads.drainTarget ▸ hdepth⟩
  | nxt level =>
    obtain ⟨context, -, hdepth, hheads⟩ := h
    exact ⟨hheads.running, hheads.drainTarget ▸ hdepth⟩
  | ret v => exact ⟨Answers.running h, Answers.drainTarget h ▸ Nat.zero_le _⟩

theorem LeadsTo.waits
    (h : f.LeadsTo code f' drains depth target) (hdepth : depth < f.cleanups.length) :
    ∃ g : Frame σ V, f' = g.drain ∧ g.cleanups = f.cleanups ∧ g.Heads code depth target := by
  rcases h with ⟨heq, -⟩ | ⟨-, hwaits⟩
  · exact absurd heq (Nat.ne_of_gt hdepth)
  · exact hwaits

theorem LeftBy.waits {exit : Exit V} (h : f.LeftBy code loops mid f' drains exit)
    (hdepth : depth < f.cleanups.length) (hloops : ∀ context ∈ loops, context.cleanupDepth ≤ depth)
    (hpop : code[mid]? = some (.popCleanup depth)) (hover : code[mid + 1]? = some (.jump past)) :
    ∃ g : Frame σ V, Reaches A code f' g.drain ∧ g.state = f'.state ∧
      g.cleanups = f.cleanups ∧ g.WaitsFor code loops past depth exit := by
  cases exit with
  | normal =>
    obtain ⟨hrunning, hpc, hcleanups, -⟩ := h
    rw [← hpc] at hpop hover
    exact ⟨{ f' with
        pc := f'.pc + 1, drainTarget := depth, resume := f'.pc + 1, returning := false },
      Reaches.one hrunning hpop, rfl, hcleanups, hrunning, rfl, rfl, hover⟩
  | brk level =>
    obtain ⟨context, hcontext, hleads⟩ := h
    have hle := hloops context (List.mem_of_getElem? hcontext)
    obtain ⟨g, rfl, hcleanups, hheads⟩ := hleads.waits (Nat.lt_of_le_of_lt hle hdepth)
    exact ⟨g, Reaches.refl _, (drain_state g).symm, hcleanups, context, hcontext, hle, hheads⟩
  | nxt level =>
    obtain ⟨context, hcontext, hleads⟩ := h
    have hle := hloops context (List.mem_of_getElem? hcontext)
    obtain ⟨g, rfl, hcleanups, hheads⟩ := hleads.waits (Nat.lt_of_le_of_lt hle hdepth)
    exact ⟨g, Reaches.refl _, (drain_state g).symm, hcleanups, context, hcontext, hle, hheads⟩
  | ret v =>
    obtain ⟨g, rfl, hcleanups, hanswers⟩ := h
    exact ⟨g, Reaches.refl _, (drain_state g).symm, hcleanups, hanswers⟩

theorem Heads.goesOn {g : Frame σ V} (h : g.Heads code depth target)
    (hcleanups : g.cleanups = f.cleanups) (hdepth : depth ≤ f.cleanups.length) :
    f.LeadsTo code g.drain true depth target := by
  rcases Nat.lt_or_eq_of_le hdepth with hlt | rfl
  · exact Or.inr ⟨hlt, g, rfl, hcleanups, h⟩
  · refine Or.inl ⟨rfl, ?_⟩
    rw [h.arrive (Nat.le_of_eq (congrArg List.length hcleanups))]
    exact ⟨h.running, Or.inr h.resume, hcleanups, nofun⟩

theorem WaitsFor.goesOn {g : Frame σ V} {exit : Exit V} (h : g.WaitsFor code loops past depth exit)
    (hcleanups : g.cleanups = f.cleanups) (hdepth : f.cleanups.length = depth) :
    ∃ f' : Frame σ V, Reaches A code g.drain f' ∧ f'.state = g.state ∧
      f.LeftBy code loops past f' true exit := by
  subst hdepth
  cases exit with
  | normal =>
    rw [Heads.arrive h (Nat.le_of_eq (congrArg List.length hcleanups))]
    have hheads : g.Heads code f.cleanups.length past := h
    have hjump : Reaches A code { g with pc := g.resume } { g with pc := past } :=
      ⟨1, step_eq (f := { g with pc := g.resume }) hheads.running hheads.resume⟩
    exact ⟨{ g with pc := past }, hjump, rfl, hheads.running, rfl, hcleanups, nofun⟩
  | brk level =>
    obtain ⟨context, hcontext, hdepth, hheads⟩ := h
    exact ⟨g.drain, Reaches.refl _, drain_state g, context, hcontext,
      hheads.goesOn hcleanups hdepth⟩
  | nxt level =>
    obtain ⟨context, hcontext, hdepth, hheads⟩ := h
    exact ⟨g.drain, Reaches.refl _, drain_state g, context, hcontext,
      hheads.goesOn hcleanups hdepth⟩
  | ret v => exact ⟨g.drain, Reaches.refl _, drain_state g, g, rfl, hcleanups, h⟩

theorem Follows.cleanedBy {body last : Nat} {cleanup : σ → Outcome σ V}
    {inner : Frame σ V} (hreach : Reaches A code f inner)
    (hinner : inner.cleanups = body :: f.cleanups) (hdepth : f.cleanups.length = depth)
    (hloops : ∀ context ∈ loops, context.cleanupDepth ≤ depth)
    (hpop : code[mid]? = some (.popCleanup depth)) (hover : code[mid + 1]? = some (.jump past))
    (hend : code[last]? = some .endCleanup) (h : inner.Follows A code loops mid o)
    (hspoilt : (o.cleanedBy depth cleanup).spoilt = false)
    (hcleanup : ∀ f' : Frame σ V, o.exit ≠ none → f'.status = .running → f'.pc = body →
      f'.cleanups = f.cleanups → f'.state = o.state →
        f'.Follows A code loops last (cleanup f'.state)) :
    f.Follows A code loops past (o.cleanedBy depth cleanup) := by
  obtain ⟨f', hreach', hstate, hleft⟩ := h
  unfold Outcome.cleanedBy at hspoilt ⊢
  split
  · rename_i hexit
    exact ⟨f', hreach.trans hreach', hstate, fun exit he => by rw [hexit] at he; cases he⟩
  rename_i exit hexit
  rw [hexit] at hspoilt
  dsimp only at hspoilt ⊢
  have hlt : depth < inner.cleanups.length := by
    rw [hinner, List.length_cons, hdepth]
    exact Nat.lt_succ_self depth
  obtain ⟨g, hdrain, hgstate, hgcleanups, hwaits⟩ := (hleft exit hexit).waits hlt hloops hpop hover
  have hbody : g.drain = { g with pc := body, cleanups := f.cleanups } :=
    drain_cons (hgcleanups.trans hinner) (hdepth ▸ hwaits.bounds.2)
  rw [hbody] at hdrain
  have hstate' : g.state = o.state := hgstate.trans hstate
  have hc := hcleanup { g with pc := body, cleanups := f.cleanups } (by rw [hexit]; nofun)
    hwaits.bounds.1 rfl rfl hstate'
  have hc' : Follows A code loops last { g with pc := body, cleanups := f.cleanups }
      (cleanup o.state) := hstate' ▸ hc
  obtain ⟨f'', hreach'', hcstate, hcleft⟩ := hc'
  have hfar := (hreach.trans hreach').trans (hdrain.trans hreach'')
  cases hcexit : (cleanup o.state).exit with
  | none => exact ⟨f'', hfar, hcstate, fun exit he => by cases he⟩
  | some other =>
    have hother := hcleft other hcexit
    rw [hcexit] at hspoilt
    cases other with
    | normal =>
      obtain ⟨hrunning, hpc, hcleanups, hsame⟩ := hother
      -- the exit that waits is still there: nothing in the cleanup was drained
      have hsame' := hsame (by simpa using (Bool.or_eq_false_iff.mp hspoilt).2)
      have hgoes : WaitsFor code loops past depth { f'' with pc := f''.pc + 1 } exit :=
        hwaits.same ⟨hsame'.drainTarget, hsame'.resume, hsame'.returning, hsame'.answer⟩
          hrunning
      obtain ⟨last', hlast, hlstate, hlleft⟩ :=
        hgoes.goesOn (A := A) (f := f) hcleanups hdepth
      have hstep := Reaches.one (A := A) hrunning (hpc ▸ hend)
      refine ⟨last', hfar.trans (hstep.trans hlast), hlstate.trans hcstate, fun e he => ?_⟩
      cases he
      exact hlleft
    | brk level =>
      refine ⟨f'', hfar, hcstate, fun e he => ?_⟩
      cases he
      exact hother.inside rfl
    | nxt level =>
      refine ⟨f'', hfar, hcstate, fun e he => ?_⟩
      cases he
      exact hother.inside rfl
    | ret v =>
      refine ⟨f'', hfar, hcstate, fun e he => ?_⟩
      cases he
      exact hother.inside rfl

/-- The cleanups of a `with^`, the last binding innermost. -/
def waiting (bodies : Nat) : List (Nat × Nat) → List Nat
  | [] => []
  | _ :: bindings => waiting (bodies + 2) bindings ++ [bodies]

theorem length_waiting (bodies : Nat) (bindings : List (Nat × Nat)) :
    (waiting bodies bindings).length = bindings.length := by
  induction bindings generalizing bodies with
  | nil => rfl
  | cons binding bindings ih =>
    unfold waiting
    rw [List.length_append, ih, List.length_singleton, List.length_cons]

theorem waiting_cons (bodies : Nat) (binding : Nat × Nat) (bindings : List (Nat × Nat))
    (outer : List Nat) :
    waiting bodies (binding :: bindings) ++ outer =
      waiting (bodies + 2) bindings ++ bodies :: outer :=
  List.append_assoc (waiting (bodies + 2) bindings) [bodies] outer

theorem push_reaches {bx : Nat} (hrunning : f.status = .running)
    (hat : code[f.pc]? = some (.pushCleanup bx)) (hroom : f.cleanups.length < maxCleanups) :
    Reaches A code f { f with pc := f.pc + 1, cleanups := bx :: f.cleanups } := by
  have hpush := Reaches.one (A := A) hrunning hat
  unfold execute at hpush
  dsimp only at hpush
  rwa [if_neg (Nat.not_le.mpr hroom)] at hpush

theorem bind_reaches {bodies place : Nat}
    (hcode : Holds code place (bindingCode bodies bindings)) {f : Frame σ V}
    (hrunning : f.status = .running) (hpc : f.pc = place)
    (hroom : f.cleanups.length + bindings.length ≤ maxCleanups) :
    Reaches A code f
      { f with
        pc := place + 2 * bindings.length
        cleanups := waiting bodies bindings ++ f.cleanups
        state := bind A bindings f.state } := by
  induction bindings generalizing bodies place f with
  | nil =>
    subst hpc
    exact Reaches.refl f
  | cons binding bindings ih =>
    subst hpc
    have hact := Reaches.one (A := A) hrunning hcode.head
    have hpush := push_reaches (A := A)
      (f := { f with pc := f.pc + 1, state := A.run binding.1 f.state }) hrunning
      hcode.tail.head (by
        show f.cleanups.length < maxCleanups
        rw [List.length_cons] at hroom
        omega)
    have hrest := ih (f := { f with
        pc := f.pc + 1 + 1, cleanups := bodies :: f.cleanups, state := A.run binding.1 f.state })
      hcode.tail.tail hrunning rfl (by
        rw [List.length_cons] at hroom
        show f.cleanups.length + 1 + bindings.length ≤ maxCleanups
        omega)
    have hall := (hact.trans hpush).trans hrest
    have hpc : f.pc + 1 + 1 + 2 * bindings.length = f.pc + 2 * (bindings.length + 1) := by omega
    rw [hpc] at hall
    rw [waiting_cons]
    exact hall

theorem dispose_reaches {bodies : Nat} {outer : List Nat}
    (hcode : Holds code bodies (disposals bindings)) {g : Frame σ V}
    (hrunning : g.status = .running) (hcleanups : g.cleanups = waiting bodies bindings ++ outer)
    (htarget : g.drainTarget ≤ outer.length) :
    ∃ g' : Frame σ V, Reaches A code g.drain g'.drain ∧ g'.cleanups = outer ∧ SameDrain g g' ∧
      g'.status = .running ∧ g'.state = dispose A bindings g.state := by
  induction bindings generalizing bodies outer with
  | nil => exact ⟨g, Reaches.refl _, hcleanups, SameDrain.refl g, hrunning, rfl⟩
  | cons binding bindings ih =>
    have hsplit : g.cleanups = waiting (bodies + 2) bindings ++ bodies :: outer := by
      rw [hcleanups, waiting_cons]
    obtain ⟨g', hreach, hleft, hsame, hrunning', hstate⟩ :=
      ih hcode.tail.tail hsplit (Nat.le_succ_of_le htarget)
    have hbody : g'.drain = { g' with pc := bodies, cleanups := outer } :=
      drain_cons hleft (hsame.drainTarget ▸ htarget)
    rw [hbody] at hreach
    have hact := step_eq (A := A) (f := { g' with pc := bodies, cleanups := outer }) hrunning'
      hcode.head
    have hend := step_eq (A := A) (f := { g' with
      pc := bodies + 1, cleanups := outer, state := A.run binding.2 g'.state }) hrunning'
      hcode.tail.head
    refine ⟨{ g' with
        pc := bodies + 1 + 1, cleanups := outer, state := A.run binding.2 g'.state },
      (hreach.trans ⟨1, hact⟩).trans ⟨1, hend⟩, rfl,
      ⟨hsame.drainTarget, hsame.resume, hsame.returning, hsame.answer⟩, hrunning', ?_⟩
    show A.run binding.2 g'.state = A.run binding.2 (dispose A bindings g.state)
    rw [hstate]

/-! ### Statements -/

/-- A frame before the code of a statement. -/
structure Before (code : List Instruction) (depth : Nat) (loops : List LoopContext)
    (place : Nat) (stmt : Stmt) (f : Frame σ V) : Prop where
  holds : Holds code place (compile depth loops place stmt)
  accepted : ∃ inCleanup, accepted inCleanup loops.length stmt = true
  running : f.status = .running
  pc : f.pc = place
  waiting : f.cleanups.length = depth
  outer : ∀ context ∈ loops, context.cleanupDepth ≤ depth

/-- The place past the code of a statement. -/
def behind (depth : Nat) (loops : List LoopContext) (place : Nat) (stmt : Stmt) : Nat :=
  place + size depth (loops.map LoopContext.cleanupDepth) stmt

/-- The code of every statement that is followed for so many steps inwards does what the
statement does. -/
def FollowedFor (A : Atoms σ V) (code : List Instruction) (n : Nat) : Prop :=
  ∀ (depth : Nat) (loops : List LoopContext) (place : Nat) (stmt : Stmt) (f : Frame σ V),
    f.Before code depth loops place stmt → (eval A n depth stmt f.state).spoilt = false →
      f.Follows A code loops (behind depth loops place stmt) (eval A n depth stmt f.state)

/-- What is asked of the code of one statement. -/
def FollowedAt (A : Atoms σ V) (code : List Instruction) (n depth : Nat)
    (loops : List LoopContext) (place : Nat) (stmt : Stmt) (f : Frame σ V) : Prop :=
  f.Before code depth loops place stmt → (eval A n depth stmt f.state).spoilt = false →
    f.Follows A code loops (behind depth loops place stmt) (eval A n depth stmt f.state)

variable {n depth place : Nat} {s t : Stmt}

theorem holds_behind {part : List Instruction}
    (h : Holds code place (compile depth loops place s ++ part)) :
    Holds code (behind depth loops place s) part := by
  have hright := h.right
  rwa [length_compile] at hright

theorem follows_seq (ih : FollowedFor A code n) :
    FollowedAt A code (n + 1) depth loops place (.seq s t) f := by
  intro h hspoilt
  obtain ⟨inCleanup, haccepted⟩ := h.accepted
  obtain ⟨hs, ht⟩ := Bool.and_eq_true_iff.mp haccepted
  obtain ⟨hfirst, hsecond⟩ := Outcome.spoilt_andThen hspoilt
  have hholds : Holds code place (compile depth loops place s ++
    compile depth loops (behind depth loops place s) t) := h.holds
  have hpast : behind depth loops place (.seq s t) =
    behind depth loops (behind depth loops place s) t := (Nat.add_assoc ..).symm
  rw [hpast]
  refine (ih _ _ _ _ f ⟨hholds.left, ⟨_, hs⟩, h.running, h.pc, h.waiting, h.outer⟩ hfirst).andThen ?_
  intro f' hexit hrunning hpc hcleanups hstate
  refine ih _ _ _ _ f' ⟨holds_behind hholds, ⟨_, ht⟩, hrunning, hpc, ?_, h.outer⟩ ?_
  · exact (congrArg List.length hcleanups).trans h.waiting
  · rw [hstate]
    exact hsecond hexit

theorem follows_branch {body other : Outcome σ V}
    (hat : code[f.pc]? = some (.jumpFalse c target)) (hrunning : f.status = .running)
    (htrue : (A.test c f.state).2 = true →
      Follows A code loops past { f with pc := f.pc + 1, state := (A.test c f.state).1 } body)
    (hfalse : (A.test c f.state).2 = false →
      Follows A code loops past { f with pc := target, state := (A.test c f.state).1 } other) :
    f.Follows A code loops past (if (A.test c f.state).2 then body else other) := by
  have htest := Reaches.one (A := A) hrunning hat
  unfold execute at htest
  dsimp only at htest
  cases htaken : (A.test c f.state).2 with
  | true =>
    rw [htaken] at htest
    exact (htrue htaken).before htest rfl ⟨rfl, rfl, rfl, rfl⟩
  | false =>
    rw [htaken] at htest
    exact (hfalse htaken).before htest rfl ⟨rfl, rfl, rfl, rfl⟩

theorem follows_ifThen (ih : FollowedFor A code n) :
    FollowedAt A code (n + 1) depth loops place (.ifThen c s) f := by
  intro h hspoilt
  have hholds : Holds code place (.jumpFalse c (behind depth loops (place + 1) s) ::
    compile depth loops (place + 1) s) := h.holds
  have hbehind : behind depth loops place (.ifThen c s) = behind depth loops (place + 1) s :=
    (Nat.add_assoc ..).symm
  rw [hbehind]
  unfold eval at hspoilt ⊢
  dsimp only at hspoilt ⊢
  refine follows_branch (by rw [h.pc]; exact hholds.head) h.running ?_ ?_
  · intro htaken
    rw [if_pos htaken] at hspoilt
    refine ih _ _ _ _ { f with pc := f.pc + 1, state := (A.test c f.state).1 } ?_ hspoilt
    exact ⟨hholds.tail, h.accepted, h.running, congrArg (· + 1) h.pc, h.waiting, h.outer⟩
  · intro htaken
    exact Follows.normal (Reaches.refl _) h.running rfl rfl (SameDrain.refl _)

theorem follows_ifElse (ih : FollowedFor A code n) :
    FollowedAt A code (n + 1) depth loops place (.ifElse c s t) f := by
  intro h hspoilt
  have hbehind : behind depth loops place (.ifElse c s t) =
      behind depth loops (behind depth loops (place + 1) s + 1) t := by
    unfold behind
    rw [size]
    omega
  have hholds : Holds code place (.jumpFalse c (behind depth loops (place + 1) s + 1) ::
      (compile depth loops (place + 1) s ++
        .jump (behind depth loops (behind depth loops (place + 1) s + 1) t) ::
          compile depth loops (behind depth loops (place + 1) s + 1) t)) := h.holds
  obtain ⟨inCleanup, haccepted⟩ := h.accepted
  obtain ⟨hs, ht⟩ := Bool.and_eq_true_iff.mp haccepted
  have hover := holds_behind hholds.tail
  rw [hbehind]
  unfold eval at hspoilt ⊢
  dsimp only at hspoilt ⊢
  refine follows_branch (by rw [h.pc]; exact hholds.head) h.running ?_ ?_
  · intro htaken
    rw [if_pos htaken] at hspoilt
    have hbody := ih depth loops (place + 1) s
      { f with pc := f.pc + 1, state := (A.test c f.state).1 }
      ⟨hholds.tail.left, ⟨_, hs⟩, h.running, congrArg (· + 1) h.pc, h.waiting, h.outer⟩ hspoilt
    exact hbody.jumps hover.head
  · intro htaken
    rw [htaken] at hspoilt
    exact ih _ _ _ _ { f with
        pc := behind depth loops (place + 1) s + 1, state := (A.test c f.state).1 }
      ⟨hover.tail, ⟨_, ht⟩, h.running, rfl, h.waiting, h.outer⟩ hspoilt

theorem compile_block (depth : Nat) (loops : List LoopContext) (place : Nat) (s t : Stmt) :
    compile depth loops place (.block s t) =
      .pushCleanup (behind (depth + 1) loops (place + 1) s + 2) ::
        (compile (depth + 1) loops (place + 1) s ++
          .popCleanup depth :: .jump (behind depth loops place (.block s t)) ::
            (compile depth loops (behind (depth + 1) loops (place + 1) s + 2) t ++
              [.endCleanup])) := by
  have hover : behind depth loops place (.block s t) =
      behind depth loops (behind (depth + 1) loops (place + 1) s + 2) t + 1 := by
    unfold behind
    rw [size]
    omega
  rw [hover, compile, length_emitCleanupDrain_succ]
  simp only [List.cons_append, List.append_assoc, List.nil_append]
  rfl

theorem follows_block (ih : FollowedFor A code n) :
    FollowedAt A code (n + 1) depth loops place (.block s t) f := by
  intro h hspoilt
  have hholds := h.holds
  rw [compile_block] at hholds
  obtain ⟨inCleanup, haccepted⟩ := h.accepted
  obtain ⟨hs, ht⟩ := Bool.and_eq_true_iff.mp haccepted
  obtain ⟨hbody, hroom, hcleanup⟩ := Outcome.spoilt_cleanedBy hspoilt
  have hmid := holds_behind hholds.tail
  have hpush : Reaches A code f _ := push_reaches h.running
    (by rw [h.pc]; exact hholds.head) (h.waiting ▸ hroom)
  have hinner : f.cleanups.length + 1 = depth + 1 := congrArg (· + 1) h.waiting
  refine Follows.cleanedBy hpush rfl h.waiting h.outer hmid.head hmid.tail.head
    (holds_behind hmid.tail.tail).head ?_ hspoilt ?_
  · refine ih (depth + 1) loops (place + 1) s
      { f with
        pc := f.pc + 1
        cleanups := (behind (depth + 1) loops (place + 1) s + 2) :: f.cleanups }
      ⟨hholds.tail.left, ⟨_, hs⟩, h.running, congrArg (· + 1) h.pc, hinner, ?_⟩ hbody
    exact fun context hcontext => Nat.le_succ_of_le (h.outer context hcontext)
  · intro f' hexit hrunning hpc hcleanups hstate
    refine ih _ _ _ _ f' ⟨hmid.tail.tail.left, ⟨_, ht⟩, hrunning, hpc, ?_, h.outer⟩ ?_
    · exact (congrArg List.length hcleanups).trans h.waiting
    · rw [hstate]
      exact hcleanup hexit

theorem compile_withBlock_nil (depth : Nat) (loops : List LoopContext) (place : Nat) (s : Stmt) :
    compile depth loops place (.withBlock [] s) =
      compile depth loops place s ++ [.jump (behind depth loops place (.withBlock [] s))] := by
  have hdrain : emitCleanupDrain (depth + 0) depth = [] := if_neg (Nat.lt_irrefl depth)
  have hover : behind depth loops place (.withBlock [] s) = behind depth loops place s + 1 := by
    unfold behind
    rw [size, List.length_nil, hdrain, List.length_nil]
    show place + (2 * 0 + size depth _ s + 0 + 1) = place + size depth _ s + 1
    omega
  rw [hover, compile, List.length_nil, hdrain, List.append_nil]
  rfl

theorem compile_withBlock (depth : Nat) (loops : List LoopContext) (place : Nat) (hsome : bindings ≠ []) (s : Stmt) :
    compile depth loops place (.withBlock bindings s) =
      bindingCode
          (behind (depth + bindings.length) loops (place + 2 * bindings.length) s + 2) bindings ++
        (compile (depth + bindings.length) loops (place + 2 * bindings.length) s ++
          .popCleanup depth :: .jump (behind depth loops place (.withBlock bindings s)) ::
            disposals bindings) := by
  have hlength := List.length_pos_iff.mpr hsome
  have hdrain : emitCleanupDrain (depth + bindings.length) depth = [.popCleanup depth] :=
    if_pos (by omega)
  have hover : behind depth loops place (.withBlock bindings s) =
      behind (depth + bindings.length) loops (place + 2 * bindings.length) s + 2 +
        2 * bindings.length := by
    unfold behind
    rw [size, hdrain, List.length_singleton]
    omega
  rw [hover, compile, hdrain]
  simp only [List.append_assoc]
  rfl

theorem follows_withBlock (ih : FollowedFor A code n) :
    FollowedAt A code (n + 1) depth loops place (.withBlock bindings s) f := by
  intro h hspoilt
  have hholds := h.holds
  obtain ⟨hbody, hroom⟩ := Bool.or_eq_false_iff.mp hspoilt
  have hroom' : depth + bindings.length ≤ maxCleanups :=
    Nat.not_lt.mp (of_decide_eq_false hroom)
  unfold eval
  dsimp only
  rcases eq_or_ne bindings [] with rfl | hsome
  · rw [compile_withBlock_nil] at hholds
    have hinner := (ih depth loops place s f
      ⟨hholds.left, h.accepted, h.running, h.pc, h.waiting, h.outer⟩ hbody).jumps
        (holds_behind hholds).head
    obtain ⟨f', hreach, hstate, hleft⟩ := hinner
    refine ⟨f', hreach, hstate.trans (ite_self _).symm, fun exit he => ?_⟩
    exact (hleft exit he).inside rfl
  rw [compile_withBlock depth loops place hsome] at hholds
  have hrest := hholds.right
  rw [length_bindingCode] at hrest
  have hmid := holds_behind hrest
  have hbound := bind_reaches (A := A) hholds.left h.running h.pc (h.waiting.symm ▸ hroom')
  have hdeep : (waiting (behind (depth + bindings.length) loops (place + 2 * bindings.length) s + 2)
      bindings ++ f.cleanups).length = depth + bindings.length := by
    rw [List.length_append, length_waiting, h.waiting, Nat.add_comm]
  have hinner := ih (depth + bindings.length) loops (place + 2 * bindings.length) s
    { f with
      pc := place + 2 * bindings.length
      cleanups := waiting
        (behind (depth + bindings.length) loops (place + 2 * bindings.length) s + 2) bindings ++
          f.cleanups
      state := bind A bindings f.state }
    ⟨hrest.left, h.accepted, h.running, rfl, hdeep,
      fun context hcontext => Nat.le_add_right_of_le (h.outer context hcontext)⟩ hbody
  obtain ⟨f', hreach, hstate, hleft⟩ := hinner
  cases hexit : (eval A n (depth + bindings.length) s (bind A bindings f.state)).exit with
  | none => exact ⟨f', hbound.trans hreach, hstate, nofun⟩
  | some exit =>
    have hlt : depth < depth + bindings.length :=
      Nat.lt_add_of_pos_right (List.length_pos_iff.mpr hsome)
    obtain ⟨g, hdrain, hgstate, hgcleanups, hwaits⟩ :=
      (hleft exit hexit).waits (hdeep.symm ▸ hlt) h.outer hmid.head hmid.tail.head
    obtain ⟨g', hdisposed, hcleanups, hsame, hrunning, hdstate⟩ :=
      dispose_reaches hmid.tail.tail hwaits.bounds.1 hgcleanups (h.waiting.symm ▸ hwaits.bounds.2)
    obtain ⟨last, hlast, hlstate, hlleft⟩ :=
      (hwaits.same hsame hrunning).goesOn (A := A) hcleanups h.waiting
    refine ⟨last, (hbound.trans hreach).trans (hdrain.trans (hdisposed.trans hlast)), ?_, ?_⟩
    · rw [hlstate, hdstate, hgstate, hstate]
      rfl
    · intro exit' he
      cases he
      exact hlleft

theorem compile_loop (depth : Nat) (loops : List LoopContext) (place : Nat) (s t : Stmt)
    (c step : Nat) :
    ∃ context : LoopContext, context.cleanupDepth = depth ∧
      context.brkTo = behind depth loops place (.loop s c t step) ∧
      context.nxtTo =
        behind depth (context :: loops) (behind depth (context :: loops) place s + 1) t ∧
      compile depth loops place (.loop s c t step) =
        compile depth (context :: loops) place s ++
          .jumpFalse c context.brkTo ::
            (compile depth (context :: loops) (behind depth (context :: loops) place s + 1) t ++
              [.act step, .jump place]) := by
  let depths := depth :: loops.map LoopContext.cleanupDepth
  let next := place + size depth depths s + 1 + size depth depths t
  refine ⟨{ brkTo := next + 2, nxtTo := next, cleanupDepth := depth }, rfl, ?_, rfl, ?_⟩
  · show next + 2 = place + (size depth depths s + 1 + size depth depths t + 2)
    omega
  · rw [compile]
    simp only [List.cons_append, List.append_assoc]
    rfl

theorem follows_loop {step : Nat} (ih : FollowedFor A code n) :
    FollowedAt A code (n + 1) depth loops place (.loop s c t step) f := by
  intro h hspoilt
  obtain ⟨context, hdepth, hbrk, hnxt, hcompile⟩ := compile_loop depth loops place s t c step
  have hholds := h.holds
  rw [hcompile] at hholds
  obtain ⟨inCleanup, haccepted⟩ := h.accepted
  obtain ⟨hs, ht⟩ := Bool.and_eq_true_iff.mp haccepted
  have htest := holds_behind hholds
  have hend := holds_behind htest.tail
  rw [← hnxt] at hend
  have houter : ∀ outer ∈ context :: loops, outer.cleanupDepth ≤ depth :=
    List.forall_mem_cons.mpr ⟨Nat.le_of_eq hdepth, h.outer⟩
  rw [← hbrk]
  refine Follows.turns place ?_ ?_ f h.running h.pc (h.waiting.trans hdepth.symm) hspoilt
  · intro f hrunning hpc hwaiting hspoilt
    rw [hdepth] at hwaiting
    obtain ⟨hpre, hbody⟩ := Outcome.spoilt_andThen hspoilt
    refine (ih _ _ _ _ f ⟨hholds.left, ⟨_, hs⟩, hrunning, hpc, hwaiting, houter⟩ hpre).andThen ?_
    intro f' hexit hrunning' hpc' hcleanups hstate
    have hspoilt' := hbody hexit
    rw [← hstate] at hspoilt'
    have hwaiting' : f'.cleanups.length = depth := (congrArg List.length hcleanups).trans hwaiting
    refine follows_branch (by rw [hpc']; exact htest.head) hrunning' ?_ ?_
    · intro htaken
      rw [if_pos htaken] at hspoilt'
      rw [hnxt]
      exact ih depth (context :: loops) (behind depth (context :: loops) place s + 1) t
        { f' with pc := f'.pc + 1, state := (A.test c f'.state).1 }
        ⟨htest.tail.left, ⟨_, ht⟩, hrunning', congrArg (· + 1) hpc', hwaiting', houter⟩ hspoilt'
    · intro htaken
      refine ⟨_, Reaches.refl _, rfl, fun exit he => ?_⟩
      cases he
      exact ⟨context, rfl, Or.inl ⟨hwaiting'.trans hdepth.symm, hrunning', Or.inl rfl, rfl,
        fun _ => SameDrain.refl _⟩⟩
  · intro f hrunning hpc
    have hact := Reaches.one (A := A) hrunning (hpc ▸ hend.head)
    have hjump := Reaches.one (A := A)
      (f := { f with pc := f.pc + 1, state := A.run step f.state }) hrunning
      (hpc ▸ hend.tail.head)
    exact hact.trans hjump

theorem compile_counted (depth : Nat) (loops : List LoopContext) (place : Nat) (s : Stmt)
    (prep turn : Nat) :
    ∃ context : LoopContext, context.cleanupDepth = depth ∧
      context.brkTo = behind depth loops place (.counted prep turn s) ∧
      context.brkTo = context.nxtTo + 1 ∧
      context.nxtTo = behind depth (context :: loops) (place + 1) s ∧
      compile depth loops place (.counted prep turn s) =
        .jumpFalse prep context.brkTo ::
          (compile depth (context :: loops) (place + 1) s ++ [.turn turn (place + 1)]) := by
  let next := place + 1 + size depth (depth :: loops.map LoopContext.cleanupDepth) s
  refine ⟨{ brkTo := next + 1, nxtTo := next, cleanupDepth := depth }, rfl, ?_, rfl, rfl, rfl⟩
  show next + 1 = place + (1 + size depth (depth :: loops.map LoopContext.cleanupDepth) s + 1)
  omega

theorem follows_counted {prep turn : Nat} (ih : FollowedFor A code n) :
    FollowedAt A code (n + 1) depth loops place (.counted prep turn s) f := by
  intro h hspoilt
  obtain ⟨context, hdepth, hbrk, hnext, hnxt, hcompile⟩ :=
    compile_counted depth loops place s prep turn
  have hholds := h.holds
  rw [hcompile] at hholds
  have hend := holds_behind hholds.tail
  rw [← hnxt] at hend
  have houter : ∀ outer ∈ context :: loops, outer.cleanupDepth ≤ depth :=
    List.forall_mem_cons.mpr ⟨Nat.le_of_eq hdepth, h.outer⟩
  rw [← hbrk]
  unfold eval at hspoilt ⊢
  dsimp only at hspoilt ⊢
  refine follows_branch (by rw [h.pc]; exact hholds.head) h.running ?_ ?_
  · intro htaken
    rw [if_pos htaken] at hspoilt
    refine Follows.turns (place + 1) ?_ ?_
      { f with pc := f.pc + 1, state := (A.test prep f.state).1 } h.running
      (congrArg (· + 1) h.pc) (h.waiting.trans hdepth.symm) hspoilt
    · intro f hrunning hpc hwaiting hspoilt
      rw [hnxt]
      exact ih _ _ _ _ f
        ⟨hholds.tail.left, h.accepted, hrunning, hpc, hwaiting.trans hdepth, houter⟩ hspoilt
    · intro f hrunning hpc
      have hturn := Reaches.one (A := A) hrunning (hpc ▸ hend.head)
      rw [hnext, ← hpc]
      exact hturn
  · intro htaken
    exact Follows.normal (Reaches.refl _) h.running rfl rfl (SameDrain.refl _)

theorem leadsTo_jump {drained : Nat} (hrunning : f.status = .running)
    (hdrained : drained ≤ f.cleanups.length)
    (hcode : Holds code f.pc (emitCleanupDrain f.cleanups.length drained ++ [.jump target])) :
    ∃ f' : Frame σ V, Reaches A code f f' ∧ f'.state = f.state ∧
      f.LeadsTo code f' false drained target := by
  rcases Nat.lt_or_eq_of_le hdrained with hlt | rfl
  · have hdrain : emitCleanupDrain f.cleanups.length drained = [.popCleanup drained] := if_pos hlt
    rw [hdrain] at hcode
    let g : Frame σ V :=
      { f with pc := f.pc + 1, drainTarget := drained, resume := f.pc + 1, returning := false }
    exact ⟨g.drain, Reaches.one hrunning hcode.head, drain_state g,
      Or.inr ⟨hlt, g, rfl, rfl, hrunning, rfl, rfl, hcode.tail.head⟩⟩
  · have hdrain : emitCleanupDrain f.cleanups.length f.cleanups.length = [] :=
      if_neg (Nat.lt_irrefl _)
    rw [hdrain] at hcode
    exact ⟨f, Reaches.refl f, rfl,
      Or.inl ⟨rfl, hrunning, Or.inr hcode.head, rfl, fun _ => SameDrain.refl f⟩⟩

theorem follows_brk {level : Nat} (h : f.Before code depth loops place (.brk level)) :
    f.Follows A code loops past { exit := some (.brk level), state := f.state } := by
  obtain ⟨inCleanup, haccepted⟩ := h.accepted
  have hlevel : level < loops.length := of_decide_eq_true haccepted
  have hcontext : loops[level]? = some loops[level] := List.getElem?_eq_getElem hlevel
  have hholds := h.holds
  rw [compile, hcontext, ← h.pc, ← h.waiting] at hholds
  obtain ⟨f', hreach, hstate, hleads⟩ := leadsTo_jump (A := A) h.running
    (h.waiting.symm ▸ h.outer _ (List.mem_of_getElem? hcontext)) hholds
  refine ⟨f', hreach, hstate, fun exit he => ?_⟩
  cases he
  exact ⟨loops[level], hcontext, hleads⟩

theorem follows_nxt {level : Nat} (h : f.Before code depth loops place (.nxt level)) :
    f.Follows A code loops past { exit := some (.nxt level), state := f.state } := by
  obtain ⟨inCleanup, haccepted⟩ := h.accepted
  have hlevel : level < loops.length := of_decide_eq_true haccepted
  have hcontext : loops[level]? = some loops[level] := List.getElem?_eq_getElem hlevel
  have hholds := h.holds
  rw [compile, hcontext, ← h.pc, ← h.waiting] at hholds
  obtain ⟨f', hreach, hstate, hleads⟩ := leadsTo_jump (A := A) h.running
    (h.waiting.symm ▸ h.outer _ (List.mem_of_getElem? hcontext)) hholds
  refine ⟨f', hreach, hstate, fun exit he => ?_⟩
  cases he
  exact ⟨loops[level], hcontext, hleads⟩

theorem follows_ret {a : Nat} (h : f.Before code depth loops place (.ret a)) :
    f.Follows A code loops past { exit := some (.ret (A.value a f.state)), state := f.state } := by
  have hat : code[f.pc]? = some (.ret a) := h.pc.symm ▸ Holds.head h.holds
  let g : Frame σ V :=
    { f with
      pc := f.pc + 1
      drainTarget := 0
      returning := true
      answer := some (A.value a f.state) }
  refine ⟨g.drain, Reaches.one h.running hat, drain_state g, fun exit he => ?_⟩
  cases he
  exact ⟨g, rfl, rfl, h.running, rfl, rfl, rfl⟩

theorem follows (n : Nat) : FollowedFor A code n := by
  induction n with
  | zero =>
    intro depth loops place stmt f h hspoilt
    exact ⟨f, Reaches.refl f, rfl, nofun⟩
  | succ n ih =>
    intro depth loops place stmt f h hspoilt
    cases stmt with
    | skip =>
      exact Follows.normal (Reaches.refl f) h.running h.pc rfl (SameDrain.refl f)
    | act a =>
      have hat : code[f.pc]? = some (.act a) := h.pc.symm ▸ Holds.head h.holds
      exact Follows.normal (Reaches.one (A := A) h.running hat) h.running
        (congrArg (· + 1) h.pc) rfl ⟨rfl, rfl, rfl, rfl⟩
    | yield a =>
      have hat : code[f.pc]? = some (.yield a) := h.pc.symm ▸ Holds.head h.holds
      exact Follows.normal (Reaches.one (A := A) h.running hat) h.running
        (congrArg (· + 1) h.pc) rfl ⟨rfl, rfl, rfl, rfl⟩
    | seq s t => exact follows_seq ih h hspoilt
    | ifThen c s => exact follows_ifThen ih h hspoilt
    | ifElse c s t => exact follows_ifElse ih h hspoilt
    | block s t => exact follows_block ih h hspoilt
    | withBlock bindings s => exact follows_withBlock ih h hspoilt
    | loop s c t step => exact follows_loop ih h hspoilt
    | counted prep turn s => exact follows_counted ih h hspoilt
    | brk level => exact follows_brk h
    | nxt level => exact follows_nxt h
    | ret a => exact follows_ret h

end Frame

/-! ### Whole bodies -/

section

variable {σ V : Type*}

/-- What a body that is left so answers its caller. -/
def Exit.answer : Exit V → Option V
  | .ret v => some v
  | .normal | .brk _ | .nxt _ => none

/-- The frame of a body comes to every state that the statements come to, and where they are
left it has answered the caller. -/
def Nests (A : Atoms σ V) (s : Stmt) (initial : σ) : Prop :=
  ∀ n, ∃ f : Frame σ V, Frame.Reaches A (compileProc s) { state := initial } f ∧
    f.state = (eval A n 0 s initial).state ∧
      ∀ exit, (eval A n 0 s initial).exit = some exit → f.status = .answered exit.answer

theorem Frame.LeftBy.answers {A : Atoms σ V} {s : Stmt} {f f' : Frame σ V}
    {exit : Exit V} (h : f.LeftBy (compileProc s) [] (Frame.behind 0 [] 0 s) f' drains exit)
    (hcleanups : f.cleanups = []) :
    ∃ f'' : Frame σ V, Frame.Reaches A (compileProc s) f' f'' ∧ f''.state = f'.state ∧
      f''.status = .answered exit.answer := by
  cases exit with
  | normal =>
    obtain ⟨hrunning, hpc, hkept, -⟩ := h
    have hwhole : Holds (compileProc s) 0 (compile 0 [] 0 s ++ [.retNil]) := by
      intro i instruction hi
      rw [Nat.zero_add]
      exact hi
    have hat : (compileProc s)[f'.pc]? = some .retNil := hpc ▸ (Frame.holds_behind hwhole).head
    let g : Frame σ V :=
      { f' with pc := f'.pc + 1, drainTarget := 0, returning := true, answer := none }
    have hempty : g.cleanups.length ≤ g.drainTarget :=
      Nat.le_of_eq (congrArg List.length (hkept.trans hcleanups))
    have hdone : g.drain = { g with status := .answered none } := Frame.drain_done hempty
    exact ⟨g.drain, Frame.Reaches.one hrunning hat, Frame.drain_state g,
      congrArg Frame.status hdone⟩
  | brk level =>
    obtain ⟨context, hcontext, -⟩ := h
    cases hcontext
  | nxt level =>
    obtain ⟨context, hcontext, -⟩ := h
    cases hcontext
  | ret v =>
    obtain ⟨g, rfl, hkept, hanswers⟩ := h
    refine ⟨g.drain, Frame.Reaches.refl _, rfl, ?_⟩
    rw [Frame.drain_done (by rw [hkept, hcleanups]; exact Nat.zero_le _), hanswers.returning]
    exact congrArg Status.answered hanswers.answer

/-- Actions that are remembered, and conditions that do not hold. -/
def remembered : Atoms (List Nat) Nat where
  run a s := a :: s
  test c s := (c :: s, false)
  value a _ := a

/-- A `return^` out of two blocks. -/
def leavesTwo : Stmt := .block (.block (.ret 0) (.act 1)) (.act 2)

/-- A block in the `finally^` of a block. -/
def blockInCleanup : Stmt := .seq (.block (.act 0) (.block (.act 1) (.act 2))) (.act 3)

end

end Lhat.Exits
