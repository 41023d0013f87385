import Lhat.Collector.Runs

/-!
# What a program relies on

In every state of a run of actions the collector is sure to see, it is safe, and a
full collection leaves what survives. A spare that is made again while it is on the
gray list is an action it is not sure to see: the list loses what came after.
-/

namespace Lhat.Gc

/-! ### Safety -/

/-- Whether an action is the collector's. -/
def Action.collects : Action → Bool
  | .single _ | .step | .advance _ | .collect => true
  | _ => false

/-- What a program relies on the collector for. -/
structure Safe (m : Machine) : Prop where
  /-- What can be reached stands, and no sweep under way is to free it. -/
  stands : ∀ a, m.Reachable a → m.Kept a
  /-- What can be reached is not freed, and is what it was. -/
  spares : ∀ action : Action, action.collects = true → ∀ a, m.Reachable a →
    (m.act action).Reachable a ∧ ∀ o, m.object a = some o →
      ∃ o', (m.act action).object a = some o' ∧ o'.payload = o.payload
  /-- The marking ends with nothing black that refers to anything white. -/
  marked : m.gcstate = .propagate → m.gray = 0 → m.atomic.NoBlackToWhite
  /-- What the weak cache, the built-ins and the member caches name stands, and no sweep
  under way is to free it. -/
  weak : ∀ entry ∈ m.weak, entry.Live → objectOf entry.value ≠ 0 → m.Kept (objectOf entry.value)
  natives : ∀ a ∈ m.unboundNatives, a ≠ 0 → m.Kept a
  caches : ∀ cache ∈ m.memberCaches, cache.answered ≠ 0 →
    ∀ a, a = cache.answered ∨ a = cache.receiver ∨ a = cache.lender → a ≠ 0 → m.Kept a
  /-- What the sweep under way is not to free it does not free, whatever is done
  meanwhile. -/
  sweeps : m.gcstate = .sweep → ∀ a, m.Kept a → ∀ action : Action, m.Allowed action →
    action ≠ .collect → (m.act action).Kept a

theorem Steps.act {m : Machine} (hi : m.Inv) {action : Action} (hcollects : action.collects = true) :
    m.Steps (m.act action) := by
  cases action with
  | single budget => exact Machine.Steps.singleStep hi budget
  | step => exact Machine.Steps.lhatGcStep hi
  | advance budget => exact Machine.Steps.lhatGcAdvance hi budget
  | collect => exact Machine.Steps.lhatGcCollect hi
  | _ => cases hcollects

/-- In a run of actions the collector is sure to see, it is safe in every state. -/
theorem Run.safe {m : Machine} (hrun : Run Machine.Meets m) : Safe m := by
  have hi := hrun.inv
  exact
    { stands := fun a ha => hi.named ha.named
      spares := by
        intro action hcollects a ha
        have hsteps := Steps.act hi hcollects
        exact ⟨hsteps.reachable a ha, fun o ho => hsteps.stays ha.survives ho⟩
      marked := by
        intro hphase _
        have hf := (hi.marking hphase).finishMarking hi.base
        exact Machine.swap_noBlackToWhite (hf.noBlackToWhite (hf.marks.base hi.base))
      weak := hi.closed.weak
      natives := hi.closed.natives
      caches := hi.closed.caches
      sweeps := fun hphase a hk action hallowed hne => hi.kept_act hphase action hallowed hne hk }

/-! ### A spare on the gray list -/

/-- A machine with an environment, and one frame with these registers. -/
def rooted (environment : Address) (registers : List LhatValue) : Roots where
  slots := fun i => registers.getD i .nil
  frames := [{ closure := 0, base := 0, width := registers.length }]
  environment := environment

namespace Machine

variable {m m' : Machine} {x : Address}

theorem named_of_list {l : List Address}
    (h : l.all (fun b => decide (b = 0 ∨ b ∈ m.rootList)) = true) :
    ∀ b ∈ l, b ≠ 0 → m.Named b :=
  fun b hb hne =>
    .start ⟨Or.inl ((of_decide_eq_true (List.all_eq_true.1 h b hb)).resolve_left hne), hne⟩

theorem named_of_roots {l : List Address}
    (h : l.all (fun b => decide (b = 0 ∨ b ∈ m.rootList ∨ b = x)) = true) :
    ∀ b ∈ l, b ≠ 0 → m.Named b ∨ b = x := by
  intro b hb hne
  rcases (of_decide_eq_true (List.all_eq_true.1 h b hb)).resolve_left hne with hroot | hx
  · exact Or.inl (.start ⟨Or.inl hroot, hne⟩)
  · exact Or.inr hx

theorem covered_of_none (h : m.openUpvalues = []) : m.Covered := by
  intro u hu
  rw [h] at hu
  exact absurd hu List.not_mem_nil

theorem mem_of_all {l l' : List Address} (h : l.all (fun b => decide (b ∈ l')) = true) :
    ∀ b ∈ l, b ∈ l' :=
  fun b hb => of_decide_eq_true (List.all_eq_true.1 h b hb)

/-- Whether the roots alone show an action to be one a program may take. -/
def allows (m : Machine) : Action → Bool
  | .alloc a payload r =>
    decide (a ≠ 0 ∧ (m.object a).isNone = true ∧ payload.isPlain = true ∧
      payload.links.all (fun b => decide (b = 0 ∨ b ∈ m.rootList)) = true ∧
      (m.act (.alloc a payload r)).rootList.all
        (fun b => decide (b = 0 ∨ b ∈ m.rootList ∨ b = a)) = true ∧
      (m.act (.alloc a payload r)).openUpvalues = [])
  | .roots r =>
    decide ((m.act (.roots r)).rootList.all (fun b => decide (b = 0 ∨ b ∈ m.rootList)) = true ∧
      (m.act (.roots r)).openUpvalues = [])
  | .write a payload gained _ =>
    decide (a ∈ m.objects ∧ (a ∈ m.rootList ∧ a ≠ 0) ∧ payload.isPlain = true ∧
      (m.object a).all (fun o => o.payload.isPlain) = true ∧
      payload.links.all (fun b => decide (b ∈ gained)) = true ∧
      gained.all (fun b => decide (b = 0 ∨ b ∈ m.rootList)) = true)
  | .spare co => decide ((co ∈ m.rootList ∧ co ≠ 0) ∧ co ∈ m.objects)
  | .coroutine closure registers a r =>
    decide (a ≠ 0 ∧ (m.object a).isNone = true ∧ closure ∈ m.rootList ∧
      (m.act (.coroutine closure registers a r)).rootList.all (fun b =>
        decide (b = 0 ∨ b ∈ m.rootList ∨ b = (m.vmCoroutineNew closure registers a).2)) = true ∧
      (m.act (.coroutine closure registers a r)).openUpvalues = [])
  | .single _ => true
  | _ => false

theorem allowed_of_allows {action : Action} (h : m.allows action = true) : m.Allowed action := by
  cases action with
  | alloc a payload r =>
    obtain ⟨hne, hfree, hplain, hlinks, hroots, hnone⟩ := of_decide_eq_true h
    exact ⟨hne, Option.isNone_iff_eq_none.1 hfree, hplain, named_of_list hlinks, named_of_roots hroots,
      covered_of_none hnone⟩
  | roots r =>
    obtain ⟨hroots, hnone⟩ := of_decide_eq_true h
    exact ⟨named_of_list hroots, covered_of_none hnone⟩
  | write a payload gained back =>
    obtain ⟨hmem, ⟨hroot, hne⟩, hplain, hheld, hlinks, hgained⟩ := of_decide_eq_true h
    exact ⟨hmem, .start ⟨Or.inl hroot, hne⟩, hplain,
      fun o ho => ⟨by simpa [ho] using hheld, fun b hb => Or.inr (mem_of_all hlinks b hb)⟩,
      named_of_list hgained⟩
  | spare co =>
    obtain ⟨⟨hroot, hne⟩, hmem⟩ := of_decide_eq_true h
    exact ⟨.start ⟨Or.inl hroot, hne⟩, hmem⟩
  | coroutine closure registers a r =>
    obtain ⟨hne, hfree, hroot, hroots, hnone⟩ := of_decide_eq_true h
    exact ⟨hne, Option.isNone_iff_eq_none.1 hfree, fun h => .start ⟨Or.inl hroot, h⟩, named_of_roots hroots,
      covered_of_none hnone⟩
  | single budget => trivial
  | _ => cases h

/-- Whether an action is sure to be seen, as no spare is made again in a marking. -/
def sees (m : Machine) : Action → Bool
  | .coroutine _ registers _ _ => m.gcstate != .propagate || (m.spareFor registers).isNone
  | .reattach _ _ => false
  | _ => true

theorem meets_of_sees {action : Action} (h : m.sees action = true) : m.Meets action := by
  cases action with
  | coroutine closure registers a r =>
    intro hphase i hspare
    simp [sees, hphase, hspare] at h
  | reattach co base => cases h
  | _ => trivial

/-- Whether a test holds of each action where it is taken. -/
def along (test : Machine → Action → Bool) : Machine → List Action → Bool
  | _, [] => true
  | m, action :: rest => test m action && along test (m.act action) rest

end Machine

theorem Run.along {meets : Machine → Action → Prop} {test : Machine → Action → Bool}
    (htest : ∀ m action, test m action = true → m.Allowed action ∧ meets m action)
    (actions : List Action) {m : Machine} (hrun : Run meets m)
    (h : m.along test actions = true) : Run meets (actions.foldl Machine.act m) := by
  induction actions generalizing m with
  | nil => exact hrun
  | cons action rest ih =>
    obtain ⟨hone, hrest⟩ := Bool.and_eq_true_iff.1 h
    obtain ⟨hallowed, hmeets⟩ := htest m action hone
    exact ih (.act action hrun hallowed hmeets) hrest

/-- Whether an action may be taken and is sure to be seen. -/
def Machine.takes (m : Machine) (action : Action) : Bool := m.allows action && m.sees action

theorem Run.of_takes {actions : List Action} (h : Machine.started.along Machine.takes actions = true) :
    Run Machine.Meets (actions.foldl Machine.act Machine.started) :=
  Run.along
    (fun _ _ htakes =>
      ⟨Machine.allowed_of_allows (Bool.and_eq_true_iff.1 htakes).1,
        Machine.meets_of_sees (Bool.and_eq_true_iff.1 htakes).2⟩)
    actions .started h

/-- The environment holds a string. The coroutine of a loop that is over is among the
spares when a cycle starts, is made again while the marking has it on the gray list,
and is put into a table that is still to be looked into. -/
def spareActions : List Action :=
  [.alloc 5 (.subroutine [] 0 1) (rooted 0 [.object 5]),
    .alloc 2 .string (rooted 0 [.object 5, .object 2]),
    .alloc 1 (.table { array := [.object 2] }) (rooted 1 [.object 5]),
    .alloc 3 (.table {}) (rooted 1 [.object 5, .object 3]),
    .coroutine 5 1 4 (rooted 1 [.object 5, .object 3, .object 4]),
    .spare 4,
    .single 1,
    .coroutine 5 1 6 (rooted 1 [.object 5, .object 3, .object 4]),
    .write 3 (.table { array := [.object 4] }) [4, 0] false]

/-- The state after so many of them. -/
def afterSpare (n : Nat) : Machine := (spareActions.take n).foldl Machine.act Machine.started

theorem afterSpare_spec :
    (Machine.started.along Machine.takes (spareActions.take 7) = true ∧
      (afterSpare 7).gcstate = .propagate) ∧
    Machine.started.along Machine.allows (spareActions.take 9) = true ∧
    1 ∈ (afterSpare 9).rootList ∧
    ((afterSpare 9).object 1).any
      (fun o => decide (2 ∈ (afterSpare 9).children o.payload)) = true ∧
    (((afterSpare 9).act .collect).object 2).isNone = true ∧
    ((afterSpare 9).object 2).isSome = true := by
  decide +kernel

theorem Machine.refers_of_any {m : Machine} {a b : Address} (hne : b ≠ 0)
    (h : (m.object a).any (fun o => decide (b ∈ m.children o.payload)) = true) : m.Refers a b := by
  cases ho : m.object a with
  | none => simp [ho] at h
  | some o => exact ⟨⟨o, ho, by simpa [ho] using h⟩, hne⟩

/-- A marking under way, the coroutine of the loop on the gray list. -/
theorem safe_afterSpare : (afterSpare 7).gcstate = .propagate ∧ Safe (afterSpare 7) :=
  ⟨afterSpare_spec.1.2, Run.safe (Run.of_takes afterSpare_spec.1.1)⟩

/-- The string is freed, and the environment still holds it. -/
theorem not_safe_of_spare : ¬ ∀ m, Run (fun _ _ => True) m → Safe m := by
  intro h
  obtain ⟨-, hallows, hroot, hrefers, hgone, hstands⟩ := afterSpare_spec
  have h9 : Run (fun _ _ => True) (afterSpare 9) :=
    Run.along (fun _ _ hone => ⟨Machine.allowed_of_allows hone, trivial⟩) _ .started hallows
  have hreach : (afterSpare 9).Reachable 2 :=
    (Reaching.start ⟨hroot, by decide⟩ : (afterSpare 9).Reachable 1).edge
      (Machine.refers_of_any (by decide) hrefers)
  obtain ⟨o, ho⟩ := Option.isSome_iff_exists.1 hstands
  obtain ⟨o', ho', -⟩ := ((h _ h9).spares .collect rfl 2 hreach).2 o ho
  rw [ho'] at hgone
  cases hgone

/-! ### A full collection -/

/-- What `lhat_gc_collect` leaves, in every state of a run. -/
theorem Run.lhatGcCollect_complete {m : Machine} (hrun : Run Machine.Meets m) :
    m.Collected m.lhatGcCollect :=
  hrun.inv.collected

/-- The first coroutine was looked into by the cycle under way when a second one takes it
into its registers, and the program drops both. -/
def heldActions : List Action :=
  [.alloc 1 (.subroutine [] 0 1) (rooted 0 [.object 1]),
    .coroutine 1 1 2 (rooted 0 [.object 1, .object 2]),
    .write 2
      (.coroutine { closure := 1, state := .suspended, cleanupCount := 1, registerCapacity := 1 })
      [1, 0] false,
    .single 1,
    .single 1,
    .coroutine 1 1 3 (rooted 0 [.object 1, .object 2, .object 3]),
    .write 3
      (.coroutine
        { closure := 1
          state := .suspended
          cleanupCount := 1
          registers := [.object 2]
          registerCapacity := 1 }) [2, 1, 0] false,
    .roots (rooted 0 [])]

/-- The state after so many of them. -/
def afterHeld (n : Nat) : Machine := (heldActions.take n).foldl Machine.act Machine.started

theorem afterHeld_spec :
    Machine.started.along Machine.takes (heldActions.take 8) = true ∧
    ((afterHeld 8).gcstate = .propagate ∧ (afterHeld 8).objects = [3, 2, 1]) ∧
    ((afterHeld 8).object 2).any (fun o => o.payload.owes) = true ∧
    (afterHeld 8).rootList.all (fun b => decide (b ∈ [(0 : Address)])) = true ∧
    (afterHeld 8).lhatGcCollect.pendingDispose.count 2 = 0 := by
  decide +kernel

theorem afterHeld_run : Run Machine.Meets (afterHeld 8) := Run.of_takes afterHeld_spec.1

/-- Half a cycle is under way, and what it would free is still on the list. -/
theorem collected_afterHeld : (afterHeld 8).gcstate = .propagate ∧ (afterHeld 8).objects = [3, 2, 1] ∧
    (afterHeld 8).Collected (afterHeld 8).lhatGcCollect :=
  ⟨afterHeld_spec.2.1.1, afterHeld_spec.2.1.2, Run.lhatGcCollect_complete afterHeld_run⟩

/-- The first cycle holds the second coroutine back alone, and the second cycle reaches
the first one from it. -/
theorem not_held_once : ¬ ∀ m, Run Machine.Meets m → ∀ a, m.Owed a → ¬ m.Reachable a →
    m.lhatGcCollect.pendingDispose.count a = 1 := by
  intro h
  obtain ⟨-, -, howes, hroots, hcount⟩ := afterHeld_spec
  have howed : (afterHeld 8).Owed 2 := by
    cases ho : (afterHeld 8).object 2 with
    | none => simp [ho] at howes
    | some o => exact ⟨o, ho, by simpa [ho] using howes⟩
  have hnone : ∀ b ∈ (afterHeld 8).rootList, b ∈ [(0 : Address)] :=
    Machine.mem_of_all hroots
  have hunreached : ¬ (afterHeld 8).Reachable 2 := fun hreach =>
    Reaching.closed (P := fun _ => False) (fun b hb => hb.2 (List.mem_singleton.1 (hnone b hb.1))) (fun _ _ hf _ => hf) hreach
  have := h _ afterHeld_run 2 howed hunreached
  rw [hcount] at this
  cases this

end Lhat.Gc
