import Lhat.Collector.Steps

/-!
# A full collection

The cycle under way is brought to its end with the marks it has, and then one is run
from a standing start. Nothing but what chunks own is marked when that one starts, so
what it marks is what survives, and what it sweeps is the rest.
-/

namespace Lhat.Gc

namespace Machine

variable {m m' x : Machine} {a b : Address} {o o' : LhatObject} {as : List Address}
  {P : Address → Prop}

/-! ### Nothing else is marked -/

/-- A set that holds the roots and what it refers to. -/
structure Encloses (m : Machine) (P : Address → Prop) : Prop where
  roots : ∀ a ∈ m.rootList, a ≠ 0 → P a
  refers : ∀ a b, P a → m.Refers a b → P b

/-- What is marked of the list is in the set. -/
def MarkedIn (m : Machine) (P : Address → Prop) : Prop :=
  ∀ a ∈ m.objects, ∀ o, m.object a = some o → o.color.isWhite = false → P a

theorem Marks.refers (h : Marks m m') : m'.Refers a b ↔ m.Refers a b := by
  unfold Refers
  refine and_congr_left fun _ => ⟨fun ⟨o', ho', hmem⟩ => ?_, fun ⟨o, ho, hmem⟩ => ?_⟩
  · obtain ⟨o, ho, hp, -⟩ := h.before ho'
    exact ⟨o, ho, by rwa [hp, h.children] at hmem⟩
  · obtain ⟨o', ho', hp, -⟩ := h.darkens a o ho
    exact ⟨o', ho', by rwa [hp, h.children]⟩

theorem Encloses.marks (he : m.Encloses P) (h : Marks m m')
    (hpending : ∀ a ∈ m'.pendingDispose, a ≠ 0 → P a) : m'.Encloses P where
  roots := fun a ha hne => (mem_rootList_marks h ha).elim (he.roots a · hne) (hpending a · hne)
  refers := fun a b ha hedge => he.refers a b ha (h.refers.1 hedge)

theorem Encloses.pending (he : m.Encloses P) : ∀ a ∈ m.pendingDispose, a ≠ 0 → P a :=
  fun a ha hne => he.roots a (mem_rootList_pending ha) hne

section

variable (hm : m.MarkedIn P)
include hm

theorem MarkedIn.reach (hg : m.Grounded) (ha : a ≠ 0 → P a) :
    (m.reach a).MarkedIn P := by
  intro b hlisted o' ho' hdark
  have hmarks := marks_reach m a
  by_cases hba : b = a
  · subst hba
    refine ha ?_
    rintro rfl
    rw [(hmarks.grounded hg).null] at ho'
    cases ho'
  · rw [hmarks.objects] at hlisted
    rw [object_reach_of_ne hba] at ho'
    exact hm b hlisted o' ho' hdark

theorem MarkedIn.reachAll (hg : m.Grounded) (has : ∀ a ∈ as, a ≠ 0 → P a) :
    (m.reachAll as).MarkedIn P := by
  induction as generalizing m with
  | nil => exact hm
  | cons a as ih =>
    exact ih (hm.reach hg (has a List.mem_cons_self)) ((marks_reach m a).grounded hg)
      fun b hb => has b (List.mem_cons_of_mem a hb)

theorem MarkedIn.propagateOne (hg : m.Grounded) (htracing : m.Tracing 0 [])
    (hrefers : ∀ a b, P a → m.Refers a b → P b) (hgray : m.gray ≠ 0) :
    m.propagateOne.MarkedIn P := by
  obtain ⟨o, ho, hcolor, heq⟩ := htracing.head hgray
  have htaken := marks_taken ho hcolor
  have hlisted : m.gray ∈ m.objects := by
    by_contra hmem
    rw [hg.black _ o ho hmem] at hcolor
    cases hcolor
  have hhead : P m.gray := hm m.gray hlisted o ho (by rw [hcolor]; rfl)
  rw [heq]
  refine MarkedIn.reachAll ?_ (htaken.grounded hg) fun b hmem hne => ?_
  · intro b hb' p hp hdark
    rcases update_eq_some.1 hp with ⟨rfl, -⟩ | ⟨-, hp⟩
    · exact hhead
    · exact hm b hb' p hp hdark
  · rw [htaken.children] at hmem
    exact hrefers m.gray b hhead ⟨⟨o, ho, hmem⟩, hne⟩

theorem MarkedIn.followFor {turns : Nat} (hg : m.Grounded)
    (htracing : m.Tracing 0 []) (hrefers : ∀ a b, P a → m.Refers a b → P b) :
    (m.followFor turns).MarkedIn P := by
  induction turns generalizing m with
  | zero => exact hm
  | succ turns ih =>
    unfold Machine.followFor
    split
    · exact hm
    · next hgray =>
        obtain ⟨hmarks, hnext⟩ := htracing.propagateOne hgray
        exact ih (hm.propagateOne hg htracing hrefers hgray) (hmarks.grounded hg) hnext
          fun a b ha hedge => hrefers a b ha (hmarks.refers.1 hedge)

theorem MarkedIn.followRoots (hb : m.Base) (hmarking : m.Marking 0 [])
    (he : m.Encloses P) : m.followRoots.MarkedIn P := by
  obtain ⟨hmarks, hroots, -⟩ := hmarking.markRoots
  exact (hm.reachAll hb.grounded he.roots).followFor (hmarks.grounded hb.grounded) hroots.tracing
    fun a b ha hedge => he.refers a b ha (hmarks.refers.1 hedge)

theorem MarkedIn.hold (hb : m.Base) (howed : ∀ a, m.Owed a → P a)
    (a : Address) : (m.hold a).MarkedIn P := by
  rw [hold_eq]
  split
  · next howes => exact hm.reach hb.grounded fun _ => howed a (owed_of_owesAt (Marks.refl m) howes)
  · exact hm

end

theorem Marks.owed (h : Marks m m') : m'.Owed a ↔ m.Owed a := by
  constructor
  · rintro ⟨o', ho', howes⟩
    obtain ⟨o, ho, hp, -⟩ := h.before ho'
    exact ⟨o, ho, by rw [← hp, howes]⟩
  · rintro ⟨o, ho, howes⟩
    obtain ⟨o', ho', hp, -⟩ := h.darkens a o ho
    exact ⟨o', ho', by rw [hp, howes]⟩

theorem MarkedIn.holdAll (hm : m.MarkedIn P) (hb : m.Base) (howed : ∀ a, m.Owed a → P a)
    (as : List Address) : (as.foldl Machine.hold m).MarkedIn P := by
  induction as generalizing m with
  | nil => exact hm
  | cons a as ih =>
    have hmarks := marks_hold m a
    exact ih (hm.hold hb howed a) (hmarks.base hb) fun b hb => howed b (hmarks.owed.1 hb)

theorem MarkedIn.finishMarking (hm : m.MarkedIn P) (hb : m.Base) (hmarking : m.Marking 0 [])
    (he : m.Encloses P) (howed : ∀ a, m.Owed a → P a) : m.finishMarking.MarkedIn P := by
  obtain ⟨hmarks, hfollowed, -⟩ := hmarking.followRoots hb
  have hb' := hmarks.base hb
  have howed' : ∀ a, m.followRoots.Owed a → P a := fun a ha => howed a (hmarks.owed.1 ha)
  obtain ⟨hmarks', hheld, -⟩ := hfollowed.holdAll hb'.nodup
  have hmarked := (hm.followRoots hb hmarking he).holdAll hb' howed'
    m.followRoots.objects
  exact hmarked.followFor (hmarks'.base hb').grounded hheld.tracing
    fun a b ha hedge => he.refers a b ha ((hmarks.trans hmarks').refers.1 hedge)

/-! ### What is on the list in the end -/

/-- What a collection from here leaves on the list: what survives, and the constants of
the scripts that do not. -/
def Due (m : Machine) (a : Address) : Prop :=
  (a ∈ m.objects ∧ m.Survives a) ∨ ∃ s ∈ m.objects, ¬ m.Survives s ∧ a ∈ m.givenAt s

theorem Steps.encloses (h : Steps m x) : x.Encloses m.Survives where
  roots := fun a ha hne => (h.survives a).2 (.start ⟨Or.inl ha, hne⟩)
  refers := fun a b ha hedge => (h.survives b).2 (((h.survives a).1 ha).edge hedge)

theorem Steps.owed_before (h : Steps m x) (ha : x.Owed a) : m.Owed a := by
  obtain ⟨o', ho', howes⟩ := ha
  obtain ⟨o, ho, hp⟩ := h.before a o' ho'
  exact ⟨o, ho, by rw [← hp, howes]⟩

theorem Owed.ne_zero (hb : m.Base) (ha : m.Owed a) : a ≠ 0 := by
  rintro rfl
  obtain ⟨o, ho, -⟩ := ha
  rw [hb.null] at ho
  cases ho

theorem Base.listed_of_given (hb : m.Base) (ha : a ∈ m.givenAt b) : b ∈ m.objects := by
  unfold givenAt at ha
  cases ho : m.object b with
  | none => simp [ho] at ha
  | some o =>
    by_contra hlisted
    have hkind := (hb.constant b o ho hlisted).2.1
    rw [ho] at ha
    have ha : a ∈ o.given := ha
    unfold LhatObject.given at ha
    split at ha
    · next root hp =>
        rw [hp] at hkind
        cases hkind
    · exact absurd ha List.not_mem_nil

theorem Marks.givenAt (h : Marks m m') (a : Address) : m'.givenAt a = m.givenAt a := by
  unfold Machine.givenAt
  cases ha : m.object a with
  | none => rw [h.absent a ha]
  | some o =>
    obtain ⟨o', ho', hp, -⟩ := h.darkens a o ha
    rw [ho']
    exact given_congr hp

/-- A collection from `m`, as far as it has come. -/
structure Completes (m x : Machine) : Prop where
  steps : Steps m x
  objects : x.gcstate = .propagate → x.objects = m.objects
  givenAt : x.gcstate = .propagate → ∀ a, x.givenAt a = m.givenAt a
  marked : x.gcstate = .propagate → x.MarkedIn m.Survives
  reached : x.gcstate = .propagate → x.Encloses m.Reachable ∧ x.MarkedIn m.Reachable
  destined : x.gcstate = .sweep → ∀ a, x.Destined a ↔ m.Due a
  finished : x.gcstate = .pause → ∀ a, a ∈ x.objects ↔ m.Due a
  held : x.gcstate ≠ .propagate → ∀ a, m.Owed a → a ∈ x.pendingDispose ∨ m.Reachable a

section

variable (h : Completes m x)
include h

theorem Completes.propagateOne (hphase : x.gcstate = .propagate)
    (hgray : x.gray ≠ 0) : Completes m x.propagateOne := by
  have hi := h.steps.inv
  have hmarking := hi.marking hphase
  obtain ⟨hmarks, -⟩ := hmarking.propagateOne hgray
  obtain ⟨hencloses, hreached⟩ := h.reached hphase
  have hphase' : x.propagateOne.gcstate = .propagate := by rw [hmarks.gcstate, hphase]
  have hpending := pendingDispose_propagateOne x
  refine
    { steps := h.steps.trans (Piece.propagateOne hi hphase hgray).steps
      objects := fun _ => by rw [hmarks.objects, h.objects hphase]
      givenAt := fun _ a => by rw [hmarks.givenAt, h.givenAt hphase]
      marked := fun _ =>
        (h.marked hphase).propagateOne hi.base.grounded hmarking.tracing
          h.steps.encloses.refers hgray
      reached := fun _ => ⟨hencloses.marks hmarks ?_,
        hreached.propagateOne hi.base.grounded hmarking.tracing hencloses.refers hgray⟩
      destined := fun h => absurd (hphase'.symm.trans h) nofun
      finished := fun h => absurd (hphase'.symm.trans h) nofun
      held := fun h => absurd hphase' h }
  rw [hpending]
  exact hencloses.pending

theorem Completes.swap (hphase : x.gcstate = .propagate)
    (hf : Finished x m') (hmarked : m'.MarkedIn m.Survives) (hsteps : Steps m m'.swap)
    (hheld : ∀ a, m.Owed a → a ∈ m'.pendingDispose ∨ m.Reachable a) : Completes m m'.swap where
  steps := hsteps
  objects := nofun
  givenAt := nofun
  marked := nofun
  reached := nofun
  destined := by
    intro _ a
    have hb := hf.marks.base h.steps.inv.base
    have hlist : m'.swap.objects = m.objects := hf.marks.objects.trans (h.objects hphase)
    have hgiven : ∀ s, m'.swap.givenAt s = m.givenAt s := fun s =>
      (hf.marks.givenAt s).trans (h.givenAt hphase s)
    have hkept : ∀ b ∈ m.objects, m'.swap.Kept b ↔ m.Survives b := by
      intro b hb'
      refine ⟨fun hk => ?_, fun hs => hsteps.inv.survives ((hsteps.survives b).1 hs)⟩
      obtain ⟨⟨o, ho⟩, hw⟩ := (kept_swap hb hf.marking hf.gray).1 hk
      refine hmarked b (by rwa [← hlist] at hb') o ho ?_
      simpa [whiteAt, ho] using hw
    unfold Destined Due
    rw [hlist]
    refine or_congr (and_congr_right fun ha => hkept a ha) ⟨?_, ?_⟩
    · rintro ⟨s, hs, hmem⟩
      have hlisted : s ∈ m.objects := by
        have := hsteps.inv.base.listed_of_given hmem
        rwa [hlist] at this
      rw [hgiven] at hmem
      exact ⟨s, hlisted, fun h => hs ((hkept s hlisted).2 h), hmem⟩
    · rintro ⟨s, hlisted, hs, hmem⟩
      exact ⟨s, fun h => hs ((hkept s hlisted).1 h), by rwa [hgiven]⟩
  finished := nofun
  held := fun _ => hheld

theorem Completes.atomic (hphase : x.gcstate = .propagate) :
    Completes m x.atomic := by
  have hi := h.steps.inv
  have hmarking := hi.marking hphase
  have hf := hmarking.finishMarking hi.base
  obtain ⟨hencloses, hreached⟩ := h.reached hphase
  obtain ⟨hroots, -⟩ := hmarking.followRoots hi.base
  refine h.swap hphase hf ?_ (h.steps.trans (Piece.atomic hi hphase).steps) fun a ha => ?_
  · refine (h.marked hphase).finishMarking hi.base hmarking h.steps.encloses fun a ha => ?_
    exact .start ⟨Or.inr (h.steps.owed_before ha), ha.ne_zero hi.base⟩
  · -- Held back, or marked from the roots before anything was.
    obtain ⟨o, ho, howes⟩ := h.steps.owed a ha
    have hlisted : a ∈ x.objects := Owed.listed hi.base ⟨o, ho, howes⟩
    obtain ⟨o', ho', hp, -⟩ := hroots.darkens a o ho
    by_cases hw : o'.color.isWhite = true
    · refine Or.inl ?_
      rw [hf.pending]
      refine List.mem_append_left _ (List.mem_reverse.2 (List.mem_filter.2 ⟨hlisted, ?_⟩))
      exact owesAt_eq_true.2 ⟨o', ho', hw, by rw [hp, howes]⟩
    · refine Or.inr ?_
      have hmarked := hreached.followRoots hi.base hmarking hencloses
      exact hmarked a (by rwa [hroots.objects]) o' ho' (by simpa using hw)

theorem Completes.sweepSome (hphase : x.gcstate = .sweep) (budget : Nat) :
    Completes m (x.sweepSome budget).1 := by
  have hi := h.steps.inv
  obtain ⟨hswept, -⟩ := sweepFor_swept budget hi hphase
  have hsteps := h.steps.trans (Piece.sweepSome hi hphase budget).steps
  have hphase' := hswept.gcstate.trans hphase
  have hdue : ∀ a, (x.sweepFor budget).1.Destined a ↔ m.Due a := fun a =>
    (hswept.destined a).trans (h.destined hphase a)
  have hpending : (x.sweepFor budget).1.pendingDispose = x.pendingDispose := by rw [hswept.same]
  have hheld : ∀ a, m.Owed a → a ∈ (x.sweepFor budget).1.pendingDispose ∨ m.Reachable a := by
    rw [hpending]
    exact h.held (by rw [hphase]; nofun)
  rw [sweepSome_eq] at hsteps ⊢
  split at hsteps
  · next hend =>
      rw [if_pos hend]
      exact
        { steps := hsteps
          objects := nofun
          givenAt := nofun
          marked := nofun
          reached := nofun
          destined := nofun
          finished := fun _ a =>
            (hswept.inv.destined_endSweep hphase' hend).trans (hdue a)
          held := fun _ => hheld }
  · next hend =>
      rw [if_neg hend]
      exact
        { steps := hsteps
          objects := fun h => absurd (hphase'.symm.trans h) nofun
          givenAt := fun h => absurd (hphase'.symm.trans h) nofun
          marked := fun h => absurd (hphase'.symm.trans h) nofun
          reached := fun h => absurd (hphase'.symm.trans h) nofun
          destined := fun _ => hdue
          finished := fun h => absurd (hphase'.symm.trans h) nofun
          held := fun _ => hheld }

theorem Completes.finishFor {turns : Nat} :
    Completes m (x.finishFor turns) := by
  induction turns generalizing x with
  | zero => exact h
  | succ turns ih =>
    unfold Machine.finishFor
    split
    · exact h
    · next hne =>
        refine ih ?_
        unfold Machine.singleStep
        split
        · next hphase => exact absurd hphase hne
        · next hphase =>
            split
            · next hgray => exact h.propagateOne hphase hgray
            · exact h.atomic hphase
        · next hphase => exact h.sweepSome hphase sizeMax

end

theorem Inv.markedIn (hi : m.Inv) (hphase : m.gcstate = .pause) (P : Address → Prop) :
    m.MarkedIn P := by
  intro a ha o ho hdark
  have hw := hi.base.white
  rw [← (hi.idle hphase).colors a ha o ho, hdark] at hw
  cases hw

theorem Completes.propagates (hmarks : Marks m x) (hsteps : Steps m { x with gcstate := .propagate })
    (hmarked : x.MarkedIn m.Survives) (hencloses : x.Encloses m.Reachable)
    (hreached : x.MarkedIn m.Reachable) : Completes m { x with gcstate := .propagate } where
  steps := hsteps
  objects := fun _ => hmarks.objects
  givenAt := fun _ => hmarks.givenAt
  marked := fun _ => hmarked
  reached := fun _ => ⟨⟨hencloses.roots, hencloses.refers⟩, hreached⟩
  destined := nofun
  finished := nofun
  held := fun h => absurd rfl h

theorem Completes.startCycle (hi : m.Inv) (hphase : m.gcstate = .pause) :
    Completes m m.startCycle := by
  have hmarks : Marks m m.markRoots := marks_reachAll _ _
  have hencloses : m.markRoots.Encloses m.Reachable := by
    have he : m.Encloses m.Reachable :=
      ⟨fun a ha hne => .start ⟨ha, hne⟩, fun a b ha hedge => ha.edge hedge⟩
    refine he.marks hmarks ?_
    have hpending : m.markRoots.pendingDispose = m.pendingDispose := pendingDispose_reachAll _ _
    rw [hpending]
    exact he.pending
  refine Completes.propagates hmarks (Piece.startCycle hi hphase).steps ?_ hencloses ?_
  · exact (hi.markedIn hphase _).reachAll hi.base.grounded fun a ha hne => .start ⟨Or.inl ha, hne⟩
  · exact (hi.markedIn hphase _).reachAll hi.base.grounded fun a ha hne => .start ⟨ha, hne⟩

/-! ### Both cycles -/

/-- What is reached from the coroutines held back. -/
def FromPending (m : Machine) : Address → Prop :=
  Reaching (fun a => a ∈ m.pendingDispose ∧ a ≠ 0) m.Refers

/-- What a full collection leaves of a machine. -/
structure Collected (m m' : Machine) : Prop where
  finished : m'.gcstate = .pause
  /-- Of what was on the list once the cycle under way was over, what survives is. -/
  objects : ∀ a, a ∈ m'.objects ↔ (a ∈ m.finishCycle.objects ∧ m.Survives a) ∨
    ∃ s ∈ m.finishCycle.objects, ¬ m.Survives s ∧ a ∈ m.finishCycle.givenAt s
  listed : ∀ a ∈ m.objects, a ∈ m'.objects ↔ m.Survives a
  colors : ∀ a ∈ m'.objects, ∃ o, m'.object a = some o ∧ o.color = m'.white
  payload : ∀ a, m.Survives a → ∀ o, m.object a = some o →
    ∃ o', m'.object a = some o' ∧ o'.payload = o.payload
  count : m'.count = m'.objects.length
  nodup : m'.objects.Nodup
  pending : m'.pendingDispose.Nodup
  owing : ∀ a ∈ m'.pendingDispose, a ∈ m.pendingDispose ∨ m.Owed a
  held : ∀ a, m.Owed a → ¬ m.Reachable a → m'.FromPending a

theorem Steps.reached (h : Steps m x) (h' : Steps x m') (ha : x.Reachable a) :
    m.Reachable a ∨ m'.FromPending a := by
  have hboth : x.Survives a ∧ (m.Reachable a ∨ m'.FromPending a) := by
    refine Reaching.closed (P := fun a => x.Survives a ∧ (m.Reachable a ∨ m'.FromPending a))
      ?_ ?_ ha
    · rintro a ⟨hroot, hne⟩
      refine ⟨.start ⟨Or.inl hroot, hne⟩, ?_⟩
      rcases h.rootList a hroot with hroot | hpending
      · exact Or.inl (.start ⟨hroot, hne⟩)
      · exact Or.inr (.start ⟨h'.pending hpending, hne⟩)
    · rintro a b ⟨hs, hfrom⟩ hedge
      refine ⟨hs.edge hedge, hfrom.imp (fun hr => ?_) fun hp => ?_⟩
      · exact hr.edge (h.backward a b hedge)
      · exact hp.edge (h'.forward a b hs hedge)
  exact hboth.2

theorem Collected.of_completes {x' : Machine} (hi : m.Inv) (hx : m.finishCycle = x)
    (h : Steps m x) (h' : Completes x x') (hphase : x'.gcstate = .pause) : Collected m x' := by
  have hinv := h'.steps.inv
  have hobjects : ∀ a, a ∈ x'.objects ↔ (a ∈ x.objects ∧ m.Survives a) ∨
      ∃ s ∈ x.objects, ¬ m.Survives s ∧ a ∈ x.givenAt s := by
    intro a
    rw [h'.finished hphase a]
    unfold Due
    simp only [h.survives]
  refine
    { finished := hphase
      objects := by
        rw [hx]
        exact hobjects
      listed := fun a ha => ⟨fun hmem => ?_, fun hs => (hobjects a).2 (Or.inl ⟨h.listed a ha hs, hs⟩)⟩
      colors := fun a ha => ?_
      payload := fun a hs o ho => (h.trans h'.steps).stays hs ho
      count := hinv.base.count
      nodup := hinv.base.nodup
      pending := hinv.pending
      owing := (h.trans h'.steps).held
      held := fun a ha hnot => ?_ }
  · rcases (hobjects a).1 hmem with ⟨-, hs⟩ | ⟨s, -, -, hgiven⟩
    · exact hs
    · -- What a script hands over was on no list before.
      exfalso
      unfold givenAt at hgiven
      cases hso : x.object s with
      | none => simp [hso] at hgiven
      | some o' =>
        rw [hso] at hgiven
        obtain ⟨o, ho, hp⟩ := h.before s o' hso
        have hgiven : a ∈ o'.given := hgiven
        rw [given_congr hp] at hgiven
        unfold LhatObject.given at hgiven
        split at hgiven
        · next root hroot => exact ((hi.base.script s o root ho hroot).2.1 a hgiven).2 ha
        · exact absurd hgiven List.not_mem_nil
  · obtain ⟨o, ho⟩ := hinv.base.listed a ha
    exact ⟨o, ho, (hinv.idle hphase).colors a ha o ho⟩
  · rcases h'.held (by rw [hphase]; nofun) a (h.owed a ha) with hmem | hreach
    · exact .start ⟨hmem, ha.ne_zero hi.base⟩
    · exact (h.reached h'.steps hreach).resolve_left hnot

theorem Collected.rearm (h : Collected m m') : Collected m m'.lhatGcRearm :=
  { finished := h.finished
    objects := h.objects
    listed := h.listed
    colors := h.colors
    payload := h.payload
    count := h.count
    nodup := h.nodup
    pending := h.pending
    owing := h.owing
    held := h.held }

theorem Inv.collected (hi : m.Inv) : Collected m m.lhatGcCollect := by
  have hfirst := Steps.finishCycle hi
  have hstart := Completes.startCycle hfirst.inv (finishCycle_pause hi)
  have hlast := finishCycle_pause hstart.steps.inv
  exact (Collected.of_completes hi rfl hfirst hstart.finishFor hlast).rearm

end Machine
end Lhat.Gc
