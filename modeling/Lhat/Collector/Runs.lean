import Lhat.Collector.Actions
import Lhat.Collector.Collection

/-!
# Runs of a machine

The invariant holds of a machine just made, and every action keeps it that the
collector is sure to see. So it holds in every state of a run of such actions, and
with it that nothing which can be reached is freed.
-/

namespace Lhat.Gc

variable {p : Payload} {us : List Address}

namespace Machine

variable {m : Machine} {a b : Address} {o : LhatObject} {r : Roots}

theorem started_absent {P : Prop} (ho : started.object a = some o) : P :=
  absurd (Eq.symm ho) (Option.some_ne_none o)

theorem started_rootList : ∀ b ∈ started.rootList, b = 0 := by
  intro b hb
  have hroots : started.rootList = [0, 0, 0, 0, 0] := rfl
  rw [hroots] at hb
  simpa using hb

theorem started_inv : started.Inv where
  base :=
    { null := rfl
      nodup := List.nodup_nil
      listed := fun _ ha => absurd ha List.not_mem_nil
      count := rfl
      white := rfl
      constant := fun _ _ ho => started_absent ho
      script := fun _ _ _ ho => started_absent ho
      apart := fun _ _ _ _ _ _ _ ho => started_absent ho
      captured := fun _ _ _ _ _ ho => started_absent ho
      suspended := fun _ _ _ _ _ _ ho => started_absent ho
      covered := fun _ _ _ _ _ _ ho => started_absent ho }
  closed :=
    { links := fun _ _ ho => started_absent ho
      roots := fun b hb hne => absurd (started_rootList b hb) hne
      weak := fun _ hentry => absurd hentry List.not_mem_nil
      natives := fun _ ha => absurd ha List.not_mem_nil
      caches := fun _ hcache => absurd hcache List.not_mem_nil }
  phase := ⟨rfl, rfl, fun _ ha => absurd ha List.not_mem_nil⟩
  pending := List.nodup_nil

theorem mem_rootList_born {opened : List Address}
    (hb : b ∈ (m.born a p m.roots opened).rootList) : b ∈ m.rootList ∨ b ∈ opened := by
  unfold rootList at hb ⊢
  simp only [born, allocate, prepend, List.mem_append] at hb ⊢
  grind

theorem Inv.vmCapture {i : Nat} (hi : m.Inv) (ha : a ≠ 0) (hfresh : m.object a = none)
    (hframe : ∃ f ∈ m.roots.frames, f.covers i) : (m.vmCapture i a).Inv := by
  unfold Machine.vmCapture
  dsimp only
  split
  · exact hi
  · generalize hopened : m.openUpvalues.takeWhile (fun u => decide (i < m.slotOf u)) ++
      a :: m.openUpvalues.dropWhile (fun u => decide (i < m.slotOf u)) = opened
    have hmem : ∀ u, u ∈ opened ↔ u = a ∨ u ∈ m.openUpvalues := by
      intro u
      have hsplit := List.takeWhile_append_dropWhile
        (p := fun u => decide (i < m.slotOf u)) (l := m.openUpvalues)
      rw [← hopened, List.mem_append, List.mem_cons]
      conv_rhs => rw [← hsplit, List.mem_append]
      grind
    have hbear : m.Bearable a (.upvalue (some (.slot i)) .nil 0) m.roots opened :=
      { ne_zero := ha
        fresh := hfresh
        links := fun b hb hne => absurd (List.mem_singleton.1 hb) hne
        script := nofun
        captured := fun _ _ _ _ => (hmem a).2 (Or.inl rfl)
        others := fun u hu => (hmem u).2 (Or.inr hu)
        suspended := nofun
        roots := by
          intro b hb hne
          rcases mem_rootList_born hb with hb | hb
          · exact Or.inl (hi.closed.roots b hb hne)
          · rcases (hmem b).1 hb with rfl | hb
            · exact Or.inr rfl
            · exact Or.inl (hi.closed.roots b (mem_rootList_open hb) hne)
        covered := by
          intro u hu q j v s hq hp
          rcases born_before hq with ⟨rfl, rfl⟩ | ⟨hne, hq⟩
          · obtain rfl : i = j := by cases hp; rfl
            exact hframe
          · exact hi.base.covered u (((hmem u).1 hu).resolve_left hne) q j v s hq hp }
    exact hbear.inv hi

theorem Bearable.of_plain (ha : a ≠ 0) (hfresh : m.object a = none)
    (hplain : p.isPlain = true) (hlinks : ∀ b ∈ p.links, b ≠ 0 → m.Kept b)
    (hroots : ∀ b ∈ { m.allocate a p with roots := r }.rootList, b ≠ 0 → m.Kept b ∨ b = a)
    (hcovered : { m.allocate a p with roots := r }.Covered) :
    m.Bearable a p r m.openUpvalues where
  ne_zero := ha
  fresh := hfresh
  links := hlinks
  script := by
    rintro root rfl
    cases hplain
  captured := by
    rintro i v s rfl
    cases hplain
  others := fun _ hu => hu
  suspended := by
    rintro co i v s rfl
    cases hplain
  roots := hroots
  covered := hcovered

theorem Inv.coroutine {closure : Address} {registers : Nat} (hi : m.Inv) (ha : a ≠ 0)
    (hfresh : m.object a = none) (hclosure : closure ≠ 0 → m.Kept closure)
    (hroots : ∀ b ∈ (m.act (.coroutine closure registers a r)).rootList,
      b ≠ 0 → m.Kept b ∨ b = (m.vmCoroutineNew closure registers a).2)
    (hcovered : (m.act (.coroutine closure registers a r)).Covered)
    (hmeets : m.Meets (.coroutine closure registers a r)) :
    (m.act (.coroutine closure registers a r)).Inv := by
  unfold Machine.act Machine.vmCoroutineNew at *
  dsimp only at *
  cases hspare : m.spareFor registers with
  | none =>
    rw [hspare] at hroots hcovered
    have hbear := Bearable.of_plain (r := r) ha hfresh rfl ?_ hroots hcovered
    · exact hbear.inv hi
    · intro b hb hne
      simp only [Payload.links, List.mem_append, List.mem_map, List.mem_replicate] at hb
      rcases hb with ⟨v, ⟨-, rfl⟩, rfl⟩ | hb
      · exact absurd rfl hne
      · rcases List.mem_cons.1 hb with rfl | hb
        · exact hclosure hne
        · simp [objectOf] at hb
          exact absurd hb hne
  | some i =>
    rw [hspare] at hroots hcovered
    dsimp only at *
    have hlt : i < m.spareCoroutines.length := (List.findIdx?_eq_some_iff_getElem.1 hspare).1
    have hmem : m.spareCoroutines.getD i 0 ∈ m.spareCoroutines := by
      rw [List.getD_eq_getElem?_getD, List.getElem?_eq_getElem hlt]
      exact List.getElem_mem hlt
    obtain ⟨hinv, hkept, hsame⟩ := hi.remake closure registers hmem hclosure
      fun h => hmeets h i hspare
    generalize m.remake (m.spareCoroutines.getD i 0) closure registers = m₁ at *
    have hpending : m₁.pendingDispose = m.pendingDispose := by rw [hsame]
    refine hinv.reroot (fun b hb hne => ?_) hcovered hinv.pending
    rcases hroots b hb hne with hk | rfl
    · exact hkept b hk
    · exact hkept _ (hi.closed.roots _ (mem_rootList_spare hmem) hne)

theorem Inv.remember {weak : List LhatWeakEntry} {weakCount : Nat} {natives : List Address}
    {caches : List LhatMemberCache} (hi : m.Inv)
    (hallowed : m.Allowed (.remember weak weakCount natives caches)) :
    (m.act (.remember weak weakCount natives caches)).Inv where
  base := hi.base.congr rfl rfl rfl hi.base.white rfl rfl
  closed :=
    { links := hi.closed.links
      roots := hi.closed.roots
      weak := fun entry hentry hlive hne => hi.named (hallowed.1 entry hentry hlive hne)
      natives := fun b hb hne => hi.named (hallowed.2.1 b hb hne)
      caches := fun cache hcache hanswered b heq hne =>
        hi.named (hallowed.2.2 cache hcache hanswered b heq hne) }
  phase := hi.phase.congr rfl rfl rfl rfl rfl rfl
  pending := hi.pending

theorem Inv.weakGet {entry : LhatWeakEntry} (hi : m.Inv) : (m.weakGet entry).Inv := by
  unfold Machine.weakGet
  split
  · next hphase =>
      have hmarks := marks_reach m (objectOf entry.value)
      refine hi.marks hmarks (by rw [hphase]; nofun) (pendingDispose_reach _ _) ?_
      rw [Phase, hmarks.gcstate, hphase]
      exact (hi.marking hphase).reached _
  · exact hi

theorem Inv.act (hi : m.Inv) (action : Action) (hallowed : m.Allowed action)
    (hmeets : m.Meets action) : (m.act action).Inv := by
  have hnamed : ∀ {b}, m.Named b → m.Kept b := fun h => hi.named h
  cases action with
  | alloc a p r =>
    obtain ⟨ha, hfresh, hplain, hlinks, hroots, hcovered⟩ := hallowed
    have hbear := Bearable.of_plain ha hfresh hplain (fun b hb hne => hnamed (hlinks b hb hne))
      (fun b hb hne => (hroots b hb hne).imp_left hnamed) hcovered
    exact hbear.inv hi
  | load constants =>
    obtain ⟨-, hfresh, hconstant⟩ := hallowed
    have hload : m.Loadable constants := ⟨hfresh, hconstant⟩
    exact hload.inv hi
  | script a root r =>
    obtain ⟨ha, hfresh, hnodup, hin, hown, hother, hroots, hcovered⟩ := hallowed
    have hbear : m.Bearable a (.script root) r m.openUpvalues :=
      { ne_zero := ha
        fresh := hfresh
        links := fun b hb => absurd hb List.not_mem_nil
        script := by
          intro root' heq
          obtain rfl : root = root' := by cases heq; rfl
          exact ⟨hnodup, hin, hown, hother⟩
        captured := nofun
        others := fun _ hu => hu
        suspended := nofun
        roots := fun b hb hne => (hroots b hb hne).imp_left hnamed
        covered := hcovered }
    exact hbear.inv hi
  | roots r => exact hi.reroot (fun b hb hne => hnamed (hallowed.1 b hb hne)) hallowed.2 hi.pending
  | write a p gained back =>
    obtain ⟨hlisted, ha, hplain, hgained, hvalues⟩ := hallowed
    obtain ⟨o, ho⟩ := hi.base.listed a hlisted
    exact hi.write ho hlisted (hnamed ha) hplain (hgained o ho).2 fun b hb hne =>
      hnamed (hvalues b hb hne)
  | capture i a => exact hi.vmCapture hallowed.1 hallowed.2.1 hallowed.2.2
  | close above => exact hi.closeAbove rfl
  | detach co base => exact hi.detachAbove rfl (hnamed hallowed.1) hallowed.2
  | reattach co base =>
    obtain ⟨hco, hlisted, hframes⟩ := hallowed
    refine hi.reattachUpvalues hlisted (hnamed hco) fun o c ho hc u hu => ?_
    obtain ⟨hkept, p, i, v, s, hp, hpay⟩ := hmeets o c ho hc u hu
    refine ⟨hkept, fun q co' j v' s' hq hpay' => ?_⟩
    obtain rfl : p = q := by simpa [hp] using hq
    obtain rfl : i = j := by
      rw [hpay] at hpay'
      cases hpay'
      rfl
    exact hframes o c ho hc u hu p i v s hp hpay
  | spare co => exact hi.vmCoroutineSpare hallowed.2 (hnamed hallowed.1)
  | coroutine closure registers a r =>
    obtain ⟨ha, hfresh, hclosure, hroots, hcovered⟩ := hallowed
    exact hi.coroutine ha hfresh (fun hne => hnamed (hclosure hne))
      (fun b hb hne => (hroots b hb hne).imp_left hnamed) hcovered hmeets
  | weakGet entry => exact hi.weakGet
  | remember weak weakCount natives caches => exact hi.remember hallowed
  | takePending r =>
    exact hi.reroot (fun b hb hne => hnamed (hallowed.1 b hb hne)) hallowed.2
      (hi.pending.sublist (List.tail_sublist _))
  | settings growth stepmul stepsize paused =>
    exact hi.congr rfl rfl rfl rfl rfl rfl rfl rfl rfl rfl rfl rfl rfl rfl
  | single budget => exact (Steps.singleStep hi budget).inv
  | step => exact (Steps.lhatGcStep hi).inv
  | advance budget => exact (Steps.lhatGcAdvance hi budget).inv
  | collect => exact (Steps.lhatGcCollect hi).inv

/-! ### What is kept stays so -/

section

variable (hb : m.Kept b)
include hb

theorem setPayload_kept : (m.setPayload a p).Kept b := by
  unfold setPayload
  split
  · exact hb
  · next o ho => exact (rewrite_kept ho).2 hb

theorem barrierBack_kept {v : Address} : (m.lhatGcBarrierBack a v).Kept b := by
  unfold lhatGcBarrierBack
  split
  · exact hb
  · next o ho =>
      split
      · exact hb
      · next hnot =>
          have hphase : m.gcstate = .propagate := not_not.1 (not_or.1 hnot).1
          have hnot : (m.regray a o).gcstate ≠ .sweep := fun h => absurd (hphase.symm.trans h) nofun
          exact kept_of_present hnot (regray_present hb.present)

theorem write_kept {gained : List Address} {back : Bool} :
    (m.write a p gained back).Kept b := by
  have hbarriers : ∀ (gained : List Address) (m : Machine), m.Kept b →
      (gained.foldl (fun m v => if back then m.lhatGcBarrierBack a v else m.lhatGcBarrier a v)
        m).Kept b := by
    intro gained
    induction gained with
    | nil => exact fun _ hb => hb
    | cons v gained ih =>
      intro m hb
      refine ih _ ?_
      cases back with
      | true => exact barrierBack_kept hb
      | false => exact barrier_kept hb
  exact hbarriers gained _ (setPayload_kept hb)

theorem closeAbove_kept {above : Nat} : (m.closeAbove above us).Kept b := by
  induction us generalizing m with
  | nil => exact hb
  | cons u us ih =>
    unfold closeAbove
    split
    · refine ih ?_
      unfold closeIntoCell
      split
      · exact barrier_kept (setPayload_kept hb)
      · exact hb
    · exact hb

theorem detachAbove_kept {co : Address} {base : Nat} :
    (m.detachAbove co base us).Kept b := by
  induction us generalizing m with
  | nil => exact hb
  | cons u us ih =>
    unfold detachAbove
    split
    · split
      · exact ih (barrier_kept (setPayload_kept (setPayload_kept hb)))
      · exact hb
    · exact hb

theorem reattachEach_kept {co : Address} {base : Nat} :
    (m.reattachEach co base us).Kept b := by
  induction us generalizing m with
  | nil => exact hb
  | cons u us ih =>
    unfold reattachEach
    split
    · exact ih (setPayload_kept hb)
    · exact ih hb

end

theorem allocate_kept (hfresh : m.object a = none) (hb : m.Kept b) : (m.allocate a p).Kept b := by
  obtain ⟨o, ho, hlive⟩ := hb
  refine ⟨o, (Function.update_of_ne ?_ _ _).trans ho, hlive⟩
  rintro rfl
  rw [hfresh] at ho
  cases ho

theorem vmCoroutineNew_kept {closure : Address} {registers : Nat} (hi : m.Inv)
    (hfresh : m.object a = none) (hb : m.Kept b) :
    (m.vmCoroutineNew closure registers a).1.Kept b := by
  unfold vmCoroutineNew
  split
  · next i hspare =>
      show (m.remake (m.spareCoroutines.getD i 0) closure registers).Kept b
      by_cases hco : ∃ o c, m.object (m.spareCoroutines.getD i 0) = some o ∧ o.payload = .coroutine c
      · obtain ⟨o, c, ho, hp⟩ := hco
        rw [remake_eq ho hp]
        exact (rewrite_kept (Function.update_self ..)).2 (rebirth_kept hi.base hb)
      · rw [remake_self hco]
        exact hb
  · exact allocate_kept hfresh hb

theorem Inv.kept_singleStep (hi : m.Inv) (hphase : m.gcstate = .sweep) (budget : Nat)
    (hb : m.Kept b) : (m.singleStep budget).1.Kept b := by
  have hstep : (m.singleStep budget).1 = (m.sweepSome budget).1 := by
    unfold singleStep
    rw [hphase]
  obtain ⟨hswept, -⟩ := sweepFor_swept budget hi hphase
  have hswept := (hswept.kept b).2 hb
  rw [hstep, sweepSome_eq]
  split
  · obtain ⟨o, ho, -⟩ := hswept
    exact ⟨o, ho, nofun⟩
  · exact hswept

theorem singleStep_sweep (hi : m.Inv) (hphase : m.gcstate = .sweep) (budget : Nat) :
    (m.singleStep budget).1.gcstate = .pause ∨ (m.singleStep budget).1.gcstate = .sweep := by
  have hstep : (m.singleStep budget).1 = (m.sweepSome budget).1 := by
    unfold singleStep
    rw [hphase]
  obtain ⟨hswept, -⟩ := sweepFor_swept budget hi hphase
  rw [hstep, sweepSome_eq]
  split
  · exact Or.inl rfl
  · exact Or.inr (hswept.gcstate.trans hphase)

theorem Inv.kept_stepFor {budget turns done : Nat} (hi : m.Inv) (hphase : m.gcstate = .sweep)
    (hb : m.Kept b) : (m.stepFor budget turns done).Kept b := by
  induction turns generalizing m done with
  | zero => exact hb
  | succ turns ih =>
    have hkept := hi.kept_singleStep hphase (budget - done) hb
    have hinv := (Steps.singleStep hi (budget - done)).inv
    unfold Machine.stepFor
    dsimp only
    split
    · next hmore =>
        have hnext := (singleStep_sweep hi hphase (budget - done)).resolve_left hmore.2
        exact ih hinv hnext hkept
    · exact hkept

theorem Inv.kept_advanceFor {budget turns done : Nat} (hi : m.Inv) (hphase : m.gcstate = .sweep)
    (hb : m.Kept b) : (m.advanceFor budget turns done).1.Kept b := by
  induction turns generalizing m done with
  | zero => exact hb
  | succ turns ih =>
    have hkept := hi.kept_singleStep hphase (budget - done) hb
    have hinv := (Steps.singleStep hi (budget - done)).inv
    unfold Machine.advanceFor
    split
    · dsimp only
      split
      · exact hkept
      · next hmore =>
          have hnext := (singleStep_sweep hi hphase (budget - done)).resolve_left fun h =>
            hmore ⟨by simp [hphase], h⟩
          exact ih hinv hnext hkept
    · exact hb

theorem Inv.kept_act (hi : m.Inv) (hphase : m.gcstate = .sweep) (action : Action)
    (hallowed : m.Allowed action) (hcollect : action ≠ .collect) (hb : m.Kept b) :
    (m.act action).Kept b := by
  cases action with
  | alloc a p r => exact allocate_kept hallowed.2.1 hb
  | load constants =>
    have hload : m.Loadable constants := ⟨hallowed.2.1, hallowed.2.2⟩
    exact hload.kept hb
  | script a root r => exact allocate_kept hallowed.2.1 hb
  | roots r => exact hb
  | write a p gained back => exact write_kept hb
  | capture i a =>
    show (m.vmCapture i a).Kept b
    unfold Machine.vmCapture
    dsimp only
    split
    · exact hb
    · exact allocate_kept hallowed.2.1 hb
  | close above => exact closeAbove_kept hb
  | detach co base => exact detachAbove_kept hb
  | reattach co base =>
    show (m.reattachUpvalues co base).Kept b
    unfold Machine.reattachUpvalues
    split
    · exact reattachEach_kept (setPayload_kept hb)
    · exact hb
  | spare co =>
    show (m.vmCoroutineSpare co).Kept b
    unfold Machine.vmCoroutineSpare
    split
    · split
      · exact setPayload_kept hb
      · exact hb
    · exact hb
  | coroutine closure registers a r => exact vmCoroutineNew_kept hi hallowed.2.1 hb
  | weakGet entry =>
    show (m.weakGet entry).Kept b
    unfold Machine.weakGet
    rw [if_neg (by rw [hphase]; nofun)]
    exact hb
  | remember weak weakCount natives caches => exact hb
  | takePending r => exact hb
  | settings growth stepmul stepsize paused => exact hb
  | single budget => exact hi.kept_singleStep hphase budget hb
  | step => exact hi.kept_stepFor hphase hb
  | advance budget => exact hi.kept_advanceFor hphase hb
  | collect => exact absurd rfl hcollect

end Machine

theorem Run.inv {m : Machine} (hrun : Run Machine.Meets m) : m.Inv := by
  induction hrun with
  | started => exact Machine.started_inv
  | act action _ hallowed hmeets ih => exact ih.act action hallowed hmeets

end Lhat.Gc
