import Lhat.Collector.Marking

/-!
# A cycle keeps the invariant

`atomic` ends with everything that can be reached looked into, and the coroutines
that owe their cleanups held back with what they reach. The sweep takes what is left
white, and hands over the constants of a script it takes.
-/

namespace Lhat.Gc

namespace Machine

variable {m m' : Machine} {a b c : Address} {o o' : LhatObject} {as : List Address}

/-! ### Roots and what is held back -/

theorem mem_rootList_marks (h : Marks m m') (ha : a ∈ m'.rootList) :
    a ∈ m.rootList ∨ a ∈ m'.pendingDispose := by
  unfold rootList at ha ⊢
  rw [h.roots, h.spareCoroutines, h.openUpvalues] at ha
  rcases List.mem_append.1 ha with ha | ha
  · exact Or.inl (List.mem_append_left _ ha)
  · exact Or.inr ha

theorem mem_rootList_pending (ha : a ∈ m.pendingDispose) : a ∈ m.rootList :=
  List.mem_append_right _ ha

theorem pendingDispose_propagateOne (m : Machine) :
    m.propagateOne.pendingDispose = m.pendingDispose := by
  unfold propagateOne
  split
  · rfl
  · exact pendingDispose_reachAll _ _

theorem pendingDispose_followFor (turns : Nat) (m : Machine) :
    (m.followFor turns).pendingDispose = m.pendingDispose := by
  induction turns generalizing m with
  | zero => rfl
  | succ turns ih =>
    unfold followFor
    split
    · rfl
    · rw [ih, pendingDispose_propagateOne]

/-- Whether an object is held back. -/
def owesAt (m : Machine) (a : Address) : Bool :=
  match m.object a with
  | some o => owesCleanups o
  | none => false

theorem owesAt_eq_true : m.owesAt a = true ↔
    ∃ o, m.object a = some o ∧ o.color.isWhite = true ∧ o.payload.owes = true := by
  unfold owesAt
  cases m.object a <;> simp [owesCleanups]

theorem hold_eq (m : Machine) (a : Address) :
    m.hold a =
      if m.owesAt a then { m.reach a with pendingDispose := a :: m.pendingDispose } else m := by
  unfold hold owesAt
  cases m.object a <;> simp

theorem marks_hold (m : Machine) (a : Address) : Marks m (m.hold a) := by
  rw [hold_eq]
  split
  · have hmarks := marks_reach m a
    exact
      { same := by
          have := hmarks.same
          rw [this]
        absent := hmarks.absent
        darkens := hmarks.darkens }
  · exact Marks.refl m

theorem Marking.hold (hm : m.Marking 0 []) (a : Address) : (m.hold a).Marking 0 [] := by
  rw [hold_eq]
  split
  · have hreached := hm.reached a
    obtain ⟨l, ht⟩ := hreached.threaded
    exact ⟨⟨l, ht.chain, ht.nodup, ht.all⟩, hreached.sweep, hreached.colors, hreached.blacks⟩
  · exact hm

theorem object_reach_of_ne (hne : b ≠ a) : (m.reach a).object b = m.object b := by
  unfold reach
  split
  · rfl
  · split
    · exact Function.update_of_ne hne _ _
    · rfl

theorem object_hold_of_ne (hne : b ≠ a) : (m.hold a).object b = m.object b := by
  rw [hold_eq]
  split
  · exact object_reach_of_ne hne
  · rfl

theorem owesAt_congr (hsame : m'.object a = m.object a) : m'.owesAt a = m.owesAt a := by
  unfold owesAt
  rw [hsame]

theorem Marking.holdAll (hm : m.Marking 0 []) (hnodup : as.Nodup) :
    Marks m (as.foldl Machine.hold m) ∧ (as.foldl Machine.hold m).Marking 0 [] ∧
      (as.foldl Machine.hold m).pendingDispose = (as.filter m.owesAt).reverse ++ m.pendingDispose ∧
        ∀ a ∈ as, m.owesAt a = true → (as.foldl Machine.hold m).whiteAt a = false := by
  induction as generalizing m with
  | nil => exact ⟨Marks.refl m, hm, rfl, fun a ha => absurd ha List.not_mem_nil⟩
  | cons a as ih =>
    obtain ⟨hfresh, hnodup⟩ := List.nodup_cons.1 hnodup
    obtain ⟨hmarks, hm', hpending, hheld⟩ := ih (hm.hold a) hnodup
    have hothers : ∀ b ∈ as, (m.hold a).owesAt b = m.owesAt b := by
      intro b hb
      refine owesAt_congr (object_hold_of_ne ?_)
      rintro rfl
      exact hfresh hb
    refine ⟨(marks_hold m a).trans hmarks, hm', ?_, ?_⟩
    · rw [List.foldl_cons, hpending, List.filter_congr hothers, hold_eq, List.filter_cons]
      split <;> simp
    · intro b hb howes
      rcases List.mem_cons.1 hb with rfl | hb
      · rw [Bool.eq_false_iff]
        intro hw
        have hwhite := hmarks.whiteAt hw
        rw [hold_eq, if_pos howes] at hwhite
        exact absurd (hwhite.symm.trans (whiteAt_reach m b)) (by simp)
      · exact hheld b hb ((hothers b hb).trans howes)

/-! ### The end of the marking -/

theorem Marking.markRoots (hm : m.Marking 0 []) :
    Marks m m.markRoots ∧ m.markRoots.Marking 0 [] ∧
      ∀ a ∈ m.rootList, m.markRoots.whiteAt a = false :=
  ⟨marks_reachAll _ _, hm.reachedAll _, whiteAt_reachAll m m.rootList⟩

theorem Marks.whiteAt_false (h : Marks m m') (ha : m.whiteAt a = false) : m'.whiteAt a = false := by
  rw [Bool.eq_false_iff] at ha ⊢
  exact fun hw => ha (h.whiteAt hw)

/-- What is marked from the roots alone. -/
def followRoots (m : Machine) : Machine := m.markRoots.followGray

theorem Marking.followRoots (hm : m.Marking 0 []) (hb : m.Base) :
    Marks m m.followRoots ∧ m.followRoots.Marking 0 [] ∧ m.followRoots.gray = 0 ∧
      m.followRoots.pendingDispose = m.pendingDispose ∧
        ∀ a ∈ m.rootList, m.followRoots.whiteAt a = false := by
  obtain ⟨hmarks, hroots, hwhite⟩ := hm.markRoots
  obtain ⟨hmarks', hfollowed, hgray⟩ := hroots.followGray (hmarks.base hb)
  refine ⟨hmarks.trans hmarks', hfollowed, hgray, ?_, fun a ha => hmarks'.whiteAt_false (hwhite a ha)⟩
  exact (pendingDispose_followFor _ _).trans (pendingDispose_reachAll _ _)

/-- The coroutines held back. -/
def heldBack (m : Machine) : List Address := (m.objects.filter m.followRoots.owesAt).reverse

/-- What the marking leaves when it is over. -/
structure Finished (m m' : Machine) : Prop where
  marks : Marks m m'
  marking : m'.Marking 0 []
  gray : m'.gray = 0
  pending : m'.pendingDispose = m.heldBack ++ m.pendingDispose
  roots : ∀ a ∈ m'.rootList, m'.whiteAt a = false
  spent : ∀ a, m'.owesAt a = false
  nodup : m.pendingDispose.Nodup → m'.pendingDispose.Nodup

theorem Finished.of_held {m₁ m₂ m₃ : Machine} (hb : m.Base) (hmarks : Marks m m₁)
    (hpending : m₁.pendingDispose = m.pendingDispose)
    (hwhite : ∀ a ∈ m.rootList, m₁.whiteAt a = false)
    (hback : m.heldBack = (m.objects.filter m₁.owesAt).reverse) (hmarks' : Marks m₁ m₂)
    (hpending' : m₂.pendingDispose = (m₁.objects.filter m₁.owesAt).reverse ++ m₁.pendingDispose)
    (howing : ∀ a ∈ m₁.objects, m₁.owesAt a = true → m₂.whiteAt a = false)
    (hmarks'' : Marks m₂ m₃) (hpending'' : m₃.pendingDispose = m₂.pendingDispose)
    (hmarking : m₃.Marking 0 []) (hgray : m₃.gray = 0) : Finished m m₃ := by
  have hb' := hmarks.base hb
  have hall := (hmarks.trans hmarks').trans hmarks''
  have hlist : m₃.pendingDispose = m.heldBack ++ m.pendingDispose := by
    rw [hpending'', hpending', hback, hmarks.objects, hpending]
  have hheld : ∀ a ∈ m.heldBack, m₂.whiteAt a = false := by
    intro a ha
    rw [hback] at ha
    obtain ⟨hmem, howes⟩ := List.mem_filter.1 (List.mem_reverse.1 ha)
    rw [← hmarks.objects] at hmem
    exact howing a hmem howes
  refine ⟨hall, hmarking, hgray, hlist, fun a ha => ?_, fun a => ?_, fun hnodup => ?_⟩
  · rcases mem_rootList_marks hall ha with ha | ha
    · exact (hmarks'.trans hmarks'').whiteAt_false (hwhite a ha)
    · rw [hlist] at ha
      rcases List.mem_append.1 ha with ha | ha
      · exact hmarks''.whiteAt_false (hheld a ha)
      · exact (hmarks'.trans hmarks'').whiteAt_false (hwhite a (mem_rootList_pending ha))
  · -- White to the end, it was white when the coroutines were held back.
    rw [Bool.eq_false_iff]
    intro howes
    obtain ⟨o', ho', hw, hpay⟩ := owesAt_eq_true.1 howes
    obtain ⟨o, ho, hp, hd⟩ := (hmarks'.trans hmarks'').before ho'
    have hw' : o.color.isWhite = true := by rwa [← hd.white hw]
    have hlisted : a ∈ m₁.objects := by
      by_contra ha
      rw [(hb'.constant a o ho ha).1] at hw'
      cases hw'
    have hheld := howing a hlisted (owesAt_eq_true.2 ⟨o, ho, hw', by rw [← hp, hpay]⟩)
    have hlast := hmarks''.whiteAt_false hheld
    rw [whiteAt_iff.2 ⟨o', ho', hw⟩] at hlast
    cases hlast
  · rw [hlist, List.nodup_append]
    refine ⟨?_, hnodup, ?_⟩
    · rw [hback]
      exact List.nodup_reverse.2 (hb.nodup.filter _)
    · rintro a ha b hpend rfl
      rw [hback] at ha
      obtain ⟨-, howes⟩ := List.mem_filter.1 (List.mem_reverse.1 ha)
      obtain ⟨o, ho, hw, -⟩ := owesAt_eq_true.1 howes
      have := hwhite a (mem_rootList_pending hpend)
      rw [whiteAt_iff.2 ⟨o, ho, hw⟩] at this
      cases this

theorem Marking.finishMarking (hm : m.Marking 0 []) (hb : m.Base) : Finished m m.finishMarking := by
  obtain ⟨hmarks, hfollowed, -, hpending, hwhite⟩ := hm.followRoots hb
  have hb' := hmarks.base hb
  obtain ⟨hmarks', hheld, hpending', howing⟩ := hfollowed.holdAll hb'.nodup
  obtain ⟨hmarks'', hlast, hgray⟩ := hheld.followGray (hmarks'.base hb')
  exact Finished.of_held hb hmarks hpending hwhite rfl hmarks' hpending' howing hmarks''
    (pendingDispose_followFor _ _) hlast hgray

/-- No black object refers to a white one. -/
def NoBlackToWhite (m : Machine) : Prop :=
  ∀ a o, m.object a = some o → o.color = .black → ∀ b ∈ m.children o.payload, m.whiteAt b = false

theorem Marking.black (hm : m.Marking 0 []) (hb : m.Base) (hgray : m.gray = 0)
    (ho : m.object a = some o) (hwhite : m.whiteAt a = false) : o.color = .black := by
  have hne := hm.tracing.noGray hgray hb.grounded a o ho
  have hw : o.color.isWhite = false := by simpa [Machine.whiteAt, ho] using hwhite
  revert hne hw
  cases o.color <;> simp [Color.isWhite]

theorem Finished.noBlackToWhite (hf : Finished m m') (hb : m'.Base) : m'.NoBlackToWhite := by
  intro a o ho hblack b hmem
  have hlinks : ∀ a o, m'.object a = some o → o.color = .black → ∀ b ∈ o.payload.links,
      m'.whiteAt b = false := by
    intro a o ho hblack b hb
    rw [Bool.eq_false_iff]
    exact fun hw => List.not_mem_nil (hf.marking.blacks a o ho hblack b hb hw).2
  rcases mem_children hmem with hlink | ⟨i, v, s, hp, rfl⟩ | ⟨co, i, v, s, hp, hsaved⟩
  · exact hlinks a o ho hblack b hlink
  · obtain ⟨f, hframe, hcovers⟩ := hb.covered a (hb.captured a o i v s ho hp) o i v s ho hp
    exact hf.roots _ (mem_rootList_slot hframe hcovers)
  · rcases hsaved with rfl | ⟨o', c', ho', -, hlink⟩
    · exact whiteAt_zero hb
    · have hs : s = co := hb.suspended a o co i v s ho hp
      have hco := hlinks a o ho hblack co (by simp [hp, Payload.links, hs])
      exact hlinks co o' ho' (hf.marking.black hb hf.gray ho' hco) b hlink

/-! ### Closedness while marking -/

theorem Closed.marks (h : Marks m m') (hc : m.Closed) (hphase : m.gcstate ≠ .sweep)
    (hpending : ∀ a ∈ m'.pendingDispose, a ≠ 0 → m.Kept a) : m'.Closed := by
  have hphase' : m'.gcstate ≠ .sweep := by rwa [h.gcstate]
  have hkept : ∀ a, m.Kept a → m'.Kept a := fun a ha =>
    kept_of_present hphase' (h.present.2 ha.present)
  refine ⟨fun a o' ho' _ b hb hne => ?_, fun a ha hne => ?_, ?_, ?_, ?_⟩
  · obtain ⟨o, ho, hp, -⟩ := h.before ho'
    rw [hp] at hb
    exact hkept b (hc.links a o ho (kept_of_present hphase ⟨o, ho⟩) b hb hne)
  · rcases mem_rootList_marks h ha with ha | ha
    · exact hkept a (hc.roots a ha hne)
    · exact hkept a (hpending a ha hne)
  · rw [h.weak]
    exact fun entry hentry hlive hne => hkept _ (hc.weak entry hentry hlive hne)
  · rw [h.unboundNatives]
    exact fun a ha hne => hkept a (hc.natives a ha hne)
  · rw [h.memberCaches]
    exact fun cache hcache hanswered a heq hne => hkept a (hc.caches cache hcache hanswered a heq hne)

theorem Inv.marks (h : Marks m m') (hi : m.Inv) (hphase : m.gcstate ≠ .sweep)
    (hpending : m'.pendingDispose = m.pendingDispose) (hphase' : m'.Phase) : m'.Inv where
  base := h.base hi.base
  closed := by
    refine hi.closed.marks h hphase fun a ha hne => ?_
    rw [hpending] at ha
    exact hi.closed.roots a (mem_rootList_pending ha) hne
  phase := hphase'
  pending := by
    rw [hpending]
    exact hi.pending

theorem Inv.idle (hi : m.Inv) (hphase : m.gcstate = .pause) : m.Idle := by
  have := hi.phase
  rwa [Phase, hphase] at this

theorem Inv.marking (hi : m.Inv) (hphase : m.gcstate = .propagate) : m.Marking 0 [] := by
  have := hi.phase
  rwa [Phase, hphase] at this

theorem Inv.sweeping (hi : m.Inv) (hphase : m.gcstate = .sweep) : m.Sweeping := by
  have := hi.phase
  rwa [Phase, hphase] at this

theorem Idle.marking (hm : m.Idle) (hb : m.Base) : m.Marking 0 [] where
  threaded := by
    refine ⟨[], hm.gray, List.nodup_nil, fun a o ho hgray => ?_⟩
    by_cases ha : a ∈ m.objects
    · have hw := hb.white
      rw [← hm.colors a ha o ho, hgray] at hw
      cases hw
    · rw [(hb.constant a o ho ha).1] at hgray
      cases hgray
  sweep := hm.sweep
  colors := fun a ha o ho => Or.inl (hm.colors a ha o ho)
  blacks := by
    intro a o ho hblack b hmem hw
    exfalso
    have ha : a ∉ m.objects := by
      intro ha
      have hw := hb.white
      rw [← hm.colors a ha o ho, hblack] at hw
      cases hw
    obtain ⟨p, hp, hw⟩ := whiteAt_iff.1 hw
    have hne : b ≠ 0 := by
      rintro rfl
      rw [hb.null] at hp
      cases hp
    have hconstant := (hb.constant a o ho ha).2.2 b hmem hne
    rw [(hb.constant b p hp hconstant.2).1] at hw
    cases hw

theorem Base.congr (hb : m.Base) (hobject : m'.object = m.object)
    (hobjects : m'.objects = m.objects) (hcount : m'.count = m.count)
    (hwhite : m'.white.isWhite = true) (hroots : m'.roots = m.roots)
    (hopen : m'.openUpvalues = m.openUpvalues) : m'.Base := by
  refine hb.repaint (fun a ha => ?_) (fun a o ho => ?_) hobjects hcount hwhite hroots hopen
  · obtain ⟨o, ho⟩ := ha
    exact ⟨o, by rw [hobject, ho]⟩
  · rw [hobject] at ho
    exact ⟨o, ho, rfl, fun ha => (hb.constant a o ho ha).1⟩

theorem Closed.congr (hc : m.Closed) (hobject : m'.object = m.object)
    (hroots : ∀ a ∈ m'.rootList, a ≠ 0 → m.Kept a) (hweak : m'.weak = m.weak)
    (hnatives : m'.unboundNatives = m.unboundNatives) (hcaches : m'.memberCaches = m.memberCaches)
    (hkept : ∀ a, m'.Kept a ↔ m.Kept a) : m'.Closed where
  links := by
    intro a o ho ha b hb hne
    rw [hobject] at ho
    exact (hkept b).2 (hc.links a o ho ((hkept a).1 ha) b hb hne)
  roots := fun a ha hne => (hkept a).2 (hroots a ha hne)
  weak := by
    rw [hweak]
    exact fun entry hentry hlive hne => (hkept _).2 (hc.weak entry hentry hlive hne)
  natives := by
    rw [hnatives]
    exact fun a ha hne => (hkept a).2 (hc.natives a ha hne)
  caches := by
    rw [hcaches]
    exact fun cache hcache hanswered a heq hne =>
      (hkept a).2 (hc.caches cache hcache hanswered a heq hne)

theorem Inv.propagates (hb : m.Base) (hc : m.Closed) (hm : m.Marking 0 [])
    (hpending : m.pendingDispose.Nodup) (hphase : m.gcstate ≠ .sweep) :
    { m with gcstate := .propagate }.Inv where
  base := hb.congr rfl rfl rfl hb.white rfl rfl
  closed := by
    refine hc.congr rfl hc.roots rfl rfl rfl fun a => ⟨?_, ?_⟩
    · exact fun ⟨o, ho, _⟩ => kept_of_present hphase ⟨o, ho⟩
    · exact fun ⟨o, ho, _⟩ => ⟨o, ho, nofun⟩
  phase := by
    obtain ⟨l, ht⟩ := hm.threaded
    exact ⟨⟨l, ht.chain, ht.nodup, ht.all⟩, hm.sweep, hm.colors, hm.blacks⟩
  pending := hpending

theorem Inv.startCycle (hi : m.Inv) (hphase : m.gcstate = .pause) : m.startCycle.Inv := by
  have hmarking := (hi.idle hphase).marking hi.base
  obtain ⟨hmarks, hroots, -⟩ := hmarking.markRoots
  have hpending : m.markRoots.pendingDispose = m.pendingDispose := pendingDispose_reachAll _ _
  have hclosed : m.markRoots.Closed := by
    refine hi.closed.marks hmarks (by rw [hphase]; simp) fun a ha hne => ?_
    rw [hpending] at ha
    exact hi.closed.roots a (mem_rootList_pending ha) hne
  refine Inv.propagates (hmarks.base hi.base) hclosed hroots ?_ ?_
  · rw [hpending]
    exact hi.pending
  · rw [hmarks.gcstate, hphase]
    simp

theorem Inv.propagateOne (hi : m.Inv) (hphase : m.gcstate = .propagate) (hgray : m.gray ≠ 0) :
    m.propagateOne.Inv := by
  obtain ⟨hmarks, hm⟩ := (hi.marking hphase).propagateOne hgray
  refine hi.marks hmarks (by rw [hphase]; simp) (pendingDispose_propagateOne m) ?_
  rw [Phase, hmarks.gcstate, hphase]
  exact hm

/-! ### The atomic part -/

theorem mem_clearWeak {entry : LhatWeakEntry} (hentry : entry ∈ m.clearWeak.weak)
    (hlive : entry.Live) : entry ∈ m.weak ∧ m.whiteAt (objectOf entry.value) = false := by
  obtain ⟨entry', hentry', rfl⟩ := List.mem_map.1 hentry
  split at hlive
  · exact absurd rfl hlive.2
  · next hforgets =>
      rw [if_neg hforgets]
      refine ⟨hentry', ?_⟩
      simpa [forgets, hlive.1, hlive.2] using hforgets

theorem mem_clearNatives (ha : a ∈ m.clearNatives.unboundNatives) (hne : a ≠ 0) :
    a ∈ m.unboundNatives ∧ m.whiteAt a = false := by
  obtain ⟨a', ha', rfl⟩ := List.mem_map.1 ha
  split at hne
  · exact absurd rfl hne
  · next hw =>
      rw [if_neg hw]
      exact ⟨ha', by simpa using hw⟩

theorem mem_clearMembers {cache : LhatMemberCache} (hcache : cache ∈ m.clearMembers.memberCaches)
    (hanswered : cache.answered ≠ 0) : cache ∈ m.memberCaches ∧
      ∀ a, a = cache.answered ∨ a = cache.receiver ∨ a = cache.lender → m.whiteAt a = false := by
  obtain ⟨cache', hcache', rfl⟩ := List.mem_map.1 hcache
  split at hanswered
  · exact absurd rfl hanswered
  · next houtdates =>
      rw [if_neg houtdates]
      refine ⟨hcache', ?_⟩
      rintro a (rfl | rfl | rfl) <;> simp_all [outdates]

/-- What the marking leaves, once the whites are swapped and the weak hints emptied. -/
def swap (m : Machine) : Machine :=
  let cleared := m.clearWeak.clearNatives.clearMembers
  { cleared with white := cleared.white.other, sweep := 0, gcstate := .sweep }

theorem atomic_eq (m : Machine) : m.atomic = m.finishMarking.swap := rfl

theorem swap_noBlackToWhite (h : m.NoBlackToWhite) : m.swap.NoBlackToWhite :=
  fun a o ho hblack b hb => h a o ho hblack b hb

theorem kept_swap (hb : m.Base) (hm : m.Marking 0 []) (hgray : m.gray = 0) :
    m.swap.Kept a ↔ m.Present a ∧ m.whiteAt a = false := by
  have hdead : m.swap.white.other = m.white := Color.other_other m.white
  constructor
  · rintro ⟨o, ho, hne⟩
    have ho : m.object a = some o := ho
    have hne : o.color ≠ m.white := by
      rw [← hdead]
      exact hne rfl
    refine ⟨⟨o, ho⟩, ?_⟩
    by_cases ha : a ∈ m.objects
    · have hblack : o.color = .black := by
        have := hm.tracing.noGray hgray hb.grounded a o ho
        rcases hm.colors a ha o ho with h | h | h
        · exact absurd h hne
        · exact absurd h this
        · exact h
      simp [whiteAt, ho, hblack, Color.isWhite]
    · simp [whiteAt, ho, (hb.constant a o ho ha).1, Color.isWhite]
  · rintro ⟨⟨o, ho⟩, hw⟩
    refine ⟨o, ho, fun _ => ?_⟩
    rw [hdead]
    intro hwhite
    have := hb.white
    rw [← hwhite] at this
    simp [whiteAt, ho, this] at hw

theorem Inv.swap (hb : m.Base) (hc : m.Closed) (hm : m.Marking 0 []) (hgray : m.gray = 0)
    (hroots : ∀ a ∈ m.rootList, m.whiteAt a = false)
    (hspent : ∀ a, m.owesAt a = false) (hpending : m.pendingDispose.Nodup) : m.swap.Inv where
  base := hb.congr rfl rfl rfl (Color.other_isWhite hb.white) rfl rfl
  closed := by
    have hkept : ∀ a, m.Kept a → m.whiteAt a = false → m.swap.Kept a := fun a ha hw =>
      (kept_swap hb hm hgray).2 ⟨ha.present, hw⟩
    refine ⟨fun a o ho ha b hmem hne => ?_, fun a ha hne => ?_, ?_, ?_, ?_⟩
    · have ho : m.object a = some o := ho
      obtain ⟨hpresent, hw⟩ := (kept_swap hb hm hgray).1 ha
      have hblack := hm.black hb hgray ho hw
      have hka : m.Kept a := by
        refine ⟨o, ho, fun _ hdead => ?_⟩
        have := Color.other_isWhite hb.white
        rw [← hdead, hblack] at this
        cases this
      refine hkept b (hc.links a o ho hka b hmem hne) ?_
      rw [Bool.eq_false_iff]
      exact fun hwb => List.not_mem_nil (hm.blacks a o ho hblack b hmem hwb).2
    · exact hkept a (hc.roots a ha hne) (hroots a ha)
    · intro entry hentry hlive hne
      obtain ⟨hmem, hw⟩ := mem_clearWeak (m := m) hentry hlive
      exact hkept _ (hc.weak entry hmem hlive hne) hw
    · intro a ha hne
      obtain ⟨hmem, hw⟩ := mem_clearNatives (m := m) ha hne
      exact hkept a (hc.natives a hmem hne) hw
    · intro cache hcache hanswered a heq hne
      obtain ⟨hmem, hw⟩ := mem_clearMembers (m := m) hcache hanswered
      exact hkept a (hc.caches cache hmem hanswered a heq hne) (hw a heq)
  phase := by
    refine ⟨hgray, hm.tracing.noGray hgray hb.grounded, Nat.zero_le _, fun a ha => absurd ha List.not_mem_nil, ?_⟩
    intro a o ho hdead
    have ho : m.object a = some o := ho
    have hwhite : o.color = m.white := hdead.trans (Color.other_other m.white)
    have hnot := hspent a
    unfold owesAt owesCleanups at hnot
    rw [ho] at hnot
    simpa [hwhite, hb.white] using hnot
  pending := hpending

theorem Finished.closed (hf : Finished m m') (hi : m.Inv) (hphase : m.gcstate ≠ .sweep) :
    m'.Closed := by
  refine hi.closed.marks hf.marks hphase fun a ha hne => ?_
  rw [hf.pending] at ha
  rcases List.mem_append.1 ha with ha | ha
  · have hmem := (List.mem_filter.1 (List.mem_reverse.1 ha)).1
    exact kept_of_present hphase (hi.base.listed a hmem)
  · exact hi.closed.roots a (mem_rootList_pending ha) hne

theorem Inv.atomic (hi : m.Inv) (hphase : m.gcstate = .propagate) : m.atomic.Inv := by
  have hf := (hi.marking hphase).finishMarking hi.base
  exact Inv.swap (hf.marks.base hi.base) (hf.closed hi (by rw [hphase]; simp)) hf.marking hf.gray
    hf.roots hf.spent (hf.nodup hi.pending)

/-! ### The sweep -/

/-- Some colours are others. -/
structure Recolors (m m' : Machine) (c : Color) (as : List Address) : Prop where
  same : m' = { m with object := m'.object }
  given : ∀ a ∈ as, ∀ o, m.object a = some o → m'.object a = some { o with color := c }
  other : ∀ a, a ∉ as ∨ m.object a = none → m'.object a = m.object a

theorem recolors (m : Machine) (c : Color) (a : Address) : Recolors m (m.recolor c a) c [a] := by
  unfold recolor
  cases ha : m.object a with
  | none =>
    refine ⟨rfl, fun b hb o ho => ?_, fun _ _ => rfl⟩
    rw [List.mem_singleton.1 hb, ha] at ho
    cases ho
  | some o =>
    refine ⟨rfl, fun b hb p hp => ?_, fun b hb => Function.update_of_ne ?_ _ _⟩
    · obtain rfl := List.mem_singleton.1 hb
      obtain rfl : o = p := by simpa [ha] using hp
      exact Function.update_self ..
    · rintro rfl
      rcases hb with hb | hb
      · exact hb List.mem_cons_self
      · rw [ha] at hb
        cases hb

theorem Recolors.cons {c : Color} (h : Recolors m m' c [a]) {m'' : Machine}
    (h' : Recolors m' m'' c as) : Recolors m m'' c (a :: as) where
  same := by
    have := h'.same
    rw [h.same] at this
    exact this
  given := by
    intro b hb o ho
    by_cases hba : b = a
    · subst hba
      have ho' := h.given b List.mem_cons_self o ho
      by_cases hmem : b ∈ as
      · exact h'.given b hmem { o with color := c } ho'
      · rw [h'.other b (Or.inl hmem), ho']
    · have hother := h.other b (Or.inl (by simpa using hba))
      exact h'.given b ((List.mem_cons.1 hb).resolve_left hba) o (hother.trans ho)
  other := by
    intro b hb
    rcases hb with hb | hb
    · obtain ⟨hne, hmem⟩ := not_or.1 (mt List.mem_cons.2 hb)
      rw [h'.other b (Or.inl hmem), h.other b (Or.inl (by simpa using hne))]
    · have hother := h.other b (Or.inr hb)
      rw [h'.other b (Or.inr (hother.trans hb)), hother]

theorem recolorsAll (m : Machine) (c : Color) (as : List Address) :
    Recolors m (as.foldl (fun m a => m.recolor c a) m) c as := by
  induction as generalizing m with
  | nil => exact ⟨rfl, fun a ha => absurd ha List.not_mem_nil, fun _ _ => rfl⟩
  | cons a as ih => exact (recolors m c a).cons (ih (m.recolor c a))

/-- What a freed script hands over, put before the list and given a colour. -/
structure Gives (m m' : Machine) (as : List Address) : Prop where
  same : m' = { m with
    object := m'.object
    objects := as ++ m.objects
    count := m.count + as.length
    sweep := if m.sweep = 0 then 0 else m.sweep + as.length }
  given : ∀ a ∈ as, ∀ o, m.object a = some o → m'.object a = some { o with color := m.white }
  other : ∀ a, a ∉ as ∨ m.object a = none → m'.object a = m.object a

theorem gives (m : Machine) (o : LhatObject) : Gives m (m.giveObjects o) o.given := by
  unfold giveObjects
  split
  · next root hp =>
      have hgiven : o.given = root.objects := by simp [LhatObject.given, hp]
      obtain ⟨hsame, hrecolored, hother⟩ :=
        recolorsAll (m.prepend root.objects) m.white root.objects
      rw [hgiven]
      exact ⟨hsame, hrecolored, hother⟩
  · next hnot =>
      have hgiven : o.given = [] := by
        unfold LhatObject.given
        split
        · next root hp => exact absurd hp (hnot root)
        · rfl
      have hsweep : (if m.sweep = 0 then 0 else m.sweep) = m.sweep := by
        split
        · next hzero => exact hzero.symm
        · rfl
      rw [hgiven]
      exact ⟨by simp [hsweep], fun a ha => absurd ha List.not_mem_nil, fun _ _ => rfl⟩

end Machine
end Lhat.Gc
