import Lhat.Collector.Steps

/-!
# What a write does to the invariant

A field of a black object may come to name a white one while the marking is under
way. Until the barriers have been given what it gained, the invariant holds but for
that object (`InvAt`).
-/

namespace Lhat.Gc

namespace Machine

variable {m m' : Machine} {a b x : Address} {o o' : LhatObject} {p : Payload}
  {todo spare opened : List Address}

/-- What each phase adds, while what `x` gained is still to be given to a barrier. -/
def PhaseAt (m : Machine) (x : Address) (todo : List Address) : Prop :=
  match m.gcstate with
  | .pause => m.Idle
  | .propagate => m.Marking x todo
  | .sweep => m.Sweeping

/-- The invariant, but for what `x` gained. -/
structure InvAt (m : Machine) (x : Address) (todo : List Address) : Prop where
  base : m.Base
  closed : m.Closed
  phase : m.PhaseAt x todo
  pending : m.pendingDispose.Nodup

theorem PhaseAt.of (hidle : m.gcstate = .pause → m.Idle)
    (hmarking : m.gcstate = .propagate → m.Marking x todo)
    (hsweeping : m.gcstate = .sweep → m.Sweeping) : m.PhaseAt x todo := by
  unfold PhaseAt
  split
  · next h => exact hidle h
  · next h => exact hmarking h
  · next h => exact hsweeping h

theorem Inv.at (hi : m.Inv) (x : Address) (todo : List Address) : m.InvAt x todo :=
  ⟨hi.base, hi.closed,
    PhaseAt.of hi.idle (fun h => ((hi.marking h).done x).weaken (List.nil_subset todo)) hi.sweeping,
      hi.pending⟩

theorem InvAt.idle (hi : m.InvAt x todo) (hphase : m.gcstate = .pause) : m.Idle := by
  have := hi.phase
  rwa [PhaseAt, hphase] at this

theorem InvAt.marking (hi : m.InvAt x todo) (hphase : m.gcstate = .propagate) :
    m.Marking x todo := by
  have := hi.phase
  rwa [PhaseAt, hphase] at this

theorem InvAt.sweeping (hi : m.InvAt x todo) (hphase : m.gcstate = .sweep) : m.Sweeping := by
  have := hi.phase
  rwa [PhaseAt, hphase] at this

theorem InvAt.done (hi : m.InvAt x []) : m.Inv := by
  refine ⟨hi.base, hi.closed, ?_, hi.pending⟩
  unfold Phase
  split
  · next h => exact hi.idle h
  · next h => exact (hi.marking h).done 0
  · next h => exact hi.sweeping h

/-! ### An object written over -/

/-- An object's payload is another, and so may be the open captures and the spares. -/
def rewrite (m : Machine) (a : Address) (o : LhatObject) (p : Payload)
    (spare opened : List Address) : Machine :=
  { m with
    object := Function.update m.object a (some { o with payload := p })
    spareCoroutines := spare
    openUpvalues := opened }

theorem rewrite_before (ho : m.object a = some o)
    (hb : (m.rewrite a o p spare opened).object b = some o') :
    (b = a ∧ o' = { o with payload := p }) ∨ (b ≠ a ∧ m.object b = some o') := by
  rcases update_eq_some.1 hb with ⟨rfl, rfl⟩ | ⟨hne, hb⟩
  · exact Or.inl ⟨rfl, rfl⟩
  · exact Or.inr ⟨hne, hb⟩

theorem rewrite_of_ne (hne : b ≠ a) : (m.rewrite a o p spare opened).object b = m.object b :=
  Function.update_of_ne hne _ _

section

variable (ho : m.object a = some o)
include ho

theorem rewrite_color
    (hb : (m.rewrite a o p spare opened).object b = some o') :
    ∃ q, m.object b = some q ∧ o'.color = q.color := by
  rcases rewrite_before ho hb with ⟨rfl, rfl⟩ | ⟨-, hb⟩
  · exact ⟨o, ho, rfl⟩
  · exact ⟨o', hb, rfl⟩

theorem rewrite_after (hb : m.object b = some o') :
    ∃ q, (m.rewrite a o p spare opened).object b = some q ∧ q.color = o'.color := by
  by_cases hba : b = a
  · subst hba
    refine ⟨_, Function.update_self .., ?_⟩
    rw [ho] at hb
    rw [← Option.some.inj hb]
  · exact ⟨o', (Function.update_of_ne hba _ _).trans hb, rfl⟩

theorem rewrite_present :
    (m.rewrite a o p spare opened).Present b ↔ m.Present b :=
  ⟨fun ⟨_, h⟩ => let ⟨q, hq, _⟩ := rewrite_color ho h; ⟨q, hq⟩,
    fun ⟨_, h⟩ => let ⟨q, hq, _⟩ := rewrite_after ho h; ⟨q, hq⟩⟩

theorem rewrite_kept :
    (m.rewrite a o p spare opened).Kept b ↔ m.Kept b := by
  constructor
  · rintro ⟨o', ho', hlive⟩
    obtain ⟨q, hq, hcolor⟩ := rewrite_color ho ho'
    exact ⟨q, hq, fun h => hcolor ▸ hlive h⟩
  · rintro ⟨o', ho', hlive⟩
    obtain ⟨q, hq, hcolor⟩ := rewrite_after ho ho'
    exact ⟨q, hq, fun h => hcolor.symm ▸ hlive h⟩

theorem rewrite_whiteAt :
    (m.rewrite a o p spare opened).whiteAt b = true ↔ m.whiteAt b = true := by
  rw [whiteAt_iff, whiteAt_iff]
  constructor
  · rintro ⟨o', ho', hw⟩
    obtain ⟨q, hq, hcolor⟩ := rewrite_color ho ho'
    exact ⟨q, hq, hcolor ▸ hw⟩
  · rintro ⟨o', ho', hw⟩
    obtain ⟨q, hq, hcolor⟩ := rewrite_after ho ho'
    exact ⟨q, hq, hcolor.symm ▸ hw⟩

end

theorem mem_rootList_rewrite (hb : b ∈ (m.rewrite a o p spare opened).rootList) :
    b ∈ m.rootList ∨ b ∈ spare ∨ b ∈ opened := by
  unfold rootList at hb ⊢
  simp only [rewrite, List.mem_append] at hb ⊢
  grind

/-- What is asked of what an object is written over with. -/
structure Rewritable (m : Machine) (a : Address) (o : LhatObject) (p : Payload)
    (spare opened : List Address) : Prop where
  object : m.object a = some o
  listed : a ∈ m.objects
  kept : m.Kept a
  plain : ∀ root, p ≠ .script root
  captured : ∀ i v s, p = .upvalue (some (.slot i)) v s → a ∈ opened
  others : ∀ u ∈ m.openUpvalues, u ≠ a → u ∈ opened
  suspended : ∀ co i v s, p = .upvalue (some (.saved co i)) v s → s = co
  covered : (m.rewrite a o p spare opened).Covered

section

variable (hr : m.Rewritable a o p spare opened)
include hr

theorem Rewritable.base (hb : m.Base) :
    (m.rewrite a o p spare opened).Base := by
  have ho := hr.object
  have hconstant : ∀ b, (m.rewrite a o p spare opened).Constant b ↔ m.Constant b := fun b =>
    and_congr_left fun _ => rewrite_present ho
  refine ⟨?_, hb.nodup, fun b hb' => (rewrite_present ho).2 (hb.listed b hb'), hb.count, hb.white,
    ?_, ?_, ?_, ?_, ?_, hr.covered⟩
  · refine (Function.update_of_ne ?_ _ _).trans hb.null
    rintro rfl
    rw [hb.null] at ho
    cases ho
  · intro b o' ho' hmem
    rcases rewrite_before ho ho' with ⟨rfl, -⟩ | ⟨-, hbo⟩
    · exact absurd hr.listed hmem
    · obtain ⟨hblack, hkind, hlinks⟩ := hb.constant b o' hbo hmem
      exact ⟨hblack, hkind, fun c hc hne => (hconstant c).2 (hlinks c hc hne)⟩
  · intro s o' root ho' hroot
    rcases rewrite_before ho ho' with ⟨-, rfl⟩ | ⟨-, hso⟩
    · exact absurd hroot (hr.plain root)
    · obtain ⟨hnodup, hin, hown⟩ := hb.script s o' root hso hroot
      refine ⟨hnodup, fun b hmem => (hconstant b).2 (hin b hmem), fun b q hc hq => ?_⟩
      rcases rewrite_before ho hq with ⟨rfl, -⟩ | ⟨-, hbq⟩
      · exact absurd hr.listed hc.2
      · exact hown b q ((hconstant b).1 hc) hbq
  · intro s t q q' root root' hne hs ht hroot hroot'
    rcases rewrite_before ho hs with ⟨-, rfl⟩ | ⟨-, hs⟩
    · exact absurd hroot (hr.plain root)
    · rcases rewrite_before ho ht with ⟨-, rfl⟩ | ⟨-, ht⟩
      · exact absurd hroot' (hr.plain root')
      · exact hb.apart s t q q' root root' hne hs ht hroot hroot'
  · intro u q i v s hq hp
    rcases rewrite_before ho hq with ⟨rfl, rfl⟩ | ⟨hne, hq⟩
    · exact hr.captured i v s hp
    · exact hr.others u (hb.captured u q i v s hq hp) hne
  · intro u q co i v s hq hp
    rcases rewrite_before ho hq with ⟨-, rfl⟩ | ⟨-, hq⟩
    · exact hr.suspended co i v s hp
    · exact hb.suspended u q co i v s hq hp

theorem Rewritable.closed (hc : m.Closed)
    (hlinks : ∀ b ∈ p.links, b ≠ 0 → m.Kept b)
    (hroots : ∀ b ∈ (m.rewrite a o p spare opened).rootList, b ≠ 0 → m.Kept b) :
    (m.rewrite a o p spare opened).Closed := by
  have ho := hr.object
  have hkept : ∀ b, (m.rewrite a o p spare opened).Kept b ↔ m.Kept b := fun b => rewrite_kept ho
  refine ⟨fun b q hq hb c hc' hne => (hkept c).2 ?_, fun b hb hne => (hkept b).2 (hroots b hb hne),
    fun entry hentry hlive hne => (hkept _).2 (hc.weak entry hentry hlive hne),
    fun b hb hne => (hkept b).2 (hc.natives b hb hne),
    fun cache hcache hanswered b heq hne => (hkept b).2 (hc.caches cache hcache hanswered b heq hne)⟩
  rcases rewrite_before ho hq with ⟨-, rfl⟩ | ⟨-, hq⟩
  · exact hlinks c hc' hne
  · exact hc.links b q hq ((hkept b).1 hb) c hc' hne

theorem Rewritable.marking (hb : m.Base)
    (hm : m.Marking x todo)
    (hgain : ∀ b ∈ p.links, b ≠ 0 → b ∈ o.payload.links ∨ (a = x ∧ b ∈ todo)) :
    (m.rewrite a o p spare opened).Marking x todo where
  threaded := by
    obtain ⟨l, ht⟩ := hm.threaded
    have hchain : ∀ h l, Chain m.object h l →
        Chain (m.rewrite a o p spare opened).object h l := by
      intro h l hchain
      induction l generalizing h with
      | nil => exact hchain
      | cons c l ih =>
        obtain ⟨hh, q, hq, hgray, hrest⟩ := hchain
        by_cases hca : c = a
        · subst hca
          rw [hr.object] at hq
          obtain rfl := Option.some.inj hq
          exact ⟨hh, _, Function.update_self .., hgray, ih _ hrest⟩
        · exact ⟨hh, q, (Function.update_of_ne hca _ _).trans hq, hgray, ih _ hrest⟩
    refine ⟨l, hchain _ _ ht.chain, ht.nodup, fun b q hq hgray => ?_⟩
    obtain ⟨q', hq', hcolor⟩ := rewrite_color hr.object hq
    exact ht.all b q' hq' (hcolor ▸ hgray)
  sweep := hm.sweep
  colors := by
    intro b hb q hq
    obtain ⟨q', hq', hcolor⟩ := rewrite_color hr.object hq
    rw [hcolor]
    exact hm.colors b hb q' hq'
  blacks := by
    intro b q hq hblack c hc hwhite
    have hw : m.whiteAt c = true := (rewrite_whiteAt hr.object).1 hwhite
    clear hwhite
    rcases rewrite_before hr.object hq with ⟨rfl, rfl⟩ | ⟨-, hq⟩
    · have hne : c ≠ 0 := by
        rintro rfl
        rw [whiteAt_zero hb] at hw
        cases hw
      rcases hgain c hc hne with hlink | hgained
      · exact hm.blacks b o hr.object hblack c hlink hw
      · exact hgained
    · exact hm.blacks b q hq hblack c hc hw

theorem Rewritable.invAt (hi : m.InvAt x todo)
    (hgain : ∀ b ∈ p.links, b ≠ 0 → b ∈ o.payload.links ∨ (a = x ∧ b ∈ todo))
    (hlinks : ∀ b ∈ p.links, b ≠ 0 → m.Kept b)
    (hroots : ∀ b ∈ (m.rewrite a o p spare opened).rootList, b ≠ 0 → m.Kept b) :
    (m.rewrite a o p spare opened).InvAt x todo where
  base := hr.base hi.base
  closed := hr.closed hi.closed hlinks hroots
  phase := by
    refine PhaseAt.of (fun h => ?_) (fun h => hr.marking hi.base (hi.marking h) hgain) fun h => ?_
    · have hidle := hi.idle h
      refine ⟨hidle.gray, hidle.sweep, fun b hb q hq => ?_⟩
      obtain ⟨q', hq', hcolor⟩ := rewrite_color hr.object hq
      rw [hcolor]
      exact hidle.colors b hb q' hq'
    · have hs := hi.sweeping h
      refine ⟨hs.gray, fun b q hq => ?_, hs.cursor, fun b hb q hq => ?_, fun b q hq hdead => ?_⟩
      · obtain ⟨q', hq', hcolor⟩ := rewrite_color hr.object hq
        rw [hcolor]
        exact hs.colors b q' hq'
      · obtain ⟨q', hq', hcolor⟩ := rewrite_color hr.object hq
        rw [hcolor]
        exact hs.passed b hb q' hq'
      · rcases rewrite_before hr.object hq with ⟨-, rfl⟩ | ⟨-, hq⟩
        · obtain ⟨q', hq', hlive⟩ := hr.kept
          rw [hr.object] at hq'
          obtain rfl := Option.some.inj hq'
          exact absurd hdead (hlive h)
        · exact hs.spent b q hq hdead
  pending := hi.pending

end

/-! ### The barriers -/

theorem InvAt.marks (h : Marks m m') (hi : m.InvAt x todo) (hphase : m.gcstate = .propagate)
    (hpending : m'.pendingDispose = m.pendingDispose) {x' : Address} {todo' : List Address}
    (hm : m'.Marking x' todo') : m'.InvAt x' todo' where
  base := h.base hi.base
  closed := by
    refine hi.closed.marks h (by rw [hphase]; nofun) fun b hb hne => ?_
    rw [hpending] at hb
    exact hi.closed.roots b (mem_rootList_pending hb) hne
  phase := PhaseAt.of (fun h' => absurd (hphase.symm.trans (h.gcstate.symm.trans h')) nofun)
    (fun _ => hm) fun h' => absurd (hphase.symm.trans (h.gcstate.symm.trans h')) nofun
  pending := by
    rw [hpending]
    exact hi.pending

theorem InvAt.skip (hi : m.InvAt x (b :: todo))
    (hskip : m.gcstate = .propagate → ∀ o, m.object x = some o → o.color = .black →
      m.whiteAt b = true → b ∈ todo) : m.InvAt x todo where
  base := hi.base
  closed := hi.closed
  phase := by
    refine PhaseAt.of hi.idle (fun h => ?_) hi.sweeping
    have hm := hi.marking h
    refine { hm with blacks := fun c q hq hblack d hd hw => ?_ }
    obtain ⟨rfl, hmem⟩ := hm.blacks c q hq hblack d hd hw
    rcases List.mem_cons.1 hmem with rfl | hmem
    · exact ⟨rfl, hskip h q hq hblack hw⟩
    · exact ⟨rfl, hmem⟩
  pending := hi.pending

theorem InvAt.barrier (hi : m.InvAt x (b :: todo)) : (m.lhatGcBarrier x b).InvAt x todo := by
  unfold lhatGcBarrier
  split
  · next ho =>
      refine hi.skip fun _ o ho' => ?_
      rw [ho] at ho'
      cases ho'
  · next o ho =>
      split
      · next hskip =>
          refine hi.skip fun hphase o' ho' hblack => ?_
          rw [ho] at ho'
          obtain rfl := Option.some.inj ho'
          exact absurd hskip (by simp [hphase, hblack])
      · next hnot =>
          obtain ⟨hphase, -⟩ := not_or.1 hnot
          have hphase := not_not.1 hphase
          exact hi.marks (marks_reach m b) hphase (pendingDispose_reach m b) (hi.marking hphase).reach

/-- A black object put back on the gray list. -/
def regray (m : Machine) (x : Address) (o : LhatObject) : Machine :=
  { m with
    object := Function.update m.object x (some { o with color := .gray, gclist := m.gray })
    gray := x }

theorem regray_before (ho : m.object x = some o) (hb : (m.regray x o).object b = some o') :
    ∃ q, m.object b = some q ∧ o'.payload = q.payload ∧ (b = x ∧ o'.color = .gray ∨ o' = q) := by
  rcases update_eq_some.1 hb with ⟨rfl, rfl⟩ | ⟨-, hb⟩
  · exact ⟨o, ho, rfl, Or.inl ⟨rfl, rfl⟩⟩
  · exact ⟨o', hb, rfl, Or.inr rfl⟩

theorem regray_present (hb : m.Present b) : (m.regray x o).Present b := by
  obtain ⟨q, hq⟩ := hb
  by_cases hbx : b = x
  · subst hbx
    exact ⟨_, Function.update_self ..⟩
  · exact ⟨q, (Function.update_of_ne hbx _ _).trans hq⟩

theorem InvAt.regray (hi : m.InvAt x todo) {todo' : List Address} (ho : m.object x = some o)
    (hphase : m.gcstate = .propagate) (hblack : o.color = .black) (hlisted : x ∈ m.objects) :
    (m.regray x o).InvAt x todo' where
  base := by
    refine hi.base.repaint (fun b => regray_present) (fun b q hq => ?_) rfl rfl hi.base.white rfl rfl
    obtain ⟨q', hq', hp, hcolor⟩ := regray_before ho hq
    refine ⟨q', hq', hp, fun hb => ?_⟩
    rcases hcolor with ⟨rfl, -⟩ | rfl
    · exact absurd hlisted hb
    · exact (hi.base.constant b q hq' hb).1
  closed := by
    have hnot : (m.regray x o).gcstate ≠ .sweep := fun h => absurd (hphase.symm.trans h) nofun
    have hkept : ∀ b, m.Kept b → (m.regray x o).Kept b := fun b hb =>
      kept_of_present hnot (regray_present hb.present)
    refine ⟨fun b q hq _ c hc hne => ?_, fun b hb hne => hkept b (hi.closed.roots b hb hne),
      fun entry hentry hlive hne => hkept _ (hi.closed.weak entry hentry hlive hne),
      fun b hb hne => hkept b (hi.closed.natives b hb hne),
      fun cache hcache hanswered b heq hne =>
        hkept b (hi.closed.caches cache hcache hanswered b heq hne)⟩
    obtain ⟨q', hq', hp, -⟩ := regray_before ho hq
    rw [hp] at hc
    exact hkept c (hi.closed.links b q' hq' (kept_of_present (by rw [hphase]; nofun) ⟨q', hq'⟩) c hc hne)
  phase := by
    refine PhaseAt.of (fun h => absurd (hphase.symm.trans h) nofun) (fun _ => ?_)
      fun h => absurd (hphase.symm.trans h) nofun
    have hm := hi.marking hphase
    refine ⟨?_, hm.sweep, fun b hb q hq => ?_, fun b q hq hqblack c hc hw => ?_⟩
    · obtain ⟨l, ht⟩ := hm.threaded
      have hfresh : x ∉ l := by
        intro hx
        obtain ⟨q, hq, hgray⟩ := ht.chain.gray x hx
        rw [ho] at hq
        obtain rfl := Option.some.inj hq
        rw [hblack] at hgray
        cases hgray
      refine ⟨x :: l, ⟨rfl, _, Function.update_self .., rfl, ?_⟩, List.nodup_cons.2 ⟨hfresh, ht.nodup⟩, ?_⟩
      · refine ht.chain.congr fun b hb => Function.update_of_ne ?_ _ _
        rintro rfl
        exact hfresh hb
      · intro b q hq hgray
        rcases update_eq_some.1 hq with ⟨rfl, -⟩ | ⟨-, hq⟩
        · exact List.mem_cons_self
        · exact List.mem_cons_of_mem x (ht.all b q hq hgray)
    · obtain ⟨q', hq', -, ⟨-, hcolor⟩ | rfl⟩ := regray_before ho hq
      · exact Or.inr (Or.inl hcolor)
      · exact hm.colors b hb q hq'
    · -- Nothing black is left that gained anything.
      exfalso
      have hwhite : m.whiteAt c = true := by
        obtain ⟨q', hq', hw⟩ := whiteAt_iff.1 hw
        obtain ⟨q'', hq'', -, ⟨-, hcolor⟩ | rfl⟩ := regray_before ho hq'
        · rw [hcolor] at hw
          cases hw
        · exact whiteAt_iff.2 ⟨q', hq'', hw⟩
      rcases update_eq_some.1 hq with ⟨-, rfl⟩ | ⟨hne, hq⟩
      · cases hqblack
      · exact hne (hm.blacks b q hq hqblack c hc hwhite).1
  pending := hi.pending

theorem InvAt.barrierBack (hi : m.InvAt x (b :: todo)) (hlisted : x ∈ m.objects) :
    (m.lhatGcBarrierBack x b).InvAt x todo := by
  unfold lhatGcBarrierBack
  split
  · next ho =>
      refine hi.skip fun _ o ho' => ?_
      rw [ho] at ho'
      cases ho'
  · next o ho =>
      split
      · next hskip =>
          refine hi.skip fun hphase o' ho' hblack hw => ?_
          rw [ho] at ho'
          obtain rfl := Option.some.inj ho'
          exact absurd hskip (by simp [hphase, hblack, hw])
      · next hnot =>
          obtain ⟨hphase, hrest⟩ := not_or.1 hnot
          obtain ⟨hblack, -⟩ := not_or.1 hrest
          exact hi.regray ho (not_not.1 hphase) (not_not.1 hblack) hlisted

end Machine
end Lhat.Gc
