import Lhat.Collector.Sweep

/-!
# Steps of the collector

A sweep of any budget is turns of `sweepOne`, and comes to its end, since what there
is to sweep weighs less after each of them. So each piece of work keeps the
invariant, and leaves what survives where it is.
-/

namespace Lhat.Gc

namespace Machine

variable {m m' m'' : Machine} {a b c : Address} {o o' : LhatObject} {as : List Address}

theorem Swept.trans (h : Swept m m') (h' : Swept m' m'') : Swept m m'' where
  same := by
    have := h'.same
    rw [h.same] at this
    exact this
  inv := h'.inv
  before := by
    intro a o'' ho''
    obtain ⟨o', ho', hp'⟩ := h'.before a o'' ho''
    obtain ⟨o, ho, hp⟩ := h.before a o' ho'
    exact ⟨o, ho, hp'.trans hp⟩
  kept := fun a => (h'.kept a).trans (h.kept a)
  listed := fun a ha hk => h'.listed a (h.listed a ha hk) ((h.kept a).2 hk)
  destined := fun a => (h'.destined a).trans (h.destined a)

theorem passed_givenAt (ho : m.object a = some o) (b : Address) :
    (m.passed a o).givenAt b = m.givenAt b := by
  unfold givenAt
  cases hb : m.object b with
  | none =>
    have hne : b ≠ a := by
      rintro rfl
      rw [ho] at hb
      cases hb
    have hb' : (m.passed a o).object b = none := (Function.update_of_ne hne _ _).trans hb
    rw [hb']
  | some q =>
    obtain ⟨p, hp, hpay, -⟩ := passed_after ho hb
    rw [hp]
    exact given_congr hpay

theorem passed_swept (ho : m.object a = some o) (hcursor : m.objects[m.sweep]? = some a)
    (hlive : o.color ≠ m.white.other) (hi : m.Inv) (hphase : m.gcstate = .sweep) :
    Swept m (m.passed a o) where
  same := rfl
  inv := passed_inv ho hlive hcursor hi hphase
  before := by
    intro b p hp
    obtain ⟨q, hq, hpay, -⟩ := passed_before ho hp
    exact ⟨q, hq, hpay⟩
  kept := fun b => passed_kept ho hlive hi.base hphase
  listed := fun _ hb _ => hb
  destined := by
    intro b
    unfold Destined
    simp only [passed_givenAt ho, passed_kept ho hlive hi.base hphase]
    exact Iff.rfl

/-! ### How much is left to sweep -/

/-- What there is to sweep. -/
def remaining (m : Machine) : Nat := m.weigh (m.objects.drop m.sweep)

theorem weigh_cons (m : Machine) (a : Address) (as : List Address) :
    m.weigh (a :: as) = 1 + (m.givenAt a).length + m.weigh as := by
  simp [weigh]

theorem weigh_append (m : Machine) (as bs : List Address) :
    m.weigh (as ++ bs) = m.weigh as + m.weigh bs := by
  simp [weigh]

theorem weigh_congr (h : ∀ a ∈ as, m'.givenAt a = m.givenAt a) : m'.weigh as = m.weigh as := by
  unfold weigh
  congr 1
  exact List.map_congr_left fun a ha => by rw [h a ha]

theorem weigh_plain (h : ∀ a ∈ as, m.givenAt a = []) : m.weigh as = as.length := by
  induction as with
  | nil => rfl
  | cons a as ih =>
    rw [weigh_cons, h a List.mem_cons_self, ih fun b hb => h b (List.mem_cons_of_mem a hb),
      List.length_cons, List.length_nil]
    omega

theorem remaining_eq (hcursor : m.objects[m.sweep]? = some a) :
    m.remaining = 1 + (m.givenAt a).length + m.weigh (m.objects.drop (m.sweep + 1)) := by
  obtain ⟨hlt, hget⟩ := List.getElem?_eq_some_iff.1 hcursor
  unfold remaining
  rw [List.drop_eq_getElem_cons hlt, hget, weigh_cons]

theorem passed_remaining (ho : m.object a = some o) (hcursor : m.objects[m.sweep]? = some a) :
    (m.passed a o).remaining < m.remaining := by
  rw [remaining_eq hcursor]
  have hsame : (m.passed a o).remaining = m.weigh (m.objects.drop (m.sweep + 1)) :=
    weigh_congr fun b _ => passed_givenAt ho b
  omega

theorem Doomed.remaining (hd : m.Doomed a o) (hf : Frees m m' a o.given) (hb : m.Base) :
    m'.remaining < m.remaining := by
  obtain ⟨hlt, hget⟩ := List.getElem?_eq_some_iff.1 hd.cursor
  have hgiven : m'.weigh o.given = o.given.length := by
    refine weigh_plain fun b hmem => ?_
    have hc := hd.given_constant hb hmem
    obtain ⟨p, hp⟩ := hc.1
    have hkind := (hb.constant b p hp hc.2).2.1
    unfold givenAt
    cases ho : m'.object b with
    | none => rfl
    | some p' =>
      obtain ⟨-, q, hq, hpay, -⟩ := hf.before ho
      obtain rfl : p = q := by simpa [hp] using hq
      rw [← hpay] at hkind
      show p'.given = []
      unfold LhatObject.given
      split
      · next root hroot =>
          rw [hroot] at hkind
          cases hkind
      · rfl
  have hrest : m'.weigh (m.objects.drop (m.sweep + 1)) = m.weigh (m.objects.drop (m.sweep + 1)) := by
    refine weigh_congr fun b hmem => ?_
    have hne : b ≠ a := by
      rintro rfl
      have hnodup := hb.nodup
      rw [← List.take_append_drop m.sweep m.objects, List.drop_eq_getElem_cons hlt, hget] at hnodup
      exact (List.nodup_cons.1 (List.nodup_append.1 hnodup).2.1).1 hmem
    unfold givenAt
    cases ho : m.object b with
    | none =>
      rw [hf.other b hne (Or.inr ho), ho]
    | some q =>
      obtain ⟨p, hp, hpay, -⟩ := hf.after hne ho
      rw [hp]
      exact given_congr hpay
  have hdrop : m'.objects.drop m'.sweep =
      (if m.sweep = 0 then o.given else []) ++ m.objects.drop (m.sweep + 1) := by
    rw [hf.objects, hf.sweep, List.eraseIdx_eq_take_drop_succ]
    split
    · next hzero => simp [hzero]
    · have hlen : (o.given ++ m.objects.take m.sweep).length = m.sweep + o.given.length := by
        rw [List.length_append, List.length_take]
        omega
      rw [← List.append_assoc, List.drop_left' hlen]
      rfl
  rw [remaining_eq hd.cursor, givenAt_eq hd.object]
  unfold Machine.remaining
  rw [hdrop, weigh_append, hrest]
  split
  · omega
  · simp [weigh]

/-! ### The sweep -/

theorem sweepOne_swept (hi : m.Inv) (hphase : m.gcstate = .sweep)
    (hcursor : m.objects[m.sweep]? = some a) :
    Swept m (m.sweepOne a) ∧ (m.sweepOne a).remaining < m.remaining := by
  obtain ⟨o, ho⟩ := hi.base.listed a (List.mem_of_getElem? hcursor)
  by_cases hdead : o.color = m.white.other
  · have hd : m.Doomed a o := ⟨ho, hcursor, hdead⟩
    have hf := sweepOne_frees ho hdead
    exact ⟨hd.swept hf hi hphase, hd.remaining hf hi.base⟩
  · rw [sweepOne_passes ho hdead]
    exact ⟨passed_swept ho hcursor hdead hi hphase, passed_remaining ho hcursor⟩

theorem sweepFor_swept (budget : Nat) (hi : m.Inv) (hphase : m.gcstate = .sweep) :
    Swept m (m.sweepFor budget).1 ∧ (m.sweepFor budget).1.remaining ≤ m.remaining ∧
      (0 < budget → m.objects[m.sweep]? = none ∨ (m.sweepFor budget).1.remaining < m.remaining) := by
  induction budget generalizing m with
  | zero => exact ⟨Swept.refl hi, le_rfl, fun h => absurd h (lt_irrefl 0)⟩
  | succ budget ih =>
    unfold sweepFor
    cases hcursor : m.objects[m.sweep]? with
    | none => exact ⟨Swept.refl hi, le_rfl, fun _ => Or.inl rfl⟩
    | some a =>
      obtain ⟨hone, hless⟩ := sweepOne_swept hi hphase hcursor
      obtain ⟨hrest, hle, -⟩ := ih hone.inv (by rw [hone.gcstate, hphase])
      exact ⟨hone.trans hrest, hle.trans hless.le, fun _ => Or.inr (lt_of_le_of_lt hle hless)⟩

/-- The sweep is over. -/
def endSweep (m : Machine) : Machine :=
  { m with gcstate := .pause, gcCycles := m.gcCycles + 1, sweep := 0 }

theorem sweepSome_eq (m : Machine) (budget : Nat) :
    (m.sweepSome budget).1 =
      if (m.sweepFor budget).1.objects[(m.sweepFor budget).1.sweep]? = none then
        (m.sweepFor budget).1.endSweep
      else (m.sweepFor budget).1 := apply_ite Prod.fst _ _ _

theorem Sweeping.over (hs : m.Sweeping) (hend : m.objects[m.sweep]? = none) (ha : a ∈ m.objects)
    (ho : m.object a = some o) : o.color = m.white := by
  refine hs.passed a ?_ o ho
  rwa [List.take_of_length_le (List.getElem?_eq_none_iff.1 hend)]

theorem Inv.kept_endSweep (hi : m.Inv) (hphase : m.gcstate = .sweep)
    (hend : m.objects[m.sweep]? = none) (ha : m.Present a) : m.Kept a := by
  obtain ⟨o, ho⟩ := ha
  by_cases hlisted : a ∈ m.objects
  · refine ⟨o, ho, fun _ => ?_⟩
    rw [(hi.sweeping hphase).over hend hlisted ho]
    exact (Color.other_ne hi.base.white).symm
  · exact hi.base.constant_kept ⟨⟨o, ho⟩, hlisted⟩

theorem Inv.endSweep (hi : m.Inv) (hphase : m.gcstate = .sweep)
    (hend : m.objects[m.sweep]? = none) : m.endSweep.Inv where
  base := hi.base.congr rfl rfl rfl hi.base.white rfl rfl
  closed := by
    refine hi.closed.congr rfl hi.closed.roots rfl rfl rfl fun a => ⟨?_, ?_⟩
    · exact fun ha => hi.kept_endSweep hphase hend ha.present
    · exact fun ⟨o, ho, _⟩ => ⟨o, ho, nofun⟩
  phase := by
    have hs := hi.sweeping hphase
    exact ⟨hs.gray, rfl, fun a ha o ho => hs.over hend ha ho⟩
  pending := hi.pending

theorem Inv.destined_endSweep (hi : m.Inv) (hphase : m.gcstate = .sweep)
    (hend : m.objects[m.sweep]? = none) : a ∈ m.objects ↔ m.Destined a := by
  constructor
  · exact fun ha => Or.inl ⟨ha, hi.kept_endSweep hphase hend (hi.base.listed a ha)⟩
  · rintro (⟨ha, -⟩ | ⟨s, hs, hgiven⟩)
    · exact ha
    · refine absurd (hi.kept_endSweep hphase hend ?_) hs
      unfold givenAt at hgiven
      cases ho : m.object s with
      | none => simp [ho] at hgiven
      | some o => exact ⟨o, ho⟩

/-! ### What survives -/

/-- A suspended body that has cleanups left stands at the address. -/
def Owed (m : Machine) (a : Address) : Prop := ∃ o, m.object a = some o ∧ o.payload.owes = true

/-- What is reached from the roots, or from a coroutine that owes its cleanups. -/
def Survives (m : Machine) : Address → Prop :=
  Reaching (fun a => (a ∈ m.rootList ∨ m.Owed a) ∧ a ≠ 0) m.Refers

theorem Reachable.survives (ha : m.Reachable a) : m.Survives a :=
  ha.mono (fun _ h => ⟨Or.inl h.1, h.2⟩) fun _ _ h => h

theorem not_owes_of_constant {p : Payload} (hp : p.isConstant = true) : p.owes = false := by
  cases p <;> simp [Payload.isConstant] at hp ⊢ <;> rfl

theorem Owed.listed (hb : m.Base) (ha : m.Owed a) : a ∈ m.objects := by
  obtain ⟨o, ho, howes⟩ := ha
  by_contra hmem
  rw [not_owes_of_constant (hb.constant a o ho hmem).2.1] at howes
  cases howes

theorem Inv.owed (hi : m.Inv) (ha : m.Owed a) : m.Kept a := by
  obtain ⟨o, ho, howes⟩ := ha
  refine ⟨o, ho, fun hphase hdead => ?_⟩
  rw [(hi.sweeping hphase).spent a o ho hdead] at howes
  cases howes

theorem Inv.survives (hi : m.Inv) (ha : m.Survives a) : m.Kept a := by
  refine Reaching.closed (P := m.Kept) ?_ ?_ ha
  · rintro a ⟨hroot | howed, hne⟩
    · exact hi.closed.roots a hroot hne
    · exact hi.owed howed
  · rintro a b ha ⟨⟨o, ho, hmem⟩, hne⟩
    exact hi.closed.children hi.base ho ha hmem hne

/-- A piece of the collector's work: the roots stay, coroutines that owe their
cleanups may be held back, and what is kept stays what it is. -/
structure Piece (m m' : Machine) : Prop where
  before' : m.Inv
  after' : m'.Inv
  roots : m'.roots = m.roots
  spareCoroutines : m'.spareCoroutines = m.spareCoroutines
  openUpvalues : m'.openUpvalues = m.openUpvalues
  pending : m.pendingDispose ⊆ m'.pendingDispose
  held : ∀ a ∈ m'.pendingDispose, a ∈ m.pendingDispose ∨ m.Owed a
  before : ∀ a o', m'.object a = some o' → ∃ o, m.object a = some o ∧ o'.payload = o.payload
  keeps : ∀ a o, m.object a = some o → m.Kept a →
    ∃ o', m'.object a = some o' ∧ o'.payload = o.payload
  listed : ∀ a ∈ m.objects, m.Kept a → a ∈ m'.objects

namespace Piece

section

variable (h : Piece m m')
include h

theorem rootList : m.rootList ⊆ m'.rootList := by
  intro a ha
  unfold Machine.rootList at ha ⊢
  rw [h.roots, h.spareCoroutines, h.openUpvalues]
  rcases List.mem_append.1 ha with ha | ha
  · exact List.mem_append_left _ ha
  · exact List.mem_append_right _ (h.pending ha)

theorem mem_rootList_pending (ha : a ∈ m'.rootList) :
    a ∈ m.rootList ∨ a ∈ m'.pendingDispose := by
  unfold Machine.rootList at ha ⊢
  rw [h.roots, h.spareCoroutines, h.openUpvalues] at ha
  exact (List.mem_append.1 ha).imp_left (List.mem_append_left _)

theorem mem_rootList (ha : a ∈ m'.rootList) : a ∈ m.rootList ∨ m.Owed a := by
  rcases h.mem_rootList_pending ha with ha | ha
  · exact Or.inl ha
  · exact (h.held a ha).imp_left (List.mem_append_right _)

theorem read (v : LhatValue) (place : Place)
    (hkept : ∀ co i, place = .saved co i → co ≠ 0 → m.Kept co) : m'.read v place = m.read v place := by
  cases place with
  | slot i => simp only [Machine.read, h.roots]
  | closed => rfl
  | saved co i =>
    simp only [Machine.read]
    by_cases hco : co = 0
    · rw [hco, h.before'.base.null, h.after'.base.null]
    · obtain ⟨o, ho, hlive⟩ := hkept co i rfl hco
      obtain ⟨o', ho', hp⟩ := h.keeps co o ho ⟨o, ho, hlive⟩
      rw [ho, ho']
      obtain ⟨color, gclist, payload⟩ := o
      obtain ⟨color', gclist', payload'⟩ := o'
      obtain rfl : payload' = payload := hp
      cases payload' <;> rfl

theorem children (ho : m.object a = some o) (ha : m.Kept a) :
    m'.children o.payload = m.children o.payload := by
  unfold Machine.children
  split
  · next place v s hp =>
      rw [h.read]
      rintro co i rfl hco
      obtain rfl : s = co := h.before'.base.suspended a o co i v s ho hp
      exact h.before'.closed.links a o ho ha s (by simp [hp, Payload.links]) hco
  · rfl

theorem forward (ha : m.Kept a) (hedge : m.Refers a b) : m'.Refers a b := by
  obtain ⟨⟨o, ho, hmem⟩, hne⟩ := hedge
  obtain ⟨o', ho', hp⟩ := h.keeps a o ho ha
  refine ⟨⟨o', ho', ?_⟩, hne⟩
  rwa [hp, h.children ho ha]

theorem reaching {start start' : Address → Prop}
    (hstart : ∀ a, start a → m.Kept a ∧ start' a)
    (ha : Reaching start m.Refers a) : Reaching start' m'.Refers a := by
  have hboth : m.Kept a ∧ Reaching start' m'.Refers a := by
    refine Reaching.closed (P := fun a => m.Kept a ∧ Reaching start' m'.Refers a) ?_ ?_ ha
    · exact fun a ha => ⟨(hstart a ha).1, .start (hstart a ha).2⟩
    · rintro a b ⟨hkept, hreach⟩ hedge
      have ⟨⟨o, ho, hmem⟩, hne⟩ := hedge
      exact ⟨h.before'.closed.children h.before'.base ho hkept hmem hne,
        hreach.edge (h.forward hkept hedge)⟩
  exact hboth.2

theorem reachable (ha : m.Reachable a) : m'.Reachable a :=
  h.reaching (fun a ha => ⟨h.before'.closed.roots a ha.1 ha.2, h.rootList ha.1, ha.2⟩) ha

theorem owed (ha : m.Owed a) : m'.Owed a := by
  obtain ⟨o, ho, howes⟩ := ha
  obtain ⟨o', ho', hp⟩ := h.keeps a o ho (h.before'.owed ⟨o, ho, howes⟩)
  exact ⟨o', ho', by rw [hp, howes]⟩

theorem survives (ha : m.Survives a) : m'.Survives a := by
  refine h.reaching (fun a ha => ?_) ha
  rcases ha with ⟨hroot | howed, hne⟩
  · exact ⟨h.before'.closed.roots a hroot hne, Or.inl (h.rootList hroot), hne⟩
  · exact ⟨h.before'.owed howed, Or.inr (h.owed howed), hne⟩

theorem backward (hedge : m'.Refers a b) : m.Refers a b := by
  obtain ⟨⟨o', ho', hmem⟩, hne⟩ := hedge
  obtain ⟨o, ho, hp⟩ := h.before a o' ho'
  refine ⟨⟨o, ho, ?_⟩, hne⟩
  rw [hp] at hmem
  rcases mem_children hmem with hlink | ⟨i, v, s, hpay, rfl⟩ | ⟨co, i, v, s, hpay, hsaved⟩
  · exact links_children hlink
  · rw [h.roots, hpay]
    exact List.mem_cons_self
  · rw [hpay, Machine.children] at hmem ⊢
    rcases List.mem_cons.1 hmem with hread | hmem
    · refine List.mem_cons.2 (Or.inl (hread.trans ?_))
      rcases hsaved with hzero | ⟨p', c', hp', hc', -⟩
      · exact absurd hzero hne
      · obtain ⟨p, hpo, hpp⟩ := h.before co p' hp'
        simp only [Machine.read]
        rw [hpo, hp']
        obtain ⟨color, gclist, payload⟩ := p
        obtain ⟨color', gclist', payload'⟩ := p'
        obtain rfl : payload' = payload := hpp
        cases payload' <;> rfl
    · exact List.mem_cons_of_mem _ hmem

theorem only (ha : m'.Survives a) : m.Survives a := by
  refine ha.mono (fun a ha => ⟨?_, ha.2⟩) fun a b => h.backward
  rcases ha.1 with hroot | ⟨o', ho', howes⟩
  · exact h.mem_rootList hroot
  · obtain ⟨o, ho, hp⟩ := h.before a o' ho'
    exact Or.inr ⟨o, ho, by rw [← hp, howes]⟩

end

end Piece

/-- What pieces of the collector's work, one after another, leave. -/
structure Steps (m m' : Machine) : Prop where
  inv : m'.Inv
  reachable : ∀ a, m.Reachable a → m'.Reachable a
  survives : ∀ a, m.Survives a ↔ m'.Survives a
  listed : ∀ a ∈ m.objects, m.Survives a → a ∈ m'.objects
  before : ∀ a o', m'.object a = some o' → ∃ o, m.object a = some o ∧ o'.payload = o.payload
  pending : m.pendingDispose ⊆ m'.pendingDispose
  held : ∀ a ∈ m'.pendingDispose, a ∈ m.pendingDispose ∨ m.Owed a
  owed : ∀ a, m.Owed a → m'.Owed a
  rootList : ∀ a ∈ m'.rootList, a ∈ m.rootList ∨ a ∈ m'.pendingDispose
  forward : ∀ a b, m.Survives a → m.Refers a b → m'.Refers a b
  backward : ∀ a b, m'.Refers a b → m.Refers a b

theorem Steps.refl (hi : m.Inv) : Steps m m :=
  { inv := hi
    reachable := fun _ ha => ha
    survives := fun _ => Iff.rfl
    listed := fun _ ha _ => ha
    before := fun _ o ho => ⟨o, ho, rfl⟩
    pending := List.Subset.refl _
    held := fun _ ha => Or.inl ha
    owed := fun _ ha => ha
    rootList := fun _ ha => Or.inl ha
    forward := fun _ _ _ h => h
    backward := fun _ _ h => h }

theorem Piece.steps (h : Piece m m') : Steps m m' :=
  { inv := h.after'
    reachable := fun _ => h.reachable
    survives := fun _ => ⟨h.survives, h.only⟩
    listed := fun a ha hs => h.listed a ha (h.before'.survives hs)
    before := h.before
    pending := h.pending
    held := h.held
    owed := fun _ => h.owed
    rootList := fun _ ha => h.mem_rootList_pending ha
    forward := fun _ _ ha hedge => h.forward (h.before'.survives ha) hedge
    backward := fun _ _ => h.backward }

theorem Steps.trans (h : Steps m m') (h' : Steps m' m'') : Steps m m'' where
  inv := h'.inv
  reachable := fun a ha => h'.reachable a (h.reachable a ha)
  survives := fun a => (h.survives a).trans (h'.survives a)
  listed := fun a ha hs => h'.listed a (h.listed a ha hs) ((h.survives a).1 hs)
  before := by
    intro a o'' ho''
    obtain ⟨o', ho', hp'⟩ := h'.before a o'' ho''
    obtain ⟨o, ho, hp⟩ := h.before a o' ho'
    exact ⟨o, ho, hp'.trans hp⟩
  pending := fun _ ha => h'.pending (h.pending ha)
  held := by
    intro a ha
    rcases h'.held a ha with ha | ⟨o', ho', howes⟩
    · exact h.held a ha
    · obtain ⟨o, ho, hp⟩ := h.before a o' ho'
      exact Or.inr ⟨o, ho, by rw [← hp, howes]⟩
  owed := fun a ha => h'.owed a (h.owed a ha)
  rootList := by
    intro a ha
    rcases h'.rootList a ha with ha | ha
    · exact (h.rootList a ha).imp_right fun ha => h'.pending ha
    · exact Or.inr ha
  forward := fun a b ha hedge =>
    h'.forward a b ((h.survives a).1 ha) (h.forward a b ha hedge)
  backward := fun a b hedge => h.backward a b (h'.backward a b hedge)

theorem Steps.stays (h : Steps m m') (ha : m.Survives a) (ho : m.object a = some o) :
    ∃ o', m'.object a = some o' ∧ o'.payload = o.payload := by
  obtain ⟨o', ho', -⟩ := h.inv.survives ((h.survives a).1 ha)
  obtain ⟨p, hp, hpay⟩ := h.before a o' ho'
  obtain rfl : o = p := by simpa [ho] using hp
  exact ⟨o', ho', hpay⟩

/-! ### The pieces -/

theorem Piece.of_marks (h : Marks m m') (hi : m.Inv) (hi' : m''.Inv)
    (hpending : m.pendingDispose ⊆ m''.pendingDispose)
    (hheld : ∀ a ∈ m''.pendingDispose, a ∈ m.pendingDispose ∨ m.Owed a)
    (hsame : m''.object = m'.object ∧ m''.objects = m'.objects ∧ m''.roots = m'.roots ∧
      m''.spareCoroutines = m'.spareCoroutines ∧ m''.openUpvalues = m'.openUpvalues) :
    Piece m m'' := by
  obtain ⟨hobject, hobjects, hroots, hspare, hopen⟩ := hsame
  refine ⟨hi, hi', hroots.trans h.roots, hspare.trans h.spareCoroutines,
    hopen.trans h.openUpvalues, hpending, hheld, ?_, ?_, ?_⟩
  · rw [hobject]
    intro a o' ho'
    obtain ⟨o, ho, hp, -⟩ := h.before ho'
    exact ⟨o, ho, hp⟩
  · rw [hobject]
    intro a o ho _
    obtain ⟨o', ho', hp, -⟩ := h.darkens a o ho
    exact ⟨o', ho', hp⟩
  · exact fun _ ha _ => hobjects.trans h.objects ▸ ha

theorem Piece.congr (h : Piece m m') (hi : m''.Inv) (hobject : m''.object = m'.object)
    (hobjects : m''.objects = m'.objects)
    (hroots : m''.roots = m'.roots) (hspare : m''.spareCoroutines = m'.spareCoroutines)
    (hopen : m''.openUpvalues = m'.openUpvalues)
    (hpending : m''.pendingDispose = m'.pendingDispose) : Piece m m'' where
  before' := h.before'
  after' := hi
  roots := hroots.trans h.roots
  spareCoroutines := hspare.trans h.spareCoroutines
  openUpvalues := hopen.trans h.openUpvalues
  pending := by
    rw [hpending]
    exact h.pending
  held := by
    rw [hpending]
    exact h.held
  before := by
    rw [hobject]
    exact h.before
  keeps := by
    rw [hobject]
    exact h.keeps
  listed := by
    rw [hobjects]
    exact h.listed

theorem Piece.startCycle (hi : m.Inv) (hphase : m.gcstate = .pause) : Piece m m.startCycle := by
  have hmarks : Marks m m.markRoots := marks_reachAll _ _
  have hpending : m.markRoots.pendingDispose = m.pendingDispose := pendingDispose_reachAll _ _
  have hinv := hi.startCycle hphase
  unfold Machine.startCycle at hinv ⊢
  generalize m.markRoots = m' at hmarks hpending hinv ⊢
  exact Piece.of_marks hmarks hi hinv (fun _ ha => hpending.symm ▸ ha)
    (fun _ ha => Or.inl (hpending ▸ ha)) ⟨rfl, rfl, rfl, rfl, rfl⟩

theorem Piece.propagateOne (hi : m.Inv) (hphase : m.gcstate = .propagate) (hgray : m.gray ≠ 0) :
    Piece m m.propagateOne := by
  obtain ⟨hmarks, -⟩ := (hi.marking hphase).propagateOne hgray
  have hpending := pendingDispose_propagateOne m
  exact Piece.of_marks hmarks hi (hi.propagateOne hphase hgray) (fun _ ha => hpending.symm ▸ ha)
    (fun _ ha => Or.inl (hpending ▸ ha)) ⟨rfl, rfl, rfl, rfl, rfl⟩

theorem owed_of_owesAt (hmarks : Marks m m') (ha : m'.owesAt a = true) : m.Owed a := by
  obtain ⟨o', ho', -, howes⟩ := owesAt_eq_true.1 ha
  obtain ⟨o, ho, hp, -⟩ := hmarks.before ho'
  exact ⟨o, ho, by rw [← hp, howes]⟩

theorem Piece.atomic (hi : m.Inv) (hphase : m.gcstate = .propagate) : Piece m m.atomic := by
  have hf := (hi.marking hphase).finishMarking hi.base
  obtain ⟨hroots, -⟩ := (hi.marking hphase).followRoots hi.base
  have hsame : ∀ m : Machine, m.swap.object = m.object ∧ m.swap.objects = m.objects ∧
      m.swap.roots = m.roots ∧ m.swap.spareCoroutines = m.spareCoroutines ∧
      m.swap.openUpvalues = m.openUpvalues := fun _ => ⟨rfl, rfl, rfl, rfl, rfl⟩
  have hpending : ∀ m : Machine, m.swap.pendingDispose = m.pendingDispose := fun _ => rfl
  rw [atomic_eq]
  refine Piece.of_marks hf.marks hi (hi.atomic hphase) (fun a ha => ?_) (fun a ha => ?_) (hsame _)
  · rw [hpending, hf.pending]
    exact List.mem_append_right _ ha
  · rw [hpending, hf.pending] at ha
    rcases List.mem_append.1 ha with ha | ha
    · exact Or.inr (owed_of_owesAt hroots (List.mem_filter.1 (List.mem_reverse.1 ha)).2)
    · exact Or.inl ha

theorem Piece.of_swept (h : Swept m m') (hi : m.Inv) : Piece m m' where
  before' := hi
  after' := h.inv
  roots := by rw [h.same]
  spareCoroutines := by rw [h.same]
  openUpvalues := by rw [h.same]
  pending := by
    rw [h.same]
    exact List.Subset.refl _
  held := by
    rw [h.same]
    exact fun _ ha => Or.inl ha
  before := h.before
  keeps := by
    intro a o ho ha
    obtain ⟨o', ho', -⟩ := (h.kept a).2 ha
    obtain ⟨p, hp, hpay⟩ := h.before a o' ho'
    obtain rfl : o = p := by simpa [ho] using hp
    exact ⟨o', ho', hpay⟩
  listed := h.listed

theorem Piece.sweepSome (hi : m.Inv) (hphase : m.gcstate = .sweep) (budget : Nat) :
    Piece m (m.sweepSome budget).1 := by
  obtain ⟨hswept, -⟩ := sweepFor_swept budget hi hphase
  have hpiece := Piece.of_swept hswept hi
  rw [sweepSome_eq]
  split
  · next hend =>
      have hinv := hswept.inv.endSweep (by rw [hswept.gcstate, hphase]) hend
      exact hpiece.congr hinv rfl rfl rfl rfl rfl rfl
  · exact hpiece

theorem Piece.singleStep (hi : m.Inv) (budget : Nat) : Piece m (m.singleStep budget).1 := by
  unfold Machine.singleStep
  split
  · next hphase => exact Piece.startCycle hi hphase
  · next hphase =>
      split
      · next hgray => exact Piece.propagateOne hi hphase hgray
      · exact Piece.atomic hi hphase
  · next hphase => exact Piece.sweepSome hi hphase budget

theorem Piece.refl (hi : m.Inv) : Piece m m :=
  Piece.of_marks (Marks.refl m) hi hi (List.Subset.refl _) (fun _ ha => Or.inl ha)
    ⟨rfl, rfl, rfl, rfl, rfl⟩

theorem Phase.congr (h : m.Phase) (hobject : m'.object = m.object)
    (hobjects : m'.objects = m.objects) (hwhite : m'.white = m.white)
    (hgcstate : m'.gcstate = m.gcstate) (hgray : m'.gray = m.gray) (hsweep : m'.sweep = m.sweep) :
    m'.Phase := by
  unfold Phase at h ⊢
  rw [hgcstate]
  cases hm : m.gcstate with
  | pause =>
    rw [hm] at h
    have hidle : m.Idle := h
    refine ⟨by rw [hgray, hidle.gray], by rw [hsweep, hidle.sweep], ?_⟩
    rw [hobjects, hobject, hwhite]
    exact hidle.colors
  | propagate =>
    rw [hm] at h
    have hmarking : m.Marking 0 [] := h
    obtain ⟨l, ht⟩ := hmarking.threaded
    refine ⟨⟨l, ?_, ht.nodup, ?_⟩, by rw [hsweep, hmarking.sweep], ?_, ?_⟩
    · rw [hobject, hgray]
      exact ht.chain
    · rw [hobject]
      exact ht.all
    · rw [hobjects, hobject, hwhite]
      exact hmarking.colors
    · unfold whiteAt
      rw [hobject]
      exact hmarking.blacks
  | sweep =>
    rw [hm] at h
    have hs : m.Sweeping := h
    refine ⟨by rw [hgray, hs.gray], ?_, ?_, ?_, ?_⟩
    · rw [hobject]
      exact hs.colors
    · rw [hsweep, hobjects]
      exact hs.cursor
    · rw [hsweep, hobjects, hobject, hwhite]
      exact hs.passed
    · rw [hobject, hwhite]
      exact hs.spent

theorem Inv.congr (hi : m.Inv) (hobject : m'.object = m.object) (hobjects : m'.objects = m.objects)
    (hcount : m'.count = m.count) (hwhite : m'.white = m.white) (hgcstate : m'.gcstate = m.gcstate)
    (hgray : m'.gray = m.gray) (hsweep : m'.sweep = m.sweep) (hroots : m'.roots = m.roots)
    (hspare : m'.spareCoroutines = m.spareCoroutines) (hopen : m'.openUpvalues = m.openUpvalues)
    (hpending : m'.pendingDispose = m.pendingDispose) (hweak : m'.weak = m.weak)
    (hnatives : m'.unboundNatives = m.unboundNatives) (hcaches : m'.memberCaches = m.memberCaches) :
    m'.Inv := by
  have hkept : ∀ a, m'.Kept a ↔ m.Kept a := by
    intro a
    unfold Kept
    rw [hobject, hgcstate, hwhite]
  have hrootList : m'.rootList = m.rootList := by
    unfold rootList
    rw [hroots, hspare, hopen, hpending]
  refine ⟨?_, ?_, ?_, ?_⟩
  · exact hi.base.congr hobject hobjects hcount (by rw [hwhite, hi.base.white]) hroots hopen
  · refine hi.closed.congr hobject ?_ hweak hnatives hcaches hkept
    rw [hrootList]
    exact hi.closed.roots
  · exact hi.phase.congr hobject hobjects hwhite hgcstate hgray hsweep
  · rw [hpending]
    exact hi.pending

theorem Piece.lhatGcRearm (hi : m.Inv) : Piece m m.lhatGcRearm :=
  (Piece.refl hi).congr
    (hi.congr rfl rfl rfl rfl rfl rfl rfl rfl rfl rfl rfl rfl rfl rfl) rfl rfl rfl rfl rfl rfl

/-! ### The loops -/

theorem Steps.singleStep (hi : m.Inv) (budget : Nat) : Steps m (m.singleStep budget).1 :=
  (Piece.singleStep hi budget).steps

theorem Steps.rearm (h : Steps m m') : Steps m m'.lhatGcRearm :=
  h.trans (Piece.lhatGcRearm h.inv).steps

theorem Steps.advanceFor {budget turns done : Nat} (hi : m.Inv) :
    Steps m (m.advanceFor budget turns done).1 := by
  induction turns generalizing m done with
  | zero => exact Steps.refl hi
  | succ turns ih =>
    have hone := Steps.singleStep hi (budget - done)
    unfold Machine.advanceFor
    split
    · dsimp only
      split
      · exact hone
      · exact hone.trans (ih hone.inv)
    · exact Steps.refl hi

theorem Steps.lhatGcAdvance (hi : m.Inv) (budget : Nat) : Steps m (m.lhatGcAdvance budget).1 :=
  (Steps.advanceFor hi).rearm

theorem Steps.stepFor {budget turns done : Nat} (hi : m.Inv) :
    Steps m (m.stepFor budget turns done) := by
  induction turns generalizing m done with
  | zero => exact Steps.refl hi
  | succ turns ih =>
    have hone := Steps.singleStep hi (budget - done)
    unfold Machine.stepFor
    dsimp only
    split
    · exact hone.trans (ih hone.inv)
    · exact hone

theorem Steps.lhatGcStep (hi : m.Inv) : Steps m m.lhatGcStep := (Steps.stepFor hi).rearm

theorem Steps.finishFor {turns : Nat} (hi : m.Inv) : Steps m (m.finishFor turns) := by
  induction turns generalizing m with
  | zero => exact Steps.refl hi
  | succ turns ih =>
    unfold Machine.finishFor
    split
    · exact Steps.refl hi
    · have hone := Steps.singleStep hi sizeMax
      exact hone.trans (ih hone.inv)

/-- At most how many turns a cycle takes to its end. -/
def turnsLeft (m : Machine) : Nat :=
  match m.gcstate with
  | .pause => 0
  | .propagate => m.unlooked + m.weigh m.objects + 2
  | .sweep => m.remaining + 1

theorem Marks.weigh (h : Marks m m') (as : List Address) : m'.weigh as = m.weigh as := by
  refine weigh_congr fun a _ => ?_
  unfold givenAt
  cases ha : m.object a with
  | none => rw [h.absent a ha]
  | some o =>
    obtain ⟨o', ho', hp, -⟩ := h.darkens a o ha
    rw [ho']
    exact given_congr hp

theorem swap_turnsLeft (h : Marks m m') : m'.swap.turnsLeft = m.weigh m.objects + 1 := by
  have hweigh : m'.swap.remaining = m'.weigh m'.objects := rfl
  have hturns : m'.swap.turnsLeft = m'.swap.remaining + 1 := rfl
  rw [hturns, hweigh, h.objects, h.weigh]

theorem singleStep_turnsLeft (hi : m.Inv) (hphase : m.gcstate ≠ .pause) :
    (m.singleStep sizeMax).1.turnsLeft < m.turnsLeft := by
  cases hm : m.gcstate with
  | pause => exact absurd hm hphase
  | propagate =>
    have hleft : m.turnsLeft = m.unlooked + m.weigh m.objects + 2 := by
      unfold turnsLeft
      rw [hm]
    have hmarking := hi.marking hm
    by_cases hgray : m.gray = 0
    · have hstep : (m.singleStep sizeMax).1 = m.finishMarking.swap := by
        unfold singleStep
        simp only [hm, hgray, ne_eq, not_true, if_false]
        exact atomic_eq m
      rw [hstep, swap_turnsLeft (hmarking.finishMarking hi.base).marks, hleft]
      omega
    · have hstep : (m.singleStep sizeMax).1 = m.propagateOne := by
        unfold singleStep
        simp only [hm, ne_eq, hgray, not_false_eq_true, if_true]
      obtain ⟨hmarks, -⟩ := hmarking.propagateOne hgray
      have hless := hmarking.tracing.propagateOne_unlooked hi.base.grounded hgray
      have hnext : m.propagateOne.turnsLeft =
          m.propagateOne.unlooked + m.propagateOne.weigh m.propagateOne.objects + 2 := by
        unfold turnsLeft
        rw [hmarks.gcstate, hm]
      rw [hstep, hnext, hleft, hmarks.objects, hmarks.weigh]
      omega
  | sweep =>
    have hleft : m.turnsLeft = m.remaining + 1 := by
      unfold turnsLeft
      rw [hm]
    have hstep : (m.singleStep sizeMax).1 = (m.sweepSome sizeMax).1 := by
      unfold singleStep
      rw [hm]
    obtain ⟨hswept, -, hless⟩ := sweepFor_swept sizeMax hi hm
    rw [hstep, sweepSome_eq, hleft]
    split
    · exact Nat.succ_pos _
    · next hnot =>
        have hnext : (m.sweepFor sizeMax).1.turnsLeft = (m.sweepFor sizeMax).1.remaining + 1 := by
          unfold turnsLeft
          rw [hswept.gcstate, hm]
        rw [hnext]
        rcases hless (by decide) with hend | hless
        · refine absurd ?_ hnot
          have hsame : m.sweepFor sizeMax = (m, 0) := by
            rw [show sizeMax = (sizeMax - 1) + 1 from rfl, sweepFor, hend]
          rw [hsame]
          exact hend
        · omega

theorem finishFor_pause {turns : Nat} (hi : m.Inv) (hturns : m.turnsLeft ≤ turns) :
    (m.finishFor turns).gcstate = .pause := by
  induction turns generalizing m with
  | zero =>
    by_contra hphase
    have := singleStep_turnsLeft hi hphase
    omega
  | succ turns ih =>
    unfold finishFor
    split
    · next hphase => exact hphase
    · next hphase =>
        have hless := singleStep_turnsLeft hi hphase
        exact ih (Piece.singleStep hi sizeMax).after' (by omega)

theorem turnsLeft_le (m : Machine) : m.turnsLeft ≤ m.objects.length + m.weigh m.objects + 2 := by
  have hlooked := m.unlooked_le
  have hweigh : m.remaining ≤ m.weigh m.objects := by
    unfold remaining
    conv_rhs => rw [← List.take_append_drop m.sweep m.objects, weigh_append]
    exact Nat.le_add_left _ _
  unfold turnsLeft
  split <;> omega

theorem finishCycle_pause (hi : m.Inv) : m.finishCycle.gcstate = .pause :=
  finishFor_pause hi m.turnsLeft_le

theorem Steps.finishCycle (hi : m.Inv) : Steps m m.finishCycle := Steps.finishFor hi

theorem Steps.lhatGcCollect (hi : m.Inv) : Steps m m.lhatGcCollect := by
  have hfirst := Steps.finishCycle hi
  have hstart := (Piece.startCycle hfirst.inv (finishCycle_pause hi)).steps
  exact ((hfirst.trans hstart).trans (Steps.finishCycle hstart.inv)).rearm

end Machine
end Lhat.Gc
