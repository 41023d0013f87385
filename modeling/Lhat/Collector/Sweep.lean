import Lhat.Collector.Cycle

/-!
# The sweep

What is passed wears the white of what is born now; what is freed was doomed, so
nothing kept refers to it. The constants of a freed script go before the cursor, as
everything does that is put on the list while the sweep is under way.
-/

namespace Lhat.Gc

namespace Machine

variable {m m' : Machine} {a b c : Address} {o o' : LhatObject} {as : List Address}

/-- What one turn leaves when it frees. -/
structure Frees (m m' : Machine) (a : Address) (as : List Address) : Prop where
  same : m' = { m with
    object := m'.object
    objects := as ++ m.objects.eraseIdx m.sweep
    count := m.count + as.length - 1
    sweep := if m.sweep = 0 then 0 else m.sweep + as.length
    collected := m.collected + 1 }
  gone : m'.object a = none
  given : ∀ b ∈ as, b ≠ a → ∀ o, m.object b = some o →
    m'.object b = some { o with color := m.white }
  other : ∀ b, b ≠ a → b ∉ as ∨ m.object b = none → m'.object b = m.object b

theorem Gives.free (h : Gives { m with objects := m.objects.eraseIdx m.sweep } m' as) (a : Address) :
    Frees m (m'.free a) a as where
  same := by
    have hsame := h.same
    unfold Machine.free
    rw [hsame]
  gone := Function.update_self ..
  given := fun b hb hne o ho => (Function.update_of_ne hne _ _).trans (h.given b hb o ho)
  other := fun b hne hb => (Function.update_of_ne hne _ _).trans (h.other b hb)

theorem sweepOne_frees (ho : m.object a = some o) (hdead : o.color = m.white.other) :
    Frees m (m.sweepOne a) a o.given := by
  have hgives := gives { m with objects := m.objects.eraseIdx m.sweep } o
  unfold sweepOne
  simp only [ho, hdead, ne_eq, not_true, if_false]
  exact hgives.free a

theorem sweepOne_passes (ho : m.object a = some o) (hlive : o.color ≠ m.white.other) :
    m.sweepOne a = { m with
      object := Function.update m.object a (some { o with color := m.white })
      sweep := m.sweep + 1 } := by
  unfold sweepOne recolor
  simp only [ho, ne_eq, hlive, not_false_eq_true, if_true]

/-! ### An object is freed -/

namespace Frees

section

variable (h : Frees m m' a as)
include h

theorem white : m'.white = m.white := by rw [h.same]

theorem gcstate : m'.gcstate = m.gcstate := by rw [h.same]

theorem roots : m'.roots = m.roots := by rw [h.same]

theorem openUpvalues : m'.openUpvalues = m.openUpvalues := by rw [h.same]

theorem pendingDispose : m'.pendingDispose = m.pendingDispose := by rw [h.same]

theorem rootList : m'.rootList = m.rootList := by
  rw [h.same]
  rfl

theorem weak : m'.weak = m.weak := by rw [h.same]

theorem unboundNatives : m'.unboundNatives = m.unboundNatives := by rw [h.same]

theorem memberCaches : m'.memberCaches = m.memberCaches := by rw [h.same]

theorem objects : m'.objects = as ++ m.objects.eraseIdx m.sweep := by
  rw [h.same]

theorem count : m'.count = m.count + as.length - 1 := by rw [h.same]

theorem sweep :
    m'.sweep = if m.sweep = 0 then 0 else m.sweep + as.length := by rw [h.same]

theorem before (ho : m'.object b = some o') :
    b ≠ a ∧ ∃ o, m.object b = some o ∧ o'.payload = o.payload ∧
      ((b ∈ as ∧ o'.color = m.white) ∨ (b ∉ as ∧ o' = o)) := by
  have hne : b ≠ a := by
    rintro rfl
    rw [h.gone] at ho
    cases ho
  refine ⟨hne, ?_⟩
  by_cases hb : b ∈ as
  · cases hbo : m.object b with
    | none =>
      rw [h.other b hne (Or.inr hbo), hbo] at ho
      cases ho
    | some o =>
      rw [h.given b hb hne o hbo] at ho
      obtain rfl := Option.some.inj ho
      exact ⟨o, rfl, rfl, Or.inl ⟨hb, rfl⟩⟩
  · rw [h.other b hne (Or.inl hb)] at ho
    exact ⟨o', ho, rfl, Or.inr ⟨hb, rfl⟩⟩

theorem after (hne : b ≠ a) (ho : m.object b = some o) :
    ∃ o', m'.object b = some o' ∧ o'.payload = o.payload ∧ (o'.color = m.white ∨ o' = o) := by
  by_cases hb : b ∈ as
  · exact ⟨_, h.given b hb hne o ho, rfl, Or.inl rfl⟩
  · exact ⟨o, (h.other b hne (Or.inl hb)).trans ho, rfl, Or.inr rfl⟩

theorem present (hne : b ≠ a) : m'.Present b ↔ m.Present b :=
  ⟨fun ⟨_, ho⟩ => let ⟨_, o, ho', _⟩ := h.before ho; ⟨o, ho'⟩,
    fun ⟨_, ho⟩ => let ⟨o', ho', _⟩ := h.after hne ho; ⟨o', ho'⟩⟩

end

end Frees

/-- What the turn that frees an object needs to know of it. -/
structure Doomed (m : Machine) (a : Address) (o : LhatObject) : Prop where
  object : m.object a = some o
  cursor : m.objects[m.sweep]? = some a
  dead : o.color = m.white.other

namespace Doomed

section

variable (hd : m.Doomed a o)
include hd

theorem listed : a ∈ m.objects := List.mem_of_getElem? hd.cursor

theorem lt : m.sweep < m.objects.length :=
  (List.getElem?_eq_some_iff.1 hd.cursor).1

theorem mem_erase (hb : m.Base) :
    b ∈ m.objects.eraseIdx m.sweep ↔ b ≠ a ∧ b ∈ m.objects := by
  obtain ⟨hlt, hget⟩ := List.getElem?_eq_some_iff.1 hd.cursor
  rw [← hb.nodup.erase_getElem m.sweep hlt, hget, hb.nodup.mem_erase_iff]

theorem given_constant (hb : m.Base) (hmem : b ∈ o.given) : m.Constant b := by
  unfold LhatObject.given at hmem
  split at hmem
  · next root hp => exact (hb.script a o root hd.object hp).2.1 b hmem
  · exact absurd hmem List.not_mem_nil

theorem given_nodup (hb : m.Base) : o.given.Nodup := by
  unfold LhatObject.given
  split
  · next root hp => exact (hb.script a o root hd.object hp).1
  · exact List.nodup_nil

theorem given_own (hb : m.Base) {p : LhatObject} (hc : m.Constant b)
    (hp : m.object b = some p) (hlink : c ∈ p.payload.links) (hmem : c ∈ o.given) :
    b ∈ o.given := by
  unfold LhatObject.given at hmem ⊢
  split at hmem
  · next root hroot => exact (hb.script a o root hd.object hroot).2.2 b p hc hp c hlink hmem
  · exact absurd hmem List.not_mem_nil

theorem given_apart (hb : m.Base) {p : LhatObject} {root : LhatProto}
    (hp : m.object b = some p) (hroot : p.payload = .script root) (hne : b ≠ a)
    (hmem : c ∈ root.objects) : c ∉ o.given := by
  unfold LhatObject.given
  split
  · next other hother => exact hb.apart b a p o root other hne hp hd.object hroot hother c hmem
  · exact List.not_mem_nil

end

variable (hd : m.Doomed a o) (hf : Frees m m' a o.given)
include hd hf

theorem mem_objects (hb : m.Base) : b ∈ m'.objects ↔ b ∈ o.given ∨ (b ≠ a ∧ b ∈ m.objects) := by
  rw [hf.objects, List.mem_append, hd.mem_erase hb]

theorem constant (hb : m.Base) : m'.Constant b ↔ m.Constant b ∧ b ∉ o.given := by
  unfold Constant
  rw [hd.mem_objects hf hb]
  constructor
  · rintro ⟨⟨p, hp⟩, hmem⟩
    obtain ⟨hgiven, hlisted⟩ := not_or.1 hmem
    obtain ⟨hne, q, hq, -⟩ := hf.before hp
    exact ⟨⟨⟨q, hq⟩, fun hmem => hlisted ⟨hne, hmem⟩⟩, hgiven⟩
  · rintro ⟨⟨hpresent, hlisted⟩, hgiven⟩
    have hne : b ≠ a := by
      rintro rfl
      exact hlisted hd.listed
    exact ⟨(hf.present hne).2 hpresent, not_or.2 ⟨hgiven, fun h => hlisted h.2⟩⟩

theorem base (hb : m.Base) : m'.Base where
  null := by
    cases ho : m'.object 0 with
    | none => rfl
    | some p =>
      obtain ⟨-, q, hq, -⟩ := hf.before ho
      rw [hb.null] at hq
      cases hq
  nodup := by
    rw [hf.objects, List.nodup_append]
    refine ⟨hd.given_nodup hb, hb.nodup.eraseIdx m.sweep, ?_⟩
    rintro b hgiven c hmem rfl
    exact (hd.given_constant hb hgiven).2 ((hd.mem_erase hb).1 hmem).2
  listed := by
    intro b hmem
    rcases (hd.mem_objects hf hb).1 hmem with hgiven | ⟨hne, hlisted⟩
    · have hc := hd.given_constant hb hgiven
      have hne : b ≠ a := by
        rintro rfl
        exact hc.2 hd.listed
      exact (hf.present hne).2 hc.1
    · exact (hf.present hne).2 (hb.listed b hlisted)
  count := by
    have hlt := hd.lt
    rw [hf.count, hf.objects, List.length_append, List.length_eraseIdx_of_lt hlt, hb.count]
    omega
  white := by rw [hf.white, hb.white]
  constant := by
    intro b p hp hmem
    obtain ⟨hc, hgiven⟩ := (hd.constant hf hb).1 ⟨⟨p, hp⟩, hmem⟩
    obtain ⟨-, q, hq, hpay, hcolor⟩ := hf.before hp
    obtain rfl : p = q := (hcolor.resolve_left fun h => hgiven h.1).2
    obtain ⟨hblack, hconstant, hlinks⟩ := hb.constant b p hq hc.2
    refine ⟨hblack, hconstant, fun c hlink hne => (hd.constant hf hb).2 ⟨hlinks c hlink hne, ?_⟩⟩
    exact fun hmem => hgiven (hd.given_own hb hc hq hlink hmem)
  script := by
    intro s p root hp hroot
    obtain ⟨hne, q, hq, hpay, -⟩ := hf.before hp
    rw [hpay] at hroot
    obtain ⟨hnodup, hin, hown⟩ := hb.script s q root hq hroot
    refine ⟨hnodup, fun b hmem => ?_, fun b p' hc hp' c hlink hmem => ?_⟩
    · exact (hd.constant hf hb).2 ⟨hin b hmem, hd.given_apart hb hq hroot hne hmem⟩
    · obtain ⟨hc, -⟩ := (hd.constant hf hb).1 hc
      obtain ⟨-, q', hq', hpay', -⟩ := hf.before hp'
      rw [hpay'] at hlink
      exact hown b q' hc hq' c hlink hmem
  apart := by
    intro s t p p' root root' hne hs ht hroot hroot'
    obtain ⟨-, q, hq, hpay, -⟩ := hf.before hs
    obtain ⟨-, q', hq', hpay', -⟩ := hf.before ht
    exact hb.apart s t q q' root root' hne hq hq' (by rw [← hpay, hroot]) (by rw [← hpay', hroot'])
  captured := by
    intro u p i v t hp hpay
    obtain ⟨-, q, hq, hsame, -⟩ := hf.before hp
    rw [hf.openUpvalues]
    exact hb.captured u q i v t hq (by rw [← hsame, hpay])
  suspended := by
    intro u p co i v t hp hpay
    obtain ⟨-, q, hq, hsame, -⟩ := hf.before hp
    exact hb.suspended u q co i v t hq (by rw [← hsame, hpay])
  covered := by
    intro u hu p i v t hp hpay
    obtain ⟨-, q, hq, hsame, -⟩ := hf.before hp
    rw [hf.openUpvalues] at hu
    rw [hf.roots]
    exact hb.covered u hu q i v t hq (by rw [← hsame, hpay])

theorem kept (hb : m.Base) (hphase : m.gcstate = .sweep) : m'.Kept b ↔ m.Kept b := by
  have hwhite : m.white ≠ m.white.other := (Color.other_ne hb.white).symm
  constructor
  · rintro ⟨p, hp, hcolor⟩
    obtain ⟨-, q, hq, -, hgiven | ⟨-, rfl⟩⟩ := hf.before hp
    · exact hb.constant_kept (hd.given_constant hb hgiven.1)
    · refine ⟨p, hq, fun _ => ?_⟩
      rw [← hf.white]
      exact hcolor (by rw [hf.gcstate, hphase])
  · rintro ⟨p, hp, hcolor⟩
    have hne : b ≠ a := by
      rintro rfl
      rw [hd.object] at hp
      obtain rfl := Option.some.inj hp
      exact hcolor hphase hd.dead
    obtain ⟨p', hp', -, hcolor'⟩ := hf.after hne hp
    refine ⟨p', hp', fun _ => ?_⟩
    rw [hf.white]
    rcases hcolor' with hcolor' | rfl
    · rw [hcolor']
      exact hwhite
    · exact hcolor hphase

theorem closed (hb : m.Base) (hc : m.Closed) (hphase : m.gcstate = .sweep) : m'.Closed := by
  have hkept : ∀ b, m'.Kept b ↔ m.Kept b := fun b => hd.kept hf hb hphase
  refine ⟨fun b p hp hb c hlink hne => ?_, fun b hb hne => ?_, ?_, ?_, ?_⟩
  · obtain ⟨-, q, hq, hpay, -⟩ := hf.before hp
    rw [hpay] at hlink
    exact (hkept c).2 (hc.links b q hq ((hkept b).1 hb) c hlink hne)
  · rw [hf.rootList] at hb
    exact (hkept b).2 (hc.roots b hb hne)
  · rw [hf.weak]
    exact fun entry hentry hlive hne => (hkept _).2 (hc.weak entry hentry hlive hne)
  · rw [hf.unboundNatives]
    exact fun b hb hne => (hkept b).2 (hc.natives b hb hne)
  · rw [hf.memberCaches]
    exact fun cache hcache hanswered b heq hne =>
      (hkept b).2 (hc.caches cache hcache hanswered b heq hne)

theorem sweeping (hb : m.Base) (hs : m.Sweeping) : m'.Sweeping where
  gray := by
    rw [hf.same]
    exact hs.gray
  colors := by
    intro b p hp
    obtain ⟨-, q, hq, -, ⟨-, hcolor⟩ | ⟨-, rfl⟩⟩ := hf.before hp
    · intro hgray
      have hw := hb.white
      rw [← hcolor, hgray] at hw
      cases hw
    · exact hs.colors b p hq
  cursor := by
    have hlt := hd.lt
    rw [hf.sweep, hf.objects, List.length_append, List.length_eraseIdx_of_lt hlt]
    split <;> omega
  passed := by
    intro b hmem p hp
    rw [hf.sweep, hf.objects] at hmem
    obtain ⟨-, q, hq, -, ⟨-, hcolor⟩ | ⟨hgiven, rfl⟩⟩ := hf.before hp
    · rw [hcolor, hf.white]
    · rw [hf.white]
      split at hmem
      · exact absurd hmem List.not_mem_nil
      · rw [Nat.add_comm, List.take_length_add_append] at hmem
        have htake := (List.mem_append.1 hmem).resolve_left hgiven
        rw [List.take_eraseIdx_eq_take_of_le _ _ _ le_rfl] at htake
        exact hs.passed b htake p hq
  spent := by
    intro b p hp hdead
    rw [hf.white] at hdead
    obtain ⟨-, q, hq, -, ⟨-, hcolor⟩ | ⟨-, rfl⟩⟩ := hf.before hp
    · rw [hcolor] at hdead
      exact absurd hdead.symm (Color.other_ne hb.white)
    · exact hs.spent b p hq hdead

theorem inv (hi : m.Inv) (hphase : m.gcstate = .sweep) : m'.Inv where
  base := hd.base hf hi.base
  closed := hd.closed hf hi.base hi.closed hphase
  phase := by
    rw [Phase, hf.gcstate, hphase]
    exact hd.sweeping hf hi.base (hi.sweeping hphase)
  pending := by
    rw [hf.pendingDispose]
    exact hi.pending

end Doomed

/-! ### An object is passed -/

/-- What one turn leaves when it passes. -/
def passed (m : Machine) (a : Address) (o : LhatObject) : Machine :=
  { m with
    object := Function.update m.object a (some { o with color := m.white })
    sweep := m.sweep + 1 }

theorem passed_before (ho : m.object a = some o) (hp : (m.passed a o).object b = some o') :
    ∃ p, m.object b = some p ∧ o'.payload = p.payload ∧
      ((b = a ∧ o'.color = m.white) ∨ (b ≠ a ∧ o' = p)) := by
  rcases update_eq_some.1 hp with ⟨rfl, rfl⟩ | ⟨hne, hp⟩
  · exact ⟨o, ho, rfl, Or.inl ⟨rfl, rfl⟩⟩
  · exact ⟨o', hp, rfl, Or.inr ⟨hne, rfl⟩⟩

theorem passed_after (ho : m.object a = some o) (hp : m.object b = some o') :
    ∃ p, (m.passed a o).object b = some p ∧ p.payload = o'.payload ∧
      (p.color = m.white ∨ p = o') := by
  by_cases hne : b = a
  · subst hne
    refine ⟨_, Function.update_self .., ?_, Or.inl rfl⟩
    rw [hp] at ho
    obtain rfl := Option.some.inj ho
    rfl
  · exact ⟨o', (Function.update_of_ne hne _ _).trans hp, rfl, Or.inr rfl⟩

section Passing

variable (ho : m.object a = some o) (hcursor : m.objects[m.sweep]? = some a)
include ho hcursor

theorem passed_base (hb : m.Base) : (m.passed a o).Base := by
  refine hb.repaint (fun b hb => ?_) (fun b p hp => ?_) rfl rfl hb.white rfl rfl
  · obtain ⟨q, hq⟩ := hb
    obtain ⟨p, hp, -⟩ := passed_after ho hq
    exact ⟨p, hp⟩
  · obtain ⟨q, hq, hpay, hcolor⟩ := passed_before ho hp
    refine ⟨q, hq, hpay, fun hmem => ?_⟩
    rcases hcolor with ⟨rfl, -⟩ | ⟨-, rfl⟩
    · exact absurd (List.mem_of_getElem? hcursor) hmem
    · exact (hb.constant b p hq hmem).1

theorem passed_sweeping (hb : m.Base) (hs : m.Sweeping) : (m.passed a o).Sweeping where
  gray := hs.gray
  colors := by
    intro b p hp
    obtain ⟨q, hq, -, ⟨-, hcolor⟩ | ⟨-, rfl⟩⟩ := passed_before ho hp
    · intro hgray
      have hw := hb.white
      rw [← hcolor, hgray] at hw
      cases hw
    · exact hs.colors b p hq
  cursor := (List.getElem?_eq_some_iff.1 hcursor).1
  passed := by
    intro b hmem p hp
    obtain ⟨q, hq, -, ⟨-, hcolor⟩ | ⟨hne, rfl⟩⟩ := passed_before ho hp
    · exact hcolor
    · have hmem : b ∈ m.objects.take (m.sweep + 1) := hmem
      rw [List.take_add_one, hcursor] at hmem
      rcases List.mem_append.1 hmem with hmem | hmem
      · exact hs.passed b hmem p hq
      · exact absurd (by simpa using hmem) hne
  spent := by
    intro b p hp hdead
    obtain ⟨q, hq, -, ⟨-, hcolor⟩ | ⟨-, rfl⟩⟩ := passed_before ho hp
    · have hdead : p.color = m.white.other := hdead
      rw [hcolor] at hdead
      exact absurd hdead.symm (Color.other_ne hb.white)
    · exact hs.spent b p hq hdead

omit hcursor

variable (hlive : o.color ≠ m.white.other)
include hlive

theorem passed_kept (hb : m.Base) (hphase : m.gcstate = .sweep) :
    (m.passed a o).Kept b ↔ m.Kept b := by
  constructor
  · rintro ⟨p, hp, hcolor⟩
    obtain ⟨q, hq, -, ⟨rfl, -⟩ | ⟨-, rfl⟩⟩ := passed_before ho hp
    · exact ⟨o, ho, fun _ => hlive⟩
    · exact ⟨p, hq, hcolor⟩
  · rintro ⟨q, hq, hcolor⟩
    obtain ⟨p, hp, -, hcolor'⟩ := passed_after ho hq
    refine ⟨p, hp, fun _ => ?_⟩
    rcases hcolor' with hcolor' | rfl
    · rw [hcolor']
      exact (Color.other_ne hb.white).symm
    · exact hcolor hphase

theorem passed_closed (hb : m.Base) (hc : m.Closed) (hphase : m.gcstate = .sweep) :
    (m.passed a o).Closed := by
  have hkept : ∀ b, (m.passed a o).Kept b ↔ m.Kept b := fun b =>
    passed_kept ho hlive hb hphase
  refine ⟨fun b p hp hb c hlink hne => ?_, fun b hb hne => ?_, ?_, ?_, ?_⟩
  · obtain ⟨q, hq, hpay, -⟩ := passed_before ho hp
    rw [hpay] at hlink
    exact (hkept c).2 (hc.links b q hq ((hkept b).1 hb) c hlink hne)
  · exact (hkept b).2 (hc.roots b hb hne)
  · exact fun entry hentry hlive hne => (hkept _).2 (hc.weak entry hentry hlive hne)
  · exact fun b hb hne => (hkept b).2 (hc.natives b hb hne)
  · exact fun cache hcache hanswered b heq hne =>
      (hkept b).2 (hc.caches cache hcache hanswered b heq hne)

theorem passed_inv (hcursor : m.objects[m.sweep]? = some a) (hi : m.Inv) (hphase : m.gcstate = .sweep) : (m.passed a o).Inv where
  base := passed_base ho hcursor hi.base
  closed := passed_closed ho hlive hi.base hi.closed hphase
  phase := by
    have hphase' : (m.passed a o).gcstate = .sweep := hphase
    rw [Phase, hphase']
    exact passed_sweeping ho hcursor hi.base (hi.sweeping hphase)
  pending := hi.pending

end Passing

/-! ### One turn after another -/

/-- What will be on the list when the sweep is over. -/
def Destined (m : Machine) (a : Address) : Prop :=
  (a ∈ m.objects ∧ m.Kept a) ∨ ∃ s, ¬ m.Kept s ∧ a ∈ m.givenAt s

/-- What turns of the sweep make of the machine. -/
structure Swept (m m' : Machine) : Prop where
  same : m' = { m with
    object := m'.object
    objects := m'.objects
    count := m'.count
    sweep := m'.sweep
    collected := m'.collected }
  inv : m'.Inv
  before : ∀ a o', m'.object a = some o' → ∃ o, m.object a = some o ∧ o'.payload = o.payload
  kept : ∀ a, m'.Kept a ↔ m.Kept a
  listed : ∀ a ∈ m.objects, m.Kept a → a ∈ m'.objects
  destined : ∀ a, m'.Destined a ↔ m.Destined a

theorem Swept.refl (hi : m.Inv) : Swept m m :=
  { same := rfl
    inv := hi
    before := fun _ o ho => ⟨o, ho, rfl⟩
    kept := fun _ => Iff.rfl
    listed := fun _ ha _ => ha
    destined := fun _ => Iff.rfl }

theorem Swept.gcstate (h : Swept m m') : m'.gcstate = m.gcstate := by rw [h.same]

theorem givenAt_eq (ho : m.object a = some o) : m.givenAt a = o.given := by
  unfold givenAt
  rw [ho]

theorem given_congr (hp : o'.payload = o.payload) : o'.given = o.given := by
  unfold LhatObject.given
  rw [hp]

theorem Doomed.not_kept (hd : m.Doomed a o) (hphase : m.gcstate = .sweep) : ¬ m.Kept a := by
  rintro ⟨p, hp, hlive⟩
  rw [hd.object] at hp
  obtain rfl := Option.some.inj hp
  exact hlive hphase hd.dead

theorem Doomed.swept (hd : m.Doomed a o) (hf : Frees m m' a o.given) (hi : m.Inv)
    (hphase : m.gcstate = .sweep) : Swept m m' where
  same := by
    have := hf.same
    rw [this]
  inv := hd.inv hf hi hphase
  before := by
    intro b p hp
    obtain ⟨-, q, hq, hpay, -⟩ := hf.before hp
    exact ⟨q, hq, hpay⟩
  kept := fun b => hd.kept hf hi.base hphase
  listed := by
    intro b hb hk
    refine (hd.mem_objects hf hi.base).2 (Or.inr ⟨?_, hb⟩)
    rintro rfl
    exact hd.not_kept hphase hk
  destined := by
    have hkept : ∀ b, m'.Kept b ↔ m.Kept b := fun b => hd.kept hf hi.base hphase
    have hdead := hd.not_kept hphase
    intro b
    unfold Destined
    simp only [hkept, hd.mem_objects hf hi.base]
    constructor
    · rintro (⟨hgiven | ⟨-, hlisted⟩, hb⟩ | ⟨s, hs, hgiven⟩)
      · exact Or.inr ⟨a, hdead, by rwa [givenAt_eq hd.object]⟩
      · exact Or.inl ⟨hlisted, hb⟩
      · refine Or.inr ⟨s, hs, ?_⟩
        unfold givenAt at hgiven ⊢
        cases hso : m'.object s with
        | none => simp [hso] at hgiven
        | some p =>
          obtain ⟨-, q, hq, hpay, -⟩ := hf.before hso
          simpa [hso, hq, given_congr hpay] using hgiven
    · rintro (⟨hlisted, hb⟩ | ⟨s, hs, hgiven⟩)
      · refine Or.inl ⟨Or.inr ⟨?_, hlisted⟩, hb⟩
        rintro rfl
        exact hdead hb
      · by_cases hsa : s = a
        · rw [hsa, givenAt_eq hd.object] at hgiven
          exact Or.inl ⟨Or.inl hgiven, hi.base.constant_kept (hd.given_constant hi.base hgiven)⟩
        · refine Or.inr ⟨s, hs, ?_⟩
          unfold givenAt at hgiven ⊢
          cases hso : m.object s with
          | none => simp [hso] at hgiven
          | some q =>
            obtain ⟨p, hp, hpay, -⟩ := hf.after hsa hso
            simpa [hso, hp, given_congr hpay] using hgiven

end Machine
end Lhat.Gc
