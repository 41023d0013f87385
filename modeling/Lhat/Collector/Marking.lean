import Lhat.Collector.Invariant

/-!
# What marking does

Marking darkens objects and nothing else (`Marks`). What it is given, it reaches;
what it takes off the gray list, it looks into; and it ends, since each object it
looks into is one that it had not looked into before.
-/

namespace Lhat.Gc

namespace Machine

variable {m m' m'' : Machine} {a b c x : Address} {o o' : LhatObject} {l todo as : List Address}

theorem update_eq_some {object : Address → Option LhatObject} :
    Function.update object a (some o') b = some o ↔ (b = a ∧ o' = o) ∨ (b ≠ a ∧ object b = some o) := by
  by_cases hba : b = a
  · subst hba
    simp
  · simp [hba]

/-- Some objects are darker, and some coroutines more are held back. -/
structure Marks (m m' : Machine) : Prop where
  same : m' = { m with
    object := m'.object
    gray := m'.gray
    pendingDispose := m'.pendingDispose }
  absent : ∀ a, m.object a = none → m'.object a = none
  darkens : ∀ a o, m.object a = some o →
    ∃ o', m'.object a = some o' ∧ o'.payload = o.payload ∧ o.color.Darkens o'.color

namespace Marks

theorem refl (m : Machine) : Marks m m :=
  { same := rfl
    absent := fun _ h => h
    darkens := fun _ o ho => ⟨o, ho, rfl, Color.Darkens.refl _⟩ }

section

variable (h : Marks m m')
include h

theorem trans (h' : Marks m' m'') : Marks m m'' where
  same := by
    have := h'.same
    rw [h.same] at this
    exact this
  absent := fun a ha => h'.absent a (h.absent a ha)
  darkens := by
    intro a o ho
    obtain ⟨o', ho', hp, hd⟩ := h.darkens a o ho
    obtain ⟨o'', ho'', hp', hd'⟩ := h'.darkens a o' ho'
    exact ⟨o'', ho'', hp'.trans hp, hd.trans hd'⟩

theorem objects : m'.objects = m.objects := by rw [h.same]

theorem count : m'.count = m.count := by rw [h.same]

theorem white : m'.white = m.white := by rw [h.same]

theorem gcstate : m'.gcstate = m.gcstate := by rw [h.same]

theorem sweep : m'.sweep = m.sweep := by rw [h.same]

theorem roots : m'.roots = m.roots := by rw [h.same]

theorem spareCoroutines : m'.spareCoroutines = m.spareCoroutines := by rw [h.same]

theorem openUpvalues : m'.openUpvalues = m.openUpvalues := by rw [h.same]

theorem weak : m'.weak = m.weak := by rw [h.same]

theorem unboundNatives : m'.unboundNatives = m.unboundNatives := by rw [h.same]

theorem memberCaches : m'.memberCaches = m.memberCaches := by rw [h.same]

theorem before (ho : m'.object a = some o') :
    ∃ o, m.object a = some o ∧ o'.payload = o.payload ∧ o.color.Darkens o'.color := by
  cases ha : m.object a with
  | none =>
    rw [h.absent a ha] at ho
    cases ho
  | some o =>
    obtain ⟨o'', ho'', hp, hd⟩ := h.darkens a o ha
    obtain rfl : o'' = o' := by simpa [ho''] using ho
    exact ⟨o, rfl, hp, hd⟩

theorem present : m'.Present a ↔ m.Present a :=
  ⟨fun ⟨_, ho⟩ => let ⟨o, ho', _⟩ := h.before ho; ⟨o, ho'⟩,
    fun ⟨o, ho⟩ => let ⟨o', ho', _⟩ := h.darkens a o ho; ⟨o', ho'⟩⟩

theorem whiteAt (hw : m'.whiteAt a = true) : m.whiteAt a = true := by
  obtain ⟨o', ho', hw⟩ := whiteAt_iff.1 hw
  obtain ⟨o, ho, -, hd⟩ := h.before ho'
  exact whiteAt_iff.2 ⟨o, ho, by rwa [← hd.white hw]⟩

theorem read (v : LhatValue) (place : Place) : m'.read v place = m.read v place := by
  cases place with
  | slot i => simp only [Machine.read, h.roots]
  | closed => rfl
  | saved co i =>
    simp only [Machine.read]
    cases hco : m.object co with
    | none => rw [h.absent co hco]
    | some o =>
      obtain ⟨o', ho', hp, -⟩ := h.darkens co o hco
      rw [ho']
      obtain ⟨color, gclist, payload⟩ := o
      obtain ⟨color', gclist', payload'⟩ := o'
      obtain rfl : payload' = payload := hp
      cases payload' <;> rfl

theorem children (p : Payload) : m'.children p = m.children p := by
  unfold Machine.children
  split
  · rw [h.read]
  · rfl

theorem base (hb : m.Base) : m'.Base := by
  refine hb.repaint (fun a => h.present.2) (fun a o' ho' => ?_) h.objects h.count
    (by rw [h.white, hb.white]) h.roots h.openUpvalues
  obtain ⟨o, ho, hp, hd⟩ := h.before ho'
  refine ⟨o, ho, hp, fun ha => ?_⟩
  rw [(hb.constant a o ho ha).1] at hd
  exact hd.black

end

end Marks

theorem Marks.update {g : Address} (ho : m.object a = some o) (hp : o'.payload = o.payload)
    (hd : o.color.Darkens o'.color) :
    Marks m { m with object := Function.update m.object a (some o'), gray := g } := by
  refine ⟨rfl, fun b hb => ?_, fun b p hbp => ?_⟩
  · refine (Function.update_of_ne ?_ _ _).trans hb
    rintro rfl
    rw [ho] at hb
    cases hb
  · by_cases hba : b = a
    · subst hba
      obtain rfl : o = p := by simpa [ho] using hbp
      exact ⟨o', Function.update_self .., hp, hd⟩
    · exact ⟨p, (Function.update_of_ne hba _ _).trans hbp, rfl, Color.Darkens.refl _⟩

theorem marks_reach (m : Machine) (a : Address) : Marks m (m.reach a) := by
  unfold reach
  split
  · exact Marks.refl m
  · next o ho =>
      split
      · next hw => exact Marks.update ho rfl (Or.inr (Or.inl ⟨hw, rfl⟩))
      · exact Marks.refl m

theorem marks_reachAll (m : Machine) (as : List Address) : Marks m (m.reachAll as) := by
  induction as generalizing m with
  | nil => exact Marks.refl m
  | cons a as ih => exact (marks_reach m a).trans (ih (m.reach a))

theorem pendingDispose_reach (m : Machine) (a : Address) :
    (m.reach a).pendingDispose = m.pendingDispose := by
  unfold reach
  split
  · rfl
  · split <;> rfl

theorem pendingDispose_reachAll (m : Machine) (as : List Address) :
    (m.reachAll as).pendingDispose = m.pendingDispose := by
  induction as generalizing m with
  | nil => rfl
  | cons a as ih => exact (ih (m.reach a)).trans (pendingDispose_reach m a)

theorem whiteAt_reach (m : Machine) (a : Address) : (m.reach a).whiteAt a = false := by
  unfold reach
  split
  · next ho => simp [whiteAt, ho]
  · next o ho =>
      split
      · simp [whiteAt, Color.isWhite]
      · next hw => simpa [whiteAt, ho] using hw

theorem black_of_reach (ho : (m.reach c).object a = some o) (hblack : o.color = .black) :
    m.object a = some o := by
  unfold Machine.reach at ho
  split at ho
  · exact ho
  · split at ho
    · rcases update_eq_some.1 ho with ⟨-, rfl⟩ | ⟨-, ho⟩
      · cases hblack
      · exact ho
    · exact ho

theorem black_of_reachAll (ho : (m.reachAll as).object a = some o) (hblack : o.color = .black) :
    m.object a = some o := by
  induction as generalizing m with
  | nil => exact ho
  | cons c as ih => exact black_of_reach (ih ho) hblack

theorem whiteAt_reachAll (m : Machine) (as : List Address) :
    ∀ a ∈ as, (m.reachAll as).whiteAt a = false := by
  induction as generalizing m with
  | nil => exact fun a ha => absurd ha List.not_mem_nil
  | cons c as ih =>
    intro a ha
    rcases List.mem_cons.1 ha with rfl | ha
    · rw [Bool.eq_false_iff]
      intro hw
      have := (marks_reachAll (m.reach a) as).whiteAt hw
      rw [whiteAt_reach] at this
      cases this
    · exact ih (m.reach c) a ha

/-! ### The gray list -/

theorem Threaded.reach (ht : m.Threaded l) (a : Address) : ∃ l, (m.reach a).Threaded l := by
  unfold Machine.reach
  split
  · exact ⟨l, ht⟩
  · next o ho =>
      split
      · next hw =>
          have hfresh : a ∉ l := by
            intro ha
            obtain ⟨o', ho', hgray⟩ := ht.chain.gray a ha
            obtain rfl : o = o' := by simpa [ho] using ho'
            simp [hgray, Color.isWhite] at hw
          refine ⟨a :: l, ⟨rfl, _, Function.update_self .., rfl, ?_⟩, ?_, ?_⟩
          · refine ht.chain.congr fun b hb => Function.update_of_ne ?_ _ _
            rintro rfl
            exact hfresh hb
          · exact List.nodup_cons.2 ⟨hfresh, ht.nodup⟩
          · intro b p hp hgray
            rcases update_eq_some.1 hp with ⟨rfl, -⟩ | ⟨-, hp⟩
            · exact List.mem_cons_self
            · exact List.mem_cons_of_mem a (ht.all b p hp hgray)
      · exact ⟨l, ht⟩

/-- What a marking is apart from its phase: what `x` refers to may be white while it is
still to be reached. -/
structure Tracing (m : Machine) (x : Address) (todo : List Address) : Prop where
  threaded : ∃ l, m.Threaded l
  blacks : ∀ a o, m.object a = some o → o.color = .black →
    ∀ b ∈ o.payload.links, m.whiteAt b = true → a = x ∧ b ∈ todo

theorem Marking.tracing (hm : m.Marking x todo) : m.Tracing x todo := ⟨hm.threaded, hm.blacks⟩

theorem Marking.of_marks {y : Address} {todo' : List Address} (hm : m.Marking x todo)
    (hmarks : Marks m m') (ht : m'.Tracing y todo') : m'.Marking y todo' where
  threaded := ht.threaded
  blacks := ht.blacks
  sweep := by rw [hmarks.sweep, hm.sweep]
  colors := by
    intro a ha o' ho'
    rw [hmarks.objects] at ha
    obtain ⟨o, ho, -, hd⟩ := hmarks.before ho'
    rw [hmarks.white]
    rcases hd with hsame | ⟨-, hdark⟩ | ⟨-, hblack⟩
    · rw [hsame]
      exact hm.colors a ha o ho
    · revert hdark
      cases o'.color <;> simp [Color.isWhite]
    · exact Or.inr (Or.inr hblack)

theorem Tracing.reach (hm : m.Tracing x (c :: todo)) : (m.reach c).Tracing x todo where
  threaded := by
    obtain ⟨l, ht⟩ := hm.threaded
    exact ht.reach c
  blacks := by
    intro a o' ho' hblack b hb hw
    have ho := black_of_reach ho' hblack
    obtain ⟨hax, htodo⟩ := hm.blacks a o' ho hblack b hb ((marks_reach m c).whiteAt hw)
    refine ⟨hax, (List.mem_cons.1 htodo).resolve_left ?_⟩
    rintro rfl
    rw [whiteAt_reach] at hw
    cases hw

theorem Tracing.reachAll (hm : m.Tracing x as) : (m.reachAll as).Tracing x [] := by
  induction as generalizing m with
  | nil => exact hm
  | cons a as ih => exact ih hm.reach

theorem Tracing.done (hm : m.Tracing x []) (y : Address) : m.Tracing y [] :=
  { hm with
    blacks := fun a o ho hblack b hb hw =>
      absurd (hm.blacks a o ho hblack b hb hw).2 List.not_mem_nil }

theorem Marking.reach (hm : m.Marking x (c :: todo)) : (m.reach c).Marking x todo :=
  hm.of_marks (marks_reach m c) hm.tracing.reach

theorem Marking.weaken {todo' : List Address} (hm : m.Marking x todo) (hsub : todo ⊆ todo') :
    m.Marking x todo' :=
  { hm with
    blacks := fun a o ho hblack b hb hw =>
      let ⟨hax, htodo⟩ := hm.blacks a o ho hblack b hb hw
      ⟨hax, hsub htodo⟩ }

theorem Marking.reached (hm : m.Marking x todo) (a : Address) : (m.reach a).Marking x todo :=
  (hm.weaken (List.subset_cons_self a todo)).reach

theorem Marking.done (hm : m.Marking x []) (y : Address) : m.Marking y [] :=
  { hm with blacks := (hm.tracing.done y).blacks }

theorem Marking.reachAll (hm : m.Marking x as) : (m.reachAll as).Marking x [] :=
  hm.of_marks (marks_reachAll m as) hm.tracing.reachAll

theorem Marking.reachedAll (hm : m.Marking x todo) (as : List Address) :
    (m.reachAll as).Marking x todo := by
  induction as generalizing m with
  | nil => exact hm
  | cons a as ih => exact ih (hm.reached a)

/-- Nothing stands at `NULL`, and what is not on the list is black. -/
structure Grounded (m : Machine) : Prop where
  null : m.object 0 = none
  black : ∀ a o, m.object a = some o → a ∉ m.objects → o.color = .black

theorem Base.grounded (hb : m.Base) : m.Grounded :=
  ⟨hb.null, fun a o ho hmem => (hb.constant a o ho hmem).1⟩

theorem Marks.grounded (h : Marks m m') (hg : m.Grounded) : m'.Grounded where
  null := h.absent 0 hg.null
  black := by
    intro a o' ho' hmem
    obtain ⟨o, ho, -, hd⟩ := h.before ho'
    rw [hg.black a o ho (h.objects ▸ hmem)] at hd
    exact hd.black

theorem Tracing.noGray (hm : m.Tracing x todo) (hgray : m.gray = 0) (hg : m.Grounded) (a : Address)
    (o : LhatObject) (ho : m.object a = some o) : o.color ≠ .gray := by
  obtain ⟨l, ht⟩ := hm.threaded
  intro hcolor
  have hmem := ht.all a o ho hcolor
  cases l with
  | nil => exact List.not_mem_nil hmem
  | cons c l =>
    obtain ⟨hc, p, hp, -⟩ := ht.chain
    rw [← hc, hgray, hg.null] at hp
    cases hp

/-! ### One object looked into -/

/-- The head of the list, taken off it. -/
def taken (m : Machine) (o : LhatObject) : Machine :=
  { m with
    object := Function.update m.object m.gray (some { o with color := .black, gclist := 0 })
    gray := o.gclist }

theorem Tracing.head (hm : m.Tracing x todo) (hgray : m.gray ≠ 0) :
    ∃ o, m.object m.gray = some o ∧ o.color = .gray ∧
      m.propagateOne = (m.taken o).reachAll ((m.taken o).children o.payload) := by
  obtain ⟨l, ht⟩ := hm.threaded
  cases l with
  | nil => exact absurd ht.chain hgray
  | cons c l =>
    obtain ⟨hc, o, ho, hcolor, -⟩ := ht.chain
    rw [← hc] at ho
    refine ⟨o, ho, hcolor, ?_⟩
    unfold propagateOne
    rw [ho]
    rfl

theorem marks_taken (ho : m.object m.gray = some o) (hcolor : o.color = .gray) :
    Marks m (m.taken o) :=
  Marks.update ho rfl (Or.inr (Or.inr ⟨hcolor, rfl⟩))

theorem Tracing.propagateOne (hm : m.Tracing 0 []) (hgray : m.gray ≠ 0) :
    Marks m m.propagateOne ∧ m.propagateOne.Tracing 0 [] := by
  obtain ⟨o, ho, hcolor, heq⟩ := hm.head hgray
  have hmarks := marks_taken ho hcolor
  rw [heq]
  refine ⟨hmarks.trans (marks_reachAll _ _), ?_⟩
  have htaken : (m.taken o).Tracing m.gray ((m.taken o).children o.payload) := by
    refine ⟨?_, ?_⟩
    · obtain ⟨l, ht⟩ := hm.threaded
      cases l with
      | nil => exact absurd ht.chain hgray
      | cons c l =>
        obtain ⟨hc, o', ho', -, hrest⟩ := ht.chain
        obtain ⟨hfresh, hnodup⟩ := List.nodup_cons.1 ht.nodup
        obtain rfl : o = o' := by simpa [← hc, ho] using ho'
        refine ⟨l, hrest.congr fun b hb => Function.update_of_ne ?_ _ _, hnodup, ?_⟩
        · rintro rfl
          exact hfresh (hc ▸ hb)
        · intro b p hp hgrayp
          rcases update_eq_some.1 hp with ⟨-, rfl⟩ | ⟨hne, hp⟩
          · cases hgrayp
          · exact (List.mem_cons.1 (ht.all b p hp hgrayp)).resolve_left (hc ▸ hne)
    · intro a p hp hblack b hb hw
      rcases update_eq_some.1 hp with ⟨rfl, rfl⟩ | ⟨-, hp⟩
      · exact ⟨rfl, links_children hb⟩
      · exact absurd (hm.blacks a p hp hblack b hb (hmarks.whiteAt hw)).2 List.not_mem_nil
  exact htaken.reachAll.done 0

theorem Marking.propagateOne (hm : m.Marking 0 []) (hgray : m.gray ≠ 0) :
    Marks m m.propagateOne ∧ m.propagateOne.Marking 0 [] := by
  obtain ⟨hmarks, ht⟩ := hm.tracing.propagateOne hgray
  exact ⟨hmarks, hm.of_marks hmarks ht⟩

/-- How many objects were not looked into. -/
def unlooked (m : Machine) : Nat :=
  m.objects.countP fun a => ((m.object a).map (·.color)) != some .black

theorem countP_lt {p q : Address → Bool} (hpq : ∀ a ∈ l, q a = true → p a = true)
    (ha : a ∈ l) (hp : p a = true) (hq : q a = false) : l.countP q < l.countP p := by
  induction l with
  | nil => exact absurd ha List.not_mem_nil
  | cons b l ih =>
    have hle := List.countP_mono_left fun c hc => hpq c (List.mem_cons_of_mem b hc)
    rcases List.mem_cons.1 ha with rfl | ha
    · rw [List.countP_cons_of_neg (by simp [hq]), List.countP_cons_of_pos hp]
      exact Nat.lt_succ_of_le hle
    · have hless := ih (fun c hc => hpq c (List.mem_cons_of_mem b hc)) ha
      by_cases hb : q b = true
      · rw [List.countP_cons_of_pos hb, List.countP_cons_of_pos (hpq b List.mem_cons_self hb)]
        exact Nat.succ_lt_succ hless
      · rw [List.countP_cons_of_neg hb, List.countP_cons]
        exact Nat.lt_of_lt_of_le hless (Nat.le_add_right _ _)

theorem Marks.unlooked_le (h : Marks m m') : m'.unlooked ≤ m.unlooked := by
  unfold unlooked
  rw [h.objects]
  refine List.countP_mono_left fun a _ ha => ?_
  cases ho : m.object a with
  | none => simp
  | some o =>
    obtain ⟨o', ho', -, hd⟩ := h.darkens a o ho
    simp only [ho', Option.map_some, bne_iff_ne, ne_eq, Option.some.injEq] at ha ⊢
    intro hblack
    rw [hblack] at hd
    exact ha hd.black

theorem Tracing.propagateOne_unlooked (hm : m.Tracing 0 []) (hg : m.Grounded) (hgray : m.gray ≠ 0) :
    m.propagateOne.unlooked < m.unlooked := by
  obtain ⟨o, ho, hcolor, heq⟩ := hm.head hgray
  have hmarks := marks_taken ho hcolor
  rw [heq]
  refine Nat.lt_of_le_of_lt (marks_reachAll _ _).unlooked_le ?_
  have hlisted : m.gray ∈ m.objects := by
    by_contra hmem
    rw [hg.black _ o ho hmem] at hcolor
    cases hcolor
  unfold unlooked
  rw [hmarks.objects]
  refine countP_lt (a := m.gray) (fun a _ ha => ?_) hlisted (by simp [ho, hcolor])
    (by simp [taken])
  by_cases hag : a = m.gray
  · subst hag
    simp [ho, hcolor]
  · simpa [taken, Function.update_of_ne hag] using ha

theorem Tracing.followFor {turns : Nat} (hm : m.Tracing 0 []) (hg : m.Grounded)
    (hturns : m.unlooked ≤ turns) :
    Marks m (m.followFor turns) ∧ (m.followFor turns).Tracing 0 [] ∧
      (m.followFor turns).gray = 0 := by
  induction turns generalizing m with
  | zero =>
    refine ⟨Marks.refl m, hm, ?_⟩
    by_contra hgray
    have := hm.propagateOne_unlooked hg hgray
    omega
  | succ turns ih =>
    unfold Machine.followFor
    split
    · next hgray => exact ⟨Marks.refl m, hm, hgray⟩
    · next hgray =>
        obtain ⟨hmarks, hnext⟩ := hm.propagateOne hgray
        have hless := hm.propagateOne_unlooked hg hgray
        obtain ⟨hmarks', hm', hgray'⟩ := ih hnext (hmarks.grounded hg) (by omega)
        exact ⟨hmarks.trans hmarks', hm', hgray'⟩

theorem unlooked_le (m : Machine) : m.unlooked ≤ m.objects.length := List.countP_le_length

theorem Marking.followGray (hm : m.Marking 0 []) (hb : m.Base) :
    Marks m m.followGray ∧ m.followGray.Marking 0 [] ∧ m.followGray.gray = 0 := by
  have hturns : m.unlooked ≤ 2 * m.objects.length + 1 := by
    have := m.unlooked_le
    omega
  obtain ⟨hmarks, ht, hgray⟩ := hm.tracing.followFor hb.grounded hturns
  exact ⟨hmarks, hm.of_marks hmarks ht, hgray⟩

end Machine
end Lhat.Gc
