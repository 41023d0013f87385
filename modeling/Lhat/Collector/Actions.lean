import Lhat.Collector.Births

/-!
# What each action does to the invariant

Writes come with barriers. A capture is closed, or goes with its registers, as a write
of the capture; a spare is born again, and then written over.
-/

namespace Lhat.Gc

variable {v : LhatValue} {s : Address} {base : Nat} {c : LhatCoroutine}

namespace Machine

variable {m m' : Machine} {a b u co x : Address} {o o' : LhatObject} {p : Payload} {r : Roots}
  {todo spare opened us : List Address}

/-! ### Writes of a field -/

theorem setPayload_eq (ho : m.object a = some o) :
    m.setPayload a p = m.rewrite a o p m.spareCoroutines m.openUpvalues := by
  unfold setPayload
  rw [ho]
  rfl

theorem setPayload_reopened (ho : m.object a = some o) :
    { m with openUpvalues := opened }.setPayload a p =
      m.rewrite a o p m.spareCoroutines opened :=
  setPayload_eq ho

theorem marks_barrier (m : Machine) (a b : Address) : Marks m (m.lhatGcBarrier a b) := by
  unfold lhatGcBarrier
  split
  · exact Marks.refl m
  · split
    · exact Marks.refl m
    · exact marks_reach m b

theorem barrier_kept (h : m.Kept b) : (m.lhatGcBarrier a x).Kept b := by
  unfold lhatGcBarrier
  split
  · exact h
  · split
    · exact h
    · next hnot =>
        have hphase := not_not.1 (not_or.1 hnot).1
        have hmarks := marks_reach m x
        refine kept_of_present ?_ (hmarks.present.2 h.present)
        rw [hmarks.gcstate, hphase]
        nofun

theorem barrierBack_objects (m : Machine) (a b : Address) :
    (m.lhatGcBarrierBack a b).objects = m.objects := by
  unfold lhatGcBarrierBack
  split
  · rfl
  · split <;> rfl

theorem InvAt.barriers {gained : List Address} {back : Bool} (hi : m.InvAt a gained)
    (hlisted : a ∈ m.objects) :
    (gained.foldl (fun m v => if back then m.lhatGcBarrierBack a v else m.lhatGcBarrier a v)
      m).Inv := by
  induction gained generalizing m with
  | nil => exact hi.done
  | cons v gained ih =>
    rw [List.foldl_cons]
    cases back with
    | true => exact ih (hi.barrierBack hlisted) (by rwa [if_pos rfl, barrierBack_objects])
    | false => exact ih hi.barrier (by rwa [if_neg Bool.false_ne_true, (marks_barrier m a v).objects])

theorem rewrite_covered (hb : m.Base) (ho : m.object a = some o) (hopened : opened ⊆ m.openUpvalues)
    (hslot : ∀ i v s, p ≠ .upvalue (some (.slot i)) v s) :
    (m.rewrite a o p spare opened).Covered := by
  intro u hu q i v s hq hp
  rcases rewrite_before ho hq with ⟨-, rfl⟩ | ⟨-, hq⟩
  · exact absurd hp (hslot i v s)
  · exact hb.covered u (hopened hu) q i v s hq hp

theorem Inv.write {gained : List Address} {back : Bool} (hi : m.Inv) (ho : m.object a = some o)
    (hlisted : a ∈ m.objects) (hkept : m.Kept a) (hplain : p.isPlain = true)
    (hgained : ∀ b ∈ p.links, b ∈ o.payload.links ∨ b ∈ gained)
    (hnamed : ∀ b ∈ gained, b ≠ 0 → m.Kept b) : (m.write a p gained back).Inv := by
  unfold Machine.write
  rw [setPayload_eq ho]
  have hslot : ∀ i v s, p ≠ .upvalue (some (.slot i)) v s := by
    rintro i v s rfl
    cases hplain
  have hr : m.Rewritable a o p m.spareCoroutines m.openUpvalues :=
    { object := ho
      listed := hlisted
      kept := hkept
      plain := by
        rintro root rfl
        cases hplain
      captured := fun i v s hp => absurd hp (hslot i v s)
      others := fun _ hu _ => hu
      suspended := by
        rintro co i v s rfl
        cases hplain
      covered := rewrite_covered hi.base ho (List.Subset.refl _) hslot }
  refine InvAt.barriers (hr.invAt (hi.at a gained) ?_ ?_ hi.closed.roots) hlisted
  · exact fun b hb _ => (hgained b hb).imp_right fun h => ⟨rfl, h⟩
  · intro b hb hne
    rcases hgained b hb with hlink | hmem
    · exact hi.closed.links a o ho hkept b hlink hne
    · exact hnamed b hmem hne

/-! ### Captures -/

theorem Base.listed_of_upvalue (hb : m.Base) {place : Option Place}
    (ho : m.object u = some o) (hp : o.payload = .upvalue place v s) : u ∈ m.objects := by
  by_contra hmem
  have hkind := (hb.constant u o ho hmem).2.1
  rw [hp] at hkind
  cases hkind

theorem Inv.reopen (hi : m.Inv)
    (hcaptured : ∀ u o i v s, m.object u = some o → o.payload = .upvalue (some (.slot i)) v s →
      u ∈ opened) (hopened : opened ⊆ m.openUpvalues) : { m with openUpvalues := opened }.Inv where
  base := ⟨hi.base.null, hi.base.nodup, hi.base.listed, hi.base.count, hi.base.white,
    hi.base.constant, hi.base.script, hi.base.apart, hcaptured, hi.base.suspended,
    fun u hu => hi.base.covered u (hopened hu)⟩
  closed := by
    refine ⟨hi.closed.links, fun b hb hne => hi.closed.roots b ?_ hne, hi.closed.weak,
      hi.closed.natives, hi.closed.caches⟩
    unfold rootList at hb ⊢
    simp only [List.mem_append] at hb ⊢
    rcases hb with (hb | hb) | hb
    · exact Or.inl (Or.inl hb)
    · exact Or.inl (Or.inr (hopened hb))
    · exact Or.inr hb
  phase := hi.phase.congr rfl rfl rfl rfl rfl rfl
  pending := hi.pending

theorem mem_rootList_open (hb : b ∈ m.openUpvalues) : b ∈ m.rootList := by
  unfold rootList
  exact List.mem_append_left _ (List.mem_append_right _ hb)

theorem mem_rootList_spare (hb : b ∈ m.spareCoroutines) : b ∈ m.rootList := by
  unfold rootList
  simp only [List.mem_append]
  grind

theorem mem_rootList_reopened (hsub : opened ⊆ m.openUpvalues)
    (hb : b ∈ (m.rewrite a o p m.spareCoroutines opened).rootList) : b ∈ m.rootList := by
  rcases mem_rootList_rewrite hb with hb | hb | hb
  · exact hb
  · exact mem_rootList_spare hb
  · exact mem_rootList_open (hsub hb)

theorem closeIntoCell_eq {place : Place} (ho : m.object u = some o)
    (hp : o.payload = .upvalue (some place) v s) :
    m.closeIntoCell u =
      (m.rewrite u o (.upvalue (some .closed) (m.read v place) s) m.spareCoroutines
        m.openUpvalues).lhatGcBarrier u (objectOf (m.read v place)) := by
  obtain ⟨color, gclist, payload⟩ := o
  obtain rfl : payload = _ := hp
  unfold closeIntoCell
  rw [ho]
  dsimp only
  rw [setPayload_eq ho]

theorem Inv.closeOne (hi : m.Inv) (hopen : m.openUpvalues = u :: us) :
    ({ m with openUpvalues := us }.closeIntoCell u).Inv ∧
      ({ m with openUpvalues := us }.closeIntoCell u).openUpvalues = us := by
  have hsub : us ⊆ m.openUpvalues := by
    rw [hopen]
    exact List.subset_cons_self u us
  by_cases hplace : ∃ o place v s, m.object u = some o ∧ o.payload = .upvalue (some place) v s
  · obtain ⟨o, place, v, s, ho, hp⟩ := hplace
    have hkept : m.Kept u := by
      refine hi.closed.roots u (mem_rootList_open ?_) ?_
      · rw [hopen]
        exact List.mem_cons_self
      · rintro rfl
        rw [hi.base.null] at ho
        cases ho
    have hr : m.Rewritable u o (.upvalue (some .closed) (m.read v place) s) m.spareCoroutines us :=
      { object := ho
        listed := hi.base.listed_of_upvalue ho hp
        kept := hkept
        plain := nofun
        captured := nofun
        others := by
          intro w hw hne
          rw [hopen] at hw
          exact (List.mem_cons.1 hw).resolve_left hne
        suspended := nofun
        covered := rewrite_covered hi.base ho hsub nofun }
    have hchild : objectOf (m.read v place) ∈ m.children o.payload := by
      rw [hp]
      exact List.mem_cons_self
    have hsuspended : s ∈ o.payload.links := by
      rw [hp]
      exact List.mem_append_right _ List.mem_cons_self
    have hat := hr.invAt (hi.at u [objectOf (m.read v place)]) ?_ ?_ ?_
    · have heq : { m with openUpvalues := us }.closeIntoCell u =
          (m.rewrite u o (.upvalue (some .closed) (m.read v place) s) m.spareCoroutines
            us).lhatGcBarrier u (objectOf (m.read v place)) :=
        closeIntoCell_eq ho hp
      rw [heq, (marks_barrier _ _ _).openUpvalues]
      exact ⟨hat.barrier.done, rfl⟩
    · intro b hb hne
      rcases List.mem_append.1 hb with hb | hb
      · exact Or.inr ⟨rfl, hb⟩
      · rw [List.mem_singleton.1 hb]
        exact Or.inl hsuspended
    · intro b hb hne
      rcases List.mem_append.1 hb with hb | hb
      · rw [List.mem_singleton.1 hb] at hne ⊢
        exact hi.closed.children hi.base ho hkept hchild hne
      · rw [List.mem_singleton.1 hb] at hne ⊢
        exact hi.closed.links u o ho hkept s hsuspended hne
    · exact fun b hb hne => hi.closed.roots b (mem_rootList_reopened hsub hb) hne
  · have heq : { m with openUpvalues := us }.closeIntoCell u = { m with openUpvalues := us } := by
      unfold closeIntoCell
      split
      · next color gclist place v s ho => exact absurd ⟨_, place, v, s, ho, rfl⟩ hplace
      · rfl
    rw [heq]
    refine ⟨hi.reopen (fun w o i v s ho hp => ?_) hsub, rfl⟩
    have hw := hi.base.captured w o i v s ho hp
    rw [hopen] at hw
    refine (List.mem_cons.1 hw).resolve_left ?_
    rintro rfl
    exact hplace ⟨o, .slot i, v, s, ho, hp⟩

theorem Inv.closeAbove {above : Nat} (hi : m.Inv) (hopen : m.openUpvalues = us) :
    (m.closeAbove above us).Inv := by
  induction us generalizing m with
  | nil => exact hi
  | cons u us ih =>
    unfold Machine.closeAbove
    split
    · obtain ⟨hinv, hrest⟩ := hi.closeOne hopen
      exact ih hinv hrest
    · exact hi

theorem Inv.detachOne {i : Nat} (hi : m.Inv)
    (j : Nat) (c' : LhatCoroutine) (hopen : m.openUpvalues = u :: us) (hco : m.object co = some o) (hc : o.payload = .coroutine c)
    (hu : m.object u = some o') (hp : o'.payload = .upvalue (some (.slot i)) v s)
    (hkept : m.Kept co) (hlisted : co ∈ m.objects)
    (hc' : (Payload.coroutine c').links = (Payload.coroutine c).links) :
    (((m.rewrite u o' (.upvalue (some (.saved co j)) v co) m.spareCoroutines us).rewrite co o
      (.coroutine c') m.spareCoroutines us).lhatGcBarrier u co).Inv := by
  have hsub : us ⊆ m.openUpvalues := by
    rw [hopen]
    exact List.subset_cons_self u us
  have hne : co ≠ u := by
    rintro rfl
    rw [hco] at hu
    obtain rfl := Option.some.inj hu
    rw [hc] at hp
    cases hp
  have hu0 : u ≠ 0 := by
    rintro rfl
    rw [hi.base.null] at hu
    cases hu
  have huopen : u ∈ m.openUpvalues := by
    rw [hopen]
    exact List.mem_cons_self
  have hr : m.Rewritable u o' (.upvalue (some (.saved co j)) v co) m.spareCoroutines us :=
    { object := hu
      listed := hi.base.listed_of_upvalue hu hp
      kept := hi.closed.roots u (mem_rootList_open huopen) hu0
      plain := nofun
      captured := nofun
      others := by
        intro w hw hne
        rw [hopen] at hw
        exact (List.mem_cons.1 hw).resolve_left hne
      suspended := by
        intro co' i' v' s' heq
        cases heq
        rfl
      covered := rewrite_covered hi.base hu hsub nofun }
  have hat := hr.invAt (hi.at u [co]) (fun b hb _ => Or.inr ⟨rfl, hb⟩)
    (fun b hb _ => (List.mem_singleton.1 hb).symm ▸ hkept)
    fun b hb hne => hi.closed.roots b (mem_rootList_reopened hsub hb) hne
  generalize hm₁ : m.rewrite u o' (.upvalue (some (.saved co j)) v co) m.spareCoroutines us = m₁ at hat
  have hobject : m₁.object co = some o := by
    rw [← hm₁]
    exact (Function.update_of_ne hne _ _).trans hco
  have hspare : m₁.spareCoroutines = m.spareCoroutines := by
    rw [← hm₁]
    rfl
  have hopen₁ : m₁.openUpvalues = us := by
    rw [← hm₁]
    rfl
  have hkept₁ : m₁.Kept co := by
    rw [← hm₁]
    exact (rewrite_kept hu).2 hkept
  have hlisted₁ : co ∈ m₁.objects := by
    rw [← hm₁]
    exact hlisted
  rw [← hspare, ← hopen₁]
  have hr₁ : m₁.Rewritable co o (.coroutine c') m₁.spareCoroutines m₁.openUpvalues :=
    { object := hobject
      listed := hlisted₁
      kept := hkept₁
      plain := nofun
      captured := nofun
      others := fun _ hw _ => hw
      suspended := nofun
      covered := rewrite_covered hat.base hobject (List.Subset.refl _) nofun }
  refine (hr₁.invAt hat (fun b hb _ => Or.inl ?_) (fun b hb hne => ?_) hat.closed.roots).barrier.done
  · rw [hc, ← hc']
    exact hb
  · refine hat.closed.links co o hobject hkept₁ b ?_ hne
    rw [hc, ← hc']
    exact hb

theorem Inv.detachAbove (hi : m.Inv) (hopen : m.openUpvalues = us) (hkept : m.Kept co)
    (hlisted : co ∈ m.objects) : (m.detachAbove co base us).Inv := by
  induction us generalizing m with
  | nil => exact hi
  | cons u us ih =>
    unfold Machine.detachAbove
    split
    · split
      · next color gclist c color' gclist' i v s hco hu =>
          have hne : co ≠ u := by
            rintro rfl
            rw [hco] at hu
            cases hu
          have hone := hi.detachOne (i - base) { c with openCaptures := u :: c.openCaptures }
            hopen hco rfl hu rfl hkept hlisted rfl
          dsimp only
          rw [setPayload_reopened hu, setPayload_eq ((rewrite_of_ne hne).trans hco)]
          refine ih hone (marks_barrier _ _ _).openUpvalues ?_ ?_
          · exact barrier_kept
              ((rewrite_kept ((rewrite_of_ne hne).trans hco)).2 ((rewrite_kept hu).2 hkept))
          · rw [(marks_barrier _ _ _).objects]
            exact hlisted
      · exact hi
    · exact hi

/-- What is asked of the captures of a coroutine taken up again. -/
def Standing (m : Machine) (base : Nat) (u : Address) : Prop :=
  m.Kept u ∧ ∀ o co i v s, m.object u = some o → o.payload = .upvalue (some (.saved co i)) v s →
    ∃ f ∈ m.roots.frames, f.covers (base + i)

theorem Inv.reattachOne {i : Nat} (hi : m.Inv) (hu : m.object u = some o)
    (hp : o.payload = .upvalue (some (.saved co i)) v s) (hs : m.Standing base u) :
    (m.rewrite u o (.upvalue (some (.slot (base + i))) v 0) m.spareCoroutines
      (u :: m.openUpvalues)).Inv := by
  obtain ⟨hkept, hframe⟩ := hs
  have hr : m.Rewritable u o (.upvalue (some (.slot (base + i))) v 0) m.spareCoroutines
      (u :: m.openUpvalues) :=
    { object := hu
      listed := hi.base.listed_of_upvalue hu hp
      kept := hkept
      plain := nofun
      captured := fun _ _ _ _ => List.mem_cons_self
      others := fun _ hw _ => List.mem_cons_of_mem u hw
      suspended := nofun
      covered := by
        intro w hw q i' v' s' hq hp'
        rcases rewrite_before hu hq with ⟨rfl, rfl⟩ | ⟨hne, hq⟩
        · obtain rfl : base + i = i' := by cases hp'; rfl
          exact hframe o co i v s hu hp
        · exact hi.base.covered w ((List.mem_cons.1 hw).resolve_left hne) q i' v' s' hq hp' }
  have hzero : ∀ b ∈ (Payload.upvalue (some (.slot (base + i))) v 0).links, b = 0 := fun b hb =>
    List.mem_singleton.1 hb
  refine (hr.invAt (hi.at 0 []) (fun b hb hne => absurd (hzero b hb) hne)
    (fun b hb hne => absurd (hzero b hb) hne) fun b hb hne => ?_).done
  rcases mem_rootList_rewrite hb with hb | hb | hb
  · exact hi.closed.roots b hb hne
  · exact hi.closed.roots b (mem_rootList_spare hb) hne
  · rcases List.mem_cons.1 hb with rfl | hb
    · exact hkept
    · exact hi.closed.roots b (mem_rootList_open hb) hne

theorem Inv.reattachEach (hi : m.Inv) (hs : ∀ u ∈ us, m.Standing base u) :
    (m.reattachEach co base us).Inv := by
  induction us generalizing m with
  | nil => exact hi
  | cons u us ih =>
    unfold Machine.reattachEach
    split
    · next color gclist co' i v s hu =>
        have hone := hi.reattachOne hu rfl (hs u List.mem_cons_self)
        rw [setPayload_eq hu]
        refine ih hone fun w hw => ?_
        obtain ⟨hkept, hframe⟩ := hs w (List.mem_cons_of_mem u hw)
        refine ⟨(rewrite_kept hu).2 hkept, fun q co'' i' v' s' hq hp => ?_⟩
        rcases rewrite_before hu hq with ⟨-, rfl⟩ | ⟨-, hq⟩
        · cases hp
        · exact hframe q co'' i' v' s' hq hp
    · exact ih hi fun w hw => hs w (List.mem_cons_of_mem u hw)

theorem Inv.rewriteCoroutine (hi : m.Inv) (c : LhatCoroutine) (todo spare : List Address)
    (ho : m.object co = some o)
    (hlisted : co ∈ m.objects) (hkept : m.Kept co)
    (hlinks : ∀ b ∈ (Payload.coroutine c).links, b ≠ 0 →
      b ∈ o.payload.links ∨ (m.Kept b ∧ b ∈ todo))
    (hspare : ∀ b ∈ spare, b ≠ 0 → m.Kept b) :
    (m.rewrite co o (.coroutine c) spare m.openUpvalues).InvAt co todo := by
  have hr : m.Rewritable co o (.coroutine c) spare m.openUpvalues :=
    { object := ho
      listed := hlisted
      kept := hkept
      plain := nofun
      captured := nofun
      others := fun _ hw _ => hw
      suspended := nofun
      covered := rewrite_covered hi.base ho (List.Subset.refl _) nofun }
  refine hr.invAt (hi.at co todo) (fun b hb hne => ?_) (fun b hb hne => ?_) fun b hb hne => ?_
  · exact (hlinks b hb hne).imp_right fun h => ⟨rfl, h.2⟩
  · rcases hlinks b hb hne with hlink | ⟨hk, -⟩
    · exact hi.closed.links co o ho hkept b hlink hne
    · exact hk
  · rcases mem_rootList_rewrite hb with hb | hb | hb
    · exact hi.closed.roots b hb hne
    · exact hspare b hb hne
    · exact hi.closed.roots b (mem_rootList_open hb) hne

theorem Inv.reattachUpvalues (hi : m.Inv) (hlisted : co ∈ m.objects)
    (hkept : m.Kept co)
    (hs : ∀ o c, m.object co = some o → o.payload = .coroutine c →
      ∀ u ∈ c.openCaptures, m.Standing base u) : (m.reattachUpvalues co base).Inv := by
  unfold Machine.reattachUpvalues
  split
  · next color gclist c hco =>
      rw [setPayload_eq hco]
      have hone := hi.rewriteCoroutine { c with openCaptures := [] } [] m.spareCoroutines hco hlisted
        hkept (fun b hb _ => Or.inl hb) fun b hb hne => hi.closed.roots b (mem_rootList_spare hb) hne
      refine hone.done.reattachEach fun u hu => ?_
      obtain ⟨hk, hframe⟩ := hs _ c hco rfl u hu
      refine ⟨(rewrite_kept hco).2 hk, fun q co' i v s hq hp => ?_⟩
      rcases rewrite_before hco hq with ⟨-, rfl⟩ | ⟨-, hq⟩
      · cases hp
      · exact hframe q co' i v s hq hp
  · exact hi

theorem Inv.vmCoroutineSpare (hi : m.Inv) (hlisted : co ∈ m.objects) (hkept : m.Kept co) :
    (m.vmCoroutineSpare co).Inv := by
  unfold Machine.vmCoroutineSpare
  split
  · next color gclist c hco =>
      split
      · have hspare : ∀ b ∈ m.spareCoroutines ++ [co], b ≠ 0 → m.Kept b := by
          intro b hb hne
          rcases List.mem_append.1 hb with hb | hb
          · exact hi.closed.roots b (mem_rootList_spare hb) hne
          · rw [List.mem_singleton.1 hb]
            exact hkept
        rw [setPayload_eq hco]
        refine (hi.rewriteCoroutine { c with closure := 0, registers := [] } []
          (m.spareCoroutines ++ [co]) hco hlisted hkept (fun b hb hne => ?_) hspare).done
        rcases List.mem_cons.1 hb with rfl | hb
        · exact absurd rfl hne
        · exact Or.inl (List.mem_append_right _ (List.mem_cons_of_mem _ hb))
      · exact hi
  · exact hi

/-! ### A coroutine made again -/

theorem Base.listed_of_coroutine (hb : m.Base) (ho : m.object co = some o)
    (hp : o.payload = .coroutine c) : co ∈ m.objects := by
  by_contra hmem
  have hkind := (hb.constant co o ho hmem).2.1
  rw [hp] at hkind
  cases hkind

theorem remake_eq {closure : Address} {registers : Nat}
    (ho : m.object co = some o) (hp : o.payload = .coroutine c) :
    m.remake co closure registers =
      (m.rebirth co o).rewrite co { o with color := m.white }
        (.coroutine
          { c with
            closure := closure
            state := .fresh
            registers := List.replicate registers .nil
            cleanupCount := 0
            openCaptures := [] }) m.spareCoroutines m.openUpvalues := by
  unfold remake rewrite rebirth
  rw [ho]
  dsimp only
  rw [hp]
  dsimp only
  rw [Function.update_idem]

theorem remake_self {closure : Address} {registers : Nat}
    (hco : ¬ ∃ o c, m.object co = some o ∧ o.payload = .coroutine c) :
    m.remake co closure registers = m := by
  unfold remake
  split
  · next o ho =>
      split
      · next c hp => exact absurd ⟨o, c, ho, hp⟩ hco
      · rfl
  · rfl

theorem Inv.remake (hi : m.Inv) (closure : Address) (registers : Nat)
    (hspare : co ∈ m.spareCoroutines) (hclosure : closure ≠ 0 → m.Kept closure)
    (hclean : m.gcstate = .propagate → ∀ o, m.object co = some o → o.color ≠ .gray ∧
      ∀ b q, m.object b = some q → q.color = .black → co ∉ q.payload.links) :
    (m.remake co closure registers).Inv ∧ (∀ b, m.Kept b → (m.remake co closure registers).Kept b) ∧
      m.remake co closure registers =
        { m with object := (m.remake co closure registers).object } := by
  by_cases hco : ∃ o c, m.object co = some o ∧ o.payload = .coroutine c
  · obtain ⟨o, c, ho, hp⟩ := hco
    have hlisted := hi.base.listed_of_coroutine ho hp
    have hne : co ≠ 0 := by
      rintro rfl
      rw [hi.base.null] at ho
      cases ho
    have hkept : m.Kept co := hi.closed.roots co (mem_rootList_spare hspare) hne
    have hborn := hi.rebirth ho hlisted hkept fun h => hclean h o ho
    have hobject : (m.rebirth co o).object co = some { o with color := m.white } :=
      Function.update_self ..
    have hk : ∀ b, m.Kept b → (m.rebirth co o).Kept b := fun b => rebirth_kept hi.base
    have hat := hborn.rewriteCoroutine
      { c with
        closure := closure
        state := .fresh
        registers := List.replicate registers .nil
        cleanupCount := 0
        openCaptures := [] } [closure] m.spareCoroutines hobject hlisted (hk co hkept) ?_ ?_
    · rw [remake_eq ho hp]
      refine ⟨(hat.skip fun _ q hq hblack => ?_).done, fun b hb => (rewrite_kept hobject).2 (hk b hb),
        rfl⟩
      rcases rewrite_before hobject hq with ⟨-, rfl⟩ | ⟨hne, -⟩
      · have hw := hi.base.white
        have hblack : m.white = .black := hblack
        rw [hblack] at hw
        cases hw
      · exact absurd rfl hne
    · intro b hb hne
      have hp' : ({ o with color := m.white } : LhatObject).payload.links =
          (Payload.coroutine c).links := congrArg Payload.links hp
      rw [hp']
      simp only [Payload.links, List.mem_append, List.mem_map, List.mem_replicate] at hb ⊢
      rcases hb with ⟨v, ⟨-, rfl⟩, rfl⟩ | hb
      · exact absurd rfl hne
      · rcases List.mem_cons.1 hb with rfl | hb
        · exact Or.inr ⟨hk _ (hclosure hne), List.mem_cons_self⟩
        · exact Or.inl (Or.inr (List.mem_cons_of_mem _ hb))
    · exact fun b hb hne => hk b (hi.closed.roots b (mem_rootList_spare hb) hne)
  · rw [remake_self hco]
    exact ⟨hi, fun _ hb => hb, rfl⟩

end Machine
end Lhat.Gc
