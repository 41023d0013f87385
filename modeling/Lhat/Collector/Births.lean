import Lhat.Collector.Writes

/-!
# What is born

An object is born in the white the sweep leaves, at the head of the list and so
behind the cursor. Nothing that is kept refers to an address nothing stands at, so an
object born there is referred to by what it is put into alone.
-/

namespace Lhat.Gc

namespace Machine

variable {m m' : Machine} {a b : Address} {o o' : LhatObject} {p : Payload} {r : Roots}
  {spare opened pending : List Address}

/-! ### The roots -/

theorem Inv.reroot (hi : m.Inv)
    (hroots : ∀ b ∈ { m with
      roots := r, spareCoroutines := spare, pendingDispose := pending }.rootList,
        b ≠ 0 → m.Kept b)
    (hcovered : { m with
      roots := r, spareCoroutines := spare, pendingDispose := pending }.Covered)
    (hpending : pending.Nodup) :
    { m with roots := r, spareCoroutines := spare, pendingDispose := pending }.Inv where
  base := ⟨hi.base.null, hi.base.nodup, hi.base.listed, hi.base.count, hi.base.white,
    hi.base.constant, hi.base.script, hi.base.apart, hi.base.captured, hi.base.suspended, hcovered⟩
  closed := ⟨hi.closed.links, hroots, hi.closed.weak, hi.closed.natives, hi.closed.caches⟩
  phase := hi.phase.congr rfl rfl rfl rfl rfl rfl
  pending := hpending

/-! ### An object -/

/-- An object born, with the roots and the captures the instruction leaves. -/
def born (m : Machine) (a : Address) (p : Payload) (r : Roots) (opened : List Address) : Machine :=
  { m.allocate a p with roots := r, openUpvalues := opened }

/-- What is asked of what is born. -/
structure Bearable (m : Machine) (a : Address) (p : Payload) (r : Roots)
    (opened : List Address) : Prop where
  ne_zero : a ≠ 0
  fresh : m.object a = none
  links : ∀ b ∈ p.links, b ≠ 0 → m.Kept b
  script : ∀ root, p = .script root → root.objects.Nodup ∧ (∀ b ∈ root.objects, m.Constant b) ∧
    (∀ b o, m.Constant b → m.object b = some o →
      ∀ c ∈ o.payload.links, c ∈ root.objects → b ∈ root.objects) ∧
      ∀ s o other, m.object s = some o → o.payload = .script other →
        ∀ b ∈ other.objects, b ∉ root.objects
  captured : ∀ i v s, p = .upvalue (some (.slot i)) v s → a ∈ opened
  others : ∀ u ∈ m.openUpvalues, u ∈ opened
  suspended : ∀ co i v s, p = .upvalue (some (.saved co i)) v s → s = co
  roots : ∀ b ∈ (m.born a p r opened).rootList, b ≠ 0 → m.Kept b ∨ b = a
  covered : (m.born a p r opened).Covered

theorem born_before (hb : (m.born a p r opened).object b = some o) :
    (b = a ∧ o = { color := m.white, payload := p }) ∨ (b ≠ a ∧ m.object b = some o) := by
  rcases update_eq_some.1 hb with ⟨rfl, rfl⟩ | ⟨hne, hb⟩
  · exact Or.inl ⟨rfl, rfl⟩
  · exact Or.inr ⟨hne, hb⟩

namespace Bearable

variable (h : m.Bearable a p r opened)
include h

theorem ne (hb : m.object b = some o) : b ≠ a := by
  rintro rfl
  rw [h.fresh] at hb
  cases hb

theorem after (hb : m.object b = some o) : (m.born a p r opened).object b = some o :=
  (Function.update_of_ne (h.ne hb) _ _).trans hb

theorem constant : (m.born a p r opened).Constant b ↔ m.Constant b := by
  constructor
  · rintro ⟨⟨o, ho⟩, hmem⟩
    obtain ⟨hne, hmem⟩ := not_or.1 (mt List.mem_cons.2 hmem)
    rcases born_before ho with ⟨rfl, -⟩ | ⟨-, ho⟩
    · exact absurd rfl hne
    · exact ⟨⟨o, ho⟩, hmem⟩
  · rintro ⟨⟨o, ho⟩, hmem⟩
    refine ⟨⟨o, h.after ho⟩, fun hin => ?_⟩
    rcases List.mem_cons.1 hin with rfl | hin
    · exact h.ne ho rfl
    · exact hmem hin

theorem base (hb : m.Base) : (m.born a p r opened).Base where
  null := (Function.update_of_ne h.ne_zero.symm _ _).trans hb.null
  nodup := by
    refine List.nodup_cons.2 ⟨fun hmem => ?_, hb.nodup⟩
    obtain ⟨o, ho⟩ := hb.listed a hmem
    exact h.ne ho rfl
  listed := by
    intro b hmem
    rcases List.mem_cons.1 hmem with rfl | hmem
    · exact ⟨_, Function.update_self ..⟩
    · obtain ⟨o, ho⟩ := hb.listed b hmem
      exact ⟨o, h.after ho⟩
  count := congrArg (· + 1) hb.count
  white := hb.white
  constant := by
    intro b o ho hmem
    obtain ⟨hne, hmem⟩ := not_or.1 (mt List.mem_cons.2 hmem)
    rcases born_before ho with ⟨rfl, -⟩ | ⟨-, ho⟩
    · exact absurd rfl hne
    · obtain ⟨hblack, hkind, hlinks⟩ := hb.constant b o ho hmem
      exact ⟨hblack, hkind, fun c hc hne => (h.constant).2 (hlinks c hc hne)⟩
  script := by
    intro s o root ho hroot
    have hdata : root.objects.Nodup ∧ (∀ b ∈ root.objects, m.Constant b) ∧
        ∀ b q, m.Constant b → m.object b = some q →
          ∀ c ∈ q.payload.links, c ∈ root.objects → b ∈ root.objects := by
      rcases born_before ho with ⟨-, rfl⟩ | ⟨-, ho⟩
      · obtain ⟨hnodup, hin, hown, -⟩ := h.script root hroot
        exact ⟨hnodup, hin, hown⟩
      · exact hb.script s o root ho hroot
    obtain ⟨hnodup, hin, hown⟩ := hdata
    refine ⟨hnodup, fun b hmem => h.constant.2 (hin b hmem), fun b q hc hq => ?_⟩
    obtain ⟨⟨q', hq'⟩, hlisted⟩ := h.constant.1 hc
    have hne := h.ne hq'
    rcases born_before hq with ⟨rfl, -⟩ | ⟨-, hbq⟩
    · exact absurd rfl hne
    · exact hown b q ⟨⟨q', hq'⟩, hlisted⟩ hbq
  apart := by
    intro s t q q' root root' hne hs ht hroot hroot' b hmem hmem'
    rcases born_before hs with ⟨rfl, rfl⟩ | ⟨-, hso⟩
    · rcases born_before ht with ⟨rfl, -⟩ | ⟨-, ht⟩
      · exact hne rfl
      · exact (h.script root hroot).2.2.2 t q' root' ht hroot' b hmem' hmem
    · rcases born_before ht with ⟨rfl, rfl⟩ | ⟨-, hto⟩
      · exact (h.script root' hroot').2.2.2 s q root hso hroot b hmem hmem'
      · exact hb.apart s t q q' root root' hne hso hto hroot hroot' b hmem hmem'
  captured := by
    intro u q i v s hq hp
    rcases born_before hq with ⟨rfl, rfl⟩ | ⟨-, hq⟩
    · exact h.captured i v s hp
    · exact h.others u (hb.captured u q i v s hq hp)
  suspended := by
    intro u q co i v s hq hp
    rcases born_before hq with ⟨-, rfl⟩ | ⟨-, hq⟩
    · exact h.suspended co i v s hp
    · exact hb.suspended u q co i v s hq hp
  covered := h.covered

theorem kept (hb : m.Kept b) : (m.born a p r opened).Kept b := by
  obtain ⟨o, ho, hlive⟩ := hb
  exact ⟨o, h.after ho, hlive⟩

omit h in
theorem kept_self (hb : m.Base) : (m.born a p r opened).Kept a :=
  ⟨_, Function.update_self .., fun _ => (Color.other_ne hb.white).symm⟩

theorem closed (hb : m.Base) (hc : m.Closed) : (m.born a p r opened).Closed where
  links := by
    intro b o ho hk c hmem hne
    rcases born_before ho with ⟨rfl, rfl⟩ | ⟨-, hbo⟩
    · exact h.kept (h.links c hmem hne)
    · refine h.kept (hc.links b o hbo ?_ c hmem hne)
      obtain ⟨o', ho', hlive⟩ := hk
      obtain rfl : o = o' := by simpa [ho] using ho'
      exact ⟨o, hbo, hlive⟩
  roots := by
    intro b hmem hne
    rcases h.roots b hmem hne with hk | rfl
    · exact h.kept hk
    · exact kept_self hb
  weak := fun entry hentry hlive hne => h.kept (hc.weak entry hentry hlive hne)
  natives := fun b hb hne => h.kept (hc.natives b hb hne)
  caches := fun cache hcache hanswered b heq hne => h.kept (hc.caches cache hcache hanswered b heq hne)

theorem marking (hb : m.Base) (hc : m.Closed) (hphase : m.gcstate = .propagate)
    (hm : m.Marking 0 []) : (m.born a p r opened).Marking 0 [] where
  threaded := by
    obtain ⟨l, ht⟩ := hm.threaded
    refine ⟨l, ht.chain.congr fun b hmem => ?_, ht.nodup, fun b o ho hgray => ?_⟩
    · obtain ⟨o, ho, -⟩ := ht.chain.gray b hmem
      rw [h.after ho, ho]
    · rcases born_before ho with ⟨rfl, rfl⟩ | ⟨-, ho⟩
      · have hw := hb.white
        have hgray : m.white = .gray := hgray
        rw [hgray] at hw
        cases hw
      · exact ht.all b o ho hgray
  sweep := by
    show (if m.sweep = 0 then 0 else m.sweep + [a].length) = 0
    rw [if_pos hm.sweep]
  colors := by
    intro b hmem o ho
    rcases born_before ho with ⟨rfl, rfl⟩ | ⟨hne, ho⟩
    · exact Or.inl rfl
    · exact hm.colors b ((List.mem_cons.1 hmem).resolve_left hne) o ho
  blacks := by
    intro b o ho hblack c hmem hw
    exfalso
    rcases born_before ho with ⟨rfl, rfl⟩ | ⟨-, hbo⟩
    · have hw := hb.white
      have hblack : m.white = .black := hblack
      rw [hblack] at hw
      cases hw
    · obtain ⟨q, hq, hwq⟩ := whiteAt_iff.1 hw
      rcases born_before hq with ⟨rfl, -⟩ | ⟨-, hcq⟩
      · have hpropagate : m.gcstate ≠ .sweep := by rw [hphase]; nofun
        have hk := hc.links b o hbo (kept_of_present hpropagate ⟨o, hbo⟩) c hmem h.ne_zero
        obtain ⟨q', hq', -⟩ := hk
        exact h.ne hq' rfl
      · exact List.not_mem_nil (hm.blacks b o hbo hblack c hmem (whiteAt_iff.2 ⟨q, hcq, hwq⟩)).2

omit h in
theorem sweeping (hb : m.Base) (hs : m.Sweeping) : (m.born a p r opened).Sweeping where
  gray := hs.gray
  colors := by
    intro b o ho
    rcases born_before ho with ⟨-, rfl⟩ | ⟨-, ho⟩
    · intro hgray
      have hw := hb.white
      have hgray : m.white = .gray := hgray
      rw [hgray] at hw
      cases hw
    · exact hs.colors b o ho
  cursor := by
    have := hs.cursor
    show (if m.sweep = 0 then 0 else m.sweep + [a].length) ≤ ([a] ++ m.objects).length
    simp only [List.length_append, List.length_singleton]
    split <;> omega
  passed := by
    intro b hmem o ho
    have hmem : b ∈ ([a] ++ m.objects).take (if m.sweep = 0 then 0 else m.sweep + [a].length) := hmem
    rcases born_before ho with ⟨-, rfl⟩ | ⟨hne, ho⟩
    · rfl
    · split at hmem
      · exact absurd hmem List.not_mem_nil
      · rw [Nat.add_comm, List.take_length_add_append] at hmem
        rcases List.mem_append.1 hmem with hmem | hmem
        · exact absurd (List.mem_singleton.1 hmem) hne
        · exact hs.passed b hmem o ho
  spent := by
    intro b o ho hdead
    rcases born_before ho with ⟨-, rfl⟩ | ⟨-, ho⟩
    · exact absurd (Eq.symm hdead) (Color.other_ne hb.white)
    · exact hs.spent b o ho hdead

theorem inv (hi : m.Inv) : (m.born a p r opened).Inv where
  base := h.base hi.base
  closed := h.closed hi.base hi.closed
  phase := by
    have hsame : (m.born a p r opened).gcstate = m.gcstate := rfl
    unfold Phase
    rw [hsame]
    cases hm : m.gcstate with
    | pause =>
      have hidle := hi.idle hm
      refine ⟨hidle.gray, ?_, fun b hmem o ho => ?_⟩
      · show (if m.sweep = 0 then 0 else m.sweep + [a].length) = 0
        rw [if_pos hidle.sweep]
      · rcases born_before ho with ⟨-, rfl⟩ | ⟨hne, ho⟩
        · rfl
        · exact hidle.colors b ((List.mem_cons.1 hmem).resolve_left hne) o ho
    | propagate => exact h.marking hi.base hi.closed hm (hi.marking hm)
    | sweep => exact Bearable.sweeping hi.base (hi.sweeping hm)
  pending := hi.pending

end Bearable

/-! ### Constants -/

/-- The objects of a chunk, laid over what stands. -/
def laid (object : Address → Option LhatObject) (constants : List (Address × Payload)) :
    Address → Option LhatObject :=
  constants.foldl
    (fun object c => Function.update object c.1 (some { color := .black, payload := c.2 })) object

theorem laid_of_notMem {object : Address → Option LhatObject} {constants : List (Address × Payload)}
    (hb : b ∉ constants.map Prod.fst) : laid object constants b = object b := by
  induction constants generalizing object with
  | nil => rfl
  | cons c constants ih =>
    obtain ⟨hne, hb⟩ := not_or.1 (mt List.mem_cons.2 hb)
    exact (ih hb).trans (Function.update_of_ne hne _ _)

theorem laid_of_mem (object : Address → Option LhatObject) {constants : List (Address × Payload)}
    (hb : b ∈ constants.map Prod.fst) :
    ∃ p, (b, p) ∈ constants ∧ laid object constants b = some { color := .black, payload := p } := by
  induction constants generalizing object with
  | nil => exact absurd hb List.not_mem_nil
  | cons c constants ih =>
    by_cases hrest : b ∈ constants.map Prod.fst
    · obtain ⟨p, hp, heq⟩ :=
        ih (Function.update object c.1 (some { color := .black, payload := c.2 })) hrest
      exact ⟨p, List.mem_cons_of_mem c hp, heq⟩
    · obtain rfl : b = c.1 := (List.mem_cons.1 hb).resolve_right hrest
      exact ⟨c.2, List.mem_cons_self, (laid_of_notMem hrest).trans (Function.update_self ..)⟩

/-- What is asked of the constants of a chunk. -/
structure Loadable (m : Machine) (constants : List (Address × Payload)) : Prop where
  fresh : ∀ c ∈ constants, c.1 ≠ 0 ∧ m.object c.1 = none
  constant : ∀ c ∈ constants, c.2.isConstant = true ∧
    ∀ b ∈ c.2.links, b ≠ 0 → b ∈ constants.map Prod.fst

namespace Loadable

variable {constants : List (Address × Payload)} (h : m.Loadable constants)
include h

theorem ne (hb : m.object b = some o) : b ∉ constants.map Prod.fst := by
  intro hmem
  obtain ⟨c, hc, rfl⟩ := List.mem_map.1 hmem
  rw [(h.fresh c hc).2] at hb
  cases hb

theorem after (hb : m.object b = some o) : (m.withConstants constants).object b = some o :=
  (laid_of_notMem (h.ne hb)).trans hb

omit h in
theorem before (hb : (m.withConstants constants).object b = some o) :
    (b ∈ constants.map Prod.fst ∧
      ∃ p, (b, p) ∈ constants ∧ o = { color := .black, payload := p }) ∨ m.object b = some o := by
  have hb : laid m.object constants b = some o := hb
  by_cases hmem : b ∈ constants.map Prod.fst
  · obtain ⟨p, hp, heq⟩ := laid_of_mem m.object hmem
    rw [heq] at hb
    exact Or.inl ⟨hmem, p, hp, (Option.some.inj hb).symm⟩
  · rw [laid_of_notMem hmem] at hb
    exact Or.inr hb

theorem constant_new (hb : m.Base) (hmem : b ∈ constants.map Prod.fst) :
    (m.withConstants constants).Constant b := by
  obtain ⟨p, -, heq⟩ := laid_of_mem m.object hmem
  refine ⟨⟨_, heq⟩, fun hlisted => ?_⟩
  obtain ⟨o, ho⟩ := hb.listed b hlisted
  exact h.ne ho hmem

theorem constant_old (hb : m.Constant b) : (m.withConstants constants).Constant b := by
  obtain ⟨⟨o, ho⟩, hlisted⟩ := hb
  exact ⟨⟨o, h.after ho⟩, hlisted⟩

theorem own (hb : m.Base) {root : LhatProto} (hin : ∀ b ∈ root.objects, m.Constant b)
    (hown : ∀ b o, m.Constant b → m.object b = some o →
      ∀ c ∈ o.payload.links, c ∈ root.objects → b ∈ root.objects) :
    ∀ b o, (m.withConstants constants).Constant b →
      (m.withConstants constants).object b = some o →
        ∀ c ∈ o.payload.links, c ∈ root.objects → b ∈ root.objects := by
  intro b o hc ho c hlink hmem
  rcases before ho with ⟨-, p, hp, rfl⟩ | hbo
  · -- A constant just read refers to those it was read with.
    exfalso
    obtain ⟨⟨q, hq⟩, -⟩ := hin c hmem
    have hne : c ≠ 0 := by
      rintro rfl
      rw [hb.null] at hq
      cases hq
    exact h.ne hq ((h.constant (b, p) hp).2 c hlink hne)
  · exact hown b o ⟨⟨o, hbo⟩, hc.2⟩ hbo c hlink hmem

theorem base (hb : m.Base) : (m.withConstants constants).Base where
  null := by
    refine (laid_of_notMem fun hmem => ?_).trans hb.null
    obtain ⟨c, hc, hzero⟩ := List.mem_map.1 hmem
    exact (h.fresh c hc).1 hzero
  nodup := hb.nodup
  listed := by
    intro b hmem
    obtain ⟨o, ho⟩ := hb.listed b hmem
    exact ⟨o, h.after ho⟩
  count := hb.count
  white := hb.white
  constant := by
    intro b o ho hmem
    rcases before ho with ⟨-, p, hp, rfl⟩ | hbo
    · obtain ⟨hkind, hlinks⟩ := h.constant (b, p) hp
      exact ⟨rfl, hkind, fun c hc hne => h.constant_new hb (hlinks c hc hne)⟩
    · obtain ⟨hblack, hkind, hlinks⟩ := hb.constant b o hbo hmem
      exact ⟨hblack, hkind, fun c hc hne => h.constant_old (hlinks c hc hne)⟩
  script := by
    intro s o root ho hroot
    rcases before ho with ⟨-, p, hp, rfl⟩ | hso
    · have hkind := (h.constant (s, p) hp).1
      have hroot : p = .script root := hroot
      rw [hroot] at hkind
      cases hkind
    · obtain ⟨hnodup, hin, hown⟩ := hb.script s o root hso hroot
      exact ⟨hnodup, fun b hmem => h.constant_old (hin b hmem), h.own hb hin hown⟩
  apart := by
    intro s t q q' root root' hne hs ht hroot hroot'
    rcases before hs with ⟨-, p, hp, rfl⟩ | hs
    · have hkind := (h.constant (s, p) hp).1
      have hroot : p = .script root := hroot
      rw [hroot] at hkind
      cases hkind
    · rcases before ht with ⟨-, p, hp, rfl⟩ | ht
      · have hkind := (h.constant (t, p) hp).1
        have hroot' : p = .script root' := hroot'
        rw [hroot'] at hkind
        cases hkind
      · exact hb.apart s t q q' root root' hne hs ht hroot hroot'
  captured := by
    intro u q i v s hq hp
    rcases before hq with ⟨-, p, hmem, rfl⟩ | hq
    · have hkind := (h.constant (u, p) hmem).1
      have hp : p = .upvalue (some (.slot i)) v s := hp
      rw [hp] at hkind
      cases hkind
    · exact hb.captured u q i v s hq hp
  suspended := by
    intro u q co i v s hq hp
    rcases before hq with ⟨-, p, hmem, rfl⟩ | hq
    · have hkind := (h.constant (u, p) hmem).1
      have hp : p = .upvalue (some (.saved co i)) v s := hp
      rw [hp] at hkind
      cases hkind
    · exact hb.suspended u q co i v s hq hp
  covered := by
    intro u hu q i v s hq hp
    rcases before hq with ⟨-, p, hmem, rfl⟩ | hq
    · have hkind := (h.constant (u, p) hmem).1
      have hp : p = .upvalue (some (.slot i)) v s := hp
      rw [hp] at hkind
      cases hkind
    · exact hb.covered u hu q i v s hq hp

theorem kept (hb : m.Kept b) : (m.withConstants constants).Kept b := by
  obtain ⟨o, ho, hlive⟩ := hb
  exact ⟨o, h.after ho, hlive⟩

theorem closed (hb : m.Base) (hc : m.Closed) : (m.withConstants constants).Closed where
  links := by
    intro b o ho hk c hmem hne
    rcases before ho with ⟨-, p, hp, rfl⟩ | hbo
    · exact (h.base hb).constant_kept (h.constant_new hb ((h.constant (b, p) hp).2 c hmem hne))
    · refine h.kept (hc.links b o hbo ?_ c hmem hne)
      obtain ⟨o', ho', hlive⟩ := hk
      obtain rfl : o = o' := by simpa [ho] using ho'
      exact ⟨o, hbo, hlive⟩
  roots := fun b hb hne => h.kept (hc.roots b hb hne)
  weak := fun entry hentry hlive hne => h.kept (hc.weak entry hentry hlive hne)
  natives := fun b hb hne => h.kept (hc.natives b hb hne)
  caches := fun cache hcache hanswered b heq hne => h.kept (hc.caches cache hcache hanswered b heq hne)

theorem marking (hb : m.Base) (hm : m.Marking 0 []) :
    (m.withConstants constants).Marking 0 [] where
  threaded := by
    obtain ⟨l, ht⟩ := hm.threaded
    refine ⟨l, ht.chain.congr fun b hmem => ?_, ht.nodup, fun b o ho hgray => ?_⟩
    · obtain ⟨o, ho, -⟩ := ht.chain.gray b hmem
      rw [h.after ho, ho]
    · rcases before ho with ⟨-, p, -, rfl⟩ | ho
      · cases hgray
      · exact ht.all b o ho hgray
  sweep := hm.sweep
  colors := by
    intro b hmem o ho
    rcases before ho with ⟨-, p, -, rfl⟩ | ho
    · exact Or.inr (Or.inr rfl)
    · exact hm.colors b hmem o ho
  blacks := by
    intro b o ho hblack c hmem hw
    exfalso
    obtain ⟨q, hq, hwq⟩ := whiteAt_iff.1 hw
    rcases before hq with ⟨-, p, -, rfl⟩ | hcq
    · cases hwq
    · rcases before ho with ⟨-, p, hp, rfl⟩ | hbo
      · have hne : c ≠ 0 := by
          rintro rfl
          rw [hb.null] at hcq
          cases hcq
        exact h.ne hcq ((h.constant (b, p) hp).2 c hmem hne)
      · exact List.not_mem_nil (hm.blacks b o hbo hblack c hmem (whiteAt_iff.2 ⟨q, hcq, hwq⟩)).2

theorem inv (hi : m.Inv) : (m.withConstants constants).Inv where
  base := h.base hi.base
  closed := h.closed hi.base hi.closed
  phase := by
    have hsame : (m.withConstants constants).gcstate = m.gcstate := rfl
    unfold Phase
    rw [hsame]
    cases hm : m.gcstate with
    | pause =>
      have hidle := hi.idle hm
      refine ⟨hidle.gray, hidle.sweep, fun b hmem o ho => ?_⟩
      obtain ⟨o', ho'⟩ := hi.base.listed b hmem
      have ho'' := h.after ho'
      rw [ho] at ho''
      rw [Option.some.inj ho'']
      exact hidle.colors b hmem o' ho'
    | propagate => exact h.marking hi.base (hi.marking hm)
    | sweep =>
      have hs := hi.sweeping hm
      have hblack : Color.black ≠ m.white.other := by
        intro hdead
        have := Color.other_isWhite hi.base.white
        rw [← hdead] at this
        cases this
      refine ⟨hs.gray, fun b o ho => ?_, hs.cursor, fun b hmem o ho => ?_, fun b o ho hdead => ?_⟩
      · rcases before ho with ⟨-, p, -, rfl⟩ | ho
        · nofun
        · exact hs.colors b o ho
      · obtain ⟨o', ho'⟩ := hi.base.listed b (List.mem_of_mem_take hmem)
        have ho'' := h.after ho'
        rw [ho] at ho''
        rw [Option.some.inj ho'']
        exact hs.passed b hmem o' ho'
      · rcases before ho with ⟨-, p, -, rfl⟩ | ho
        · exact absurd hdead hblack
        · exact hs.spent b o ho hdead
  pending := hi.pending

end Loadable

/-! ### A spare born again -/

/-- The colour of what is born now, given to an object that stands. -/
def rebirth (m : Machine) (a : Address) (o : LhatObject) : Machine :=
  { m with object := Function.update m.object a (some { o with color := m.white }) }

theorem rebirth_before (ho : m.object a = some o) (hb : (m.rebirth a o).object b = some o') :
    ∃ q, m.object b = some q ∧ o'.payload = q.payload ∧ (b = a ∧ o'.color = m.white ∨ o' = q) := by
  rcases update_eq_some.1 hb with ⟨rfl, rfl⟩ | ⟨-, hb⟩
  · exact ⟨o, ho, rfl, Or.inl ⟨rfl, rfl⟩⟩
  · exact ⟨o', hb, rfl, Or.inr rfl⟩

theorem rebirth_present (hb : m.Present b) : (m.rebirth a o).Present b := by
  obtain ⟨q, hq⟩ := hb
  by_cases hba : b = a
  · subst hba
    exact ⟨_, Function.update_self ..⟩
  · exact ⟨q, (Function.update_of_ne hba _ _).trans hq⟩

theorem rebirth_kept (hb : m.Base) (hk : m.Kept b) : (m.rebirth a o).Kept b := by
  obtain ⟨q, hq, hlive⟩ := hk
  by_cases hba : b = a
  · subst hba
    exact ⟨_, Function.update_self .., fun _ => (Color.other_ne hb.white).symm⟩
  · exact ⟨q, (Function.update_of_ne hba _ _).trans hq, hlive⟩

theorem Marking.rebirth (hm : m.Marking 0 []) (ho : m.object a = some o) (hgray : o.color ≠ .gray)
    (hblack : ∀ b q, m.object b = some q → q.color = .black → a ∉ q.payload.links)
    (hb : m.Base) : (m.rebirth a o).Marking 0 [] where
  threaded := by
    obtain ⟨l, ht⟩ := hm.threaded
    have hfresh : a ∉ l := by
      intro ha
      obtain ⟨q, hq, hcolor⟩ := ht.chain.gray a ha
      rw [ho] at hq
      obtain rfl := Option.some.inj hq
      exact hgray hcolor
    refine ⟨l, ht.chain.congr fun b hmem => Function.update_of_ne ?_ _ _, ht.nodup, ?_⟩
    · rintro rfl
      exact hfresh hmem
    · intro b q hq hcolor
      rcases update_eq_some.1 hq with ⟨-, rfl⟩ | ⟨-, hq⟩
      · have hw := hb.white
        have hcolor : m.white = .gray := hcolor
        rw [hcolor] at hw
        cases hw
      · exact ht.all b q hq hcolor
  sweep := hm.sweep
  colors := by
    intro b hmem q hq
    obtain ⟨q', hq', -, ⟨-, hcolor⟩ | rfl⟩ := rebirth_before ho hq
    · exact Or.inl hcolor
    · exact hm.colors b hmem q hq'
  blacks := by
    intro b q hq hcolor c hmem hw
    exfalso
    have hbq : m.object b = some q := by
      rcases update_eq_some.1 hq with ⟨-, rfl⟩ | ⟨-, hq⟩
      · have hw := hb.white
        have hcolor : m.white = .black := hcolor
        rw [hcolor] at hw
        cases hw
      · exact hq
    obtain ⟨q', hq', hwq⟩ := whiteAt_iff.1 hw
    rcases update_eq_some.1 hq' with ⟨rfl, -⟩ | ⟨-, hq'⟩
    · exact hblack b q hbq hcolor hmem
    · exact List.not_mem_nil (hm.blacks b q hbq hcolor c hmem (whiteAt_iff.2 ⟨q', hq', hwq⟩)).2

theorem Inv.rebirth (hi : m.Inv) (ho : m.object a = some o) (hlisted : a ∈ m.objects)
    (hkept : m.Kept a)
    (hclean : m.gcstate = .propagate → o.color ≠ .gray ∧
      ∀ b q, m.object b = some q → q.color = .black → a ∉ q.payload.links) :
    (m.rebirth a o).Inv where
  base := by
    refine hi.base.repaint (fun b => rebirth_present) (fun b q hq => ?_) rfl rfl hi.base.white rfl rfl
    obtain ⟨q', hq', hp, hcolor⟩ := rebirth_before ho hq
    refine ⟨q', hq', hp, fun hb => ?_⟩
    rcases hcolor with ⟨rfl, -⟩ | rfl
    · exact absurd hlisted hb
    · exact (hi.base.constant b q hq' hb).1
  closed := by
    have hk : ∀ b, m.Kept b → (m.rebirth a o).Kept b := fun b => rebirth_kept hi.base
    refine ⟨fun b q hq hb c hc hne => ?_, fun b hb hne => hk b (hi.closed.roots b hb hne),
      fun entry hentry hlive hne => hk _ (hi.closed.weak entry hentry hlive hne),
      fun b hb hne => hk b (hi.closed.natives b hb hne),
      fun cache hcache hanswered b heq hne =>
        hk b (hi.closed.caches cache hcache hanswered b heq hne)⟩
    obtain ⟨q', hq', hp, hcolor⟩ := rebirth_before ho hq
    rw [hp] at hc
    refine hk c (hi.closed.links b q' hq' ?_ c hc hne)
    rcases hcolor with ⟨rfl, -⟩ | rfl
    · exact hkept
    · obtain ⟨q'', hq'', hlive⟩ := hb
      obtain rfl : q = q'' := by simpa [hq] using hq''
      exact ⟨q, hq', hlive⟩
  phase := by
    have hsame : (m.rebirth a o).gcstate = m.gcstate := rfl
    unfold Phase
    rw [hsame]
    cases hm : m.gcstate with
    | pause =>
      have hidle := hi.idle hm
      refine ⟨hidle.gray, hidle.sweep, fun b hmem q hq => ?_⟩
      obtain ⟨q', hq', -, ⟨-, hcolor⟩ | rfl⟩ := rebirth_before ho hq
      · exact hcolor
      · exact hidle.colors b hmem q hq'
    | propagate =>
      obtain ⟨hgray, hblack⟩ := hclean hm
      exact (hi.marking hm).rebirth ho hgray hblack hi.base
    | sweep =>
      have hs := hi.sweeping hm
      refine ⟨hs.gray, fun b q hq => ?_, hs.cursor, fun b hmem q hq => ?_, fun b q hq hdead => ?_⟩
      · obtain ⟨q', hq', -, ⟨-, hcolor⟩ | rfl⟩ := rebirth_before ho hq
        · intro hgray
          have hw := hi.base.white
          rw [← hcolor, hgray] at hw
          cases hw
        · exact hs.colors b q hq'
      · obtain ⟨q', hq', -, ⟨-, hcolor⟩ | rfl⟩ := rebirth_before ho hq
        · exact hcolor
        · exact hs.passed b hmem q hq'
      · obtain ⟨q', hq', -, ⟨-, hcolor⟩ | rfl⟩ := rebirth_before ho hq
        · have hdead : q.color = m.white.other := hdead
          rw [hcolor] at hdead
          exact absurd hdead.symm (Color.other_ne hi.base.white)
        · exact hs.spent b q hq' hdead
  pending := hi.pending

end Machine
end Lhat.Gc
