import Lhat.Collector.Program

/-!
# The invariant of the collector

While the marking is under way no black object refers to a white one. What an
object refers to on its own (`Payload.links`) is told apart from the place a
capture shares: a slot is a root while the capture is open, and a saved register is
the coroutine's, so neither needs the capture to be looked at again.

`Kept` is what the sweep under way does not free. It is closed under references,
and holds the roots and what the weak hints name.
-/

namespace Lhat.Gc

/-- What marking makes of a colour. -/
def Color.Darkens (c c' : Color) : Prop :=
  c' = c ∨ (c.isWhite = true ∧ c'.isWhite = false) ∨ (c = .gray ∧ c' = .black)

theorem Color.Darkens.refl (c : Color) : c.Darkens c := Or.inl rfl

theorem Color.Darkens.trans {a b c : Color} (hab : a.Darkens b) (hbc : b.Darkens c) :
    a.Darkens c := by
  revert hab hbc
  unfold Darkens
  cases a <;> cases b <;> cases c <;> simp [isWhite]

theorem Color.Darkens.white {c c' : Color} (h : c.Darkens c') (hw : c'.isWhite = true) :
    c' = c := by
  revert h hw
  unfold Darkens
  cases c <;> cases c' <;> simp [isWhite]

theorem Color.Darkens.black {c' : Color} (h : Color.black.Darkens c') : c' = .black := by
  revert h
  unfold Darkens
  cases c' <;> simp [isWhite]

theorem Color.other_isWhite {c : Color} (hc : c.isWhite = true) : c.other.isWhite = true := by
  cases c <;> simp_all [isWhite, other]

theorem Color.other_ne {c : Color} (hc : c.isWhite = true) : c.other ≠ c := by
  cases c <;> simp_all [isWhite, other]

theorem Color.other_other (c : Color) : c.other.other = c := by
  cases c <;> rfl

/-- The list threaded through the objects from a first one. -/
def Chain (object : Address → Option LhatObject) : Address → List Address → Prop
  | h, [] => h = 0
  | h, a :: l => h = a ∧ ∃ o, object a = some o ∧ o.color = .gray ∧ Chain object o.gclist l

theorem Chain.congr {object object' : Address → Option LhatObject} {h : Address} {l : List Address}
    (hchain : Chain object h l) (hsame : ∀ a ∈ l, object' a = object a) : Chain object' h l := by
  induction l generalizing h with
  | nil => exact hchain
  | cons a l ih =>
    obtain ⟨hh, o, ho, hgray, hrest⟩ := hchain
    exact ⟨hh, o, by rw [hsame a List.mem_cons_self, ho], hgray,
      ih hrest fun b hb => hsame b (List.mem_cons_of_mem a hb)⟩

theorem Chain.gray {object : Address → Option LhatObject} {h : Address} {l : List Address}
    (hchain : Chain object h l) : ∀ a ∈ l, ∃ o, object a = some o ∧ o.color = .gray := by
  induction l generalizing h with
  | nil => exact fun a ha => absurd ha List.not_mem_nil
  | cons b l ih =>
    obtain ⟨_, o, ho, hgray, hrest⟩ := hchain
    intro a ha
    rcases List.mem_cons.1 ha with rfl | ha
    · exact ⟨o, ho, hgray⟩
    · exact ih hrest a ha

namespace Machine

/-- What does not hang on colours. -/
structure Base (m : Machine) : Prop where
  null : m.object 0 = none
  nodup : m.objects.Nodup
  listed : ∀ a ∈ m.objects, m.Present a
  count : m.count = m.objects.length
  white : m.white.isWhite = true
  constant : ∀ a o, m.object a = some o → a ∉ m.objects → o.color = .black ∧
    o.payload.isConstant = true ∧ ∀ b ∈ o.payload.links, b ≠ 0 → m.Constant b
  script : ∀ s o root, m.object s = some o → o.payload = .script root → root.objects.Nodup ∧
    (∀ b ∈ root.objects, m.Constant b) ∧
      ∀ a o, m.Constant a → m.object a = some o →
        ∀ b ∈ o.payload.links, b ∈ root.objects → a ∈ root.objects
  apart : ∀ s t o o' root root', s ≠ t → m.object s = some o → m.object t = some o' →
    o.payload = .script root → o'.payload = .script root' → ∀ b ∈ root.objects, b ∉ root'.objects
  captured : ∀ u o i closedValue suspendedIn, m.object u = some o →
    o.payload = .upvalue (some (.slot i)) closedValue suspendedIn → u ∈ m.openUpvalues
  suspended : ∀ u o co i closedValue suspendedIn, m.object u = some o →
    o.payload = .upvalue (some (.saved co i)) closedValue suspendedIn → suspendedIn = co
  covered : m.Covered

/-- What is kept is closed under references, and holds what can be named. -/
structure Closed (m : Machine) : Prop where
  links : ∀ a o, m.object a = some o → m.Kept a → ∀ b ∈ o.payload.links, b ≠ 0 → m.Kept b
  roots : ∀ a ∈ m.rootList, a ≠ 0 → m.Kept a
  weak : ∀ entry ∈ m.weak, entry.Live → objectOf entry.value ≠ 0 → m.Kept (objectOf entry.value)
  natives : ∀ a ∈ m.unboundNatives, a ≠ 0 → m.Kept a
  caches : ∀ cache ∈ m.memberCaches, cache.answered ≠ 0 →
    ∀ a, a = cache.answered ∨ a = cache.receiver ∨ a = cache.lender → a ≠ 0 → m.Kept a

/-- The gray list is what is gray, each once. -/
structure Threaded (m : Machine) (l : List Address) : Prop where
  chain : Chain m.object m.gray l
  nodup : l.Nodup
  all : ∀ a o, m.object a = some o → o.color = .gray → a ∈ l

/-- The marking under way. What `x` refers to may be white while it is still to be
reached, or given to a barrier. -/
structure Marking (m : Machine) (x : Address) (todo : List Address) : Prop where
  threaded : ∃ l, m.Threaded l
  sweep : m.sweep = 0
  colors : ∀ a ∈ m.objects, ∀ o, m.object a = some o →
    o.color = m.white ∨ o.color = .gray ∨ o.color = .black
  blacks : ∀ a o, m.object a = some o → o.color = .black →
    ∀ b ∈ o.payload.links, m.whiteAt b = true → a = x ∧ b ∈ todo

/-- The sweep under way. -/
structure Sweeping (m : Machine) : Prop where
  gray : m.gray = 0
  colors : ∀ a o, m.object a = some o → o.color ≠ .gray
  cursor : m.sweep ≤ m.objects.length
  passed : ∀ a ∈ m.objects.take m.sweep, ∀ o, m.object a = some o → o.color = m.white
  spent : ∀ a o, m.object a = some o → o.color = m.white.other → o.payload.owes = false

/-- Between two cycles. -/
structure Idle (m : Machine) : Prop where
  gray : m.gray = 0
  sweep : m.sweep = 0
  colors : ∀ a ∈ m.objects, ∀ o, m.object a = some o → o.color = m.white

/-- What each phase adds. -/
def Phase (m : Machine) : Prop :=
  match m.gcstate with
  | .pause => m.Idle
  | .propagate => m.Marking 0 []
  | .sweep => m.Sweeping

/-- The invariant. -/
structure Inv (m : Machine) : Prop where
  base : m.Base
  closed : m.Closed
  phase : m.Phase
  pending : m.pendingDispose.Nodup

variable {m m' : Machine} {a b x : Address} {o : LhatObject} {todo : List Address}

theorem kept_of_present (hsweep : m.gcstate ≠ .sweep) (ha : m.Present a) : m.Kept a := by
  obtain ⟨o, ho⟩ := ha
  exact ⟨o, ho, fun h => absurd h hsweep⟩

theorem Kept.present (ha : m.Kept a) : m.Present a := by
  obtain ⟨o, ho, -⟩ := ha
  exact ⟨o, ho⟩

theorem Base.constant_kept (hb : m.Base) (ha : m.Constant a) : m.Kept a := by
  obtain ⟨⟨o, ho⟩, hlist⟩ := ha
  refine ⟨o, ho, fun _ hdead => ?_⟩
  rw [(hb.constant a o ho hlist).1] at hdead
  have := Color.other_isWhite hb.white
  simp [← hdead, Color.isWhite] at this

theorem Base.repaint (hb : m.Base) (hpresent : ∀ a, m.Present a → m'.Present a)
    (hbefore : ∀ a o', m'.object a = some o' → ∃ o, m.object a = some o ∧
      o'.payload = o.payload ∧ (a ∉ m.objects → o'.color = .black))
    (hobjects : m'.objects = m.objects) (hcount : m'.count = m.count)
    (hwhite : m'.white.isWhite = true) (hroots : m'.roots = m.roots)
    (hopen : m'.openUpvalues = m.openUpvalues) : m'.Base := by
  have hconstant : ∀ a, m'.Constant a ↔ m.Constant a := by
    intro a
    unfold Constant
    rw [hobjects]
    refine and_congr_left fun _ => ⟨fun ⟨o', ho'⟩ => ?_, hpresent a⟩
    obtain ⟨o, ho, -⟩ := hbefore a o' ho'
    exact ⟨o, ho⟩
  refine ⟨?_, ?_, ?_, ?_, hwhite, ?_, ?_, ?_, ?_, ?_, ?_⟩
  · cases ho : m'.object 0 with
    | none => rfl
    | some o' =>
      obtain ⟨o, ho, -⟩ := hbefore 0 o' ho
      rw [hb.null] at ho
      cases ho
  · rw [hobjects]
    exact hb.nodup
  · intro a ha
    rw [hobjects] at ha
    exact hpresent a (hb.listed a ha)
  · rw [hcount, hobjects, hb.count]
  · intro a o' ho' ha
    rw [hobjects] at ha
    obtain ⟨o, ho, hp, hblack⟩ := hbefore a o' ho'
    obtain ⟨-, hkind, hlinks⟩ := hb.constant a o ho ha
    refine ⟨hblack ha, by rw [hp, hkind], fun b hmem hne => ?_⟩
    rw [hp] at hmem
    exact (hconstant b).2 (hlinks b hmem hne)
  · intro s o' root ho' hroot
    obtain ⟨o, ho, hp, -⟩ := hbefore s o' ho'
    obtain ⟨hnodup, hin, hown⟩ := hb.script s o root ho (by rw [← hp, hroot])
    refine ⟨hnodup, fun b hmem => (hconstant b).2 (hin b hmem), fun a o' ha ho' b hlink => ?_⟩
    obtain ⟨o, ho, hp, -⟩ := hbefore a o' ho'
    rw [hp] at hlink
    exact hown a o ((hconstant a).1 ha) ho b hlink
  · intro s t o p root root' hne hs ht hroot hroot'
    obtain ⟨o', ho', hp', -⟩ := hbefore s o hs
    obtain ⟨p', hp, hpp, -⟩ := hbefore t p ht
    exact hb.apart s t o' p' root root' hne ho' hp (by rw [← hp', hroot]) (by rw [← hpp, hroot'])
  · intro u o' i v s ho' hp'
    obtain ⟨o, ho, hp, -⟩ := hbefore u o' ho'
    rw [hopen]
    exact hb.captured u o i v s ho (by rw [← hp, hp'])
  · intro u o' co i v s ho' hp'
    obtain ⟨o, ho, hp, -⟩ := hbefore u o' ho'
    exact hb.suspended u o co i v s ho (by rw [← hp, hp'])
  · intro u hu o' i v s ho' hp'
    obtain ⟨o, ho, hp, -⟩ := hbefore u o' ho'
    rw [hopen] at hu
    rw [hroots]
    exact hb.covered u hu o i v s ho (by rw [← hp, hp'])

theorem whiteAt_zero (hb : m.Base) : m.whiteAt 0 = false := by
  simp [whiteAt, hb.null]

theorem whiteAt_iff : m.whiteAt a = true ↔ ∃ o, m.object a = some o ∧ o.color.isWhite = true := by
  unfold whiteAt
  cases m.object a <;> simp

theorem read_saved (co : Address) (i : Nat) (c : LhatValue) :
    objectOf (m.read c (.saved co i)) = 0 ∨ ∃ o c', m.object co = some o ∧
      o.payload = .coroutine c' ∧ objectOf (m.read c (.saved co i)) ∈ o.payload.links := by
  simp only [read]
  split
  · next c' heq =>
      by_cases hi : i < c'.registers.length
      · have hmem : c'.registers.getD i .nil ∈ c'.registers := by
          rw [List.getD_eq_getElem?_getD, List.getElem?_eq_getElem hi]
          exact List.getElem_mem hi
        refine Or.inr ⟨_, c', heq, rfl, ?_⟩
        simp only [Payload.links]
        exact List.mem_append_left _ (List.mem_map_of_mem hmem)
      · left
        rw [List.getD_eq_getElem?_getD, List.getElem?_eq_none (by omega)]
        rfl
  · exact Or.inl rfl

theorem mem_children {p : Payload} (hmem : b ∈ m.children p) :
    b ∈ p.links ∨ (∃ i c s, p = .upvalue (some (.slot i)) c s ∧ b = objectOf (m.roots.slots i)) ∨
      ∃ co i c s, p = .upvalue (some (.saved co i)) c s ∧
        (b = 0 ∨ ∃ o c', m.object co = some o ∧ o.payload = .coroutine c' ∧ b ∈ o.payload.links) := by
  unfold children at hmem
  split at hmem
  · next place c s =>
      rcases List.mem_cons.1 hmem with rfl | hmem
      · cases place with
        | slot i => exact Or.inr (Or.inl ⟨i, c, s, rfl, rfl⟩)
        | closed => exact Or.inl (by simp [Payload.links, read])
        | saved co i => exact Or.inr (Or.inr ⟨co, i, c, s, rfl, read_saved co i c⟩)
      · exact Or.inl (by
          rw [List.mem_singleton] at hmem
          simp [Payload.links, hmem])
  · exact Or.inl hmem

theorem links_children {p : Payload} (hmem : b ∈ p.links) : b ∈ m.children p := by
  unfold children
  split
  · next place c s => cases place <;> simp [Payload.links, read] at hmem ⊢ <;> grind
  · exact hmem

theorem mem_rootList_slot {f : Frame} {i : Nat} (hf : f ∈ m.roots.frames) (hcovers : f.covers i) :
    objectOf (m.roots.slots i) ∈ m.rootList := by
  have hmem : objectOf (m.roots.slots i) ∈ m.roots.ofFrame f := by
    unfold Roots.ofFrame
    refine List.mem_append_right _ (List.mem_map.2 ⟨i - f.base, List.mem_range.2 ?_, ?_⟩)
    · have := hcovers.1
      have := hcovers.2
      omega
    · rw [Nat.add_sub_cancel' hcovers.1]
  have hframes := List.mem_flatMap.2 ⟨f, hf, hmem⟩
  unfold rootList
  simp only [List.mem_append]
  grind

theorem Closed.children (hc : m.Closed) (hb : m.Base) (ho : m.object a = some o) (ha : m.Kept a)
    (hmem : b ∈ m.children o.payload) (hne : b ≠ 0) : m.Kept b := by
  rcases mem_children hmem with hlink | ⟨i, c, s, hp, rfl⟩ | ⟨co, i, c, s, hp, hsaved⟩
  · exact hc.links a o ho ha b hlink hne
  · obtain ⟨f, hf, hcovers⟩ := hb.covered a (hb.captured a o i c s ho hp) o i c s ho hp
    exact hc.roots _ (mem_rootList_slot hf hcovers) hne
  · rcases hsaved with rfl | ⟨o', c', ho', -, hlink⟩
    · exact absurd rfl hne
    · have hco : co ≠ 0 := by
        rintro rfl
        rw [hb.null] at ho'
        cases ho'
      have hs : s = co := hb.suspended a o co i c s ho hp
      have hkept : m.Kept co := hc.links a o ho ha co (by simp [hp, Payload.links, hs]) hco
      exact hc.links co o' ho' hkept b hlink hne

theorem Inv.named (hi : m.Inv) (ha : m.Named a) : m.Kept a := by
  refine Reaching.closed (P := m.Kept) ?_ ?_ ha
  · rintro a ⟨hname, hne⟩
    rcases hname with hroot | hconstant | ⟨entry, hentry, hlive, rfl⟩ | hnative |
      ⟨cache, hcache, hanswered, heq⟩
    · exact hi.closed.roots a hroot hne
    · exact hi.base.constant_kept hconstant
    · exact hi.closed.weak entry hentry hlive hne
    · exact hi.closed.natives a hnative hne
    · exact hi.closed.caches cache hcache hanswered a heq hne
  · rintro a b ha ⟨⟨o, ho, hmem⟩, hne⟩
    exact hi.closed.children hi.base ho ha hmem hne

theorem Reachable.named (ha : m.Reachable a) : m.Named a :=
  ha.mono (fun _ h => ⟨Or.inl h.1, h.2⟩) fun _ _ h => h

end Machine
end Lhat.Gc
