import Mathlib.Data.List.Basic
import Mathlib.Logic.Relation

/-!
# Strongly connected components, found depth first

A node is given an index when it is entered and stands on a stack until its component is known. The
lowest index that is seen behind it says when that is. `Marks.Inv` is what holds between two steps
of such a search, `Under` what holds while the edges of one node are followed, and `Connected` what
one search from a node leaves behind.
-/

namespace Components

open Relation (ReflTransGen)

variable {α : Type*}

/-- Each can be got to from the other. -/
def Mutual (edge : α → α → Prop) (a b : α) : Prop := ReflTransGen edge a b ∧ ReflTransGen edge b a

theorem Mutual.symm {edge : α → α → Prop} {a b : α} (h : Mutual edge a b) : Mutual edge b a :=
  ⟨h.2, h.1⟩

theorem Mutual.trans {edge : α → α → Prop} {a b c : α} (h : Mutual edge a b)
    (h' : Mutual edge b c) : Mutual edge a c :=
  ⟨h.1.trans h'.1, h'.2.trans h.2⟩

theorem closed_reach {edge : α → α → Prop} {P : α → Prop} (hclosed : ∀ a b, P a → edge a b → P b)
    {a b : α} (h : ReflTransGen edge a b) (ha : P a) : P b := by
  induction h with
  | refl => exact ha
  | tail _ hedge ih => exact hclosed _ _ ih hedge

/-- What a search has marked. An index of `0` is none, and the top of the stack stands first. -/
structure Marks (α : Type*) where
  index : α → Nat
  low : α → Nat
  component : α → Option Nat
  stack : List α
  last : Nat
  count : Nat

namespace Marks

/-- What holds between two steps. Those in `gray` are entered and not left. -/
structure Inv (edge : α → α → Prop) (gray : List α) (m : Marks α) : Prop where
  mem_stack : ∀ a, a ∈ m.stack ↔ m.index a ≠ 0 ∧ m.component a = none
  sorted : m.stack.Pairwise fun a b => m.index b < m.index a
  gray_mem : ∀ g ∈ gray, g ∈ m.stack
  climbs : ∀ a ∈ m.stack, ∃ g ∈ gray, ReflTransGen edge a g ∧ m.index g ≤ m.index a
  left : ∀ a b, m.index a ≠ 0 → a ∉ gray → edge a b → m.index b ≠ 0
  entered : ∀ a k, m.component a = some k → m.index a ≠ 0 ∧ k < m.count
  closed : ∀ a b k, m.component a = some k → edge a b → ∃ l ≤ k, m.component b = some l
  same : ∀ a b k l, m.component a = some k → m.component b = some l →
    (k = l ↔ Mutual edge a b)
  bounded : ∀ a, m.index a ≤ m.last

/-- Nothing that was marked is changed. -/
structure Kept (m m' : Marks α) : Prop where
  index : ∀ a, m.index a ≠ 0 → m'.index a = m.index a
  component : ∀ a, m.index a ≠ 0 → m'.component a = m.component a
  low : ∀ a, m.index a ≠ 0 → m'.low a = m.low a
  last : m.last ≤ m'.last

end Marks

open Marks

/-- What holds while the edges of `x` are followed. `m` is what was marked before `x` was entered,
and the edges to `seen` are behind. -/
structure Under (edge : α → α → Prop) (gray : List α) (m : Marks α) (x : α) (seen : List α)
    (m' : Marks α) : Prop where
  inv : m'.Inv edge (x :: gray)
  index : ∀ a, m.index a ≠ 0 → m'.index a = m.index a
  component : ∀ a, m.index a ≠ 0 → m'.component a = m.component a
  low : ∀ a, m.index a ≠ 0 → m'.low a = m.low a
  fresh : m.last < m'.index x
  low_le : m'.low x ≤ m'.index x
  low_eq : m'.low x = m'.index x ∨ ∃ z ∈ m.stack, ReflTransGen edge x z ∧ m.index z = m'.low x
  seen_low : ∀ c ∈ seen, m'.index c ≠ 0 ∧ (c ∈ m.stack → m'.low x ≤ m.index c)
  above : ∃ new, m'.stack = new ++ x :: m.stack ∧ (∀ a ∈ new, ReflTransGen edge x a) ∧
    ∀ a ∈ new, ∀ z ∈ m.stack, edge a z → m'.low x ≤ m.index z

/-- What a search from `x` leaves behind. -/
structure Connected (edge : α → α → Prop) (gray : List α) (m : Marks α) (x : α) (m' : Marks α) :
    Prop where
  inv : m'.Inv edge gray
  kept : Kept m m'
  entered : m'.index x ≠ 0
  above : ∃ new, m'.stack = new ++ m.stack ∧ (∀ a ∈ new, ReflTransGen edge x a) ∧
    (∀ a ∈ new, ∀ z ∈ m.stack, edge a z → m'.low x ≤ m.index z) ∧
    (m.last < m'.low x ∨ ∃ z ∈ m.stack, ReflTransGen edge x z ∧ m.index z = m'.low x)

variable {edge : α → α → Prop} {gray : List α} {m m' m'' : Marks α} {x c : α} {seen : List α}

theorem Marks.Inv.lt_last (h : m.Inv edge gray) {a : α} (ha : a ∈ m.stack) :
    0 < m.index a ∧ m.index a ≤ m.last :=
  ⟨Nat.pos_of_ne_zero ((h.mem_stack a).mp ha).1, h.bounded a⟩

/-! ### Entering -/

section Entering

variable [DecidableEq α]

/-- A node is entered, with the next index. -/
def Marks.enter (m : Marks α) (x : α) : Marks α where
  index := Function.update m.index x (m.last + 1)
  low := Function.update m.low x (m.last + 1)
  component := Function.update m.component x none
  stack := x :: m.stack
  last := m.last + 1
  count := m.count

theorem Under.enter (h : m.Inv edge gray) (hx : m.index x = 0) :
    Under edge gray m x [] (m.enter x) := by
  have hne : ∀ a, m.index a ≠ 0 → a ≠ x := by
    rintro a ha rfl
    exact ha hx
  have hindex : ∀ a, a ≠ x → (m.enter x).index a = m.index a := fun a ha =>
    Function.update_of_ne ha _ _
  have hself : (m.enter x).index x = m.last + 1 := Function.update_self _ _ _
  have hstack : ∀ a ∈ m.stack, a ≠ x := fun a ha => hne a ((h.mem_stack a).mp ha).1
  have hcomponent : ∀ a, a ≠ x → (m.enter x).component a = m.component a := fun a ha =>
    Function.update_of_ne ha _ _
  have hopen : (m.enter x).component x = none := Function.update_self _ _ _
  have hnone : m.component x = none := by
    cases hc : m.component x with
    | none => rfl
    | some k => exact absurd hx (h.entered x k hc).1
  have hcomp : ∀ a k, (m.enter x).component a = some k → m.component a = some k ∧ a ≠ x := by
    intro a k hk
    by_cases ha : a = x
    · subst ha
      rw [hopen] at hk
      cases hk
    · rw [hcomponent a ha] at hk
      exact ⟨hk, ha⟩
  refine ⟨⟨fun a => ?_, ?_, fun g hg => ?_, fun a ha => ?_, fun a b ha hgray hedge => ?_,
    fun a k hk => ?_, fun a b k hk hedge => ?_, fun a b k l hk hl => ?_, fun a => ?_⟩,
    fun a ha => hindex a (hne a ha), fun a ha => hcomponent a (hne a ha),
    fun a ha => Function.update_of_ne (hne a ha) _ _, ?_, ?_, .inl ?_, nofun, [], rfl, nofun, nofun⟩
  · show a ∈ x :: m.stack ↔ _
    by_cases ha : a = x
    · subst ha
      simp [hself, hopen]
    · rw [List.mem_cons, hindex a ha, hcomponent a ha, ← h.mem_stack]
      simp [ha]
  · show (x :: m.stack).Pairwise _
    refine List.pairwise_cons.mpr ⟨fun a ha => ?_, h.sorted.imp_of_mem fun {a b} ha hb hab => ?_⟩
    · rw [hself, hindex a (hstack a ha)]
      exact Nat.lt_succ_of_le (h.bounded a)
    · rwa [hindex a (hstack a ha), hindex b (hstack b hb)]
  · obtain rfl | hg := List.mem_cons.mp hg
    · exact List.mem_cons_self
    · exact List.mem_cons_of_mem _ (h.gray_mem g hg)
  · obtain rfl | ha := List.mem_cons.mp ha
    · exact ⟨a, List.mem_cons_self, .refl, Nat.le_refl _⟩
    · obtain ⟨g, hg, hreach, hle⟩ := h.climbs a ha
      refine ⟨g, List.mem_cons_of_mem _ hg, hreach, ?_⟩
      rwa [hindex a (hstack a ha), hindex g (hstack g (h.gray_mem g hg))]
  · rw [List.mem_cons, not_or] at hgray
    rw [hindex a hgray.1] at ha
    by_cases hb : b = x
    · rw [hb, hself]
      exact Nat.succ_ne_zero _
    · rw [hindex b hb]
      exact h.left a b ha hgray.2 hedge
  · obtain ⟨hk, ha⟩ := hcomp a k hk
    rw [hindex a ha]
    exact h.entered a k hk
  · obtain ⟨hk, ha⟩ := hcomp a k hk
    obtain ⟨l, hle, hl⟩ := h.closed a b k hk hedge
    refine ⟨l, hle, ?_⟩
    rwa [hcomponent b (by rintro rfl; rw [hnone] at hl; cases hl)]
  · exact h.same a b k l (hcomp a k hk).1 (hcomp b l hl).1
  · by_cases ha : a = x
    · rw [ha, hself]
      exact Nat.le_refl _
    · rw [hindex a ha]
      exact Nat.le_succ_of_le (h.bounded a)
  · rw [hself]
    exact Nat.lt_succ_self _
  · rw [hself]
    exact Nat.le_of_eq (Function.update_self _ _ _)
  · rw [hself]
    exact Function.update_self _ _ _

end Entering

/-! ### Following an edge -/

/-- The low index of a node comes down to that of another. -/
def Marks.lower [DecidableEq α] (m : Marks α) (x : α) (low : Nat) : Marks α :=
  { m with low := Function.update m.low x (min (m.low x) low) }

theorem Marks.Inv.lower [DecidableEq α] (h : m.Inv edge gray) (x : α) (low : Nat) :
    (m.lower x low).Inv edge gray :=
  ⟨h.mem_stack, h.sorted, h.gray_mem, h.climbs, h.left, h.entered, h.closed, h.same, h.bounded⟩

namespace Under

section

variable (h : Under edge gray m x seen m')
include h

theorem stack_kept (hm : m.Inv edge gray) {z : α}
    (hz : z ∈ m.stack) : m'.index z = m.index z ∧ m.index z < m'.index x := by
  obtain ⟨hpos, hle⟩ := hm.lt_last hz
  exact ⟨h.index z (Nat.ne_of_gt hpos), Nat.lt_of_le_of_lt hle h.fresh⟩

theorem mem_stack : x ∈ m'.stack ∧ ∀ z ∈ m.stack, z ∈ m'.stack :=
    by
  obtain ⟨new, hstack, -⟩ := h.above
  rw [hstack]
  exact ⟨by simp, fun z hz => by simp [hz]⟩

/-- What is on the stack with a lower index than `x` was there before. -/
theorem mem_of_lt {z : α} (hz : z ∈ m'.stack)
    (hlt : m'.index z < m'.index x) : z ∈ m.stack := by
  obtain ⟨new, hstack, -⟩ := h.above
  have hsorted := h.inv.sorted
  rw [hstack] at hz hsorted
  obtain hz | hz := List.mem_append.mp hz
  · have habove := (List.pairwise_append.mp hsorted).2.2 z hz x List.mem_cons_self
    exact absurd habove (Nat.lt_asymm hlt)
  · obtain rfl | hz := List.mem_cons.mp hz
    · exact absurd hlt (Nat.lt_irrefl _)
    · exact hz

theorem skip {k : Nat} (hc : m'.component c = some k)
    (hm : m.Inv edge gray) : Under edge gray m x (c :: seen) m' := by
  refine ⟨h.inv, h.index, h.component, h.low, h.fresh, h.low_le, h.low_eq, fun d hd => ?_, h.above⟩
  obtain rfl | hd := List.mem_cons.mp hd
  · refine ⟨(h.inv.entered d k hc).1, fun hstack => ?_⟩
    have hopen := (hm.mem_stack d).mp hstack
    rw [h.component d hopen.1, hopen.2] at hc
    cases hc
  · exact h.seen_low d hd

theorem back [DecidableEq α] (hm : m.Inv edge gray) (hedge :
    edge x c)
    (hc : c ∈ m'.stack) : Under edge gray m x (c :: seen) (m'.lower x (m'.index c)) := by
  have hself : (m'.lower x (m'.index c)).low x = min (m'.low x) (m'.index c) :=
    Function.update_self _ _ _
  have hother : ∀ a, a ≠ x → (m'.lower x (m'.index c)).low a = m'.low a := fun a ha =>
    Function.update_of_ne ha _ _
  have hne : ∀ a, m.index a ≠ 0 → a ≠ x := by
    rintro a ha rfl
    have hle := hm.bounded a
    have hfresh := h.fresh
    rw [h.index a ha] at hfresh
    omega
  obtain ⟨new, hstack, hreach, hback⟩ := h.above
  refine ⟨h.inv.lower _ _, h.index, h.component, fun a ha => (hother a (hne a ha)).trans
    (h.low a ha),
    h.fresh, ?_, ?_, fun d hd => ?_, new, hstack, hreach, fun a ha z hz haz => ?_⟩
  · rw [hself]
    exact Nat.le_trans (Nat.min_le_left _ _) h.low_le
  · rw [hself]
    by_cases hlow : m'.low x ≤ m'.index c
    · rw [Nat.min_eq_left hlow]
      exact h.low_eq
    · rw [Nat.min_eq_right (Nat.le_of_not_le hlow)]
      have hlt : m'.index c < m'.index x := Nat.lt_of_lt_of_le (Nat.lt_of_not_le hlow) h.low_le
      have hbefore := h.mem_of_lt hc hlt
      exact .inr ⟨c, hbefore, .single hedge, (h.stack_kept hm hbefore).1.symm⟩
  · rw [hself]
    obtain rfl | hd := List.mem_cons.mp hd
    · refine ⟨((h.inv.mem_stack d).mp hc).1, fun hbefore => ?_⟩
      rw [(h.stack_kept hm hbefore).1]
      exact Nat.min_le_right _ _
    · obtain ⟨hvisited, hlow⟩ := h.seen_low d hd
      exact ⟨hvisited, fun hbefore => Nat.le_trans (Nat.min_le_left _ _) (hlow hbefore)⟩
  · rw [hself]
    exact Nat.le_trans (Nat.min_le_left _ _) (hback a ha z hz haz)

theorem descend [DecidableEq α] (hm : m.Inv edge gray)
    (hedge : edge x c) (hnew : m'.index c = 0) (hc : Connected edge (x :: gray) m' c m'') :
    Under edge gray m x (c :: seen) (m''.lower x (m''.low c)) := by
  have hself : (m''.lower x (m''.low c)).low x = min (m''.low x) (m''.low c) :=
    Function.update_self _ _ _
  have hother : ∀ a, a ≠ x → (m''.lower x (m''.low c)).low a = m''.low a := fun a ha =>
    Function.update_of_ne ha _ _
  have hx := h.mem_stack.1
  have hxin := ((h.inv.mem_stack x).mp hx).1
  have hlowx := hc.kept.low x hxin
  have hindexx := hc.kept.index x hxin
  have hmarked : ∀ a, m.index a ≠ 0 → m'.index a ≠ 0 := fun a ha => by rwa [h.index a ha]
  have hne : ∀ a, m.index a ≠ 0 → a ≠ x := by
    rintro a ha rfl
    have hle := hm.bounded a
    have hfresh := h.fresh
    rw [h.index a ha] at hfresh
    omega
  obtain ⟨new, hstack, hreach, hback⟩ := h.above
  obtain ⟨more, hstack', hreach', hback', hlow⟩ := hc.above
  have hin : ∀ z ∈ m.stack, z ∈ m'.stack := h.mem_stack.2
  refine ⟨hc.inv.lower _ _, fun a ha => (hc.kept.index a (hmarked a ha)).trans (h.index a ha),
    fun a ha => (hc.kept.component a (hmarked a ha)).trans (h.component a ha),
    fun a ha => ?_, ?_, ?_, ?_, fun d hd => ?_, more ++ new, ?_, fun a ha => ?_,
    fun a ha z hz haz => ?_⟩
  · rw [hother a (hne a ha), hc.kept.low a (hmarked a ha), h.low a ha]
  · show m.last < m''.index x
    rw [hindexx]
    exact h.fresh
  · rw [hself, hlowx]
    show min (m'.low x) (m''.low c) ≤ m''.index x
    rw [hindexx]
    exact Nat.le_trans (Nat.min_le_left _ _) h.low_le
  · rw [hself, hlowx]
    show min (m'.low x) (m''.low c) = m''.index x ∨ _
    rw [hindexx]
    by_cases hle : m'.low x ≤ m''.low c
    · rw [Nat.min_eq_left hle]
      exact h.low_eq
    · rw [Nat.min_eq_right (Nat.le_of_not_le hle)]
      have hlt : m''.low c < m'.index x := Nat.lt_of_lt_of_le (Nat.lt_of_not_le hle) h.low_le
      obtain hlast | ⟨z, hz, hcz, hzlow⟩ := hlow
      · have hbound := h.inv.bounded x
        omega
      · have hbefore := h.mem_of_lt hz (by rw [hzlow]; exact hlt)
        exact .inr ⟨z, hbefore, .head hedge hcz, by rw [← (h.stack_kept hm hbefore).1, hzlow]⟩
  · rw [hself, hlowx]
    obtain rfl | hd := List.mem_cons.mp hd
    · refine ⟨hc.entered, fun hbefore => ?_⟩
      exact absurd hnew (hmarked d ((hm.mem_stack d).mp hbefore).1)
    · obtain ⟨hvisited, hlow⟩ := h.seen_low d hd
      refine ⟨?_, fun hbefore => Nat.le_trans (Nat.min_le_left _ _) (hlow hbefore)⟩
      show m''.index d ≠ 0
      rwa [hc.kept.index d hvisited]
  · show m''.stack = _
    rw [hstack', hstack, List.append_assoc]
  · obtain ha | ha := List.mem_append.mp ha
    · exact .head hedge (hreach' a ha)
    · exact hreach a ha
  · rw [hself, hlowx]
    obtain ha | ha := List.mem_append.mp ha
    · have hle := hback' a ha z (hin z hz) haz
      rw [(h.stack_kept hm hz).1] at hle
      exact Nat.le_trans (Nat.min_le_right _ _) hle
    · exact Nat.le_trans (Nat.min_le_left _ _) (hback a ha z hz haz)

/-! ### Leaving -/

theorem keep (hm : m.Inv edge gray)
    (hall : ∀ c, edge x c → c ∈ seen) (hlow : m'.low x ≠ m'.index x) :
    Connected edge gray m x m' := by
  obtain ⟨new, hstack, hreach, hback⟩ := h.above
  obtain ⟨z, hz, hxz, hzlow⟩ := h.low_eq.resolve_left hlow
  obtain ⟨hzindex, hzlt⟩ := h.stack_kept hm hz
  -- the node that was seen climbs to one that is not left
  obtain ⟨top, htop, hztop, htople⟩ := hm.climbs z hz
  have hxtop : ReflTransGen edge x top ∧ m'.index top ≤ m'.index x := by
    refine ⟨hxz.trans hztop, ?_⟩
    rw [(h.stack_kept hm (hm.gray_mem top htop)).1]
    omega
  have hinv := h.inv
  refine ⟨⟨hinv.mem_stack, hinv.sorted, fun g hg => hinv.gray_mem g (List.mem_cons_of_mem _ hg),
    fun a ha => ?_, fun a b ha hgray hedge => ?_, hinv.entered, hinv.closed, hinv.same,
    hinv.bounded⟩, ⟨h.index, h.component, h.low, ?_⟩, ((hinv.mem_stack x).mp h.mem_stack.1).1,
    new ++ [x], by rw [hstack, List.append_assoc]; rfl, fun a ha => ?_, fun a ha b hb hab => ?_,
    .inr ⟨z, hz, hxz, hzlow⟩⟩
  · obtain ⟨g, hg, hag, hle⟩ := hinv.climbs a ha
    obtain rfl | hg := List.mem_cons.mp hg
    · exact ⟨top, htop, hag.trans hxtop.1, Nat.le_trans hxtop.2 hle⟩
    · exact ⟨g, hg, hag, hle⟩
  · by_cases hax : a = x
    · subst hax
      exact (h.seen_low b (hall b hedge)).1
    · exact hinv.left a b ha (by simp [hax, hgray]) hedge
  · have hbound := hinv.bounded x
    have hfresh := h.fresh
    omega
  · obtain ha | ha := List.mem_append.mp ha
    · exact hreach a ha
    · rw [List.mem_singleton.mp ha]
  · obtain ha | ha := List.mem_append.mp ha
    · exact hback a ha b hb hab
    · obtain rfl := List.mem_singleton.mp ha
      exact (h.seen_low b (hall b hab)).2 hb

end

end Under

/-- What stands above `rest` on the stack is made one component. -/
def Marks.close [DecidableEq α] (m : Marks α) (popped rest : List α) : Marks α :=
  { m with
    component := fun a => if a ∈ popped then some m.count else m.component a
    stack := rest
    count := m.count + 1 }

namespace Under

variable [DecidableEq α] {new : List α}

/-- With all its edges behind, a node that saw no lower index has its component above it. -/
theorem close (h : Under edge gray m x seen m') (hm : m.Inv edge gray)
    (hall : ∀ c, edge x c → c ∈ seen) (hlow : m'.low x = m'.index x)
    (hstack : m'.stack = new ++ x :: m.stack) :
    Connected edge gray m x (m'.close (new ++ [x]) m.stack) := by
  have hinv := h.inv
  obtain ⟨new', hstack', hreach, hback⟩ := h.above
  obtain rfl : new = new' := List.append_cancel_right (hstack.symm.trans hstack')
  have hnodup : m'.stack.Nodup := hinv.sorted.imp fun hlt => by
    rintro rfl
    exact Nat.lt_irrefl _ hlt
  have hmem : ∀ a, a ∈ m'.stack ↔ a ∈ new ++ [x] ∨ a ∈ m.stack := fun a => by
    rw [hstack]
    simp [or_assoc]
  have hapart : ∀ a ∈ new ++ [x], a ∉ m.stack := by
    intro a ha hold
    have hsplit : m'.stack = (new ++ [x]) ++ m.stack := by rw [hstack, List.append_assoc]; rfl
    rw [hsplit] at hnodup
    exact (List.nodup_append.mp hnodup).2.2 a ha a hold rfl
  have hpopped : ∀ a, (m'.close (new ++ [x]) m.stack).component a =
      if a ∈ new ++ [x] then some m'.count else m'.component a := fun _ => rfl
  have hopen : ∀ a ∈ new ++ [x], m'.component a = none := fun a ha =>
    ((hinv.mem_stack a).mp ((hmem a).mpr (.inl ha))).2
  have hold : ∀ b l, m'.component b = some l →
      (m'.close (new ++ [x]) m.stack).component b = some l := by
    intro b l hl
    rw [hpopped, if_neg, hl]
    intro hb
    rw [hopen b hb] at hl
    cases hl
  have hgray : ∀ g ∈ gray, g ∈ m.stack := hm.gray_mem
  -- an edge from what is popped leads to it or to a component that is known
  have hedges : ∀ a ∈ new ++ [x], ∀ b, edge a b →
      b ∈ new ++ [x] ∨ ∃ l, m'.component b = some l := by
    intro a ha b hab
    have hvisited : m'.index b ≠ 0 ∧ (b ∈ m.stack → m'.low x ≤ m.index b) := by
      obtain ha' | ha' := List.mem_append.mp ha
      · refine ⟨hinv.left a b ((hinv.mem_stack a).mp ((hmem a).mpr (.inl ha))).1 ?_ hab,
          fun hb => hback a ha' b hb hab⟩
        rw [List.mem_cons, not_or]
        refine ⟨?_, fun hg => hapart a ha (hgray a hg)⟩
        rintro rfl
        rw [hstack, List.nodup_append] at hnodup
        exact hnodup.2.2 a ha' a List.mem_cons_self rfl
      · obtain rfl := List.mem_singleton.mp ha'
        exact h.seen_low b (hall b hab)
    cases hb : m'.component b with
    | some l => exact .inr ⟨l, rfl⟩
    | none =>
      obtain hb' | hb' := (hmem b).mp ((hinv.mem_stack b).mpr ⟨hvisited.1, hb⟩)
      · exact .inl hb'
      · have hle := hvisited.2 hb'
        have hlt := (h.stack_kept hm hb').2
        omega
  have hclosed : ∀ a b, (a ∈ new ++ [x] ∨ ∃ l, m'.component a = some l) → edge a b →
      b ∈ new ++ [x] ∨ ∃ l, m'.component b = some l := by
    rintro a b (ha | ⟨l, hl⟩) hab
    · exact hedges a ha b hab
    · obtain ⟨k, -, hk⟩ := hinv.closed a b l hl hab
      exact .inr ⟨k, hk⟩
  -- each of them gets to `x`, and `x` to each of them
  have hmutual : ∀ a ∈ new ++ [x], Mutual edge x a := by
    intro a ha
    refine ⟨?_, ?_⟩
    · obtain ha' | ha' := List.mem_append.mp ha
      · exact hreach a ha'
      · rw [List.mem_singleton.mp ha']
    · obtain ⟨g, hg, hag, -⟩ := hinv.climbs a ((hmem a).mpr (.inl ha))
      obtain rfl | hg := List.mem_cons.mp hg
      · exact hag
      · obtain hin | ⟨l, hl⟩ := closed_reach hclosed hag (.inl ha)
        · exact absurd (hgray g hg) (hapart g hin)
        · have hgopen := ((hinv.mem_stack g).mp ((hmem g).mpr (.inr (hgray g hg)))).2
          rw [hgopen] at hl
          cases hl
  have hknown : ∀ a b l, a ∈ new ++ [x] → m'.component b = some l → ¬ ReflTransGen edge b a := by
    intro a b l ha hl hba
    obtain ⟨k, hk⟩ := closed_reach (P := fun c => ∃ k, m'.component c = some k)
      (fun c d ⟨k, hk⟩ hcd => (hinv.closed c d k hk hcd).imp fun _ h => h.2) hba ⟨l, hl⟩
    rw [hopen a ha] at hk
    cases hk
  refine ⟨⟨fun a => ?_, hm.sorted.imp_of_mem fun {a b} ha hb hab => ?_, hgray, fun a ha => ?_,
    fun a b ha hg hab => ?_, fun a k hk => ?_, fun a b k hk hab => ?_,
    fun a b k l hk hl => ?_, hinv.bounded⟩, ⟨h.index, fun a ha => ?_, h.low, ?_⟩,
    ((hinv.mem_stack x).mp h.mem_stack.1).1, [], rfl, nofun, nofun, .inl ?_⟩
  · show a ∈ m.stack ↔ m'.index a ≠ 0 ∧
      (if a ∈ new ++ [x] then some m'.count else m'.component a) = none
    by_cases ha : a ∈ new ++ [x]
    · rw [if_pos ha]
      exact ⟨fun hold => absurd hold (hapart a ha), fun hnone => nomatch hnone.2⟩
    · rw [if_neg ha, ← hinv.mem_stack, hmem]
      exact ⟨.inr, fun h => h.resolve_left ha⟩
  · show m'.index b < m'.index a
    rwa [(h.stack_kept hm ha).1, (h.stack_kept hm hb).1]
  · obtain ⟨g, hg, hag, hle⟩ := hm.climbs a ha
    refine ⟨g, hg, hag, ?_⟩
    show m'.index g ≤ m'.index a
    rwa [(h.stack_kept hm ha).1, (h.stack_kept hm (hgray g hg)).1]
  · show m'.index b ≠ 0
    by_cases hax : a = x
    · subst hax
      exact (h.seen_low b (hall b hab)).1
    · exact hinv.left a b ha (by simp [hax, hg]) hab
  · show m'.index a ≠ 0 ∧ k < m'.count + 1
    rw [hpopped] at hk
    split at hk
    · rename_i ha
      obtain rfl := Option.some.inj hk
      exact ⟨((hinv.mem_stack a).mp ((hmem a).mpr (.inl ha))).1, Nat.lt_succ_self _⟩
    · obtain ⟨hvisited, hlt⟩ := hinv.entered a k hk
      exact ⟨hvisited, Nat.lt_succ_of_lt hlt⟩
  · rw [hpopped] at hk
    split at hk
    · rename_i ha
      obtain rfl := Option.some.inj hk
      obtain hb | ⟨l, hl⟩ := hedges a ha b hab
      · exact ⟨m'.count, Nat.le_refl _, by rw [hpopped, if_pos hb]⟩
      · exact ⟨l, Nat.le_of_lt (hinv.entered b l hl).2, hold b l hl⟩
    · obtain ⟨l, hle, hl⟩ := hinv.closed a b k hk hab
      exact ⟨l, hle, hold b l hl⟩
  · rw [hpopped] at hk hl
    split at hk
    · rename_i ha
      obtain rfl := Option.some.inj hk
      split at hl
      · rename_i hb
        obtain rfl := Option.some.inj hl
        exact ⟨fun _ => (hmutual a ha).symm.trans (hmutual b hb), fun _ => rfl⟩
      · have hlt := (hinv.entered b l hl).2
        exact ⟨fun heq => by omega, fun hab => absurd hab.2 (hknown a b l ha hl)⟩
    · split at hl
      · rename_i hb
        obtain rfl := Option.some.inj hl
        have hlt := (hinv.entered a k hk).2
        exact ⟨fun heq => by omega, fun hab => absurd hab.1 (hknown b a k hb hk)⟩
      · exact hinv.same a b k l hk hl
  · rw [hpopped, if_neg, h.component a ha]
    intro hin
    have hopen' := hopen a hin
    rw [h.component a ha] at hopen'
    exact hapart a hin ((hm.mem_stack a).mpr ⟨ha, hopen'⟩)
  · show m.last ≤ m'.last
    have hbound := hinv.bounded x
    have hfresh := h.fresh
    omega
  · show m.last < m'.low x
    rw [hlow]
    exact h.fresh

end Under

end Components
