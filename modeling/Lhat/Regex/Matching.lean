import Lhat.Regex.Basic

/-!
# What the matcher answers

A call of the matcher says whether the text can be covered from a position on, by a
node and by what comes after it (`Cont.Ends`). Where it fails it leaves the spans as it
found them, and where it succeeds every group that was entered has been left
(`Marked`, `Closed`). `Tells` is all this of one call, and it goes up the levels of
`walk`.
-/

namespace Lhat.Regex

open CountedSteps

variable {index : Fin maxGroups} {pos' : Nat} {k' : Cont}

variable {text : List UInt8} {k : Cont} {pos e start : Nat} {spans : Spans}

/-- What comes after a position can be covered up to the end. -/
def Cont.Ends (text : List UInt8) (e : Nat) : Cont → Nat → Prop
  | [], pos => e = pos
  | .list rest :: k, pos => ∃ j, SettledAll text rest pos j ∧ Cont.Ends text e k j
  | .groupEnd _ :: k, pos => Cont.Ends text e k pos
  | .again child bounds done enteredAt :: k, pos =>
    if pos = enteredAt then Cont.Ends text e k pos
    else ∃ j, Settles (Settled text child) bounds.min bounds.max done pos j ∧ Cont.Ends text e k j

/-! ## The spans -/

/-- A group that was not entered, or was left, or is going to be. -/
inductive Marked.One (start pos : Nat) (k : Cont) (index : Fin maxGroups) : LhatRegexSpan → Prop
  | unset : .groupEnd index ∉ k → Marked.One start pos k index {}
  | left {b e : Nat} : start ≤ b → b ≤ e → e ≤ pos →
      Marked.One start pos k index { begin_ := some b, end_ := some e }
  | entered {b : Nat} : start ≤ b → b ≤ pos → .groupEnd index ∈ k →
      Marked.One start pos k index { begin_ := some b, end_ := none }

/-- The spans of a match under way. -/
structure Marked (start pos : Nat) (k : Cont) (spans : Spans) : Prop where
  le : start ≤ pos
  whole : (spans 0).begin_ = some start
  groups : ∀ index, index ≠ 0 → Marked.One start pos k index (spans index)

/-- The spans of a match: every group is unset or lies inside. -/
def Closed (start : Nat) (spans : Spans) : Prop :=
  ∃ e, spans 0 = { begin_ := some start, end_ := some e } ∧
    ∀ index, spans index = {} ∨
      ∃ b e', spans index = { begin_ := some b, end_ := some e' } ∧
        start ≤ b ∧ b ≤ e' ∧ e' ≤ e

theorem Marked.One.mono {span : LhatRegexSpan}
    (ho : Marked.One start pos k index span) (hle : pos ≤ pos')
    (hk : .groupEnd index ∈ k' ↔ .groupEnd index ∈ k) : Marked.One start pos' k' index span := by
  cases ho with
  | unset hout => exact .unset fun hin => hout (hk.1 hin)
  | left hb he hpos => exact .left hb he (Nat.le_trans hpos hle)
  | entered hb hpos hmem => exact .entered hb (Nat.le_trans hpos hle) (hk.2 hmem)

theorem Marked.mono (hm : Marked start pos k spans) (hle : pos ≤ pos')
    (hk : ∀ index, .groupEnd index ∈ k' ↔ .groupEnd index ∈ k) : Marked start pos' k' spans :=
  ⟨Nat.le_trans hm.le hle, hm.whole, fun index hne => (hm.groups index hne).mono hle (hk index)⟩

theorem Marked.closed (hm : Marked start pos [] spans) :
    Closed start (Function.update spans 0 { spans 0 with end_ := some pos }) := by
  have hzero : Function.update spans 0 { spans 0 with end_ := some pos } 0 =
      { begin_ := some start, end_ := some pos } := by
    rw [Function.update_self]
    exact congrArg (LhatRegexSpan.mk · (some pos)) hm.whole
  refine ⟨pos, hzero, fun index => ?_⟩
  by_cases hindex : index = 0
  · rw [hindex, hzero]
    exact .inr ⟨start, pos, rfl, Nat.le_refl _, hm.le, Nat.le_refl _⟩
  · rw [Function.update_of_ne hindex]
    have ho := hm.groups index hindex
    generalize spans index = span at ho
    cases ho with
    | unset _ => exact .inl rfl
    | left hb he hpos => exact .inr ⟨_, _, rfl, hb, he, hpos⟩
    | entered _ _ hmem => cases hmem

theorem Marked.leave (hm : Marked start pos (.groupEnd index :: k) spans) :
    Marked start pos k (Function.update spans index { spans index with end_ := some pos }) := by
  refine ⟨hm.le, ?_, fun other hne => ?_⟩
  · by_cases hzero : 0 = index
    · rw [← hzero, Function.update_self]
      exact hm.whole
    · rw [Function.update_of_ne hzero]
      exact hm.whole
  · have ho := hm.groups other hne
    by_cases hother : other = index
    · subst hother
      rw [Function.update_self]
      generalize spans other = span at ho
      cases ho with
      | unset hout => exact absurd List.mem_cons_self hout
      | left hb he hpos => exact .left hb (Nat.le_trans he hpos) (Nat.le_refl _)
      | entered hb hpos _ => exact .left hb hpos (Nat.le_refl _)
    · rw [Function.update_of_ne hother]
      exact ho.mono (Nat.le_refl _) (by simp [hother])

theorem Marked.enter (hne : index ≠ 0) (hm : Marked start pos k spans) :
    Marked start pos (.groupEnd index :: k)
      (Function.update spans index { begin_ := some pos, end_ := none }) := by
  refine ⟨hm.le, ?_, fun other hother => ?_⟩
  · rw [Function.update_of_ne hne.symm]
    exact hm.whole
  · by_cases heq : other = index
    · subst heq
      rw [Function.update_self]
      exact .entered hm.le (Nat.le_refl _) List.mem_cons_self
    · rw [Function.update_of_ne heq]
      exact (hm.groups other hother).mono (Nat.le_refl _) (by simp [heq])

theorem Marked.unset : Marked start start [] (unset start) := by
  refine ⟨Nat.le_refl _, by rw [Regex.unset, Function.update_self], fun index hne => ?_⟩
  rw [Regex.unset, Function.update_of_ne hne]
  exact .unset nofun

/-! ## A call -/

/-- What a call answers where the text is to be covered up to an end with `P`. -/
structure Tells (k : Cont) (pos : Nat) (spans : Spans) (P : Nat → Prop) (r : Bool × Matcher) :
    Prop where
  found : r.1 = true → ∃ e, P e ∧ (r.2.spans 0).end_ = some e
  closed : r.1 = true → ∀ start, Marked start pos k spans → Closed start r.2.spans
  complete : r.1 = false → r.2.exceeded = false → ∀ e, ¬P e
  kept : r.1 = false → r.2.spans = spans

section Calls

variable {P Q : Nat → Prop} {r : Bool × Matcher} {m : Matcher}

theorem Tells.imp (ht : Tells k pos spans P r) (hP : ∀ e, P e ↔ Q e)
    (hmarked : ∀ start, Marked start pos' k' spans → Marked start pos k spans) :
    Tells k' pos' spans Q r where
  found hr := by
    obtain ⟨e, he, hend⟩ := ht.found hr
    exact ⟨e, (hP e).1 he, hend⟩
  closed hr start hm := ht.closed hr start (hmarked start hm)
  complete hr hex e hq := ht.complete hr hex e ((hP e).2 hq)
  kept := ht.kept

theorem Tells.congr (ht : Tells k pos spans P r) (hP : ∀ e, P e ↔ Q e) : Tells k pos spans Q r :=
  ht.imp hP fun _ hm => hm

theorem tells_failed (hspans : m.spans = spans) (hP : ∀ e, ¬P e) :
    Tells k pos spans P (false, m) where
  found := nofun
  closed := nofun
  complete _ _ := hP
  kept _ := hspans

theorem tells_exceeded (hspans : m.spans = spans) (hex : m.exceeded = true) :
    Tells k pos spans P (false, m) where
  found := nofun
  closed := nofun
  complete _ hnot := by
    rw [hex] at hnot
    cases hnot
  kept _ := hspans

theorem tells_spending {go : Matcher → Bool × Matcher} (hspans : m.spans = spans)
    (hgo : ∀ m : Matcher, m.spans = spans → Tells k pos spans P (go m)) :
    Tells k pos spans P (spending m go) := by
  unfold spending
  simp only
  split
  · exact tells_exceeded hspans rfl
  · exact hgo _ hspans

theorem tells_attempt {may : Bool} {first next : Matcher → Bool × Matcher}
    (hfirst : may = true → ∀ m : Matcher, m.spans = spans → Tells k pos spans P (first m))
    (hnext : ∀ m : Matcher, m.spans = spans → Tells k pos spans Q (next m))
    (hspans : m.spans = spans) :
    Tells k pos spans (fun e => may = true ∧ P e ∨ Q e) (attempt may first next m) := by
  unfold attempt
  cases may with
  | false => exact (hnext m hspans).congr fun e => by simp
  | true =>
    have ht := hfirst rfl m hspans
    simp only [if_true, true_and]
    generalize first m = r at ht ⊢
    obtain ⟨answered, m'⟩ := r
    cases answered with
    | true =>
      refine ⟨fun _ => ?_, fun _ => ht.closed rfl, nofun, nofun⟩
      obtain ⟨e, he, hend⟩ := ht.found rfl
      exact ⟨e, .inl he, hend⟩
    | false =>
      cases hex : m'.exceeded with
      | true => exact tells_exceeded (ht.kept rfl) hex
      | false =>
        have hnone := ht.complete rfl hex
        simp only [Bool.or_false, Bool.false_eq_true, if_false]
        exact (hnext m' (ht.kept rfl)).congr fun e => by simp [hnone e]

end Calls

/-! ## The levels -/

/-- A repeat from a round on, and what comes after it. -/
def EndsRound (text : List UInt8) (child : Node) (bounds : Bounds) (done : Nat) (k : Cont) (pos e : Nat) :
    Prop :=
  ∃ j, Settles (Settled text child) bounds.min bounds.max done pos j ∧ k.Ends text e j

/-- A node, and what comes after it. -/
def EndsNode (text : List UInt8) (n : Node) (k : Cont) (pos e : Nat) : Prop :=
  ∃ j, Settled text n pos j ∧ k.Ends text e j

/-- Both functions of a level tell what they should. -/
structure Walk.Tells (text : List UInt8) (w : Walk) : Prop where
  node : ∀ n k pos m, Regex.Tells k pos m.spans (EndsNode text n k pos) (w.node n k pos m)
  round : ∀ child bounds done k pos m, Regex.Tells k pos m.spans (EndsRound text child bounds done k pos)
    (w.round child bounds done k pos m)

section Levels

variable {w : Walk} {m : Matcher}

theorem endsNode_list {first : Node} {rest : List Node} :
    EndsNode text first (.list rest :: k) pos e ↔ Cont.Ends text e (.list (first :: rest) :: k) pos := by
  constructor
  · rintro ⟨j, hfirst, l, hrest, hends⟩
    exact ⟨l, ⟨j, hfirst, hrest⟩, hends⟩
  · rintro ⟨l, ⟨j, hfirst, hrest⟩, hends⟩
    exact ⟨j, hfirst, l, hrest, hends⟩

theorem Walk.Tells.resume (hw : w.Tells text) (k : Cont) (pos : Nat) (m : Matcher) :
    Regex.Tells k pos m.spans (fun e => k.Ends text e pos) (w.resume k pos m) := by
  induction k generalizing pos m with
  | nil =>
    refine ⟨fun _ => ⟨pos, rfl, ?_⟩, fun _ start hm => hm.closed, nofun, nofun⟩
    show (Function.update m.spans 0 { m.spans 0 with end_ := some pos } 0).end_ = some pos
    rw [Function.update_self]
  | cons frame k ih =>
    cases frame with
    | list rest =>
      cases rest with
      | nil =>
        refine (ih pos m).imp (fun e => ?_) fun start hm => hm.mono (Nat.le_refl _) (by simp)
        exact ⟨fun hends => ⟨pos, rfl, hends⟩, fun ⟨j, hj, hends⟩ => hj ▸ hends⟩
      | cons first rest =>
        exact (hw.node first (.list rest :: k) pos m).imp (fun e => endsNode_list)
          fun start hm => hm.mono (Nat.le_refl _) (by simp)
    | groupEnd index =>
      have ht := ih pos (m.setEnd index (some pos))
      unfold Walk.resume
      simp only
      generalize w.resume k pos (m.setEnd index (some pos)) = r at ht ⊢
      obtain ⟨answered, m'⟩ := r
      cases answered with
      | true => exact ⟨fun _ => ht.found rfl, fun _ start hm => ht.closed rfl start hm.leave, nofun,
          nofun⟩
      | false =>
        refine ⟨nofun, nofun, fun _ hex => ht.complete rfl hex, fun _ => ?_⟩
        -- The end that was there is put back.
        have hkept : m'.spans = (m.setEnd index (some pos)).spans := ht.kept rfl
        show Function.update m'.spans index _ = m.spans
        rw [hkept]
        show Function.update (Function.update m.spans index _) index _ = m.spans
        rw [Function.update_idem]
        refine (congrArg (Function.update m.spans index) ?_).trans (Function.update_eq_self _ _)
        show LhatRegexSpan.mk (Function.update m.spans index _ index).begin_ _ = m.spans index
        rw [Function.update_self]
    | again child bounds done enteredAt =>
      unfold Walk.resume
      by_cases hat : pos = enteredAt
      · rw [if_pos hat]
        refine (ih pos m).imp (fun e => ?_) fun start hm => hm.mono (Nat.le_refl _) (by simp)
        rw [Cont.Ends, if_pos hat]
      · rw [if_neg hat]
        refine (hw.round child bounds done k pos m).imp (fun e => ?_)
          fun start hm => hm.mono (Nat.le_refl _) (by simp)
        rw [Cont.Ends, if_neg hat]
        rfl

theorem Walk.Tells.choices (hw : w.Tells text) (k : Cont) (pos : Nat) (choices : List Node)
    (hspans : m.spans = spans) :
    Regex.Tells k pos spans (fun e => ∃ choice ∈ choices, EndsNode text choice k pos e)
      (w.choices k pos choices m) := by
  induction choices generalizing m with
  | nil => exact tells_failed hspans (by simp)
  | cons choice rest ih =>
    have ht : Regex.Tells k pos spans (EndsNode text choice k pos)
        (w.node choice (.list [] :: k) pos m) := by
      refine (hspans ▸ hw.node choice (.list [] :: k) pos m).imp (fun e => ?_)
        fun start hm => hm.mono (Nat.le_refl _) (by simp)
      unfold EndsNode
      simp [Cont.Ends, SettledAll, CoversAll]
    unfold Walk.choices
    generalize w.node choice (.list [] :: k) pos m = r at ht ⊢
    obtain ⟨answered, m'⟩ := r
    cases answered with
    | true =>
      refine ⟨fun _ => ?_, fun _ => ht.closed rfl, nofun, nofun⟩
      obtain ⟨e, he, hend⟩ := ht.found rfl
      exact ⟨e, ⟨choice, List.mem_cons_self, he⟩, hend⟩
    | false =>
      cases hex : m'.exceeded with
      | true => simpa [hex] using tells_exceeded (ht.kept rfl) hex
      | false =>
        have hnone := ht.complete rfl hex
        simp only [hex, Bool.false_eq_true, if_false]
        exact (ih (ht.kept rfl)).congr fun e => by simp [hnone e]

theorem tells_stretch (hw : w.Tells text) {n : Node} {j : Nat} {c : Prop} [Decidable c]
    (hn : ∀ l, Settled text n pos l ↔ c ∧ l = j) (hle : pos ≤ j) (hspans : m.spans = spans) :
    Regex.Tells k pos spans (EndsNode text n k pos) (if c then w.resume k j m else (false, m)) := by
  by_cases hc : c
  · rw [if_pos hc]
    refine (hspans ▸ hw.resume k j m).imp (fun e => ?_) fun start hm => hm.mono hle fun _ => Iff.rfl
    constructor
    · exact fun hends => ⟨j, (hn j).2 ⟨hc, rfl⟩, hends⟩
    · rintro ⟨l, hl, hends⟩
      obtain ⟨-, rfl⟩ := (hn l).1 hl
      exact hends
  · rw [if_neg hc]
    exact tells_failed hspans fun e ⟨l, hl, _⟩ => hc ((hn l).1 hl).1

theorem Walk.Tells.list (hw : w.Tells text) {n : Node} {children : List Node}
    (hn : ∀ l, SettledAll text children pos l ↔ Settled text n pos l) (hspans : m.spans = spans) :
    Regex.Tells k pos spans (EndsNode text n k pos) (w.list children k pos m) := by
  refine (hspans ▸ hw.resume (.list children :: k) pos m).imp (fun e => ?_)
    fun start hm => hm.mono (Nat.le_refl _) (by simp)
  exact exists_congr fun l => and_congr_left fun _ => hn l

theorem settledAll_single {child : Node} {l : Nat} :
    SettledAll text [child] pos l ↔ Settled text child pos l := by
  constructor
  · rintro ⟨j, hchild, rfl⟩
    exact hchild
  · exact fun hchild => ⟨l, hchild, rfl⟩

theorem Walk.Tells.nodeBody (hw : w.Tells text) (n : Node) (k : Cont) (pos : Nat) (m : Matcher) :
    Regex.Tells k pos m.spans (EndsNode text n k pos) (nodeBody text w n k pos m) := by
  refine tells_spending rfl fun m₁ hspans => ?_
  cases n with
  | lit bytes => exact tells_stretch hw (fun l => and_assoc.symm) (Nat.le_add_right _ _) hspans
  | any =>
    by_cases hpast : text.length ≤ pos
    · simp only [if_pos hpast]
      exact tells_failed hspans fun e ⟨l, hl, _⟩ => Nat.not_lt.2 hpast hl.1
    · simp only [if_neg hpast]
      refine (hspans ▸ hw.resume k (pos + (decode text pos).2) m₁).imp (fun e => ?_)
        fun start hm => hm.mono (Nat.le_add_right _ _) fun _ => Iff.rfl
      constructor
      · exact fun hends => ⟨_, ⟨Nat.not_le.1 hpast, rfl⟩, hends⟩
      · rintro ⟨l, ⟨-, rfl⟩, hends⟩
        exact hends
  | charClass ranges negated =>
    by_cases hpast : text.length ≤ pos
    · simp only [if_pos hpast]
      exact tells_failed hspans fun e ⟨l, hl, _⟩ => Nat.not_lt.2 hpast hl.1
    · simp only [if_neg hpast]
      refine tells_stretch hw (fun l => ?_) (Nat.le_add_right _ _) hspans
      rw [inRanges_iff]
      exact and_iff_right (Nat.not_le.1 hpast)
  | bol => exact tells_stretch hw (fun l => Iff.rfl) (Nat.le_refl _) hspans
  | eol => exact tells_stretch hw (fun l => Iff.rfl) (Nat.le_refl _) hspans
  | seq children => exact hw.list (fun l => Iff.rfl) hspans
  | alt choices =>
    refine (hw.choices k pos choices hspans).congr fun e => ?_
    constructor
    · rintro ⟨choice, hmem, l, hl, hends⟩
      exact ⟨l, mem_coversOne.2 ⟨choice, hmem, hl⟩, hends⟩
    · rintro ⟨l, hl, hends⟩
      obtain ⟨choice, hmem, hl⟩ := mem_coversOne.1 hl
      exact ⟨choice, hmem, l, hl, hends⟩
  | rep child bounds => exact hspans ▸ hw.round child bounds 0 k pos m₁
  | group index child =>
    by_cases hzero : index = 0
    · simp only [if_pos hzero]
      exact hw.list (fun l => settledAll_single) hspans
    · simp only [if_neg hzero]
      have ht : Regex.Tells (.groupEnd index :: k) pos
          (Function.update m.spans index { begin_ := some pos, end_ := none })
          (EndsNode text child (.groupEnd index :: k) pos)
          (w.list [child] (.groupEnd index :: k) pos
            (m₁.setSpan index { begin_ := some pos, end_ := none })) :=
        hw.list (fun l => settledAll_single) (by rw [← hspans]; rfl)
      generalize w.list [child] _ pos _ = r at ht ⊢
      obtain ⟨answered, m'⟩ := r
      cases answered with
      | true => exact ⟨fun _ => ht.found rfl, fun _ start hm => ht.closed rfl start (hm.enter hzero),
          nofun, nofun⟩
      | false =>
        refine ⟨nofun, nofun, fun _ hex => ht.complete rfl hex, fun _ => ?_⟩
        -- The span that was there is put back.
        have hkept : m'.spans = Function.update m.spans index _ := ht.kept rfl
        show Function.update m'.spans index (m₁.spans index) = m.spans
        rw [hkept, Function.update_idem, hspans, Function.update_eq_self]

theorem endsRound_iff {child : Node} {bounds : Bounds} {done : Nat} :
    EndsRound text child bounds done k pos e ↔ bounds.min ≤ done ∧ k.Ends text e pos ∨
      (∀ most ∈ bounds.max, done < most) ∧
        EndsNode text child (.again child bounds (done + 1) pos :: k) pos e := by
  constructor
  · rintro ⟨l, hsettles, hends⟩
    rcases settles_iff.1 hsettles with ⟨hleast, rfl⟩ | ⟨hmost, j, hchild, ⟨rfl, rfl⟩ | ⟨hne, hrest⟩⟩
    · exact .inl ⟨hleast, hends⟩
    · exact .inr ⟨hmost, l, hchild, by rwa [Cont.Ends, if_pos rfl]⟩
    · exact .inr ⟨hmost, j, hchild, by rw [Cont.Ends, if_neg hne]; exact ⟨l, hrest, hends⟩⟩
  · rintro (⟨hleast, hends⟩ | ⟨hmost, j, hchild, hends⟩)
    · exact ⟨pos, .stop hleast, hends⟩
    · rw [Cont.Ends] at hends
      split at hends
      · next hat =>
          subst hat
          exact ⟨j, .settle hmost hchild, hends⟩
      · next hne =>
          obtain ⟨l, hrest, hends⟩ := hends
          exact ⟨l, .round hmost hchild hne hrest, hends⟩

theorem Walk.Tells.roundBody (hw : w.Tells text) (child : Node) (bounds : Bounds) (done : Nat)
    (k : Cont) (pos : Nat) (m : Matcher) :
    Regex.Tells k pos m.spans (EndsRound text child bounds done k pos)
      (roundBody w child bounds done k pos m) := by
  refine tells_spending rfl fun m₁ hspans => ?_
  have hstop : ∀ m₂ : Matcher, m₂.spans = m.spans →
      Regex.Tells k pos m.spans (fun e => k.Ends text e pos) (w.resume k pos m₂) :=
    fun m₂ hm₂ => hm₂ ▸ hw.resume k pos m₂
  have hgo : ∀ m₂ : Matcher, m₂.spans = m.spans → Regex.Tells k pos m.spans
      (EndsNode text child (.again child bounds (done + 1) pos :: k) pos)
      (w.node child (.again child bounds (done + 1) pos :: k) pos m₂) :=
    fun m₂ hm₂ => (hm₂ ▸ hw.node child _ pos m₂).imp (fun e => Iff.rfl)
      fun start hm => hm.mono (Nat.le_refl _) (by simp)
  have hlast : ∀ m₂ : Matcher, m₂.spans = m.spans → Regex.Tells k pos m.spans
      (fun e => (!bounds.lazy && decide (bounds.min ≤ done)) = true ∧ k.Ends text e pos)
      (if !bounds.lazy && decide (bounds.min ≤ done) then w.resume k pos m₂ else (false, m₂)) := by
    intro m₂ hm₂
    by_cases hmay : (!bounds.lazy && decide (bounds.min ≤ done)) = true
    · rw [if_pos hmay]
      exact (hstop m₂ hm₂).congr fun e => (and_iff_right hmay).symm
    · rw [if_neg hmay]
      exact tells_failed hm₂ fun e he => hmay he.1
  refine (tells_attempt (fun _ => hstop)
    (fun m₂ hm₂ => tells_attempt (fun _ => hgo) hlast hm₂) hspans).congr fun e => ?_
  have hmost : (bounds.max.all fun most => decide (done < most)) = true ↔
      ∀ most ∈ bounds.max, done < most := by
    cases bounds.max <;> simp
  rw [hmost, endsRound_iff]
  cases bounds.lazy <;> simp [or_comm]

theorem walk_tells (text : List UInt8) (depth : Nat) : (walk text depth).Tells text := by
  induction depth with
  | zero =>
    exact ⟨fun n k pos m => tells_exceeded rfl rfl, fun child bounds done k pos m => tells_exceeded rfl rfl⟩
  | succ depth ih => exact ⟨ih.nodeBody, ih.roundBody⟩

end Levels

end Lhat.Regex
