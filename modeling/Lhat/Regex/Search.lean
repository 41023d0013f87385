import Lhat.Regex.Compile
import Lhat.Regex.Matching
import Lhat.Regex.Steady

/-!
# What a search finds

A match that is found is a match, at the leftmost place where the matcher finds one, and
the groups lie inside (`search_sound`). Within its budget the matcher finds one wherever
one is covered by rounds that move (`matchNode_iff`), and so wherever a steady pattern is
covered (`match_steady`). A counted repeat whose body is empty at the start of the text
only may be covered in no such way (`match_complete_fails`).
-/

namespace Lhat.Regex

open CountedSteps

variable {text : List UInt8} {n : Node} {pos start : Nat} {m : Matcher}

/-- A place where a search may start: the bytes before it are whole code points. -/
inductive Place (text : List UInt8) (from_ : Nat) : Nat → Prop
  | here : Place text from_ from_
  | next {p : Nat} : Place text from_ p → p < text.length → Place text from_ (p + (decode text p).2)

theorem Place.le {p : Nat} (hp : Place text start p) : start ≤ p := by
  induction hp with
  | here => exact Nat.le_refl _
  | next _ _ ih => exact Nat.le_add_right_of_le ih

theorem Place.cases_here {p : Nat} (hp : Place text start p) :
    p = start ∨ Place text (start + (decode text start).2) p := by
  induction hp with
  | here => exact .inl rfl
  | next _ hlt ih =>
    rcases ih with rfl | hp
    · exact .inr .here
    · exact .inr (hp.next hlt)

theorem Place.back {p : Nat} (hlt : start < text.length)
    (hp : Place text (start + (decode text start).2) p) : Place text start p := by
  induction hp with
  | here => exact Place.here.next hlt
  | next _ hlt' ih => exact ih.next hlt'

theorem endsNode_nil {e : Nat} : EndsNode text n [] pos e ↔ Settled text n pos e :=
  ⟨fun ⟨_, hn, heq⟩ => heq ▸ hn, fun hn => ⟨e, hn, rfl⟩⟩

theorem settled_of_found {depth : Nat} (hfound : ((walk text depth).node n [] pos m).1 = true) :
    ∃ e, Settled text n pos e ∧ (((walk text depth).node n [] pos m).2.spans 0).end_ = some e := by
  obtain ⟨e, he, hend⟩ := ((walk_tells text depth).node n [] pos m).found hfound
  exact ⟨e, endsNode_nil.1 he, hend⟩

theorem matchNode_iff (hbudget : (matchNode text n [] pos m).2.exceeded = false) :
    (matchNode text n [] pos m).1 = true ↔ ∃ e, Settled text n pos e := by
  constructor
  · intro hfound
    obtain ⟨e, he, -⟩ := settled_of_found hfound
    exact ⟨e, he⟩
  · rintro ⟨e, he⟩
    by_contra hnot
    exact ((walk_tells text matchDepthLimit).node n [] pos m).complete
      (Bool.eq_false_iff.2 hnot) hbudget e (endsNode_nil.2 he)

/-- What is said of a match that was found. -/
structure Found (text : List UInt8) (n : Node) (from_ start : Nat) (spans : Spans) : Prop where
  place : Place text from_ start
  covers : ∃ e, spans 0 = { begin_ := some start, end_ := some e } ∧ Denotes text n start e
  leftmost : ∀ p, Place text from_ p → p < start →
    ∀ depth m, ((walk text depth).node n [] p m).1 = false
  groups : ∀ index, spans index = {} ∨
    ∃ b e e', spans index = { begin_ := some b, end_ := some e } ∧
      (spans 0).end_ = some e' ∧ start ≤ b ∧ b ≤ e ∧ e ≤ e'

theorem Found.here (hfound : (matchNode text n [] start { m with spans := unset start }).1 = true) :
    Found text n start start (matchNode text n [] start { m with spans := unset start }).2.spans := by
  obtain ⟨e, hsettled, hend⟩ := settled_of_found hfound
  obtain ⟨e', hwhole, hgroups⟩ :=
    ((walk_tells text matchDepthLimit).node n [] start _).closed hfound start Marked.unset
  refine ⟨.here, ⟨e', hwhole, ?_⟩, fun p hp hlt => ?_, fun index => ?_⟩
  · obtain rfl : e = e' := by
      rw [hwhole] at hend
      exact (Option.some.inj hend).symm
    exact hsettled.denotes
  · exact absurd hp.le (Nat.not_le.2 hlt)
  · refine (hgroups index).imp_right ?_
    rintro ⟨b, e'', hspan, hle⟩
    exact ⟨b, e'', e', hspan, congrArg LhatRegexSpan.end_ hwhole, hle⟩

theorem searchFrom_eq {regex : LhatRegex} {r : Bool × Matcher}
    (hr : matchNode text regex.root [] start { m with spans := unset start } = r) :
    searchFrom text regex start m =
      if r.1 then { found := true, spans := r.2.spans }
      else if r.2.exceeded then { found := false, spans := r.2.spans, depthExceeded := true }
      else if text.length ≤ start then { found := false, spans := r.2.spans }
      else searchFrom text regex (start + (decode text start).2) r.2 := by
  rw [searchFrom, hr]

theorem failed_of_failed (hfailed : (matchNode text n [] pos m).1 = false)
    (hbudget : (matchNode text n [] pos m).2.exceeded = false) (depth : Nat) (m' : Matcher) :
    ((walk text depth).node n [] pos m').1 = false := by
  refine Bool.eq_false_iff.2 fun hfound => ?_
  obtain ⟨e, he, -⟩ := settled_of_found hfound
  rw [(matchNode_iff hbudget).2 ⟨e, he⟩] at hfailed
  cases hfailed

theorem searchFrom_found {regex : LhatRegex} (hfound : (searchFrom text regex start m).found = true)
    : ∃ at_, Found text regex.root start at_ (searchFrom text regex start m).spans := by
  induction hleft : text.length - start using Nat.strong_induction_on generalizing start m with
  | _ left ih =>
    obtain ⟨r, hr⟩ : ∃ r, matchNode text regex.root [] start { m with spans := unset start } = r :=
      ⟨_, rfl⟩
    rw [searchFrom_eq hr] at hfound ⊢
    cases hanswered : r.1 with
    | true =>
      rw [if_pos rfl]
      exact ⟨start, hr ▸ Found.here (by rw [hr, hanswered])⟩
    | false =>
      simp only [hanswered, Bool.false_eq_true, if_false] at hfound ⊢
      split at hfound
      · cases hfound
      · next hex =>
          split at hfound
          · cases hfound
          · next hpast =>
              rw [if_neg hex, if_neg hpast]
              have hwidth := decode_width_pos text start
              obtain ⟨at_, hat⟩ := ih _ (by omega) hfound rfl
              refine ⟨at_, hat.place.back (by omega), hat.covers, fun p hp hlt => ?_, hat.groups⟩
              rcases hp.cases_here with rfl | hp
              · exact failed_of_failed (by rw [hr, hanswered]) (by rw [hr]; simpa using hex)
              · exact hat.leftmost p hp hlt

/-- What is found is a match, at the leftmost place where there is one to be found. -/
theorem search_sound {regex : LhatRegex} {from_ : Nat} {before : Spans}
    (hfound : (lhatRegexSearch regex text from_ before).found = true) :
    ∃ start, Found text regex.root from_ start (lhatRegexSearch regex text from_ before).spans := by
  unfold lhatRegexSearch at hfound ⊢
  split at hfound
  · cases hfound
  · next hin =>
      rw [if_neg hin]
      exact searchFrom_found hfound

/-- A choice between two letters, again and again, and a third letter. -/
def lettersRegex : LhatRegex where
  root := .seq [.rep (.group 1 (.alt [.seq [.lit [97]], .seq [.lit [98]]]))
    { min := 0, max := none, ordered := least_ordered }, .lit [99]]
  groups := 1

/-- The pattern `(a|b)*c` in the text `xabac`. -/
theorem search_sound_letters :
    lhatRegexCompile ("(a|b)*c".toList.map Lexing.ascii) = .ok lettersRegex ∧
      ∃ start, Found [120, 97, 98, 97, 99] lettersRegex.root 0 start
        (lhatRegexSearch lettersRegex [120, 97, 98, 97, 99] 0 fun _ => {}).spans := by
  have hruns : (matchNode [120, 97, 98, 97, 99] lettersRegex.root [] 0 { spans := unset 0 }).1 =
        false ∧
      (matchNode [120, 97, 98, 97, 99] lettersRegex.root [] 0 { spans := unset 0 }).2.exceeded =
        false ∧
      (matchNode [120, 97, 98, 97, 99] lettersRegex.root [] 1
        { spans := unset 1
          steps := (matchNode [120, 97, 98, 97, 99] lettersRegex.root [] 0
            { spans := unset 0 }).2.steps
          exceeded := (matchNode [120, 97, 98, 97, 99] lettersRegex.root [] 0
            { spans := unset 0 }).2.exceeded }).1 = true := by
    decide +kernel
  obtain ⟨hmissed, hbudget, hfound⟩ := hruns
  refine ⟨rfl, search_sound ?_⟩
  unfold lhatRegexSearch
  rw [if_neg (by decide), searchFrom_eq rfl, if_neg (by rw [hmissed]; decide),
    if_neg (by rw [hbudget]; decide), if_neg (by decide), searchFrom_eq rfl]
  exact (congrArg Searched.found (if_pos hfound)).trans rfl

/-- The beginning of the text or a letter, twice, and another letter. -/
def startOrLetter : Node :=
  .seq [.rep (.group 0 (.alt [.seq [.bol], .seq [.lit [97]]]))
    { min := 2, max := some 2, ordered := by simp }, .lit [98]]

/-- Within the budget the matcher finds what there is exactly where it can be covered by
rounds that move. -/
theorem match_complete_iff (hbudget : (matchNode text n [] pos m).2.exceeded = false) :
    ((∃ e, Denotes text n pos e) → (matchNode text n [] pos m).1 = true) ↔
      ((∃ e, Denotes text n pos e) → ∃ e, Settled text n pos e) := by
  rw [matchNode_iff hbudget]

theorem match_steady (hsteady : steady n = true)
    (hbudget : (matchNode text n [] pos m).2.exceeded = false) {e : Nat} (hd : Denotes text n pos e) :
    (matchNode text n [] pos m).1 = true :=
  (matchNode_iff hbudget).2 ⟨e, settled_of_denotes n hsteady pos e hd⟩

/-- Two letters and the other one. -/
theorem match_complete_letters :
    (matchNode [97, 97, 98] startOrLetter [] 0 { spans := unset 0 }).1 = true := by
  refine (match_complete_iff (by decide +kernel)).2 (fun _ => ⟨3, 2, ?_, 3, ?_, rfl⟩)
    ⟨3, 2, ⟨2, by simp, by simp, ?_⟩, 3, ?_, rfl⟩
  · refine .round (by simp) (j := 1) (.inr (.inl ⟨1, ⟨by decide, by decide, rfl⟩, rfl⟩)) (by decide) ?_
    refine .round (by simp) (j := 2) (.inr (.inl ⟨2, ⟨by decide, by decide, rfl⟩, rfl⟩)) (by decide) ?_
    exact .stop (Nat.le_refl 2)
  · exact ⟨by decide, by decide, rfl⟩
  · refine .more (j := 1) (.inr (.inl ⟨1, ⟨by decide, by decide, rfl⟩, rfl⟩)) ?_
    exact .more (.inr (.inl ⟨2, ⟨by decide, by decide, rfl⟩, rfl⟩)) .none
  · exact ⟨by decide, by decide, rfl⟩

/-- The beginning of the text and a letter are two rounds. The matcher stops after the
first of them, for it moves nothing, and does not find the second letter behind it. -/
theorem match_complete_fails :
    lhatRegexCompile ("(?:^|a)\x7b2\x7db".toList.map Lexing.ascii) =
        .ok { root := startOrLetter, groups := 0 } ∧
      Denotes [97, 98] startOrLetter 0 2 ∧
      (matchNode [97, 98] startOrLetter [] 0 { spans := unset 0 }).1 = false ∧
      (matchNode [97, 98] startOrLetter [] 0 { spans := unset 0 }).2.exceeded = false := by
  have hran : (matchNode [97, 98] startOrLetter [] 0 { spans := unset 0 }).1 = false ∧
      (matchNode [97, 98] startOrLetter [] 0 { spans := unset 0 }).2.exceeded = false := by
    decide +kernel
  refine ⟨rfl, ⟨1, ⟨2, Nat.le_refl 2, by simp, ?_⟩, 2, ⟨by decide, by decide, rfl⟩, rfl⟩, hran⟩
  refine .more (j := 0) (.inl ⟨0, ⟨rfl, rfl⟩, rfl⟩) ?_
  exact .more (.inr (.inl ⟨1, ⟨by decide, by decide, rfl⟩, rfl⟩)) .none

end Lhat.Regex
