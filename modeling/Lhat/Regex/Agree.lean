import Lhat.Regex.Members

/-!
# The searches over one text

As long as no search runs out of its budget, `gsub`, `split` and a walk of `gmatch` go
through one and the same run of matches (`Visits`), and end. What `gsub` leaves around its
matches and puts for them is the text, where it puts the match itself. What `split` answers
is the text only where no match is empty before its end: such a match is stepped past by
moving where the next piece begins, and what stood before it is in no piece
(`searches_agree`).
-/

namespace Lhat.Regex

open Lexing (ascii)

variable {visits : List Spans} {fuel : Nat}

variable {regex : LhatRegex} {text : List UInt8} {from_ b e : Nat} {σ : Type}

/-! ### One run of matches -/

/-- Where the search after a match begins. -/
def following (text : List UInt8) (b e : Nat) : Nat :=
  if e = b then e + stepWidth text e else e

/-- The matches that are gone through from a place on. -/
inductive Visits (regex : LhatRegex) (text : List UInt8) : Nat → List Spans → Prop
  | done {from_ : Nat} : (searched regex text from_).found = false →
      (searched regex text from_).depthExceeded = false → Visits regex text from_ []
  | last {from_ b : Nat} : (searched regex text from_).found = true →
      (searched regex text from_).spans 0 = ⟨some b, some b⟩ → from_ ≤ b → b = text.length →
      Visits regex text from_ [(searched regex text from_).spans]
  | empty {from_ b : Nat} {rest : List Spans} : (searched regex text from_).found = true →
      (searched regex text from_).spans 0 = ⟨some b, some b⟩ → from_ ≤ b → b < text.length →
      Visits regex text (b + stepWidth text b) rest →
      Visits regex text from_ ((searched regex text from_).spans :: rest)
  | moved {from_ b e : Nat} {rest : List Spans} : (searched regex text from_).found = true →
      (searched regex text from_).spans 0 = ⟨some b, some e⟩ → from_ ≤ b → b < e →
      e ≤ text.length → Visits regex text e rest →
      Visits regex text from_ ((searched regex text from_).spans :: rest)

/-- Where a search is made. -/
inductive Reached (regex : LhatRegex) (text : List UInt8) : Nat → Prop
  | start : Reached regex text 0
  | next {from_ b e : Nat} : Reached regex text from_ → (searched regex text from_).found = true →
      (searched regex text from_).spans 0 = ⟨some b, some e⟩ →
      Reached regex text (following text b e)

/-- No search that is made runs out of its budget. -/
def Unexhausted (regex : LhatRegex) (text : List UInt8) : Prop :=
  ∀ from_, Reached regex text from_ → (searched regex text from_).depthExceeded = false

theorem stepWidth_pos (text : List UInt8) (at_ : Nat) : 0 < stepWidth text at_ := by
  unfold stepWidth
  split <;> omega

theorem stepWidth_inside {at_ : Nat} (hlt : at_ < text.length) :
    at_ + stepWidth text at_ ≤ text.length := by
  have htaken := (List.takeWhile_sublist isContinuation (l := text.drop (at_ + 1))).length_le
  rw [List.length_drop] at htaken
  rw [stepWidth, if_neg (Nat.not_le.2 hlt)]
  omega

theorem visits_of_reached (hbudget : Unexhausted regex text) (hreached : Reached regex text from_)
    (hle : from_ ≤ text.length) :
    ∃ visits, Visits regex text from_ visits ∧ visits.length ≤ text.length - from_ + 1 := by
  induction hleft : text.length - from_ using Nat.strong_induction_on generalizing from_ with
  | _ left ih =>
    cases hfound : (searched regex text from_).found with
    | false => exact ⟨[], .done hfound (hbudget from_ hreached), Nat.zero_le _⟩
    | true =>
      obtain ⟨b, e, hspan, hfrom, hbe, hend⟩ := search_span hfound
      have hnext := hreached.next hfound hspan
      rcases Nat.eq_or_lt_of_le hbe with rfl | hlt
      · rcases Nat.eq_or_lt_of_le hend with heq | hbefore
        · exact ⟨_, .last hfound hspan hfrom heq, by simp⟩
        · have hpos := stepWidth_pos text b
          have hwidth := stepWidth_inside hbefore
          rw [following, if_pos rfl] at hnext
          obtain ⟨rest, hrest, hlength⟩ := ih _ (by omega) hnext hwidth rfl
          refine ⟨_, .empty hfound hspan hfrom hbefore hrest, ?_⟩
          rw [List.length_cons]
          omega
      · rw [following, if_neg (by omega)] at hnext
        obtain ⟨rest, hrest, hlength⟩ := ih _ (by omega) hnext hend rfl
        refine ⟨_, .moved hfound hspan hfrom hlt hend hrest, ?_⟩
        rw [List.length_cons]
        omega

/-! ### The text written anew -/

theorem drop_eq_slice_append (text : List UInt8) {i j : Nat} (hle : i ≤ j) :
    text.drop i = slice text i j ++ text.drop j := by
  have h := (List.take_append_drop (j - i) (text.drop i)).symm
  rwa [List.drop_drop, Nat.add_sub_of_le hle] at h

theorem slice_self (i : Nat) : slice text i i = [] := by
  simp [slice]

/-- The replacement `$0`. -/
def whole : List UInt8 := [ascii '$', ascii '0']

theorem expandReplacement_whole (text : List UInt8) {spans : Spans} (hspan : spans 0 = ⟨some b, some e⟩) :
    expandReplacement text spans whole = slice text b e := by
  have hzero : Fin.ofNat maxGroups (ascii '0' - ascii '0').toNat = 0 := by decide
  rw [whole, expandReplacement, if_neg (by simp), if_neg (by decide), if_pos (by decide), hzero]
  simp [spanString, hspan, expandReplacement]

theorem Visits.gsub_whole (hv : Visits regex text from_ visits)
    (hfuel : visits.length < fuel) (state : σ) (out : List UInt8) (visited : List Spans) :
    gsubFrom regex text (.written whole) fuel from_ state out visited =
      some ⟨visited ++ visits, state, .made (out ++ text.drop from_)⟩ := by
  induction hv generalizing fuel out visited with
  | done hfound hbudget =>
    obtain ⟨fuel, rfl⟩ := Nat.exists_eq_add_one.2 hfuel
    simp [gsubFrom, hfound, hbudget]
  | @last from_ b hfound hspan hfrom hend =>
    obtain ⟨fuel, rfl⟩ := Nat.exists_eq_add_one.2 (Nat.zero_lt_of_lt hfuel)
    have hput := expandReplacement_whole text hspan
    rw [drop_eq_slice_append text hfrom]
    simp [gsubFrom, hfound, hspan, replaceMatch, hput, slice_self, hend]
  | @empty from_ b rest hfound hspan hfrom hlt _ ih =>
    obtain ⟨fuel, rfl⟩ := Nat.exists_eq_add_one.2 (Nat.zero_lt_of_lt hfuel)
    have hput := expandReplacement_whole text hspan
    have hcut := drop_eq_slice_append text hfrom
    have hkept := drop_eq_slice_append text (Nat.le_add_right b (stepWidth text b))
    simp only [List.length_cons, Nat.add_lt_add_iff_right] at hfuel
    simp [gsubFrom, hfound, hspan, replaceMatch, hput, slice_self, Nat.not_le.2 hlt, ih hfuel,
      hcut, hkept]
  | @moved from_ b e rest hfound hspan hfrom hlt _ _ ih =>
    obtain ⟨fuel, rfl⟩ := Nat.exists_eq_add_one.2 (Nat.zero_lt_of_lt hfuel)
    have hput := expandReplacement_whole text hspan
    have hcut := drop_eq_slice_append text hfrom
    have hmatch := drop_eq_slice_append text (Nat.le_of_lt hlt)
    simp only [List.length_cons, Nat.add_lt_add_iff_right] at hfuel
    simp [gsubFrom, hfound, hspan, replaceMatch, hput, Nat.ne_of_gt hlt, ih hfuel, hcut, hmatch]

theorem Visits.gsub (hv : Visits regex text from_ visits) (replacement : Replacement σ)
    (hfuel : visits.length < fuel) (state : σ) (out : List UInt8) (visited : List Spans) :
    ∃ run, gsubFrom regex text replacement fuel from_ state out visited = some run ∧
      (run.answer = .faulted ∨ (∃ made, run.answer = .made made) ∧
        run.visited = visited ++ visits) := by
  induction hv generalizing fuel state out visited with
  | done hfound hbudget =>
    obtain ⟨fuel, rfl⟩ := Nat.exists_eq_add_one.2 hfuel
    simp [gsubFrom, hfound, hbudget]
  | @last from_ b hfound hspan hfrom hend =>
    obtain ⟨fuel, rfl⟩ := Nat.exists_eq_add_one.2 (Nat.zero_lt_of_lt hfuel)
    obtain ⟨put, state', hput⟩ : ∃ put state', replaceMatch regex text
        (searched regex text from_).spans state replacement = (put, state') := ⟨_, _, rfl⟩
    cases put with
    | none => simp [gsubFrom, hfound, hput]
    | some put => simp [gsubFrom, hfound, hspan, hput, hend]
  | @empty from_ b rest hfound hspan hfrom hlt _ ih =>
    obtain ⟨fuel, rfl⟩ := Nat.exists_eq_add_one.2 (Nat.zero_lt_of_lt hfuel)
    obtain ⟨put, state', hput⟩ : ∃ put state', replaceMatch regex text
        (searched regex text from_).spans state replacement = (put, state') := ⟨_, _, rfl⟩
    simp only [List.length_cons, Nat.add_lt_add_iff_right] at hfuel
    cases put with
    | none => simp [gsubFrom, hfound, hput]
    | some put =>
      obtain ⟨run, hrun, hanswer⟩ := ih hfuel state'
        (out ++ slice text from_ b ++ put ++ slice text b (b + stepWidth text b))
        (visited ++ [(searched regex text from_).spans])
      refine ⟨run, ?_, by simpa using hanswer⟩
      simpa [gsubFrom, hfound, hspan, hput, Nat.not_le.2 hlt] using hrun
  | @moved from_ b e rest hfound hspan hfrom hlt _ _ ih =>
    obtain ⟨fuel, rfl⟩ := Nat.exists_eq_add_one.2 (Nat.zero_lt_of_lt hfuel)
    obtain ⟨put, state', hput⟩ : ∃ put state', replaceMatch regex text
        (searched regex text from_).spans state replacement = (put, state') := ⟨_, _, rfl⟩
    simp only [List.length_cons, Nat.add_lt_add_iff_right] at hfuel
    cases put with
    | none => simp [gsubFrom, hfound, hput]
    | some put =>
      obtain ⟨run, hrun, hanswer⟩ := ih hfuel state' (out ++ slice text from_ b ++ put)
        (visited ++ [(searched regex text from_).spans])
      refine ⟨run, ?_, by simpa using hanswer⟩
      simpa [gsubFrom, hfound, hspan, hput, Nat.ne_of_gt hlt] using hrun

/-! ### The walk -/

theorem Visits.gmatch (hv : Visits regex text from_ visits)
    (hfuel : visits.length + 1 < fuel) (hle : from_ ≤ text.length) :
    ∃ answers, gmatchFrom regex text fuel from_ = some answers ∧
      answers.map GmatchAnswers.spans = visits := by
  induction hv generalizing fuel with
  | done hfound hbudget =>
    obtain ⟨fuel, rfl⟩ := Nat.exists_eq_add_one.2 (Nat.zero_lt_of_lt hfuel)
    simp [gmatchFrom, gmatchStep, hfound]
  | @last from_ b hfound hspan hfrom hend =>
    obtain ⟨fuel, rfl⟩ := Nat.exists_eq_add_one.2 (Nat.zero_lt_of_lt hfuel)
    obtain ⟨fuel, rfl⟩ := Nat.exists_eq_add_one.2 (Nat.zero_lt_of_lt (Nat.lt_of_succ_lt_succ hfuel))
    have hpast : text.length < text.length + stepWidth text text.length :=
      Nat.lt_add_of_pos_right (stepWidth_pos text _)
    subst hend
    simp [gmatchFrom, gmatchStep, hfound, hspan, Nat.not_lt.2 hle, hpast]
  | @empty from_ b rest hfound hspan hfrom hlt _ ih =>
    obtain ⟨fuel, rfl⟩ := Nat.exists_eq_add_one.2 (Nat.zero_lt_of_lt hfuel)
    simp only [List.length_cons, Nat.add_lt_add_iff_right] at hfuel
    obtain ⟨answers, hanswers, rfl⟩ := ih hfuel (stepWidth_inside hlt)
    simp [gmatchFrom, gmatchStep, hfound, hspan, Nat.not_lt.2 hle, hanswers]
  | @moved from_ b e rest hfound hspan hfrom hlt hend _ ih =>
    obtain ⟨fuel, rfl⟩ := Nat.exists_eq_add_one.2 (Nat.zero_lt_of_lt hfuel)
    simp only [List.length_cons, Nat.add_lt_add_iff_right] at hfuel
    obtain ⟨answers, hanswers, rfl⟩ := ih hfuel hend
    simp [gmatchFrom, gmatchStep, hfound, hspan, Nat.not_lt.2 hle, Nat.ne_of_gt hlt, hanswers]

/-! ### The pieces -/

/-- Pieces, and what stood between them. -/
def woven : List (List UInt8) → List (List UInt8) → List UInt8
  | piece :: pieces, separator :: separators => piece ++ (separator ++ woven pieces separators)
  | pieces, [] => pieces.flatten
  | [], separators => separators.flatten

/-- From here on, over the matches that are not empty, a match is empty before the end. -/
inductive MeetsEmpty (regex : LhatRegex) (text : List UInt8) : Nat → Prop
  | here {from_ b : Nat} : (searched regex text from_).found = true →
      (searched regex text from_).spans 0 = ⟨some b, some b⟩ → b < text.length →
      MeetsEmpty regex text from_
  | later {from_ b e : Nat} : (searched regex text from_).found = true →
      (searched regex text from_).spans 0 = ⟨some b, some e⟩ → b ≠ e → MeetsEmpty regex text e →
      MeetsEmpty regex text from_

/-- `split`, along the run: what it answers from here on is the rest of the text, or less of
it where a match is met that is empty. -/
theorem Visits.split (hv : Visits regex text from_ visits)
    (hfuel : visits.length < fuel) (pieces separators : List (List UInt8)) :
    ∃ more seps, splitFrom regex text fuel from_ pieces separators =
        some (.pieces (pieces ++ more) (separators ++ seps)) ∧
      (MeetsEmpty regex text from_ → (woven more seps).length < (text.drop from_).length) ∧
      (¬ MeetsEmpty regex text from_ → woven more seps = text.drop from_) := by
  induction hv generalizing fuel pieces separators with
  | @done from_ hfound hbudget =>
    obtain ⟨fuel, rfl⟩ := Nat.exists_eq_add_one.2 hfuel
    refine ⟨[text.drop from_], [], by simp [splitFrom, hfound, hbudget], fun hmeets => ?_,
      fun _ => by simp [woven]⟩
    rcases hmeets with ⟨h, -, -⟩ | ⟨h, -, -, -⟩ <;> simp [hfound] at h
  | @last from_ b hfound hspan hfrom hend =>
    obtain ⟨fuel, rfl⟩ := Nat.exists_eq_add_one.2 (Nat.zero_lt_of_lt hfuel)
    refine ⟨[text.drop from_], [], by simp [splitFrom, hfound, hspan, hend], fun hmeets => ?_,
      fun _ => by simp [woven]⟩
    rcases hmeets with ⟨-, h, hlt⟩ | ⟨-, h, hne, -⟩
    · obtain rfl : b = _ := by simpa using hspan.symm.trans h
      omega
    · obtain ⟨rfl, rfl⟩ : b = _ ∧ b = _ := by simpa using hspan.symm.trans h
      exact absurd rfl hne
  | @empty from_ b rest hfound hspan hfrom hlt _ ih =>
    obtain ⟨fuel, rfl⟩ := Nat.exists_eq_add_one.2 (Nat.zero_lt_of_lt hfuel)
    simp only [List.length_cons, Nat.add_lt_add_iff_right] at hfuel
    obtain ⟨more, seps, hsplit, hless, hsame⟩ := ih hfuel pieces separators
    refine ⟨more, seps, ?_, fun _ => ?_, fun hno => absurd (.here hfound hspan hlt) hno⟩
    · simpa [splitFrom, hfound, hspan, Nat.not_le.2 hlt] using hsplit
    · -- what stood before the match, and the character behind it
      have hwoven : (woven more seps).length ≤ (text.drop (b + stepWidth text b)).length := by
        by_cases hmeets : MeetsEmpty regex text (b + stepWidth text b)
        · exact Nat.le_of_lt (hless hmeets)
        · rw [hsame hmeets]
      have hpos := stepWidth_pos text b
      rw [List.length_drop] at hwoven ⊢
      omega
  | @moved from_ b e rest hfound hspan hfrom hlt hend _ ih =>
    obtain ⟨fuel, rfl⟩ := Nat.exists_eq_add_one.2 (Nat.zero_lt_of_lt hfuel)
    simp only [List.length_cons, Nat.add_lt_add_iff_right] at hfuel
    obtain ⟨more, seps, hsplit, hless, hsame⟩ := ih hfuel (pieces ++ [slice text from_ b])
      (separators ++ [slice text b e])
    have hmeets : MeetsEmpty regex text from_ ↔ MeetsEmpty regex text e := by
      refine ⟨fun h => ?_, .later hfound hspan (Nat.ne_of_lt hlt)⟩
      rcases h with ⟨-, h, -⟩ | ⟨-, h, -, hmeets⟩
      · obtain ⟨rfl, rfl⟩ : b = _ ∧ e = _ := by simpa using hspan.symm.trans h
        omega
      · obtain ⟨rfl, rfl⟩ : b = _ ∧ e = _ := by simpa using hspan.symm.trans h
        exact hmeets
    have hrest : text.drop from_ = slice text from_ b ++ (slice text b e ++ text.drop e) := by
      rw [drop_eq_slice_append text hfrom, drop_eq_slice_append text (Nat.le_of_lt hlt)]
    refine ⟨slice text from_ b :: more, slice text b e :: seps, ?_, fun h => ?_, fun h => ?_⟩
    · simpa [splitFrom, hfound, hspan, Nat.ne_of_gt hlt] using hsplit
    · have hshort := hless (hmeets.1 h)
      rw [hrest, woven]
      simp only [List.length_append]
      omega
    · rw [hrest, woven, hsame fun hno => h (hmeets.2 hno)]

/-- Where no search that is made runs out of its budget: `gsub` with `$0` gives the text back,
`gsub` goes through the matches of a walk, and what `split` answers, with what separated it, is
the text exactly where no match on its way is empty before the end. -/
theorem searches_agree (regex : LhatRegex) (text : List UInt8) (hbudget : Unexhausted regex text)
    (fuel : Nat) (hfuel : text.length + 2 < fuel) :
    (∀ {σ : Type} (state : σ), ∃ visited, doGsub regex text fuel (.written whole) state =
      some ⟨visited, state, .made text⟩) ∧
    (∃ answers, gmatch regex text fuel = some answers ∧
      ∀ {σ : Type} (replacement : Replacement σ) (state : σ), ∃ run,
        doGsub regex text fuel replacement state = some run ∧
          (run.answer = .faulted ∨ (∃ made, run.answer = .made made) ∧
            run.visited = answers.map GmatchAnswers.spans)) ∧
    ∃ pieces separators, doSplit regex text fuel = some (.pieces pieces separators) ∧
      (woven pieces separators = text ↔ ¬ MeetsEmpty regex text 0) := by
  obtain ⟨visits, hv, hlength⟩ := visits_of_reached hbudget .start (Nat.zero_le _)
  have hlong : visits.length + 1 < fuel := by omega
  refine ⟨fun state => ⟨visits, ?_⟩, ?_, ?_⟩
  · simpa [doGsub] using hv.gsub_whole (Nat.lt_of_succ_lt hlong) state [] []
  · obtain ⟨answers, hanswers, hspans⟩ := hv.gmatch hlong (Nat.zero_le _)
    refine ⟨answers, hanswers, fun replacement state => ?_⟩
    simpa [doGsub, hspans] using hv.gsub replacement (Nat.lt_of_succ_lt hlong) state [] []
  · obtain ⟨pieces, separators, hsplit, hless, hsame⟩ :=
      hv.split (Nat.lt_of_succ_lt hlong) [] []
    refine ⟨pieces, separators, by simpa [doSplit] using hsplit, fun heq hmeets => ?_, hsame⟩
    have hshort := hless hmeets
    rw [heq] at hshort
    exact absurd hshort (by simp)

/-! ### A pattern that matches the empty string -/

/-- The pattern `x*`. -/
def starRegex : LhatRegex where
  root := .seq [.rep (.lit [120]) { min := 0, max := none, ordered := least_ordered }]
  groups := 0

theorem searched_here (hle : from_ ≤ text.length)
    (hfound : (matchNode text regex.root [] from_ { spans := unset from_ }).1 = true ∧
      (matchNode text regex.root [] from_ { spans := unset from_ }).2.spans 0 = ⟨some b, some e⟩) :
    (searched regex text from_).found = true ∧
      (searched regex text from_).spans 0 = ⟨some b, some e⟩ ∧
      (searched regex text from_).depthExceeded = false := by
  rw [searched, lhatRegexSearch, if_neg (Nat.not_lt.2 hle), searchFrom_eq rfl, if_pos hfound.1]
  exact ⟨rfl, hfound.2, rfl⟩

theorem star_unexhausted : Unexhausted starRegex [120] := by
  have hzero := @searched_here starRegex [120] 0 0 1
    (by decide) (by decide +kernel)
  have hone := @searched_here starRegex [120] 1 1 1
    (by decide) (by decide +kernel)
  intro i _
  obtain rfl | rfl | hlt : i = 0 ∨ i = 1 ∨ 1 < i := by omega
  · exact hzero.2.2
  · exact hone.2.2
  · simp [searched, lhatRegexSearch, hlt]

/-- The pattern `x*` in the text `x`. -/
theorem searches_agree_star : lhatRegexCompile ("x*".toList.map ascii) = .ok starRegex ∧
    ∃ answers, gmatch starRegex [120] 4 = some answers ∧
      ∀ {σ : Type} (replacement : Replacement σ) (state : σ), ∃ run,
        doGsub starRegex [120] 4 replacement state = some run ∧
          (run.answer = .faulted ∨ (∃ made, run.answer = .made made) ∧
            run.visited = answers.map GmatchAnswers.spans) :=
  ⟨rfl, (searches_agree starRegex [120] star_unexhausted 4 (by decide)).2.1⟩

/-- The pattern `x*` in the text `xa`: the letter behind the match is in no piece. -/
theorem split_loses : lhatRegexCompile ("x*".toList.map ascii) = .ok starRegex ∧
    Unexhausted starRegex [120, 97] ∧
    doSplit starRegex [120, 97] 5 = some (.pieces [[], []] [[120]]) ∧
    woven [[], []] [[120]] ≠ ([120, 97] : List UInt8) := by
  have hzero := @searched_here starRegex [120, 97] 0 0 1
    (by decide) (by decide +kernel)
  have hone := @searched_here starRegex [120, 97] 1 1 1
    (by decide) (by decide +kernel)
  have htwo := @searched_here starRegex [120, 97] 2 2 2
    (by decide) (by decide +kernel)
  refine ⟨rfl, fun i _ => ?_, ?_, by decide⟩
  · obtain rfl | rfl | rfl | hlt : i = 0 ∨ i = 1 ∨ i = 2 ∨ 2 < i := by omega
    · exact hzero.2.2
    · exact hone.2.2
    · exact htwo.2.2
    · simp [searched, lhatRegexSearch, hlt]
  · simp [doSplit, splitFrom, hzero, hone, htwo, slice, stepWidth]

end Lhat.Regex
