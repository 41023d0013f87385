import Lhat.Lexing.Token
import Lhat.Regex.Search

/-!
# The members of `std.regex`

Three loops search one text again and again: `gsub` writes the text anew, `split` answers
what stands between the matches, and a walk of `gmatch` hands over one match at a time. A
match found lies in the text, behind where the search began (`search_span`), and so every
loop comes to the end of the text: what it goes through is a run of `Visits`. Memory is
taken to be there. The loops are counted, and what they went through is kept beside what
they answer.
-/

namespace Lhat.Regex

open Lexing (ascii)

/-- A byte that has no ordinal of its own. -/
def isContinuation (c : UInt8) : Bool := c &&& 0xC0 = 0x80

/-- `ordinal_at`: the character ordinal of a byte offset. -/
def ordinalAt (text : List UInt8) (byteAt : Nat) : Nat :=
  (text.take byteAt).countP fun c => !isContinuation c

/-- `step_width`: for stepping past an empty match. -/
def stepWidth (text : List UInt8) (at_ : Nat) : Nat :=
  if text.length ≤ at_ then 1
  else 1 + ((text.drop (at_ + 1)).takeWhile isContinuation).length

def slice (text : List UInt8) (begin_ end_ : Nat) : List UInt8 :=
  (text.drop begin_).take (end_ - begin_)

/-- `span_string`. There is none for a group that took no part. -/
def spanString (text : List UInt8) (span : LhatRegexSpan) : Option (List UInt8) :=
  span.begin_.map fun b => slice text b (span.end_.getD 0)

/-- `expand_replacement`: `$0` to `$9` and `$$`. -/
def expandReplacement (text : List UInt8) (spans : Spans) : List UInt8 → List UInt8
  | [] => []
  | [c] => [c]
  | head :: next :: rest =>
    if head ≠ ascii '$' then head :: expandReplacement text spans (next :: rest)
    else if next = ascii '$' then ascii '$' :: expandReplacement text spans rest
    else if ascii '0' ≤ next ∧ next ≤ ascii '9' then
      (spanString text (spans (Fin.ofNat maxGroups (next - ascii '0').toNat))).getD [] ++
        expandReplacement text spans rest
    else head :: expandReplacement text spans (next :: rest)

/-- What the written function came to: a fault, a string, or what keeps the original. -/
inductive Swapped
  | faulted
  | swapped (text : List UInt8)
  | kept

/-- What stands for a match: a written text, or a function of the match, its ordinal and its
groups, run in a machine. -/
inductive Replacement (σ : Type)
  | written (with_ : List UInt8)
  | function (call : List UInt8 → Nat → List (Nat × List UInt8) → σ → Swapped × σ)

/-- The table a function is handed: a group that took part in no match is absent. -/
def captures (text : List UInt8) (groups : Nat) (spans : Spans) : List (Nat × List UInt8) :=
  (List.range (groups + 1)).filterMap fun i =>
    (spanString text (spans (Fin.ofNat maxGroups i))).map fun piece => (i, piece)

/-- What is put for one match, by `expand_replacement` or by `call_replacement`. There is
nothing where the function faulted. -/
def replaceMatch {σ : Type} (regex : LhatRegex) (text : List UInt8) (spans : Spans) (state : σ) :
    Replacement σ → Option (List UInt8) × σ
  | .written with_ => (some (expandReplacement text spans with_), state)
  | .function call =>
    let whole := (spanString text (spans 0)).getD []
    match call whole (ordinalAt text ((spans 0).begin_.getD 0)) (captures text regex.groups spans)
      state with
    | (.faulted, state) => (none, state)
    | (.swapped swapped, state) => (some swapped, state)
    | (.kept, state) => (some whole, state)

inductive GsubAnswer
  | made (text : List UInt8)
  | exhausted
  | faulted

structure Gsub (σ : Type) where
  visited : List Spans
  state : σ
  answer : GsubAnswer

section Loops

variable (regex : LhatRegex) (text : List UInt8)

/-- A search from here, into spans of its own. -/
def searched (from_ : Nat) : Searched := lhatRegexSearch regex text from_ fun _ => {}

/-- The loop of `do_gsub`. -/
def gsubFrom {σ : Type} (replacement : Replacement σ) :
    Nat → Nat → σ → List UInt8 → List Spans → Option (Gsub σ)
  | 0, _, _, _, _ => none
  | fuel + 1, from_, state, out, visited =>
    let r := searched regex text from_
    if !r.found then
      some ⟨visited, state, if r.depthExceeded then .exhausted else .made (out ++ text.drop from_)⟩
    else
      let begin_ := (r.spans 0).begin_.getD 0
      let end_ := (r.spans 0).end_.getD 0
      let visited := visited ++ [r.spans]
      match replaceMatch regex text r.spans state replacement with
      | (none, state) => some ⟨visited, state, .faulted⟩
      | (some put, state) =>
        let out := out ++ slice text from_ begin_ ++ put
        if end_ = begin_ then
          if text.length ≤ end_ then some ⟨visited, state, .made (out ++ text.drop end_)⟩
          else
            -- the character an empty match stood before is kept
            let width := stepWidth text end_
            gsubFrom replacement fuel (end_ + width) state
              (out ++ slice text end_ (end_ + width)) visited
        else gsubFrom replacement fuel end_ state out visited

/-- `do_gsub`. -/
def doGsub {σ : Type} (fuel : Nat) (replacement : Replacement σ) (state : σ) : Option (Gsub σ) :=
  gsubFrom regex text replacement fuel 0 state [] []

inductive SplitAnswer
  | pieces (pieces separators : List (List UInt8))
  | exhausted

/-- The loop of `do_split`. -/
def splitFrom : Nat → Nat → List (List UInt8) → List (List UInt8) → Option SplitAnswer
  | 0, _, _, _ => none
  | fuel + 1, from_, pieces, separators =>
    let r := searched regex text from_
    if !r.found then
      some (if r.depthExceeded then .exhausted
        else .pieces (pieces ++ [text.drop from_]) separators)
    else
      let begin_ := (r.spans 0).begin_.getD 0
      let end_ := (r.spans 0).end_.getD 0
      if end_ = begin_ then
        if text.length ≤ begin_ then some (.pieces (pieces ++ [text.drop from_]) separators)
        else splitFrom fuel (end_ + stepWidth text end_) pieces separators
      else
        splitFrom fuel end_ (pieces ++ [slice text from_ begin_])
          (separators ++ [slice text begin_ end_])

/-- `do_split`. -/
def doSplit (fuel : Nat) : Option SplitAnswer := splitFrom regex text fuel 0 [] []

/-- What a walk hands over: where the match stands, and the match. -/
structure GmatchAnswers where
  spans : Spans
  ordinal : Nat
  match_ : Option (List UInt8)

/-- `gmatch_step`. -/
def gmatchStep (from_ : Nat) : Option (GmatchAnswers × Nat) :=
  if text.length < from_ then none
  else
    let r := searched regex text from_
    if !r.found then none
    else
      let begin_ := (r.spans 0).begin_.getD 0
      let end_ := (r.spans 0).end_.getD 0
      some (⟨r.spans, ordinalAt text begin_, spanString text (r.spans 0)⟩,
        if end_ = begin_ then end_ + stepWidth text end_ else end_)

/-- A walk, stepped until it ends. -/
def gmatchFrom : Nat → Nat → Option (List GmatchAnswers)
  | 0, _ => none
  | fuel + 1, from_ =>
    match gmatchStep regex text from_ with
    | none => some []
    | some (answers, from_) => (gmatchFrom fuel from_).map (answers :: ·)

def gmatch (fuel : Nat) : Option (List GmatchAnswers) := gmatchFrom regex text fuel 0

end Loops

/-! ### A match lies in the text -/

theorem decode_inside (text : List UInt8) {at_ : Nat} (hlt : at_ < text.length) :
    at_ + (decode text at_).2 ≤ text.length := by
  unfold decode
  simp only
  split
  · exact hlt
  · rename_i hneed
    split
    · exact hlt
    · show at_ + neededBytes _ ≤ _
      omega

/-- Forward, and inside the text. -/
def Inside (text : List UInt8) (i j : Nat) : Prop := i ≤ j ∧ (i ≤ text.length → j ≤ text.length)

theorem Inside.refl (text : List UInt8) (i : Nat) : Inside text i i := ⟨Nat.le_refl i, id⟩

theorem Inside.trans {text : List UInt8} {i j l : Nat} (h : Inside text i j) (h' : Inside text j l) :
    Inside text i l :=
  ⟨Nat.le_trans h.1 h'.1, fun hi => h'.2 (h.2 hi)⟩

open CountedSteps in
theorem Inside.times {text : List UInt8} {R : Nat → Nat → Prop} (hR : ∀ i j, R i j → Inside text i j)
    {n i j : Nat} (h : Times R n i j) : Inside text i j := by
  induction h with
  | none => exact .refl text _
  | more hstep _ ih => exact (hR _ _ hstep).trans ih

mutual

theorem Denotes.inside {text : List UInt8} :
    ∀ (n : Node) (i j : Nat), Denotes text n i j → Inside text i j
  | .lit bytes, i, j, h => by
    obtain ⟨hle, -, rfl⟩ := h
    exact ⟨Nat.le_add_right _ _, fun _ => hle⟩
  | .any, i, j, h => by
    obtain ⟨hlt, rfl⟩ := h
    exact ⟨Nat.le_add_right _ _, fun _ => decode_inside text hlt⟩
  | .charClass ranges negated, i, j, h => by
    obtain ⟨hlt, -, rfl⟩ := h
    exact ⟨Nat.le_add_right _ _, fun _ => decode_inside text hlt⟩
  | .seq children, i, j, h => denotesAll_inside children i j h
  | .alt choices, i, j, h => denotesOne_inside choices i j h
  | .rep child bounds, i, j, h => by
    obtain ⟨n, -, -, hn⟩ := h
    exact Inside.times (Denotes.inside child) hn
  | .group index child, i, j, h => Denotes.inside child i j h
  | .bol, i, j, h => by
    obtain ⟨-, rfl⟩ := h
    exact .refl text _
  | .eol, i, j, h => by
    obtain ⟨-, rfl⟩ := h
    exact .refl text _

theorem denotesAll_inside {text : List UInt8} : ∀ (children : List Node) (i j : Nat),
    CoversAll text (fun R bounds => CountedSteps.Repeats R bounds.min bounds.max) children i j →
      Inside text i j
  | [], i, j, h => by
    obtain rfl : j = i := h
    exact .refl text _
  | child :: rest, i, j, h => by
    obtain ⟨l, hchild, hrest⟩ := h
    exact (Denotes.inside child i l hchild).trans (denotesAll_inside rest l j hrest)

theorem denotesOne_inside {text : List UInt8} : ∀ (choices : List Node) (i j : Nat),
    CoversOne text (fun R bounds => CountedSteps.Repeats R bounds.min bounds.max) choices i j →
      Inside text i j
  | [], _, _, h => h.elim
  | choice :: rest, i, j, h =>
    h.elim (Denotes.inside choice i j) (denotesOne_inside rest i j)

end

theorem Place.inside {text : List UInt8} {from_ p : Nat} (hp : Place text from_ p) :
    Inside text from_ p := by
  induction hp with
  | here => exact .refl text _
  | next _ hlt ih => exact ih.trans ⟨Nat.le_add_right _ _, fun _ => decode_inside text hlt⟩

variable {regex : LhatRegex} {text : List UInt8} {from_ : Nat}

theorem searched_past (hlt : text.length < from_) : (searched regex text from_).found = false := by
  simp [searched, lhatRegexSearch, hlt]

theorem search_span (hfound : (searched regex text from_).found = true) :
    ∃ b e, (searched regex text from_).spans 0 = { begin_ := some b, end_ := some e } ∧
      from_ ≤ b ∧ b ≤ e ∧ e ≤ text.length := by
  have hle : from_ ≤ text.length := by
    by_contra hlt
    rw [searched_past (Nat.lt_of_not_le hlt)] at hfound
    cases hfound
  obtain ⟨b, h⟩ := search_sound hfound
  obtain ⟨e, hspan, hd⟩ := h.covers
  have hinside := Denotes.inside _ b e hd
  exact ⟨b, e, hspan, h.place.le, hinside.1, hinside.2 (h.place.inside.2 hle)⟩

end Lhat.Regex
