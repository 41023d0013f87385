import Lhat.Foundation.CountedSteps
import Mathlib

/-!
# The regular expressions

The engine behind `std.regex`: the tree of a pattern, and the matcher that walks the
tree with an explicit chain of what comes after. The bounds of a repeat are in order,
and a written group has one of sixteen spans; the compiler sees to both.

`match_list`, `match_node` and `match_repeat` call each other. How deep they may nest is
bounded, so the two that count are built from the two of a level less (`walk`), and
`match_list` goes down the chain in between.
-/

namespace Lhat.Regex

/-! ## The tree -/

structure ClassRange where
  lo : Nat
  hi : Nat
deriving DecidableEq, Repr

/-- What a repeat says besides its child. An open end is `none`. -/
structure Bounds where
  min : Nat
  max : Option Nat
  lazy : Bool := false
  ordered : ∀ bound ∈ max, min ≤ bound
deriving DecidableEq, Repr

theorem least_ordered : ∀ bound ∈ (none : Option Nat), 0 ≤ bound := by simp

abbrev maxGroups : Nat := 16

instance : NeZero maxGroups := ⟨nofun⟩

inductive Node
  | lit (bytes : List UInt8)
  | any
  | charClass (ranges : List ClassRange) (negated : Bool)
  | seq (children : List Node)
  | alt (choices : List Node)
  | rep (child : Node) (bounds : Bounds)
  | group (index : Fin maxGroups) (child : Node)
  | bol
  | eol
deriving Repr

/-- How many bytes the lead byte asks for. -/
def neededBytes (lead : Nat) : Nat :=
  if lead < 0x80 then 1
  else if lead &&& 0xE0 = 0xC0 then 2
  else if lead &&& 0xF0 = 0xE0 then 3
  else if lead &&& 0xF8 = 0xF0 then 4
  else 1

/-- `decode`: one code point, by the shape of the lead byte. What is malformed reads as
a single byte. -/
def decode (text : List UInt8) (at_ : Nat) : Nat × Nat :=
  let lead := (text.getD at_ 0).toNat
  let need := neededBytes lead
  if need = 1 ∨ text.length < at_ + need then (lead, 1)
  else
    let point := (List.range' 1 (need - 1)).foldlM
      (fun point i =>
        let cont := (text.getD (at_ + i) 0).toNat
        if cont &&& 0xC0 ≠ 0x80 then none else some ((point <<< 6) ||| (cont &&& 0x3F)))
      (lead &&& (0x7F >>> need))
    match point with
    | none => (lead, 1)
    | some point => (point, need)

/-! ## The matcher -/

structure LhatRegexSpan where
  begin_ : Option Nat := none
  end_ : Option Nat := none
deriving DecidableEq, Repr

abbrev Spans := Fin maxGroups → LhatRegexSpan

/-- What comes after the current position. -/
inductive Frame
  | list (rest : List Node)
  | groupEnd (index : Fin maxGroups)
  | again (child : Node) (bounds : Bounds) (done enteredAt : Nat)

abbrev Cont := List Frame

structure Matcher where
  spans : Spans
  steps : Nat := 0
  exceeded : Bool := false

def Matcher.setSpan (m : Matcher) (index : Fin maxGroups) (span : LhatRegexSpan) : Matcher :=
  { m with spans := Function.update m.spans index span }

def Matcher.setEnd (m : Matcher) (index : Fin maxGroups) (pos : Option Nat) : Matcher :=
  m.setSpan index { m.spans index with end_ := pos }

def matchDepthLimit : Nat := 10000

def matchStepLimit : Nat := 250000

/-- The two functions of the matcher that count a step. -/
structure Walk where
  node : Node → Cont → Nat → Matcher → Bool × Matcher
  round : Node → Bounds → Nat → Cont → Nat → Matcher → Bool × Matcher

/-- `match_list` with nothing left of its list: the chain decides. -/
def Walk.resume (w : Walk) : Cont → Nat → Matcher → Bool × Matcher
  | [], pos, m => (true, m.setEnd 0 (some pos))
  | .list [] :: k, pos, m => w.resume k pos m
  | .list (first :: rest) :: k, pos, m => w.node first (.list rest :: k) pos m
  | .groupEnd index :: k, pos, m =>
    let saved := (m.spans index).end_
    let (answered, m) := w.resume k pos (m.setEnd index (some pos))
    if answered then (true, m) else (false, m.setEnd index saved)
  | .again child bounds done enteredAt :: k, pos, m =>
    -- A round that moved nothing is the last one.
    if pos = enteredAt then w.resume k pos m else w.round child bounds done k pos m

/-- `match_list`. -/
def Walk.list (w : Walk) (children : List Node) (k : Cont) (pos : Nat) (m : Matcher) :
    Bool × Matcher :=
  w.resume (.list children :: k) pos m

/-- The choices of an alternation, each matched alone. -/
def Walk.choices (w : Walk) (k : Cont) (pos : Nat) : List Node → Matcher → Bool × Matcher
  | [], m => (false, m)
  | choice :: rest, m =>
    let (answered, m) := w.node choice (.list [] :: k) pos m
    if answered then (true, m) else if m.exceeded then (false, m) else w.choices k pos rest m

/-- One thing tried, if it may be, and another where it failed. -/
def attempt (may : Bool) (first next : Matcher → Bool × Matcher) (m : Matcher) : Bool × Matcher :=
  if may then
    let (answered, m) := first m
    if answered || m.exceeded then (answered, m) else next m
  else next m

/-- Every call takes a step. -/
def spending (m : Matcher) (go : Matcher → Bool × Matcher) : Bool × Matcher :=
  let m := { m with steps := m.steps + 1 }
  if matchStepLimit < m.steps then (false, { m with exceeded := true }) else go m

/-- The code point is in one of the ranges. -/
def inRanges (ranges : List ClassRange) (point : Nat) : Bool :=
  ranges.any fun range => decide (range.lo ≤ point) && decide (point ≤ range.hi)

section Level

variable (text : List UInt8) (below : Walk)

/-- `match_node`, but for the depth. -/
def nodeBody (n : Node) (k : Cont) (pos : Nat) (m : Matcher) : Bool × Matcher :=
  spending m fun m =>
    match n with
    | .lit bytes =>
      if pos + bytes.length ≤ text.length ∧ (text.drop pos).take bytes.length = bytes then
        below.resume k (pos + bytes.length) m
      else (false, m)
    | .any =>
      if text.length ≤ pos then (false, m) else below.resume k (pos + (decode text pos).2) m
    | .charClass ranges negated =>
      if text.length ≤ pos then (false, m)
      else if inRanges ranges (decode text pos).1 != negated then
        below.resume k (pos + (decode text pos).2) m
      else (false, m)
    | .bol => if pos = 0 then below.resume k pos m else (false, m)
    | .eol => if pos = text.length then below.resume k pos m else (false, m)
    | .seq children => below.list children k pos m
    | .alt choices => below.choices k pos choices m
    | .rep child bounds => below.round child bounds 0 k pos m
    | .group index child =>
      if index = 0 then below.list [child] k pos m
      else
        let saved := m.spans index
        let (answered, m) := below.list [child] (.groupEnd index :: k) pos
          (m.setSpan index { begin_ := some pos, end_ := none })
        if answered then (true, m) else (false, m.setSpan index saved)

/-- `match_repeat`, but for the depth. -/
def roundBody (child : Node) (bounds : Bounds) (done : Nat) (k : Cont) (pos : Nat) (m : Matcher) :
    Bool × Matcher :=
  let mayStop := decide (bounds.min ≤ done)
  let mayGo := bounds.max.all fun most => decide (done < most)
  let stop := below.resume k pos
  let go := below.node child (.again child bounds (done + 1) pos :: k) pos
  spending m (attempt (bounds.lazy && mayStop) stop
    (attempt mayGo go fun m => if !bounds.lazy && mayStop then stop m else (false, m)))

end Level

/-- `match_node` and `match_repeat`, with so many levels left. -/
def walk (text : List UInt8) : Nat → Walk
  | 0 => {
      node := fun _ _ _ m => (false, { m with exceeded := true })
      round := fun _ _ _ _ _ m => (false, { m with exceeded := true }) }
  | depth + 1 => {
      node := nodeBody text (walk text depth)
      round := roundBody (walk text depth) }

/-- `match_node`, at the depth it is called at from outside. -/
def matchNode (text : List UInt8) (n : Node) (k : Cont) (pos : Nat) (m : Matcher) : Bool × Matcher :=
  (walk text matchDepthLimit).node n k pos m

/-! ## The search -/

structure LhatRegex where
  root : Node
  groups : Nat
deriving Repr

structure Searched where
  found : Bool
  spans : Spans
  depthExceeded : Bool := false

theorem decode_width_pos (text : List UInt8) (at_ : Nat) : 0 < (decode text at_).2 := by
  unfold decode
  simp only
  split
  · exact Nat.one_pos
  · next hneed =>
      split
      · exact Nat.one_pos
      · show 0 < neededBytes _
        unfold neededBytes
        repeat' split
        all_goals exact Nat.succ_pos _

/-- No group took part. -/
def unset (start : Nat) : Spans := Function.update (fun _ => {}) 0 { begin_ := some start }

/-- The loop of `lhat_regex_search`. The steps are counted over all its turns. -/
def searchFrom (text : List UInt8) (regex : LhatRegex) (start : Nat) (m : Matcher) : Searched :=
  let (answered, m) := matchNode text regex.root [] start { m with spans := unset start }
  if answered then { found := true, spans := m.spans }
  else if m.exceeded then { found := false, spans := m.spans, depthExceeded := true }
  else if text.length ≤ start then { found := false, spans := m.spans }
  else searchFrom text regex (start + (decode text start).2) m
termination_by text.length - start
decreasing_by
  have := decode_width_pos text start
  omega

/-- `lhat_regex_search`. -/
def lhatRegexSearch (regex : LhatRegex) (text : List UInt8) (from_ : Nat) (spans : Spans) :
    Searched :=
  if text.length < from_ then { found := false, spans }
  else searchFrom text regex from_ { spans }

end Lhat.Regex

/-!
# What a pattern covers

The tree of a pattern is a relation between two positions of the text. It is told with
what a repeat makes of its child left open: ordinarily a number of rounds between the
bounds (`Denotes`), and for the matcher rounds that move and perhaps one at the end that
does not (`Settled`).
-/

namespace Lhat.Regex

open CountedSteps

section Covers

variable (text : List UInt8) (repeats : (Nat → Nat → Prop) → Bounds → Nat → Nat → Prop)

mutual

/-- From one position to another, by a node. -/
def Covers : Node → Nat → Nat → Prop
  | .lit bytes => fun i j =>
    i + bytes.length ≤ text.length ∧ (text.drop i).take bytes.length = bytes ∧
      j = i + bytes.length
  | .any => fun i j => i < text.length ∧ j = i + (decode text i).2
  | .charClass ranges negated => fun i j =>
    i < text.length ∧
      ((∃ range ∈ ranges, range.lo ≤ (decode text i).1 ∧ (decode text i).1 ≤ range.hi) ↔
        negated = false) ∧
      j = i + (decode text i).2
  | .seq children => CoversAll children
  | .alt choices => CoversOne choices
  | .rep child bounds => repeats (Covers child) bounds
  | .group _ child => Covers child
  | .bol => fun i j => i = 0 ∧ j = i
  | .eol => fun i j => i = text.length ∧ j = i

/-- By nodes in a row. -/
def CoversAll : List Node → Nat → Nat → Prop
  | [] => fun i j => j = i
  | child :: rest => fun i j => ∃ l, Covers child i l ∧ CoversAll rest l j

/-- By one of the choices. -/
def CoversOne : List Node → Nat → Nat → Prop
  | [] => fun _ _ => False
  | choice :: rest => fun i j => Covers choice i j ∨ CoversOne rest i j

end

end Covers

/-- The ordinary meaning of a pattern. -/
def Denotes (text : List UInt8) : Node → Nat → Nat → Prop :=
  Covers text fun R bounds => Repeats R bounds.min bounds.max

/-- What the matcher goes by. -/
def Settled (text : List UInt8) : Node → Nat → Nat → Prop :=
  Covers text fun R bounds => Settles R bounds.min bounds.max 0

/-- Nodes in a row, as the matcher goes by them. -/
def SettledAll (text : List UInt8) : List Node → Nat → Nat → Prop :=
  CoversAll text fun R bounds => Settles R bounds.min bounds.max 0

section Mono

variable {text : List UInt8} {repeats repeats' : (Nat → Nat → Prop) → Bounds → Nat → Nat → Prop}

/-- What one makes of a repeat, and of more of its child, the other makes of it too. -/
def Less (repeats repeats' : (Nat → Nat → Prop) → Bounds → Nat → Nat → Prop) : Prop :=
  ∀ R R' bounds, (∀ i j, R i j → R' i j) → ∀ i j, repeats R bounds i j → repeats' R' bounds i j

mutual

theorem Covers.mono (hless : Less repeats repeats') :
    ∀ (n : Node) (i j : Nat), Covers text repeats n i j → Covers text repeats' n i j
  | .lit _, _, _, hc => hc
  | .any, _, _, hc => hc
  | .charClass _ _, _, _, hc => hc
  | .seq children, i, j, hc => CoversAll.mono hless children i j hc
  | .alt choices, i, j, hc => CoversOne.mono hless choices i j hc
  | .rep child bounds, i, j, hc => hless _ _ bounds (Covers.mono hless child) i j hc
  | .group _ child, i, j, hc => Covers.mono hless child i j hc
  | .bol, _, _, hc => hc
  | .eol, _, _, hc => hc

theorem CoversAll.mono (hless : Less repeats repeats') :
    ∀ (children : List Node) (i j : Nat), CoversAll text repeats children i j →
      CoversAll text repeats' children i j
  | [], _, _, hc => hc
  | child :: rest, i, j, hc => by
    obtain ⟨l, hchild, hrest⟩ := hc
    exact ⟨l, Covers.mono hless child i l hchild, CoversAll.mono hless rest l j hrest⟩

theorem CoversOne.mono (hless : Less repeats repeats') :
    ∀ (choices : List Node) (i j : Nat), CoversOne text repeats choices i j →
      CoversOne text repeats' choices i j
  | [], _, _, hc => hc
  | choice :: rest, i, j, hc =>
    hc.imp (Covers.mono hless choice i j) (CoversOne.mono hless rest i j)

end

end Mono

theorem Settled.denotes {text : List UInt8} {n : Node} {i j : Nat} (hs : Settled text n i j) :
    Denotes text n i j :=
  Covers.mono (fun _ _ bounds hR _ _ hr => (hr.mono hR).repeats bounds.ordered) n i j hs

theorem mem_coversOne {text : List UInt8}
    {repeats : (Nat → Nat → Prop) → Bounds → Nat → Nat → Prop} {choices : List Node} {i j : Nat} :
    CoversOne text repeats choices i j ↔ ∃ choice ∈ choices, Covers text repeats choice i j := by
  induction choices with
  | nil => simp [CoversOne]
  | cons choice rest ih => simp [CoversOne, ih]

theorem inRanges_iff {ranges : List ClassRange} {point : Nat} {negated : Bool} :
    (inRanges ranges point != negated) = true ↔
      ((∃ range ∈ ranges, range.lo ≤ point ∧ point ≤ range.hi) ↔ negated = false) := by
  have hin : inRanges ranges point = true ↔
      ∃ range ∈ ranges, range.lo ≤ point ∧ point ≤ range.hi := by
    simp [inRanges]
  rw [← hin]
  cases inRanges ranges point <;> cases negated <;> simp

end Lhat.Regex
