import Lhat.Lexing.Cursor

/-!
# The scanners

One call reads one token: what comes before it is skipped, unless the lexer stands in the text of
an interpolated string, where nothing is.
-/

namespace Lhat.Lexing.Lexer

variable {l : Lexer}

theorem length_advanceN_succ (n : Nat) (h : l.rest ≠ []) :
    (advanceN (n + 1) l).rest.length < l.rest.length :=
  Nat.lt_of_le_of_lt (moved_advanceN n l.advance).length_le (length_advance h)

/-! ### Trivia -/

/-- The bytes from here on that are as asked. -/
def passWhile (p : UInt8 → Bool) (l : Lexer) : Lexer × Text :=
  if h : l.rest ≠ [] ∧ p l.currentByte = true then
    let passed := passWhile p l.advance
    (passed.1, l.currentByte :: passed.2)
  else (l, [])
termination_by l.rest.length
decreasing_by exact length_advance h.1

def recordComment (l : Lexer) (start : Mark) (block : Bool) : Lexer :=
  { l with
    comments := l.comments ++
      [⟨start.offset.toUInt32, l.pos.toUInt32, start.line, start.column, block⟩] }

/-- The rest of a block comment, and whether it was closed. -/
def blockComment (l : Lexer) (depth : Nat) : Lexer × Bool :=
  if h : l.rest = [] then (l, false)
  else if l.currentByte = ascii '#' ∧ l.byteAt 1 = ascii '[' then
    blockComment (advanceN 2 l) (depth + 1)
  else if l.currentByte = ascii ']' ∧ l.byteAt 1 = ascii '#' then
    if depth = 1 then (advanceN 2 l, true) else blockComment (advanceN 2 l) (depth - 1)
  else if l.currentByte = 10 then blockComment { l with pendingStmtStart := true }.advance depth
  else blockComment l.advance depth
termination_by l.rest.length
decreasing_by
  · exact length_advanceN_succ 1 h
  · exact length_advanceN_succ 1 h
  · exact length_advance h
  · exact length_advance h

def skipBlockComment (l : Lexer) : Lexer :=
  let passed := (advanceN 2 l).blockComment 1
  if passed.2 then passed.1.recordComment l.mark true
  else (passed.1.recordComment l.mark true).reportMark .unterminatedBlockComment l.mark

def skipLineComment (l : Lexer) : Lexer :=
  (l.passWhile (· ≠ 10)).1.recordComment l.mark false

theorem moved_passWhile (p : UInt8 → Bool) (l : Lexer) : Moved l (l.passWhile p).1 := by
  fun_induction passWhile p l with
  | case1 l h passed ih => exact (moved_advance l).trans ih
  | case2 l h => exact .refl l

theorem moved_pending (l : Lexer) (pending : Bool) :
    Moved l { l with pendingStmtStart := pending } :=
  ⟨⟨0, Nat.zero_le _, rfl, rfl⟩, rfl, rfl, List.prefix_rfl⟩

theorem moved_blockComment (l : Lexer) (depth : Nat) : Moved l (l.blockComment depth).1 := by
  fun_induction blockComment l depth with
  | case1 l depth h => exact .refl l
  | case2 l depth h hopen ih => exact (moved_advanceN 2 l).trans ih
  | case3 l h hopen hclose => exact moved_advanceN 2 l
  | case4 l depth h hopen hclose hdepth ih => exact (moved_advanceN 2 l).trans ih
  | case5 l depth h hopen hclose hline ih =>
    exact (moved_pending l true).trans ((moved_advance _).trans ih)
  | case6 l depth h hopen hclose hline ih => exact (moved_advance l).trans ih

theorem length_skipBlockComment (h : l.rest ≠ []) :
    l.skipBlockComment.rest.length < l.rest.length := by
  have hmoved := (moved_blockComment (advanceN 2 l) 1).length_le
  have hlt := length_advanceN_succ 1 h
  unfold skipBlockComment
  dsimp only
  split
  · exact Nat.lt_of_le_of_lt hmoved hlt
  · exact Nat.lt_of_le_of_lt hmoved hlt

theorem length_skipLineComment (h : l.currentByte = ascii '#') :
    l.skipLineComment.rest.length < l.rest.length := by
  have hne : l.rest ≠ [] := rest_ne_nil (by rw [h]; decide)
  have hmoved := (moved_passWhile (· ≠ 10) l.advance).length_le
  have hlt := length_advance hne
  unfold skipLineComment passWhile
  rw [dif_pos ⟨hne, by rw [h]; decide⟩]
  exact Nat.lt_of_le_of_lt hmoved hlt

def isBlank (c : UInt8) : Bool := c == ascii ' ' || c == 9 || c == 11 || c == 12

def skipTrivia (l : Lexer) : Lexer :=
  if h : isBlank l.currentByte = true then skipTrivia l.advance
  else if h : l.currentByte = 10 then skipTrivia { l with pendingStmtStart := true }.advance
  else if h : l.currentByte = ascii '#' then
    if l.byteAt 1 = ascii '[' then skipTrivia l.skipBlockComment else skipTrivia l.skipLineComment
  else l
termination_by l.rest.length
decreasing_by
  · refine length_advance (rest_ne_nil fun hzero => ?_)
    rw [hzero] at h
    exact absurd h (by decide)
  · have hne : l.rest ≠ [] := rest_ne_nil (by rw [h]; decide)
    exact length_advance hne
  · exact length_skipBlockComment (rest_ne_nil (by rw [h]; decide))
  · exact length_skipLineComment h

/-! ### Names -/

/-- A character is as wide as it was read. -/
def skipIdent (l : Lexer) : Lexer :=
  if h : 0 < l.currentCp.2 ∧ isIdentContinue l.currentCp.1 = true then
    skipIdent (advanceN l.currentCp.2 l)
  else l
termination_by l.rest.length
decreasing_by
  have hne : l.rest ≠ [] := by
    intro hrest
    have hwidth := h.1
    unfold currentCp at hwidth
    rw [if_pos hrest] at hwidth
    exact Nat.lt_irrefl 0 hwidth
  exact length_advanceN h.1 (currentCp_width hne).2

def scanAnnotation (l : Lexer) (start : Mark) : Lexer × Token :=
  let l := l.advance
  if l.currentCp.2 = 0 ∨ isIdentStart l.currentCp.1 = false then
    let l := l.report .bareAt
    (l, l.finish start .error)
  else
    let passed := l.skipIdent
    -- The span is the name alone, without its mark.
    (passed, { passed.finish start .annot with
      offset := l.pos.toUInt32
      length := (passed.pos - l.pos).toUInt32 })

def scanIdentifier (l : Lexer) (start : Mark) : Lexer × Token :=
  let hats := l.skipIdent.passWhile (· = ascii '^')
  if 0 < hats.2.length then
    (hats.1, hats.1.finish start (.hatIdent hats.2.length.toUInt32))
  else (hats.1, hats.1.finish start (.ident none))

/-- The rest of a name that is written out in full, if it ends on its line. -/
def nameBody (l : Lexer) : Lexer × Option Text :=
  if h : l.rest = [] ∨ l.currentByte = 10 then (l, none)
  else if l.currentByte = 96 then
    if l.byteAt 1 = 96 then
      let passed := nameBody (advanceN 2 l)
      (passed.1, passed.2.map (96 :: ·))
    else (l.advance, some [])
  else
    let passed := nameBody l.advance
    (passed.1, passed.2.map (l.currentByte :: ·))
termination_by l.rest.length
decreasing_by
  · exact length_advanceN_succ 1 fun hrest => h (.inl hrest)
  · exact length_advance fun hrest => h (.inl hrest)

def scanNameLiteral (l : Lexer) (start : Mark) : Lexer × Token :=
  let passed := l.advance.nameBody
  match passed.2 with
  | none =>
    let l := passed.1.reportMark .unterminatedNameLiteral start
    (l, l.finish start .error)
  | some [] => (passed.1.reportMark .emptyNameLiteral start, passed.1.finish start .error)
  | some spelling => (passed.1, passed.1.finish start (.ident (some spelling)))

/-! ### Numbers -/

def scanNumber (l : Lexer) (start : Mark) : Lexer × Token :=
  let read := numberLiteral l.rest l.afterDot
  let l := advanceN read.length l
  if read.status = .badExponent then
    let l := l.reportMark .malformedExponent start
    (l, l.finish start .error)
  else if 0 < l.currentCp.2 ∧ isIdentStart l.currentCp.1 = true then
    let l := (l.report .identAfterNumber).skipIdent
    (l, l.finish start .error)
  else match read.status with
    | .malformed | .tooLong =>
      let l := l.reportMark .malformedNumber start
      (l, l.finish start .error)
    | .overflow => (l.reportMark .integerOverflow start, l.finish start .error)
    | .badExponent | .ok =>
      match read.kind with
      | .real => (l, l.finish start (.float read.real))
      | .integer => (l, l.finish start (.int read.integer read.base))

/-! ### Strings -/

/-- The escapes of one character. A newline is continued over. -/
def plainEscape (c : UInt8) : Option Text :=
  if c = ascii 'n' then some [10]
  else if c = ascii 'r' then some [13]
  else if c = ascii 't' then some [9]
  else if c = ascii '0' then some [0]
  else if c = 92 then some [92]
  else if c = 34 then some [34]
  else if c = 10 then some []
  else none

/-- `scan_escape`, with the bytes it stands for. -/
def scanEscape (l : Lexer) : Lexer × Text :=
  let l := l.advance
  match plainEscape l.currentByte with
  | some bytes => (l.advance, bytes)
  | none =>
    if l.currentByte = ascii 'x' then
      if isDigitOfBase (l.byteAt 1) 16 && isDigitOfBase (l.byteAt 2) 16 then
        (advanceN 3 l, [(digitsValue 16 [l.byteAt 1, l.byteAt 2]).toUInt8])
      else ((l.report .malformedEscape).advance, [])
    else if l.currentByte = ascii 'u' ∧ l.byteAt 1 = 123 then
      let digits := ((l.rest.drop 2).take 7).takeWhile (isDigitOfBase · 16)
      let cp := (digitsValue 16 digits).toUInt32
      if 0 < digits.length ∧ digits.length ≤ 6 ∧ l.byteAt (2 + digits.length) = 125 ∧
          cp ≤ 0x10FFFF ∧ ¬(0xD800 ≤ cp ∧ cp ≤ 0xDFFF) then
        (advanceN (2 + digits.length + 1) l, encodeUtf8 cp)
      else ((l.report .malformedEscape).advance, [])
    else ((l.report .unknownEscape).advance, [])

theorem moved_scanEscape (l : Lexer) : Moved l.advance l.scanEscape.1 := by
  have hreport : ∀ code, Moved l.advance (l.advance.report code).advance := fun code =>
    (moved_report _ code).trans (moved_advance _)
  unfold scanEscape
  dsimp only
  split
  · exact moved_advance _
  · split
    · split
      · exact moved_advanceN 3 _
      · exact hreport _
    · split
      · split
        · exact moved_advanceN _ _
        · exact hreport _
      · exact hreport _

theorem length_scanEscape (h : l.rest ≠ []) : l.scanEscape.1.rest.length < l.rest.length :=
  Nat.lt_of_le_of_lt (moved_scanEscape l).length_le (length_advance h)

/-- The rest of a string up to its quote, if there is one. -/
def escapedBody (l : Lexer) : Lexer × Option Text :=
  if h : l.rest = [] then (l, none)
  else if l.currentByte = 34 then (l.advance, some [])
  else if l.currentByte = 92 then
    let passed := escapedBody l.scanEscape.1
    (passed.1, passed.2.map (l.scanEscape.2 ++ ·))
  else
    let passed := escapedBody l.advance
    (passed.1, passed.2.map (l.currentByte :: ·))
termination_by l.rest.length
decreasing_by
  · exact length_scanEscape h
  · exact length_advance h

/-- The string that was read, or what is said where it did not end. -/
def finishString (kind : StringKind) (start : Mark) (passed : Lexer × Option Text) :
    Lexer × Token :=
  match passed.2 with
  | some bytes => (passed.1, passed.1.finish start (.string kind bytes))
  | none =>
    let l := passed.1.reportMark .unterminatedString start
    (l, l.finish start .error)

def scanEscapedString (l : Lexer) (start : Mark) : Lexer × Token :=
  finishString .escaped start l.advance.escapedBody

def rawBody (l : Lexer) : Lexer × Option Text :=
  if h : l.rest = [] then (l, none)
  else if l.currentByte = 39 then
    if l.byteAt 1 = 39 then
      let passed := rawBody (advanceN 2 l)
      (passed.1, passed.2.map (39 :: ·))
    else (l.advance, some [])
  else
    let passed := rawBody l.advance
    (passed.1, passed.2.map (l.currentByte :: ·))
termination_by l.rest.length
decreasing_by
  · exact length_advanceN_succ 1 h
  · exact length_advance h

def scanRawString (l : Lexer) (start : Mark) : Lexer × Token :=
  finishString .raw start l.advance.rawBody

def scanLineString (l : Lexer) (start : Mark) : Lexer × Token :=
  let passed := (advanceN 3 l).passWhile (· ≠ 10)
  (passed.1, passed.1.finish start (.string .line passed.2))

/-! ### Interpolation and scopes -/

/-- The literal run of a segment, up to a hole, the quote or the end. -/
def segmentBody (l : Lexer) : Lexer × Text :=
  if h : l.rest = [] then (l, [])
  else if l.currentByte = 123 then
    if l.byteAt 1 ≠ 123 then (l, [])
    else
      let passed := segmentBody (advanceN 2 l)
      (passed.1, 123 :: passed.2)
  else if l.currentByte = 125 then
    let passed := if l.byteAt 1 = 125 then segmentBody (advanceN 2 l) else segmentBody l.advance
    (passed.1, 125 :: passed.2)
  else if l.currentByte = 34 then (l, [])
  else if l.currentByte = 92 then
    let passed := segmentBody l.scanEscape.1
    (passed.1, l.scanEscape.2 ++ passed.2)
  else
    let passed := segmentBody l.advance
    (passed.1, l.currentByte :: passed.2)
termination_by l.rest.length
decreasing_by
  · exact length_advanceN_succ 1 h
  · exact length_advanceN_succ 1 h
  · exact length_advance h
  · exact length_scanEscape h
  · exact length_advance h

/-- A frame is pushed, or there are too many. -/
def pushFrame (l : Lexer) (start : Mark) (inHole : Bool) (kind : TokenKind) : Lexer × Token :=
  if interpMaxDepth ≤ l.interp.length then
    let l := l.report .interpolationTooDeep
    (l, l.finish start .error)
  else
    let l := { l with interp := { inHole := inHole } :: l.interp }
    (l, l.finish start kind)

def scanInterpolationSegment (l : Lexer) : Lexer × Token :=
  let start := l.mark
  if l.currentByte = 123 ∧ l.byteAt 1 ≠ 123 then l.advance.pushFrame start true .interpExprBegin
  else if l.currentByte = 34 then
    let l := { l.advance with interp := l.interp.tail }
    (l, l.finish start .interpEnd)
  else
    let passed := l.segmentBody
    if passed.1.rest = [] then
      let l := { passed.1.reportMark .unterminatedString start with interp := l.interp.tail }
      (l, l.finish start .error)
    else (passed.1, passed.1.finish start (.interpText passed.2))

def scanInterpolationFormat (l : Lexer) : Lexer × Token :=
  let passed := l.advance.passWhile (· ≠ 125)
  (passed.1, passed.1.finish l.mark (.interpFormat passed.2))

/-- The sigil of a scope: it counts inwards, or outwards. -/
def scanScope (l : Lexer) : Lexer × ScopeKind × UInt32 :=
  let inwards := l.passWhile (· = ascii '$')
  if inwards.2 = [] ∧ inwards.1.currentByte = ascii '^' then
    let outwards := inwards.1.passWhile (· = ascii '^')
    (outwards.1, .relative, outwards.2.length.toUInt32)
  else (inwards.1, .file, inwards.2.length.toUInt32)

def scanDollar (l : Lexer) (start : Mark) : Lexer × Token :=
  if l.byteAt 1 = 34 then (advanceN 2 l).pushFrame start false .interpBegin
  else if l.byteAt 1 = 39 then
    let l := (l.report .interpolationNeedsQuotes).advance
    (l, l.finish start .error)
  else
    let sigil := l.advance.scanScope
    if sigil.1.currentCp.2 = 0 ∨ isIdentStart sigil.1.currentCp.1 = false then
      let l := sigil.1.reportMark .scopeWithoutName start
      (l, l.finish start .error)
    else (sigil.1, sigil.1.finish start (.scope sigil.2.1 sigil.2.2))

/-! ### The next token -/

def scanOperator (l : Lexer) (start : Mark) : Lexer × Token :=
  match matchOperator l.rest with
  | some entry =>
    let l := advanceN entry.1.length l
    (l, l.finish start (.op entry.2))
  | none =>
    let passed := advanceN l.currentCp.2 (l.report .unexpectedCharacter)
    (passed, passed.finish start .error)

/-- One character that begins nothing. -/
def scanStray (l : Lexer) (start : Mark) (code : ErrorCode) : Lexer × Token :=
  let l := (l.report code).advance
  (l, l.finish start .error)

/-- What a token begins with decides which it is. -/
def scanToken (l : Lexer) : Lexer × Token :=
  let start := l.mark
  let c := l.currentByte
  let cp := l.currentCp.1
  if cp = cpInvalid then l.scanStray start .invalidUtf8
  else if c = 34 then
    if l.byteAt 1 = 34 ∧ l.byteAt 2 = 34 then l.scanLineString start else l.scanEscapedString start
  else if c = 39 then l.scanRawString start
  else if c = 96 then l.scanNameLiteral start
  else if c = ascii '@' then scanAnnotation l start
  else if c = ascii '$' then l.scanDollar start
  else if isDecimalDigit c then l.scanNumber start
  else if isIdentStart cp then l.scanIdentifier start
  else if c = ascii '^' then l.scanStray start .bareHat
  else l.scanOperator start

/-- Braces that are opened inside a hole. -/
def Frame.track (frame : Frame) (kind : TokenKind) : Frame :=
  if frame.inHole then
    if kind = .op .lbrace then { frame with braceDepth := frame.braceDepth + 1 }
    else if kind = .op .rbrace ∧ 0 < frame.braceDepth then
      { frame with braceDepth := frame.braceDepth - 1 }
    else frame
  else frame

def trackBraces (l : Lexer) (kind : TokenKind) : Lexer :=
  { l with
    interp := match l.interp with
      | frame :: frames => Frame.track frame kind :: frames
      | [] => [] }

def insideInterpolatedText (l : Lexer) : Bool :=
  match l.interp with
  | frame :: _ => !frame.inHole
  | [] => false

/-- In a hole, where no brace was left open. -/
def atHoleLevel (l : Lexer) : Bool :=
  match l.interp with
  | frame :: _ => frame.inHole && frame.braceDepth == 0
  | [] => false

/-- What the next token is told of this one. -/
def settled (l : Lexer) (pendingStmtStart afterDot : Bool) : Lexer :=
  { l with pendingStmtStart := pendingStmtStart, afterDot := afterDot }

/-- `lhat_lexer_next`. -/
def next (l : Lexer) : Lexer × Token :=
  if l.insideInterpolatedText then
    let scanned := l.scanInterpolationSegment
    (scanned.1.settled false false, scanned.2)
  else
    let l := l.skipTrivia
    if l.atHoleLevel ∧ l.currentByte = 125 then
      let closed := { l.advance with interp := l.interp.tail }.settled false false
      (closed, closed.finish l.mark .interpExprEnd)
    else if l.atHoleLevel ∧ l.currentByte = ascii ':' ∧ l.byteAt 1 ≠ ascii ':' then
      let scanned := l.scanInterpolationFormat
      (scanned.1.settled false false, scanned.2)
    else if l.atEnd then (l.settled false false, l.finish l.mark .eof)
    else
      let scanned := l.scanToken
      let kind := scanned.2.kind
      ((scanned.1.trackBraces kind).settled (kind = .op .semicolon)
        (kind = .op .dot ∨ kind = .op .nilDot), scanned.2)

end Lhat.Lexing.Lexer
