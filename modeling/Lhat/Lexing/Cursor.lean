import Lhat.Lexing.Number
import Mathlib.Data.List.Infix

/-!
# The cursor

A lexer stands somewhere in its source, and knows what is left of it. The frames of the strings
and holes it stands in are listed from the innermost. The requests for memory of this part are
granted.
-/

namespace Lhat.Lexing

/-- A string segment, or a hole with the braces that were opened in it. -/
structure Frame where
  inHole : Bool
  braceDepth : UInt32 := 0
deriving DecidableEq

/-- `LHAT_INTERP_MAX_DEPTH`. -/
def interpMaxDepth : Nat := 32

structure Lexer where
  rest : Text
  pos : Nat := 0
  line : UInt32 := 1
  column : UInt32 := 1
  pendingStmtStart : Bool := true
  afterDot : Bool := false
  interp : List Frame := []
  diagnostics : List Diagnostic := []
  comments : List Comment := []
deriving DecidableEq

namespace Lexer

def atEnd (l : Lexer) : Bool := l.rest.isEmpty

/-- A zero byte at the end. -/
def currentByte (l : Lexer) : UInt8 := l.rest.headD 0

def byteAt (l : Lexer) (ahead : Nat) : UInt8 := Lexing.byteAt l.rest ahead

/-- At the end, a width of zero. -/
def currentCp (l : Lexer) : UInt32 × Nat := if l.rest = [] then (0, 0) else decodeUtf8 l.rest

/-- One byte further. The column counts code points. -/
def advance (l : Lexer) : Lexer :=
  match l.rest with
  | [] => l
  | c :: rest =>
    if c = 10 then { l with rest := rest, pos := l.pos + 1, line := l.line + 1, column := 1 }
    else if c &&& 0xC0 ≠ 0x80 then { l with rest := rest, pos := l.pos + 1, column := l.column + 1 }
    else { l with rest := rest, pos := l.pos + 1 }

def advanceN : Nat → Lexer → Lexer
  | 0, l => l
  | n + 1, l => advanceN n l.advance

def reportAt (l : Lexer) (code : ErrorCode) (offset line column : UInt32) : Lexer :=
  { l with diagnostics := l.diagnostics ++ [⟨code, offset, line, column⟩] }

def report (l : Lexer) (code : ErrorCode) : Lexer :=
  l.reportAt code l.pos.toUInt32 l.line l.column

/-- `Mark`. -/
structure Mark where
  offset : Nat
  line : UInt32
  column : UInt32

def mark (l : Lexer) : Mark := ⟨l.pos, l.line, l.column⟩

def reportMark (l : Lexer) (code : ErrorCode) (start : Mark) : Lexer :=
  l.reportAt code start.offset.toUInt32 start.line start.column

def finish (l : Lexer) (start : Mark) (kind : TokenKind) : Token where
  kind := kind
  offset := start.offset.toUInt32
  length := (l.pos - start.offset).toUInt32
  line := start.line
  column := start.column
  mayStartStmt := l.pendingStmtStart

/-! ### Moving on -/

/-- The cursor went on over what it read, and the frames and comments are as they were. -/
structure Moved (l l' : Lexer) : Prop where
  read : ∃ n ≤ l.rest.length, l'.rest = l.rest.drop n ∧ l'.pos = l.pos + n
  interp : l'.interp = l.interp
  comments : l'.comments = l.comments
  diagnostics : l.diagnostics <+: l'.diagnostics

variable {l l' l'' : Lexer}

@[refl]
theorem Moved.refl (l : Lexer) : Moved l l :=
  ⟨⟨0, Nat.zero_le _, rfl, rfl⟩, rfl, rfl, List.prefix_rfl⟩

theorem Moved.trans (h : Moved l l') (h' : Moved l' l'') : Moved l l'' := by
  obtain ⟨n, hn, hrest, hpos⟩ := h.read
  obtain ⟨m, hm, hrest', hpos'⟩ := h'.read
  refine ⟨⟨n + m, ?_, ?_, by omega⟩, h'.interp.trans h.interp, h'.comments.trans h.comments,
    h.diagnostics.trans h'.diagnostics⟩
  · rw [hrest, List.length_drop] at hm
    omega
  · rw [hrest', hrest, List.drop_drop]

theorem Moved.length_le (h : Moved l l') : l'.rest.length ≤ l.rest.length := by
  obtain ⟨n, -, hrest, -⟩ := h.read
  rw [hrest, List.length_drop]
  exact Nat.sub_le _ _

theorem Moved.pos_le (h : Moved l l') : l.pos ≤ l'.pos := by
  obtain ⟨n, -, -, hpos⟩ := h.read
  omega

theorem Moved.lt_of_pos (h : Moved l l') (hpos : l.pos < l'.pos) :
    l'.rest.length < l.rest.length := by
  obtain ⟨n, hn, hrest, hpos'⟩ := h.read
  rw [hrest, List.length_drop]
  omega

theorem advance_cons {c : UInt8} {rest : Text} (h : l.rest = c :: rest) :
    l.advance.rest = rest ∧ l.advance.pos = l.pos + 1 ∧ l.advance.interp = l.interp ∧
      l.advance.comments = l.comments ∧ l.advance.diagnostics = l.diagnostics := by
  unfold advance
  rw [h]
  dsimp only
  split
  · exact ⟨rfl, rfl, rfl, rfl, rfl⟩
  · split <;> exact ⟨rfl, rfl, rfl, rfl, rfl⟩

theorem advance_nil (h : l.rest = []) : l.advance = l := by
  unfold advance
  rw [h]

theorem moved_advance (l : Lexer) : Moved l l.advance := by
  cases hrest : l.rest with
  | nil =>
    rw [advance_nil hrest]
  | cons c rest =>
    obtain ⟨hnext, hpos, hinterp, hcomments, hdiagnostics⟩ := advance_cons hrest
    refine ⟨⟨1, ?_, ?_, hpos⟩, hinterp, hcomments, ?_⟩
    · rw [hrest]
      exact Nat.succ_le_succ (Nat.zero_le _)
    · rw [hnext, hrest]
      rfl
    · rw [hdiagnostics]

theorem pos_advance (h : l.rest ≠ []) : l.advance.pos = l.pos + 1 := by
  obtain ⟨c, rest, hrest⟩ := List.exists_cons_of_ne_nil h
  exact (advance_cons hrest).2.1

theorem rest_advance (l : Lexer) : l.advance.rest = l.rest.tail := by
  cases hrest : l.rest with
  | nil => rw [advance_nil hrest, hrest, List.tail_nil]
  | cons c rest => rw [(advance_cons hrest).1, List.tail_cons]

theorem length_advance (h : l.rest ≠ []) : l.advance.rest.length < l.rest.length :=
  (moved_advance l).lt_of_pos (by rw [pos_advance h]; omega)

theorem moved_advanceN (n : Nat) : ∀ l : Lexer, Moved l (advanceN n l) := by
  induction n with
  | zero => exact Moved.refl
  | succ n ih => exact fun l => (moved_advance l).trans (ih l.advance)

theorem pos_advanceN (n : Nat) : ∀ {l : Lexer}, n ≤ l.rest.length →
    (advanceN n l).pos = l.pos + n ∧ (advanceN n l).rest = l.rest.drop n := by
  induction n with
  | zero => exact fun _ => ⟨rfl, rfl⟩
  | succ n ih =>
    intro l h
    have hne : l.rest ≠ [] := List.length_pos_iff.mp (by omega)
    obtain ⟨hpos, hrest⟩ := ih (l := l.advance) (by rw [rest_advance, List.length_tail]; omega)
    refine ⟨?_, ?_⟩
    · refine hpos.trans ?_
      rw [pos_advance hne]
      omega
    · refine hrest.trans ?_
      rw [rest_advance, ← List.drop_one, List.drop_drop, Nat.add_comm]

theorem length_advanceN {n : Nat} (hn : 0 < n) (h : n ≤ l.rest.length) :
    (advanceN n l).rest.length < l.rest.length := by
  rw [(pos_advanceN n h).2, List.length_drop]
  omega

theorem moved_reportAt (l : Lexer) (code : ErrorCode) (offset line column : UInt32) :
    Moved l (l.reportAt code offset line column) :=
  ⟨⟨0, Nat.zero_le _, rfl, rfl⟩, rfl, rfl, List.prefix_append _ _⟩

theorem moved_report (l : Lexer) (code : ErrorCode) : Moved l (l.report code) :=
  moved_reportAt ..

theorem moved_reportMark (l : Lexer) (code : ErrorCode) (start : Mark) :
    Moved l (l.reportMark code start) := moved_reportAt ..

theorem rest_ne_nil (h : l.currentByte ≠ 0) : l.rest ≠ [] := by
  intro hrest
  refine h ?_
  unfold currentByte
  rw [hrest]
  rfl

theorem atEnd_iff : l.atEnd = true ↔ l.rest = [] := List.isEmpty_iff

theorem currentCp_width (h : l.rest ≠ []) : 0 < l.currentCp.2 ∧ l.currentCp.2 ≤ l.rest.length := by
  unfold currentCp
  rw [if_neg h]
  exact decodeUtf8_width h

end Lexer

end Lhat.Lexing
