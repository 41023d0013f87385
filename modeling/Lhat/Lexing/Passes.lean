import Lhat.Foundation.Tiling
import Lhat.Lexing.Scan

/-!
# What a scanner reads

Every scanner goes on by what it read, and its token spans just that. The frames stay, unless a
string is opened.
-/

namespace Lhat.Lexing

/-- An annotation is spanned with its mark. -/
def Token.span (t : Token) : Span :=
  if t.kind = .annot then ⟨t.offset.toNat - 1, t.offset.toNat + t.length.toNat⟩
  else ⟨t.offset.toNat, t.offset.toNat + t.length.toNat⟩

def Comment.span (c : Comment) : Span := ⟨c.offset.toNat, c.stop.toNat⟩

/-- Of no interpolated string, and not the end. -/
def TokenKind.Plain : TokenKind → Prop
  | .eof | .interpBegin | .interpText _ | .interpExprBegin | .interpFormat _ | .interpExprEnd
  | .interpEnd => False
  | _ => True

/-- Neither an operator nor an annotation. -/
def TokenKind.Simple : TokenKind → Prop
  | .annot | .op _ => False
  | kind => kind.Plain

namespace Lexer

variable {l l' l'' : Lexer} {start : Mark}

/-! ### The loops -/

theorem moved_skipIdent (l : Lexer) : Moved l l.skipIdent := by
  fun_induction skipIdent l with
  | case1 l h ih => exact (moved_advanceN _ l).trans ih
  | case2 l h => exact .refl l

theorem moved_nameBody (l : Lexer) : Moved l l.nameBody.1 := by
  fun_induction nameBody l with
  | case1 l h => exact .refl l
  | case2 l h hquote hdouble passed ih => exact (moved_advanceN 2 l).trans ih
  | case3 l h hquote hdouble => exact moved_advance l
  | case4 l h hquote passed ih => exact (moved_advance l).trans ih

theorem moved_escapedBody (l : Lexer) : Moved l l.escapedBody.1 := by
  fun_induction escapedBody l with
  | case1 l h => exact .refl l
  | case2 l h hquote => exact moved_advance l
  | case3 l h hquote hescape passed ih =>
    exact (moved_advance l).trans ((moved_scanEscape l).trans ih)
  | case4 l h hquote hescape passed ih => exact (moved_advance l).trans ih

theorem moved_rawBody (l : Lexer) : Moved l l.rawBody.1 := by
  fun_induction rawBody l with
  | case1 l h => exact .refl l
  | case2 l h hquote hdouble passed ih => exact (moved_advanceN 2 l).trans ih
  | case3 l h hquote hdouble => exact moved_advance l
  | case4 l h hquote passed ih => exact (moved_advance l).trans ih

theorem moved_segmentBody (l : Lexer) : Moved l l.segmentBody.1 := by
  fun_induction segmentBody l with
  | case1 l h => exact .refl l
  | case2 l h hbrace hsingle => exact .refl l
  | case3 l h hbrace hsingle passed ih => exact (moved_advanceN 2 l).trans ih
  | case4 l h hopen hbrace passed ih ih' =>
    have hpassed : Moved l passed.1 := by
      unfold passed
      split
      · exact (moved_advanceN 2 l).trans ih
      · exact (moved_advance l).trans ih'
    exact hpassed
  | case5 l h hopen hclose hquote => exact .refl l
  | case6 l h hopen hclose hquote hescape passed ih =>
    exact (moved_advance l).trans ((moved_scanEscape l).trans ih)
  | case7 l h hopen hclose hquote hescape passed ih => exact (moved_advance l).trans ih

theorem pos_segmentBody (hne : l.rest ≠ []) (hhole : ¬(l.currentByte = 123 ∧ l.byteAt 1 ≠ 123))
    (hquote : l.currentByte ≠ 34) : l.pos < l.segmentBody.1.pos := by
  have hone : l.pos < l.advance.pos := by rw [pos_advance hne]; exact Nat.lt_succ_self _
  have htwo : l.pos < (advanceN 2 l).pos :=
    Nat.lt_of_lt_of_le hone (moved_advanceN 1 l.advance).pos_le
  rw [segmentBody, dif_neg hne]
  split
  · rename_i hbrace
    rw [if_neg fun hsingle => hhole ⟨hbrace, hsingle⟩]
    exact Nat.lt_of_lt_of_le htwo (moved_segmentBody _).pos_le
  · split
    · dsimp only
      split
      · exact Nat.lt_of_lt_of_le htwo (moved_segmentBody _).pos_le
      · exact Nat.lt_of_lt_of_le hone (moved_segmentBody _).pos_le
    · split
      · have hescape := (moved_scanEscape l).trans (moved_segmentBody _)
        exact Nat.lt_of_lt_of_le hone hescape.pos_le
      · exact Nat.lt_of_lt_of_le hone (moved_segmentBody _).pos_le

theorem moved_scanScope (l : Lexer) : Moved l l.scanScope.1 := by
  unfold scanScope
  dsimp only
  split
  · exact (moved_passWhile _ l).trans (moved_passWhile _ _)
  · exact moved_passWhile _ l

/-! ### Tokens -/

/-- A token was read from where the lexer stood. -/
structure Scanned (l : Lexer) (r : Lexer × Token) : Prop where
  read : ∃ n, 0 < n ∧ n ≤ l.rest.length ∧ r.1.rest = l.rest.drop n ∧ r.1.pos = l.pos + n
  comments : r.1.comments = l.comments
  diagnostics : l.diagnostics <+: r.1.diagnostics
  span : r.1.pos < 2 ^ 32 → r.2.span = ⟨l.pos, r.1.pos⟩
  op : ∀ op, r.2.kind = .op op → ∃ spelling, (spelling, op) ∈ operatorTable ∧ spelling <+: l.rest
  interp : r.2.kind.Plain ∧ r.1.interp = l.interp ∨
    r.2.kind = .interpBegin ∧ r.1.interp = { inHole := false } :: l.interp ∧
      l.interp.length < interpMaxDepth

theorem span_finish {kind : TokenKind} (hkind : kind ≠ .annot) (hle : start.offset ≤ l.pos)
    (hpos : l.pos < 2 ^ 32) : (l.finish start kind).span = ⟨start.offset, l.pos⟩ := by
  have hoffset : start.offset.toUInt32.toNat = start.offset := by
    rw [Nat.toUInt32, UInt32.toNat_ofNat']
    exact Nat.mod_eq_of_lt (by omega)
  have hlength : (l.pos - start.offset).toUInt32.toNat = l.pos - start.offset := by
    rw [Nat.toUInt32, UInt32.toNat_ofNat']
    exact Nat.mod_eq_of_lt (by omega)
  unfold Token.span finish
  dsimp only
  rw [if_neg hkind, hoffset, hlength]
  congr 1
  omega

theorem Moved.read_pos (h : Moved l l') (hlt : l.pos < l'.pos) :
    ∃ n, 0 < n ∧ n ≤ l.rest.length ∧ l'.rest = l.rest.drop n ∧ l'.pos = l.pos + n := by
  obtain ⟨n, hn, hrest, hpos⟩ := h.read
  exact ⟨n, by omega, hn, hrest, hpos⟩

theorem scanned_of_moved (h : Moved l l') (hlt : l.pos < l'.pos) (hsame : l''.pos = l'.pos)
    {kind : TokenKind} (hkind : kind.Plain) (hnot : kind ≠ .annot)
    (hop : ∀ op, kind = .op op →
      ∃ spelling, (spelling, op) ∈ operatorTable ∧ spelling <+: l.rest) :
    Scanned l (l', l''.finish l.mark kind) where
  read := h.read_pos hlt
  comments := h.comments
  diagnostics := h.diagnostics
  span := fun hpos => by
    have hstart : l.mark.offset ≤ l''.pos := by
      rw [hsame]
      exact h.pos_le
    rw [span_finish hnot hstart (by rw [hsame]; exact hpos), hsame]
    rfl
  op := hop
  interp := .inl ⟨hkind, h.interp⟩

theorem scanned_finish (h : Moved l l') (hlt : l.pos < l'.pos) (hsame : l''.pos = l'.pos)
    {kind : TokenKind} (hkind : kind.Simple) : Scanned l (l', l''.finish l.mark kind) := by
  refine scanned_of_moved h hlt hsame ?_ ?_ ?_
  · cases kind <;> first | exact hkind | exact hkind.elim
  · rintro rfl
    exact hkind
  · rintro op rfl
    exact hkind.elim

theorem scanned_of_advance (hne : l.rest ≠ []) (h : Moved l.advance l') (hsame : l''.pos = l'.pos)
    {kind : TokenKind} (hkind : kind.Simple) : Scanned l (l', l''.finish l.mark kind) := by
  have hpos := pos_advance hne
  have hle := h.pos_le
  exact scanned_finish ((moved_advance l).trans h) (by omega) hsame hkind

theorem scanned_annot (hne : l.rest ≠ []) : Scanned l <| scanAnnotation l l.mark := by
  unfold scanAnnotation
  dsimp only
  split
  · exact scanned_of_advance hne (moved_report _ _) rfl trivial
  · have hmoved := moved_skipIdent l.advance
    have hpos := pos_advance hne
    have hle := hmoved.pos_le
    refine ⟨((moved_advance l).trans hmoved).read_pos (by omega),
      ((moved_advance l).trans hmoved).comments, ((moved_advance l).trans hmoved).diagnostics,
      fun hlt => ?_, nofun, .inl ⟨trivial, ((moved_advance l).trans hmoved).interp⟩⟩
    dsimp only at hlt ⊢
    have hoffset : l.advance.pos.toUInt32.toNat = l.advance.pos := by
      rw [Nat.toUInt32, UInt32.toNat_ofNat']
      exact Nat.mod_eq_of_lt (by omega)
    have hlength : (l.advance.skipIdent.pos - l.advance.pos).toUInt32.toNat =
        l.advance.skipIdent.pos - l.advance.pos := by
      rw [Nat.toUInt32, UInt32.toNat_ofNat']
      exact Nat.mod_eq_of_lt (by omega)
    unfold Token.span finish
    dsimp only
    rw [if_pos rfl, hoffset, hlength]
    congr 1 <;> omega

theorem isIdentContinue_of_start {cp : UInt32} (h : isIdentStart cp = true) :
    isIdentContinue cp = true := by
  unfold isIdentContinue
  split
  · rename_i hlt
    unfold isIdentStart at h
    split at h
    · cases h
    · rw [h, Bool.true_or]
  · exact h

theorem scanned_identifier (hne : l.rest ≠ []) (h : isIdentStart l.currentCp.1 = true) :
    Scanned l (l.scanIdentifier l.mark) := by
  obtain ⟨hwidth, hle⟩ := currentCp_width hne
  have hskip : l.skipIdent = (advanceN l.currentCp.2 l).skipIdent := by
    rw [skipIdent, dif_pos ⟨hwidth, isIdentContinue_of_start h⟩]
  have hmoved : Moved l (l.skipIdent.passWhile (· = ascii '^')).1 :=
    (moved_skipIdent l).trans (moved_passWhile _ _)
  have hlt : l.pos < (l.skipIdent.passWhile (· = ascii '^')).1.pos := by
    have hname := (moved_skipIdent (advanceN l.currentCp.2 l)).pos_le
    have hhats := (moved_passWhile (· = ascii '^') l.skipIdent).pos_le
    rw [← hskip, (pos_advanceN _ hle).1] at hname
    omega
  unfold scanIdentifier
  dsimp only
  split
  · exact scanned_finish hmoved hlt rfl trivial
  · exact scanned_finish hmoved hlt rfl trivial

theorem scanned_nameLiteral (hne : l.rest ≠ []) : Scanned l (l.scanNameLiteral l.mark) := by
  have hmoved := moved_nameBody l.advance
  unfold scanNameLiteral
  dsimp only
  split
  · exact scanned_of_advance hne (hmoved.trans (moved_reportMark ..)) rfl trivial
  · exact scanned_of_advance hne (hmoved.trans (moved_reportMark ..)) rfl trivial
  · exact scanned_of_advance hne hmoved rfl trivial

theorem scanned_number (h : isDecimalDigit l.currentByte = true) :
    Scanned l (l.scanNumber l.mark) := by
  obtain ⟨c, rest, hrest⟩ := List.exists_cons_of_ne_nil
    (rest_ne_nil (ne_zero_of_isDecimalDigit h))
  have hc : isDecimalDigit c = true := by
    unfold currentByte at h
    rwa [hrest] at h
  obtain ⟨hlow, hhigh⟩ := numberLiteral_length rest hc l.afterDot
  rw [← hrest] at hlow hhigh
  have hmoved := moved_advanceN (numberLiteral l.rest l.afterDot).length l
  have hpos := (pos_advanceN _ hhigh).1
  have hlt : ∀ {l' : Lexer}, Moved (advanceN (numberLiteral l.rest l.afterDot).length l) l' →
      l.pos < l'.pos := fun h => by
    have := h.pos_le
    omega
  unfold scanNumber
  dsimp only
  split
  · have hreport := moved_reportMark (advanceN (numberLiteral l.rest l.afterDot).length l)
      .malformedExponent l.mark
    exact scanned_finish (hmoved.trans hreport) (hlt hreport) rfl trivial
  · split
    · have hskip := (moved_report (advanceN (numberLiteral l.rest l.afterDot).length l)
        .identAfterNumber).trans (moved_skipIdent _)
      exact scanned_finish (hmoved.trans hskip) (hlt hskip) rfl trivial
    · have hreport := moved_reportMark (advanceN (numberLiteral l.rest l.afterDot).length l)
        .malformedNumber l.mark
      have hoverflow := moved_reportMark (advanceN (numberLiteral l.rest l.afterDot).length l)
        .integerOverflow l.mark
      split
      · exact scanned_finish (hmoved.trans hreport) (hlt hreport) rfl trivial
      · exact scanned_finish (hmoved.trans hreport) (hlt hreport) rfl trivial
      · exact scanned_finish (hmoved.trans hoverflow) (hlt hoverflow) rfl trivial
      · split
        · exact scanned_finish hmoved (hlt (.refl _)) rfl trivial
        · exact scanned_finish hmoved (hlt (.refl _)) rfl trivial
      · split
        · exact scanned_finish hmoved (hlt (.refl _)) rfl trivial
        · exact scanned_finish hmoved (hlt (.refl _)) rfl trivial

section

variable (hne : l.rest ≠ [])
include hne

theorem scanned_string (kind : StringKind) {passed : Lexer × Option Text}
    (h : Moved l.advance passed.1) : Scanned l (finishString kind l.mark passed) := by
  unfold finishString
  split
  · exact scanned_of_advance hne h rfl trivial
  · exact scanned_of_advance hne (h.trans (moved_reportMark ..)) rfl trivial

theorem scanned_lineString : Scanned l (l.scanLineString l.mark) := by
  have hmoved : Moved l.advance ((advanceN 3 l).passWhile (· ≠ 10)).1 :=
    (moved_advanceN 2 l.advance).trans (moved_passWhile _ _)
  exact scanned_of_advance hne hmoved rfl trivial

theorem scanned_stray (code : ErrorCode) :
    Scanned l (l.scanStray l.mark code) := by
  have hne' : (l.report code).rest ≠ [] := hne
  have hpos : (l.report code).advance.pos = l.pos + 1 := pos_advance hne'
  exact scanned_finish ((moved_report l code).trans (moved_advance _))
    (by rw [hpos]; exact Nat.lt_succ_self _) rfl trivial

theorem scanned_operator : Scanned l (l.scanOperator l.mark) := by
  unfold scanOperator
  split
  · rename_i entry hentry
    obtain ⟨hlength, hprefix⟩ := matchOperator_some hentry
    have hpos := (pos_advanceN entry.1.length hprefix.length_le).1
    have hmem : entry ∈ operatorTable := List.mem_of_find?_eq_some hentry
    refine scanned_of_moved (moved_advanceN _ l) (by rw [hpos]; omega) rfl trivial nofun ?_
    rintro op ⟨⟩
    exact ⟨entry.1, hmem, hprefix⟩
  · obtain ⟨hwidth, hle⟩ := currentCp_width hne
    have hle' : l.currentCp.2 ≤ (l.report .unexpectedCharacter).rest.length := hle
    have hpos : (advanceN l.currentCp.2 (l.report .unexpectedCharacter)).pos =
        l.pos + l.currentCp.2 := (pos_advanceN _ hle').1
    exact scanned_finish ((moved_report l _).trans (moved_advanceN _ _))
      (by rw [hpos]; omega) rfl trivial

theorem scanned_dollar : Scanned l (l.scanDollar l.mark) := by
  unfold scanDollar
  split
  · have hmoved := moved_advanceN 2 l
    have hpos : l.pos < (advanceN 2 l).pos := by
      have := (moved_advanceN 1 l.advance).pos_le
      have := pos_advance hne
      exact Nat.lt_of_lt_of_le (by omega) (moved_advanceN 1 l.advance).pos_le
    unfold pushFrame
    split
    · exact scanned_finish (hmoved.trans (moved_report _ _)) hpos rfl trivial
    · rename_i hdepth
      rw [hmoved.interp, Nat.not_le] at hdepth
      refine ⟨hmoved.read_pos hpos, hmoved.comments, hmoved.diagnostics, fun hlt => ?_, nofun,
        .inr ⟨rfl, congrArg _ hmoved.interp, hdepth⟩⟩
      exact span_finish nofun hmoved.pos_le hlt
  · split
    · exact scanned_stray hne .interpolationNeedsQuotes
    · have hmoved := moved_scanScope l.advance
      dsimp only
      split
      · exact scanned_of_advance hne (hmoved.trans (moved_reportMark ..)) rfl trivial
      · exact scanned_of_advance hne hmoved rfl trivial

theorem scanned_token : Scanned l l.scanToken := by
  unfold scanToken
  dsimp only
  split
  · exact scanned_stray hne .invalidUtf8
  · split
    · split
      · exact scanned_lineString hne
      · exact scanned_string hne .escaped (moved_escapedBody _)
    · split
      · exact scanned_string hne .raw (moved_rawBody _)
      · split
        · exact scanned_nameLiteral hne
        · split
          · exact scanned_annot hne
          · split
            · exact scanned_dollar hne
            · split
              · rename_i hdigit
                exact scanned_number hdigit
              · split
                · rename_i hident
                  exact scanned_identifier hne hident
                · split
                  · exact scanned_stray hne .bareHat
                  · exact scanned_operator hne

end

end Lexer

end Lhat.Lexing
