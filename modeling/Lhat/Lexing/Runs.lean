import Lhat.Lexing.Passes
import Mathlib

/-!
# The whole text is read once

What the tokens and the comments do not span is blanks and newlines, and the frames of the lexer
are those that the tokens opened.
-/

namespace Lhat.Lexing

variable {frame : Frame} {kind : TokenKind}

/-! ### Brackets -/

/-- What is open: strings, and holes with so many braces open in them. -/
abbrev Opened := List (Option Nat)

/-- A string is opened at the bottom or in a hole, and a hole in a string. A hole is closed when
its braces are. -/
def bracketStep : Opened → TokenKind → Option Opened
  | none :: _, .interpBegin => none
  | opened, .interpBegin => some (none :: opened)
  | none :: opened, .interpEnd => some opened
  | _, .interpEnd => none
  | none :: opened, .interpExprBegin => some (some 0 :: none :: opened)
  | _, .interpExprBegin => none
  | some 0 :: opened, .interpExprEnd => some opened
  | _, .interpExprEnd => none
  | some braces :: opened, .op .lbrace => some (some (braces + 1) :: opened)
  | some (braces + 1) :: opened, .op .rbrace => some (some braces :: opened)
  | some 0 :: _, .op .rbrace => none
  | opened, _ => some opened

/-- All that the tokens open they close. -/
def Bracketed (kinds : List TokenKind) : Prop := kinds.foldlM bracketStep [] = some []

instance : DecidablePred Bracketed := fun kinds =>
  inferInstanceAs (Decidable (kinds.foldlM bracketStep [] = some []))

/-- What a frame is to the tokens. -/
def Frame.opened (frame : Frame) : Option Nat :=
  if frame.inHole then some frame.braceDepth.toNat else none

namespace Lexer

variable {text : Text} {l l' : Lexer}

/-- What may stand between tokens. -/
def isTrivia (c : UInt8) : Bool := isBlank c || c == 10

def Free (text : Text) (k : Nat) : Prop := isTrivia (Lexing.byteAt text k) = true

/-- The lexer stands somewhere in the text. -/
structure Stands (text : Text) (l : Lexer) : Prop where
  rest : l.rest = text.drop l.pos
  pos : l.pos ≤ text.length

theorem Stands.of_read (h : Stands text l) {n : Nat} (hn : n ≤ l.rest.length)
    (hrest : l'.rest = l.rest.drop n) (hpos : l'.pos = l.pos + n) : Stands text l' := by
  rw [h.rest, List.length_drop] at hn
  have := h.pos
  refine ⟨?_, by omega⟩
  rw [hrest, h.rest, List.drop_drop, hpos]

theorem Stands.moved (h : Stands text l) (hmoved : Moved l l') : Stands text l' := by
  obtain ⟨n, hn, hrest, hpos⟩ := hmoved.read
  exact h.of_read hn hrest hpos

theorem Stands.byteAt (h : Stands text l) : Lexing.byteAt text l.pos = l.currentByte := by
  unfold Lexing.byteAt currentByte
  rw [h.rest, List.getD_eq_getElem?_getD, List.headD_eq_head?_getD, List.head?_drop]

/-! ### Trivia -/

/-- Trivia was skipped, and its comments are what stands in it. -/
structure Skipped (text : Text) (l l' : Lexer) : Prop where
  stands : Stands text l'
  interp : l'.interp = l.interp
  diagnostics : l.diagnostics <+: l'.diagnostics
  comments : ∃ found, l'.comments = l.comments ++ found ∧
    Tiled (Free text) l.pos (found.map Comment.span) l'.pos

theorem Skipped.refl (h : Stands text l) : Skipped text l l :=
  ⟨h, rfl, List.prefix_rfl, [], by simp, .nil _ _⟩

theorem Skipped.trans {l'' : Lexer} (h : Skipped text l l') (h' : Skipped text l' l'') :
    Skipped text l l'' := by
  obtain ⟨found, hfound, htiled⟩ := h.comments
  obtain ⟨more, hmore, htiled'⟩ := h'.comments
  refine ⟨h'.stands, h'.interp.trans h.interp, h.diagnostics.trans h'.diagnostics, found ++ more,
    ?_, ?_⟩
  · rw [hmore, hfound, List.append_assoc]
  · rw [List.map_append]
    exact htiled.append htiled'

theorem Skipped.le (h : Skipped text l l') : l.pos ≤ l'.pos := by
  obtain ⟨_, _, htiled⟩ := h.comments
  exact htiled.le

theorem skipped_advance (h : Stands text l) (hc : isTrivia l.currentByte = true)
    (pending : Bool) : Skipped text l { l with pendingStmtStart := pending }.advance := by
  have hne : l.rest ≠ [] := rest_ne_nil fun hzero => by
    rw [hzero] at hc
    cases hc
  have hmoved : Moved l { l with pendingStmtStart := pending }.advance :=
    (moved_pending l pending).trans (moved_advance _)
  have hne' : { l with pendingStmtStart := pending }.rest ≠ [] := hne
  have hpos : { l with pendingStmtStart := pending }.advance.pos = l.pos + 1 := pos_advance hne'
  refine ⟨h.moved hmoved, hmoved.interp, hmoved.diagnostics, [], by simp [hmoved.comments], ?_⟩
  refine .free_cons ?_ (hpos ▸ .nil _ _)
  unfold Free
  rw [h.byteAt]
  exact hc

theorem toNat_toUInt32 {n : Nat} (h : n < 2 ^ 32) : n.toUInt32.toNat = n := by
  rw [Nat.toUInt32, UInt32.toNat_ofNat']
  exact Nat.mod_eq_of_lt h

theorem skipped_comment (htext : text.length < 2 ^ 32) (h : Stands text l) (hmoved : Moved l l')
    (block : Bool) : Skipped text l (l'.recordComment l.mark block) := by
  have hstands := h.moved hmoved
  have hle := hmoved.pos_le
  have hpos := hstands.pos
  refine ⟨⟨hstands.rest, hstands.pos⟩, hmoved.interp, hmoved.diagnostics, _,
    congrArg (· ++ _) hmoved.comments, ?_⟩
  have hspan : Comment.span ⟨l.mark.offset.toUInt32, l'.pos.toUInt32, l.mark.line, l.mark.column,
      block⟩ = ⟨l.pos, l'.pos⟩ := by
    unfold Comment.span mark
    dsimp only
    rw [toNat_toUInt32 (by omega), toNat_toUInt32 (by omega)]
  have htiled : Tiled (Free text) l.pos [⟨l.pos, l'.pos⟩] l'.pos :=
    .single (s := ⟨l.pos, l'.pos⟩) hle
  rw [List.map_singleton, hspan]
  exact htiled

theorem skipped_blockComment (htext : text.length < 2 ^ 32) (h : Stands text l) :
    Skipped text l l.skipBlockComment := by
  have hmoved := (moved_advanceN 2 l).trans (moved_blockComment _ 1)
  have hskipped := skipped_comment htext h hmoved true
  unfold skipBlockComment
  dsimp only
  split
  · exact hskipped
  · exact ⟨⟨hskipped.stands.rest, hskipped.stands.pos⟩, hskipped.interp,
      hskipped.diagnostics.trans (List.prefix_append _ _), hskipped.comments⟩

theorem skipped_trivia (htext : text.length < 2 ^ 32) (l : Lexer) :
    Stands text l → Skipped text l l.skipTrivia := by
  fun_induction skipTrivia l with
  | case1 l hblank ih =>
    intro h
    have htrivia : isTrivia l.currentByte = true := by
      unfold isTrivia
      rw [hblank, Bool.true_or]
    have hskipped : Skipped text l l.advance := skipped_advance h htrivia l.pendingStmtStart
    exact hskipped.trans (ih hskipped.stands)
  | case2 l hblank hline ih =>
    intro h
    have htrivia : isTrivia l.currentByte = true := by
      rw [hline]
      rfl
    have hskipped := skipped_advance h htrivia true
    exact hskipped.trans (ih hskipped.stands)
  | case3 l hblank hline hcomment hblock ih =>
    intro h
    have hskipped := skipped_blockComment htext h
    exact hskipped.trans (ih hskipped.stands)
  | case4 l hblank hline hcomment hblock ih =>
    intro h
    have hskipped := skipped_comment htext h (moved_passWhile (· ≠ 10) l) false
    exact hskipped.trans (ih hskipped.stands)
  | case5 l hblank hline hcomment =>
    intro h
    exact .refl h

/-! ### Frames and brackets -/

/-- A string stands at the bottom or in a hole, and a hole in a string. -/
def Alternates : List Frame → Prop
  | [] => True
  | [frame] => frame.inHole = false
  | frame :: outer :: frames => frame.inHole = !outer.inHole ∧ Alternates (outer :: frames)

theorem Alternates.tail {frames : List Frame} (h : Alternates (frame :: frames)) :
    Alternates frames := by
  cases frames with
  | nil => trivial
  | cons outer frames => exact h.2

/-- The frames of a lexer are in order, and no count of braces has wrapped. -/
structure Framed (l : Lexer) : Prop where
  depth : l.interp.length ≤ interpMaxDepth
  alternates : Alternates l.interp
  braces : ∀ frame ∈ l.interp, frame.braceDepth.toNat ≤ l.pos

theorem Framed.of_interp (h : Framed l) (hinterp : l'.interp = l.interp) (hle : l.pos ≤ l'.pos) :
    Framed l' where
  depth := by
    rw [hinterp]
    exact h.depth
  alternates := by
    rw [hinterp]
    exact h.alternates
  braces frame hframe := by
    rw [hinterp] at hframe
    exact Nat.le_trans (h.braces frame hframe) hle

theorem Framed.pop (h : Framed l) (hinterp : l'.interp = l.interp.tail) (hle : l.pos ≤ l'.pos) :
    Framed l' := by
  cases hframes : l.interp with
  | nil => exact h.of_interp (by rw [hinterp, hframes, List.tail_nil]) hle
  | cons frame frames =>
    rw [hframes, List.tail_cons] at hinterp
    have hdepth := h.depth
    have halternates := h.alternates
    rw [hframes] at hdepth halternates
    refine ⟨?_, ?_, fun other hother => ?_⟩
    · rw [hinterp]
      exact Nat.le_of_succ_le hdepth
    · rw [hinterp]
      exact halternates.tail
    · rw [hinterp] at hother
      exact Nat.le_trans (h.braces other (hframes ▸ List.mem_cons_of_mem frame hother)) hle

/-! ### One call -/

/-- What one call does. -/
structure Called (text : Text) (l : Lexer) (r : Lexer × Token) : Prop where
  stands : Stands text r.1
  framed : Framed r.1
  diagnostics : l.diagnostics <+: r.1.diagnostics
  comments : ∃ found, r.1.comments = l.comments ++ found ∧
    Tiled (Free text) l.pos (found.map Comment.span ++ [r.2.span]) r.1.pos
  brackets : r.1.diagnostics = [] →
    bracketStep (l.interp.map Frame.opened) r.2.kind = some (r.1.interp.map Frame.opened)
  ends : r.2.kind = .eof → r.1.rest = [] ∧ r.1.interp = l.interp
  smaller : r.2.kind ≠ .eof →
    2 * r.1.rest.length + r.1.interp.length < 2 * l.rest.length + l.interp.length

theorem Called.settled {r : Lexer × Token} (h : Called text l r) (pending afterDot : Bool) :
    Called text l (r.1.settled pending afterDot, r.2) where
  stands := ⟨h.stands.rest, h.stands.pos⟩
  framed := ⟨h.framed.depth, h.framed.alternates, h.framed.braces⟩
  diagnostics := h.diagnostics
  comments := h.comments
  brackets := h.brackets
  ends := h.ends
  smaller := h.smaller

theorem Called.skipped {r : Lexer × Token} (hstands : Stands text l) (h : Skipped text l l')
    (hr : Called text l' r) : Called text l r where
  stands := hr.stands
  framed := hr.framed
  diagnostics := h.diagnostics.trans hr.diagnostics
  comments := by
    obtain ⟨found, hfound, htiled⟩ := h.comments
    obtain ⟨more, hmore, htiled'⟩ := hr.comments
    refine ⟨found ++ more, by rw [hmore, hfound, List.append_assoc], ?_⟩
    rw [List.map_append, List.append_assoc]
    exact htiled.append htiled'
  brackets := by
    rw [← h.interp]
    exact hr.brackets
  ends := by
    rw [← h.interp]
    exact hr.ends
  smaller hkind := by
    have hlt := hr.smaller hkind
    have hle := h.le
    rw [h.stands.rest, List.length_drop, h.interp] at hlt
    rw [hstands.rest, List.length_drop]
    omega

theorem Called.of_read {token : Token} {interp : List Frame} (h : Stands text l)
    (hread : ∃ n ≤ l.rest.length, l'.rest = l.rest.drop n ∧ l'.pos = l.pos + n)
    (hcomments : l'.comments = l.comments) (hdiagnostics : l.diagnostics <+: l'.diagnostics)
    (hspan : token.span = ⟨l.pos, l'.pos⟩) (hframed : Framed { l' with interp := interp })
    (hbrackets : l'.diagnostics = [] →
      bracketStep (l.interp.map Frame.opened) token.kind = some (interp.map Frame.opened))
    (hkind : token.kind ≠ .eof)
    (hsmaller : 2 * l'.rest.length + interp.length < 2 * l.rest.length + l.interp.length) :
    Called text l ({ l' with interp := interp }, token) := by
  obtain ⟨n, hn, hrest, hpos⟩ := hread
  have hstands := h.of_read hn hrest hpos
  refine ⟨⟨hstands.rest, hstands.pos⟩, hframed, hdiagnostics, ⟨[], ?_, ?_⟩, hbrackets,
    fun heof => absurd heof hkind, fun _ => hsmaller⟩
  · rw [List.append_nil]
    exact hcomments
  · have htiled : Tiled (Free text) l.pos [⟨l.pos, l'.pos⟩] l'.pos :=
      .single (s := ⟨l.pos, l'.pos⟩) (by dsimp only; omega)
    rw [List.map_nil, List.nil_append, hspan]
    exact htiled

theorem span_of_moved (htext : text.length < 2 ^ 32) (h : Stands text l) (hmoved : Moved l l')
    {l'' : Lexer} (hsame : l''.pos = l'.pos) (hkind : kind ≠ .annot) :
    (l''.finish l.mark kind).span = ⟨l.pos, l'.pos⟩ := by
  have hpos := (h.moved hmoved).pos
  have hle : l.mark.offset ≤ l''.pos := by
    rw [hsame]
    exact hmoved.pos_le
  rw [span_finish hkind hle (by omega), hsame]
  rfl

theorem called_segment (htext : text.length < 2 ^ 32) (h : Stands text l) (hl : Framed l)
    (hin : l.insideInterpolatedText = true) : Called text l l.scanInterpolationSegment := by
  obtain ⟨frame, frames, hframes, hframe⟩ :
      ∃ frame frames, l.interp = frame :: frames ∧ frame.inHole = false := by
    unfold insideInterpolatedText at hin
    split at hin
    · rename_i frame frames hframes
      exact ⟨frame, frames, hframes, by simpa using hin⟩
    · cases hin
  have hopened : l.interp.map Frame.opened = none :: frames.map Frame.opened := by
    rw [hframes, List.map_cons]
    congr 1
    unfold Frame.opened
    rw [hframe]
    rfl
  unfold scanInterpolationSegment
  dsimp only
  split
  · rename_i hopen
    have hne : l.rest ≠ [] := rest_ne_nil (by rw [hopen.1]; decide)
    have hlt := length_advance hne
    have hmoved := moved_advance l
    unfold pushFrame
    split
    · have hreport := hmoved.trans (moved_report l.advance .interpolationTooDeep)
      refine Called.of_read h hreport.read hreport.comments hreport.diagnostics
          (span_of_moved htext h hreport rfl nofun)
        (hl.of_interp hreport.interp hreport.pos_le) (fun hnil => ?_) nofun ?_
      · exact absurd hnil (List.append_ne_nil_of_right_ne_nil _ (List.cons_ne_nil _ _))
      · have hsame : (l.advance.report .interpolationTooDeep).rest = l.advance.rest := rfl
        rw [hmoved.interp, hsame]
        omega
    · rename_i hdepth
      rw [hmoved.interp] at hdepth ⊢
      refine Called.of_read h hmoved.read hmoved.comments hmoved.diagnostics
          (span_of_moved htext h hmoved rfl nofun) ⟨?_, ?_, ?_⟩
        (fun _ => ?_) nofun ?_
      · exact Nat.lt_of_not_le hdepth
      · show Alternates ({ inHole := true } :: l.interp)
        have halternates := hl.alternates
        rw [hframes] at halternates ⊢
        exact ⟨by rw [hframe]; rfl, halternates⟩
      · intro other hother
        obtain rfl | hother := List.mem_cons.mp hother
        · exact Nat.zero_le _
        · exact Nat.le_trans (hl.braces other hother) hmoved.pos_le
      · rw [List.map_cons, hopened]
        rfl
      · rw [List.length_cons]
        omega
  · split
    · rename_i hquote
      have hne : l.rest ≠ [] := rest_ne_nil (by rw [hquote]; decide)
      have hlt := length_advance hne
      have hmoved := moved_advance l
      refine Called.of_read h hmoved.read hmoved.comments hmoved.diagnostics
          (span_of_moved htext h hmoved rfl nofun)
        (hl.pop rfl hmoved.pos_le) (fun _ => ?_) nofun ?_
      · rw [hopened, hframes]
        rfl
      · rw [List.length_tail]
        omega
    · rename_i hopen hquote
      have hmoved := moved_segmentBody l
      split
      · have hreport := hmoved.trans (moved_reportMark l.segmentBody.1 .unterminatedString l.mark)
        refine Called.of_read h hreport.read hreport.comments hreport.diagnostics
          (span_of_moved htext h hreport rfl nofun)
          (hl.pop rfl hreport.pos_le) (fun hnil => ?_) nofun ?_
        · exact absurd hnil (List.append_ne_nil_of_right_ne_nil _ (List.cons_ne_nil _ _))
        · have := hreport.length_le
          rw [hframes, List.tail_cons, List.length_cons]
          omega
      · rename_i hmore
        have hne : l.rest ≠ [] := by
          intro hrest
          obtain ⟨n, -, hdrop, -⟩ := hmoved.read
          rw [hrest, List.drop_nil] at hdrop
          exact hmore hdrop
        have hlt := hmoved.lt_of_pos (pos_segmentBody hne hopen hquote)
        refine Called.of_read h hmoved.read hmoved.comments hmoved.diagnostics
          (span_of_moved htext h hmoved rfl nofun)
          (hl.of_interp hmoved.interp hmoved.pos_le) (fun _ => ?_) nofun ?_
        · rw [hmoved.interp, hopened]
          rfl
        · have hsmaller : 2 * l.segmentBody.1.rest.length + l.interp.length <
              2 * l.rest.length + l.interp.length := by omega
          rw [hmoved.interp]
          exact hsmaller

theorem isPrefix_head {c : UInt8} {rest : Text} (h : [c] <+: rest) : rest.headD 0 = c := by
  obtain ⟨more, rfl⟩ := h
  rfl

theorem currentByte_of_rbrace (hne : l.rest ≠ []) (h : l.scanToken.2.kind = .op .rbrace) :
    l.currentByte = 125 := by
  obtain ⟨spelling, hmem, hprefix⟩ := (scanned_token hne).op _ h
  have hall : ∀ entry ∈ operatorTable, entry.2 = .rbrace → entry.1 = [125] := by decide +kernel
  have hspelling : spelling = [125] := hall _ hmem rfl
  rw [hspelling] at hprefix
  exact isPrefix_head hprefix

theorem bracketStep_plain (h : kind.Plain) (hopen : kind ≠ .op .lbrace)
    (hclose : kind ≠ .op .rbrace) (opened : Opened) : bracketStep opened kind = some opened := by
  cases kind with
  | op op =>
    have hl : op ≠ .lbrace := fun heq => hopen (heq ▸ rfl)
    have hr : op ≠ .rbrace := fun heq => hclose (heq ▸ rfl)
    unfold bracketStep
    split <;> first | rfl | contradiction
  | _ => first | exact h.elim | (unfold bracketStep; split <;> first | rfl | contradiction)

theorem Framed.replace {frame' : Frame} {frames : List Frame} (h : Framed l)
    (hframes : l.interp = frame :: frames) (hhole : frame'.inHole = frame.inHole)
    (hle : l.pos ≤ l'.pos) (hbraces : frame'.braceDepth.toNat ≤ l'.pos) :
    Framed { l' with interp := frame' :: frames } := by
  have hdepth := h.depth
  have halternates := h.alternates
  rw [hframes] at hdepth halternates
  refine ⟨hdepth, ?_, fun other hother => ?_⟩
  · show Alternates (frame' :: frames)
    cases frames with
    | nil => exact hhole.trans halternates
    | cons outer frames => exact ⟨hhole.trans halternates.1, halternates.2⟩
  · obtain rfl | hother := List.mem_cons.mp hother
    · exact hbraces
    · exact Nat.le_trans (h.braces other (hframes ▸ List.mem_cons_of_mem frame hother)) hle

theorem opened_hole (frame : Frame) (h : frame.inHole = true) :
    frame.opened = some frame.braceDepth.toNat := by
  unfold Frame.opened
  rw [h]
  rfl

theorem track_inHole (frame : Frame) (kind : TokenKind) :
    (Frame.track frame kind).inHole = frame.inHole := by
  unfold Frame.track
  split
  · split
    · rfl
    · split <;> rfl
  · rfl

theorem track_plain (hopen : kind ≠ .op .lbrace)
    (hclose : kind ≠ .op .rbrace) : Frame.track frame kind = frame := by
  unfold Frame.track
  split
  · exact if_neg fun h => hclose h.1
  · rfl

theorem opened_track_lbrace (h : frame.inHole = true) (hbound : frame.braceDepth.toNat + 1 < 2 ^ 32)
    : (Frame.track frame (.op .lbrace)).opened = some (frame.braceDepth.toNat + 1) := by
  unfold Frame.track
  rw [if_pos h, if_pos rfl]
  refine (opened_hole { frame with braceDepth := frame.braceDepth + 1 } h).trans (congrArg some ?_)
  rw [UInt32.toNat_add]
  exact Nat.mod_eq_of_lt hbound

theorem opened_track_rbrace (h : frame.inHole = true)
    (hpositive : 0 < frame.braceDepth) : ∃ braces, frame.braceDepth.toNat = braces + 1 ∧
      (Frame.track frame (.op .rbrace)).opened = some braces := by
  have hlt : 0 < frame.braceDepth.toNat := UInt32.lt_iff_toNat_lt.mp hpositive
  refine ⟨frame.braceDepth.toNat - 1, by omega, ?_⟩
  unfold Frame.track
  rw [if_pos h, if_neg nofun, if_pos ⟨rfl, hpositive⟩]
  refine (opened_hole { frame with braceDepth := frame.braceDepth - 1 } h).trans (congrArg some ?_)
  exact UInt32.toNat_sub_of_le _ _ (UInt32.le_iff_toNat_le.mpr hlt)

theorem track_braces (frame : Frame) (kind : TokenKind) :
    (Frame.track frame kind).braceDepth.toNat ≤ frame.braceDepth.toNat + 1 := by
  unfold Frame.track
  split
  · split
    · rw [UInt32.toNat_add]
      exact Nat.mod_le _ _
    · split
      · rename_i h
        have hlt : 0 < frame.braceDepth.toNat := UInt32.lt_iff_toNat_lt.mp h.2
        have hsub : (frame.braceDepth - 1).toNat = frame.braceDepth.toNat - 1 :=
          UInt32.toNat_sub_of_le _ _ (UInt32.le_iff_toNat_le.mpr hlt)
        dsimp only
        omega
      · exact Nat.le_succ _
  · exact Nat.le_succ _

theorem called_token (htext : text.length < 2 ^ 32) (h : Stands text l) (hl : Framed l)
    (hin : l.insideInterpolatedText = false) (hne : l.rest ≠ [])
    (hclose : ¬(l.atHoleLevel = true ∧ l.currentByte = 125)) :
    Called text l (l.scanToken.1.trackBraces l.scanToken.2.kind, l.scanToken.2) := by
  have hscanned := scanned_token hne
  have hrbrace := currentByte_of_rbrace hne
  generalize l.scanToken = r at hscanned hrbrace ⊢
  obtain ⟨n, hn, hle, hrest, hpos⟩ := hscanned.read
  have hbound := (h.of_read hle hrest hpos).pos
  have hshort : r.1.rest.length < l.rest.length := by
    rw [hrest, List.length_drop]
    omega
  have hread : ∃ n ≤ l.rest.length, r.1.rest = l.rest.drop n ∧ r.1.pos = l.pos + n :=
    ⟨n, hle, hrest, hpos⟩
  -- However the frames change, the rest is the same.
  have hcalled : ∀ interp, (r.1.trackBraces r.2.kind).interp = interp →
      Framed { r.1 with interp := interp } →
      bracketStep (l.interp.map Frame.opened) r.2.kind = some (interp.map Frame.opened) →
      interp.length ≤ l.interp.length + 1 → Called text l (r.1.trackBraces r.2.kind, r.2) := by
    rintro interp rfl hframed hbrackets hlength
    refine Called.of_read h hread hscanned.comments hscanned.diagnostics
      (hscanned.span (by omega)) hframed (fun _ => hbrackets) ?_ ?_
    · obtain ⟨hkind, -⟩ | ⟨hkind, -⟩ := hscanned.interp
      · intro heof
        rw [heof] at hkind
        exact hkind
      · rw [hkind]
        nofun
    · show 2 * r.1.rest.length + (r.1.trackBraces r.2.kind).interp.length < _
      omega
  have hframed : Framed { r.1 with interp := l.interp } := hl.of_interp rfl (by dsimp only; omega)
  obtain ⟨hkind, hinterp⟩ | ⟨hkind, hinterp, hdepth⟩ := hscanned.interp
  · cases hframes : l.interp with
    | nil =>
      rw [hframes] at hinterp hframed
      refine hcalled [] ?_ hframed ?_ (Nat.zero_le _)
      · unfold trackBraces
        rw [hinterp]
      · rw [hframes, List.map_nil]
        by_cases hopen : r.2.kind = .op .lbrace
        · rw [hopen]
          rfl
        · by_cases hrb : r.2.kind = .op .rbrace
          · rw [hrb]
            rfl
          · exact bracketStep_plain hkind hopen hrb _
    | cons frame frames =>
      have hhole : frame.inHole = true := by
        unfold insideInterpolatedText at hin
        rw [hframes] at hin
        simpa using hin
      have hbraces := hl.braces frame (by rw [hframes]; exact List.mem_cons_self ..)
      have hopened : l.interp.map Frame.opened =
          some frame.braceDepth.toNat :: frames.map Frame.opened := by
        rw [hframes, List.map_cons, opened_hole frame hhole]
      refine hcalled (Frame.track frame r.2.kind :: frames) ?_ ?_ ?_ ?_
      · unfold trackBraces
        rw [hinterp, hframes]
      · refine hl.replace hframes (track_inHole frame _) (by omega) ?_
        have := track_braces frame r.2.kind
        omega
      · rw [hopened, List.map_cons]
        by_cases hopen : r.2.kind = .op .lbrace
        · rw [hopen, opened_track_lbrace hhole (by omega)]
          rfl
        · by_cases hrb : r.2.kind = .op .rbrace
          · -- A brace that closes none would have closed the hole.
            have hpositive : 0 < frame.braceDepth := by
              rw [UInt32.lt_iff_toNat_lt]
              refine Nat.pos_of_ne_zero fun hzero => hclose ⟨?_, hrbrace hrb⟩
              have hdepth : frame.braceDepth = 0 := UInt32.toNat_inj.mp hzero
              unfold atHoleLevel
              rw [hframes]
              dsimp only
              rw [hhole, hdepth]
              rfl
            obtain ⟨braces, hbefore, hafter⟩ := opened_track_rbrace hhole hpositive
            rw [hrb, hafter, hbefore]
            rfl
          · rw [bracketStep_plain hkind hopen hrb, track_plain hopen hrb, opened_hole frame hhole]
      · rw [hframes]
        exact Nat.le_succ _
  · have hnone : ∀ opened, l.interp.map Frame.opened ≠ none :: opened := by
      intro opened heq
      cases hframes : l.interp with
      | nil =>
        rw [hframes] at heq
        cases heq
      | cons frame frames =>
        unfold insideInterpolatedText at hin
        rw [hframes] at hin heq
        rw [List.map_cons, opened_hole frame (by simpa using hin)] at heq
        cases heq
    refine hcalled ({ inHole := false } :: l.interp) ?_ ⟨hdepth, ?_, ?_⟩ ?_ ?_
    · unfold trackBraces
      rw [hinterp]
      rfl
    · show Alternates ({ inHole := false } :: l.interp)
      have halternates := hl.alternates
      cases hframes : l.interp with
      | nil => rfl
      | cons frame frames =>
        unfold insideInterpolatedText at hin
        rw [hframes] at hin halternates
        exact ⟨hin.symm, halternates⟩
    · intro other hother
      obtain rfl | hother := List.mem_cons.mp hother
      · exact Nat.zero_le _
      · exact hframed.braces other hother
    · rw [hkind, List.map_cons]
      generalize l.interp.map Frame.opened = opened at hnone ⊢
      unfold bracketStep
      split <;> first | rfl | contradiction | exact absurd rfl (hnone _)
    · exact Nat.le_refl _

theorem skipped_framed (h : Skipped text l l') (hl : Framed l) : Framed l' :=
  hl.of_interp h.interp h.le

section

variable (htext : text.length < 2 ^ 32)
include htext

theorem Called.exprEnd (h : Stands text l) (hl : Framed l)
    (hlevel : l.atHoleLevel = true) (hclose : l.currentByte = 125) :
    Called text l ({ l.advance with interp := l.interp.tail }.settled false false,
      ({ l.advance with interp := l.interp.tail }.settled false false).finish l.mark
        .interpExprEnd) := by
  have hne : l.rest ≠ [] := rest_ne_nil (by rw [hclose]; decide)
  have hlt := length_advance hne
  have hmoved := moved_advance l
  have hspan : (({ l.advance with interp := l.interp.tail }.settled false false).finish l.mark
      .interpExprEnd).span = ⟨l.pos, l.advance.pos⟩ := span_of_moved htext h hmoved rfl nofun
  refine (Called.of_read h hmoved.read hmoved.comments hmoved.diagnostics hspan
    (hl.pop rfl hmoved.pos_le) (fun _ => ?_) nofun ?_).settled false false
  · unfold atHoleLevel at hlevel
    split at hlevel
    · rename_i frame frames hframes
      rw [Bool.and_eq_true, beq_iff_eq] at hlevel
      rw [hframes, List.map_cons, opened_hole frame hlevel.1, hlevel.2]
      rfl
    · cases hlevel
  · have hpop : l.interp.tail.length = l.interp.length - 1 := List.length_tail
    show 2 * l.advance.rest.length + l.interp.tail.length < _
    omega

theorem Called.format (h : Stands text l) (hl : Framed l)
    (hcolon : l.currentByte = ascii ':') : Called text l l.scanInterpolationFormat := by
  have hne : l.rest ≠ [] := rest_ne_nil (by rw [hcolon]; decide)
  have hpassed := moved_passWhile (· ≠ 125) l.advance
  have hmoved := (moved_advance l).trans hpassed
  have hlt := Nat.lt_of_le_of_lt hpassed.length_le (length_advance hne)
  have hspan : ((l.advance.passWhile (· ≠ 125)).1.finish l.mark
      (.interpFormat (l.advance.passWhile (· ≠ 125)).2)).span =
      ⟨l.pos, (l.advance.passWhile (· ≠ 125)).1.pos⟩ := span_of_moved htext h hmoved rfl nofun
  refine Called.of_read h hmoved.read hmoved.comments hmoved.diagnostics hspan
    (hl.of_interp hmoved.interp hmoved.pos_le) (fun _ => ?_) nofun ?_
  · rw [hmoved.interp]
    show bracketStep _ (.interpFormat _) = _
    unfold bracketStep
    split <;> first | rfl | contradiction
  · have hsmaller : 2 * (l.advance.passWhile (· ≠ 125)).1.rest.length + l.interp.length <
        2 * l.rest.length + l.interp.length := by omega
    rw [hmoved.interp]
    exact hsmaller

theorem Called.eof (h : Stands text l) (hl : Framed l)
    (hend : l.rest = []) : Called text l (l, l.finish l.mark .eof) where
  stands := h
  framed := hl
  diagnostics := List.prefix_rfl
  comments := by
    refine ⟨[], by rw [List.append_nil], ?_⟩
    have hspan : (l.finish l.mark .eof).span = ⟨l.pos, l.pos⟩ :=
      span_of_moved htext h (.refl l) rfl nofun
    rw [List.map_nil, List.nil_append, hspan]
    exact .single (s := ⟨l.pos, l.pos⟩) (Nat.le_refl _)
  brackets _ := by
    show bracketStep _ .eof = _
    unfold bracketStep
    split <;> first | rfl | contradiction
  ends _ := ⟨hend, rfl⟩
  smaller hkind := absurd rfl hkind

theorem called_next (h : Stands text l) (hl : Framed l) :
    Called text l l.next := by
  unfold next
  split
  · rename_i hin
    exact (called_segment htext h hl hin).settled false false
  · rename_i hin
    have hskipped := skipped_trivia htext l h
    have hframed := skipped_framed hskipped hl
    have hin' : l.skipTrivia.insideInterpolatedText = false := by
      unfold insideInterpolatedText at hin ⊢
      rw [hskipped.interp]
      exact eq_false_of_ne_true hin
    dsimp only
    split
    · rename_i hclose
      exact Called.skipped h hskipped
        (Called.exprEnd htext hskipped.stands hframed hclose.1 hclose.2)
    · rename_i hclose
      split
      · rename_i hcolon
        exact Called.skipped h hskipped
          ((Called.format htext hskipped.stands hframed hcolon.2.1).settled false false)
      · split
        · rename_i hend
          exact Called.skipped h hskipped
            ((Called.eof htext hskipped.stands hframed (atEnd_iff.mp hend)).settled false false)
        · rename_i hend
          have hne : l.skipTrivia.rest ≠ [] := fun hrest => hend (atEnd_iff.mpr hrest)
          exact Called.skipped h hskipped
            ((called_token htext hskipped.stands hframed hin' hne hclose).settled _ _)

end

/-! ### The whole text -/

def start (text : Text) : Lexer := { rest := text }

/-- So many calls. -/
def run : Nat → Lexer → List Token × Lexer
  | 0, l => ([], l)
  | n + 1, l => (l.next.2 :: (run n l.next.1).1, (run n l.next.1).2)

/-- The tokens and the comments, as they stand in the text, and nothing but blanks and newlines
elsewhere. -/
def Covers (text : Text) (tokens : List Token) (comments : List Comment) : Prop :=
  ∃ spans : List Span,
    spans.Perm (tokens.map Token.span ++ comments.map Comment.span) ∧
    (tokens.map Token.span).Sublist spans ∧ (comments.map Comment.span).Sublist spans ∧
    spans.Pairwise (fun s t => s.stop ≤ t.start) ∧
    (∀ s ∈ spans, s.start ≤ s.stop ∧ s.stop ≤ text.length) ∧
    ∀ k < text.length, (∀ s ∈ spans, ¬(s.start ≤ k ∧ k < s.stop)) → Free text k

/-- What so many calls did. -/
structure Ran (text : Text) (l : Lexer) (tokens : List Token) (l' : Lexer) : Prop where
  stands : Stands text l'
  framed : Framed l'
  diagnostics : l.diagnostics <+: l'.diagnostics
  spans : ∃ spans found, l'.comments = l.comments ++ found ∧
    spans.Perm (tokens.map Token.span ++ found.map Comment.span) ∧
    (tokens.map Token.span).Sublist spans ∧ (found.map Comment.span).Sublist spans ∧
    Tiled (Free text) l.pos spans l'.pos
  brackets : l'.diagnostics = [] →
    (tokens.map Token.kind).foldlM bracketStep (l.interp.map Frame.opened) =
      some (l'.interp.map Frame.opened)

theorem ran_run (htext : text.length < 2 ^ 32) (n : Nat) : ∀ {l : Lexer}, Stands text l →
    Framed l → Ran text l (run n l).1 (run n l).2 := by
  induction n with
  | zero =>
    intro l h hl
    exact ⟨h, hl, List.prefix_rfl, ⟨[], [], by simp [run], .refl _, .refl _, .refl _, .nil _ _⟩,
      fun _ => rfl⟩
  | succ n ih =>
    intro l h hl
    have hcalled := called_next htext h hl
    have hran := ih hcalled.stands hcalled.framed
    obtain ⟨found, hfound, htiled⟩ := hcalled.comments
    obtain ⟨spans, more, hmore, hperm, htokens, hcomments, htiled'⟩ := hran.spans
    refine ⟨hran.stands, hran.framed, hcalled.diagnostics.trans hran.diagnostics,
      ⟨found.map Comment.span ++ [l.next.2.span] ++ spans, found ++ more, ?_, ?_, ?_, ?_,
        htiled.append htiled'⟩, fun hnil => ?_⟩
    · exact hmore.trans (by rw [hfound, List.append_assoc])
    · rw [List.map_append]
      refine (hperm.append_left _).trans (List.perm_iff_count.mpr fun s => ?_)
      show (found.map Comment.span ++ [l.next.2.span] ++ (_ ++ _)).count s =
        (l.next.2.span :: (run n l.next.1).1.map Token.span ++ (_ ++ _)).count s
      simp only [List.count_append, List.count_cons, List.count_nil]
      omega
    · rw [List.append_assoc]
      exact (htokens.cons_cons l.next.2.span).trans (List.sublist_append_right _ _)
    · rw [List.map_append, List.append_assoc]
      exact (List.Sublist.refl _).append (hcomments.trans (List.sublist_append_right _ _))
    · have hnil' : l.next.1.diagnostics = [] := by
        obtain ⟨later, hlater⟩ := hran.diagnostics
        rw [show (run n l.next.1).2.diagnostics = [] from hnil] at hlater
        exact (List.append_eq_nil_iff.mp hlater).1
      show ((l.next.2 :: (run n l.next.1).1).map Token.kind).foldlM bracketStep _ = _
      rw [List.map_cons, List.foldlM_cons, hcalled.brackets hnil']
      exact hran.brackets hnil

theorem exists_eof (htext : text.length < 2 ^ 32) (bound : Nat) : ∀ {l : Lexer}, Stands text l →
    Framed l → 2 * l.rest.length + l.interp.length ≤ bound →
    ∃ n, (∀ t ∈ (run n l).1, t.kind ≠ .eof) ∧ (run n l).2.next.2.kind = .eof := by
  induction bound with
  | zero =>
    intro l h hl hbound
    refine ⟨0, fun t ht => (nomatch ht), ?_⟩
    by_contra hkind
    have := (called_next htext h hl).smaller hkind
    omega
  | succ bound ih =>
    intro l h hl hbound
    have hcalled := called_next htext h hl
    by_cases hkind : l.next.2.kind = .eof
    · exact ⟨0, fun t ht => (nomatch ht), hkind⟩
    · have hsmaller := hcalled.smaller hkind
      obtain ⟨n, hbefore, heof⟩ := ih hcalled.stands hcalled.framed (by omega)
      refine ⟨n + 1, fun t ht => ?_, heof⟩
      obtain rfl | ht := List.mem_cons.mp ht
      · exact hkind
      · exact hbefore t ht

/-- The tokens of a text before its end, and the lexer that is asked for the end. -/
def Whole (text : Text) (tokens : List Token) (l : Lexer) : Prop :=
  ∃ n, run n (start text) = (tokens, l) ∧ (∀ t ∈ tokens, t.kind ≠ .eof) ∧ l.next.2.kind = .eof

theorem run_succ (n : Nat) : ∀ l : Lexer,
    run (n + 1) l = ((run n l).1 ++ [(run n l).2.next.2], (run n l).2.next.1) := by
  induction n with
  | zero => exact fun _ => rfl
  | succ n ih =>
    intro l
    show (l.next.2 :: (run (n + 1) l.next.1).1, (run (n + 1) l.next.1).2) = _
    rw [ih l.next.1]
    rfl

/-- The depth is bounded and the frames alternate after any number of calls. The end is reached,
and what the tokens and comments do not span is blanks and newlines. When nothing was reported the
brackets are in order exactly if the end was not reached in a hole. -/
theorem reads_once (htext : text.length < 2 ^ 32) :
    (∀ n, (run n (start text)).2.interp.length ≤ interpMaxDepth ∧
      Alternates (run n (start text)).2.interp) ∧
    ∃ tokens l, Whole text tokens l ∧
      Covers text (tokens ++ [l.next.2]) l.next.1.comments ∧
      ((l.next.1.diagnostics = [] → Bracketed (tokens.map Token.kind)) ↔
        (l.next.1.diagnostics ≠ [] ∨ l.interp = [])) := by
  have hstart : Stands text (start text) := ⟨rfl, Nat.zero_le _⟩
  have hframed : Framed (start text) := ⟨Nat.zero_le _, trivial, fun _ h => (nomatch h)⟩
  refine ⟨fun n => ?_, ?_⟩
  · have hran := ran_run htext n hstart hframed
    exact ⟨hran.framed.depth, hran.framed.alternates⟩
  · obtain ⟨n, hbefore, heof⟩ := exists_eof htext _ hstart hframed (Nat.le_refl _)
    have hran := ran_run htext n hstart hframed
    have hall := ran_run htext (n + 1) hstart hframed
    rw [run_succ] at hall
    have hcalled := called_next htext hran.stands hran.framed
    refine ⟨_, _, ⟨n, rfl, hbefore, heof⟩, ?_, ?_⟩
    · obtain ⟨spans, found, hfound, hperm, htokens, hcomments, htiled⟩ := hall.spans
      have hrest := (hcalled.ends heof).1
      have hpos : (run n (start text)).2.next.1.pos = text.length := by
        have hdrop := hcalled.stands.rest
        rw [hrest] at hdrop
        have := hcalled.stands.pos
        have := List.drop_eq_nil_iff.mp hdrop.symm
        omega
      have hcomments' : (run n (start text)).2.next.1.comments = found := hfound
      rw [hcomments']
      dsimp only at htiled
      rw [hpos] at htiled
      exact ⟨spans, hperm, htokens, hcomments, htiled.pairwise,
        fun s hs => (htiled.bounds s hs).2,
        fun k hk hout => htiled.free_of_outside k (Nat.zero_le k) hk hout⟩
    · have hnil : (run n (start text)).2.next.1.diagnostics = [] →
          (run n (start text)).2.diagnostics = [] := by
        intro hnil
        obtain ⟨later, hlater⟩ := hcalled.diagnostics
        rw [hnil] at hlater
        exact (List.append_eq_nil_iff.mp hlater).1
      have hopen : (run n (start text)).2.interp.map Frame.opened = [] ↔
          (run n (start text)).2.interp = [] := List.map_eq_nil_iff
      constructor
      · intro hbracketed
        by_cases hdiagnostics : (run n (start text)).2.next.1.diagnostics = []
        · have hran' := hran.brackets (hnil hdiagnostics)
          have hend := hbracketed hdiagnostics
          unfold Bracketed at hend
          rw [show (start text).interp.map Frame.opened = [] from rfl, hend] at hran'
          exact .inr (hopen.mp (Option.some.inj hran').symm)
        · exact .inl hdiagnostics
      · rintro (hdiagnostics | hinterp) hdone
        · exact absurd hdone hdiagnostics
        · have hran' := hran.brackets (hnil hdone)
          rw [hinterp] at hran'
          exact hran'

/-- A string with a hole that is never closed. -/
theorem unclosed_hole_unreported :
    ∃ tokens l, Whole (Lexing.text "$\"\x7bx") tokens l ∧ l.next.1.diagnostics = [] ∧
      ¬Bracketed (tokens.map Token.kind) := by
  refine ⟨_, _, ⟨3, rfl, ?_, ?_⟩, ?_, ?_⟩ <;> decide +kernel

/-- A text without an interpolated string. -/
theorem reads_once_small :
    (Lexing.text "a = 1 # one").length < 2 ^ 32 ∧
      ∃ tokens l, Whole (Lexing.text "a = 1 # one") tokens l ∧
        Covers (Lexing.text "a = 1 # one") (tokens ++ [l.next.2]) l.next.1.comments := by
  have hlength : (Lexing.text "a = 1 # one").length < 2 ^ 32 := by decide_cbv
  obtain ⟨-, tokens, l, hwhole, hcovers, -⟩ := reads_once hlength
  exact ⟨hlength, tokens, l, hwhole, hcovers⟩

end Lexer

end Lhat.Lexing
