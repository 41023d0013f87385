import Lhat.Lexing.Runs
import Mathlib.Data.List.Find

/-!
# What is read quietly

A piece of a text is read as its tokens wherever it stands, as long as what follows it does not
run into it. `Reads` says so of a piece, and pieces that are read one after the other are read
together.
-/

namespace Lhat.Lexing

variable {rest x bytes y : Text} {c : UInt8} {xs : List Spelled} {follows : Text → Prop}

/-- A token as a parser takes it: what it is, and its bytes in the source. -/
abbrev Spelled := TokenKind × Text

def Token.spelled (text : Text) (t : Token) : Spelled :=
  (t.kind, (text.drop t.offset.toNat).take t.length.toNat)

namespace Lexer

variable {text : Text} {l l' l'' : Lexer}

/-! ### Going over bytes -/

/-- The lexer went over these bytes, and nothing was reported. -/
structure Over (x : Text) (l l' : Lexer) : Prop where
  rest : l.rest = x ++ l'.rest
  pos : l'.pos = l.pos + x.length
  interp : l'.interp = l.interp
  afterDot : l'.afterDot = l.afterDot
  diagnostics : l'.diagnostics = l.diagnostics

theorem Over.refl (l : Lexer) : Over [] l l := ⟨rfl, rfl, rfl, rfl, rfl⟩

theorem Over.trans (h : Over x l l') (h' : Over y l' l'') :
    Over (x ++ y) l l'' where
  rest := by rw [h.rest, h'.rest, List.append_assoc]
  pos := by rw [h'.pos, h.pos, List.length_append, Nat.add_assoc]
  interp := h'.interp.trans h.interp
  afterDot := h'.afterDot.trans h.afterDot
  diagnostics := h'.diagnostics.trans h.diagnostics

theorem Over.rest_eq (h : Over x l l') (hrest : l.rest = x ++ rest) :
    l'.rest = rest := (List.append_cancel_left (hrest.symm.trans h.rest)).symm

theorem over_advance (h : l.rest = c :: rest) : Over [c] l l.advance := by
  obtain ⟨hrest, hpos, hinterp, -, hdiagnostics⟩ := advance_cons h
  refine ⟨by rw [hrest, h]; rfl, hpos, hinterp, ?_, hdiagnostics⟩
  unfold advance
  rw [h]
  dsimp only
  split
  · rfl
  · split <;> rfl

theorem over_pending {pending : Bool}
    (h : Over x { l with pendingStmtStart := pending } l') : Over x l l' :=
  ⟨h.rest, h.pos, h.interp, h.afterDot, h.diagnostics⟩

theorem over_advanceN (x : Text) : ∀ {l : Lexer}, l.rest = x ++ rest →
    Over x l (advanceN x.length l) := by
  induction x with
  | nil => exact fun {l} _ => Over.refl l
  | cons c x ih =>
    intro l h
    have hone := over_advance (l := l) h
    exact hone.trans (ih (hone.rest_eq (x := [c]) h))

theorem currentByte_cons (h : l.rest = c :: rest) : l.currentByte = c := by
  unfold currentByte
  rw [h]
  rfl

theorem currentCp_cons (h : l.rest = c :: rest) (hc : c < 0x80) :
    l.currentCp = (c.toUInt32, 1) := by
  unfold currentCp decodeUtf8
  rw [h, if_neg (List.cons_ne_nil _ _)]
  exact if_pos hc

/-! ### Loops -/

theorem over_passWhile {p : UInt8 → Bool} (hrest : ∀ c ∈ rest.head?, p c = false)
    (x : Text) : ∀ {l : Lexer}, (∀ c ∈ x, p c = true) → l.rest = x ++ rest →
    Over x l (l.passWhile p).1 ∧ (l.passWhile p).2 = x := by
  induction x with
  | nil =>
    intro l _ h
    have hstop : ¬(l.rest ≠ [] ∧ p l.currentByte = true) := by
      rintro ⟨hne, hp⟩
      obtain ⟨c, tail, hcons⟩ := List.exists_cons_of_ne_nil hne
      rw [currentByte_cons hcons] at hp
      rw [List.nil_append] at h
      rw [hrest c (by rw [← h, hcons]; rfl)] at hp
      cases hp
    rw [passWhile, dif_neg hstop]
    exact ⟨.refl l, rfl⟩
  | cons c x ih =>
    intro l hx h
    have hgo : l.rest ≠ [] ∧ p l.currentByte = true := by
      rw [currentByte_cons h]
      exact ⟨h ▸ List.cons_ne_nil _ _, hx c List.mem_cons_self⟩
    have hone := over_advance (l := l) h
    obtain ⟨hover, hread⟩ := ih (fun d hd => hx d (List.mem_cons_of_mem c hd))
      (hone.rest_eq (x := [c]) h)
    rw [passWhile, dif_pos hgo]
    refine ⟨hone.trans hover, ?_⟩
    show l.currentByte :: (passWhile p l.advance).2 = c :: x
    rw [hread, currentByte_cons h]

/-- Blanks and newlines. -/
def IsGap (gap : Text) : Prop := ∀ c ∈ gap, isTrivia c = true

instance : DecidablePred IsGap := fun gap => List.decidableBAll (isTrivia · = true) gap

/-- What a token that is looked for may begin with. -/
def begins (c : UInt8) : Bool := !isTrivia c && c != ascii '#'

theorem over_skipTrivia (hrest : ∀ c ∈ rest.head?, begins c = true) (gap : Text) :
    ∀ {l : Lexer}, IsGap gap → l.rest = gap ++ rest → Over gap l l.skipTrivia := by
  induction gap with
  | nil =>
    intro l _ h
    have hstop : isBlank l.currentByte = false ∧ l.currentByte ≠ 10 ∧
        l.currentByte ≠ ascii '#' := by
      cases rest with
      | nil =>
        unfold currentByte
        rw [h]
        decide
      | cons c rest =>
        have hc := hrest c rfl
        unfold begins isTrivia at hc
        rw [currentByte_cons h]
        simpa [not_or, and_assoc] using hc
    rw [skipTrivia, dif_neg (by rw [hstop.1]; exact Bool.false_ne_true), dif_neg hstop.2.1,
      dif_neg hstop.2.2]
    exact .refl l
  | cons c gap ih =>
    intro l hgap h
    have hc := hgap c List.mem_cons_self
    have hgap' : IsGap gap := fun d hd => hgap d (List.mem_cons_of_mem c hd)
    have hbyte := currentByte_cons h
    by_cases hblank : isBlank l.currentByte = true
    · have hone := over_advance (l := l) h
      rw [skipTrivia, dif_pos hblank]
      exact hone.trans (ih hgap' (hone.rest_eq (x := [c]) h))
    · have hline : l.currentByte = 10 := by
        unfold isTrivia at hc
        rw [hbyte] at hblank ⊢
        simpa [hblank] using hc
      have h' : { l with pendingStmtStart := true }.rest = c :: (gap ++ rest) := h
      have hone := over_pending (over_advance h')
      rw [skipTrivia, dif_neg hblank, dif_pos hline]
      exact hone.trans (ih hgap' (hone.rest_eq (x := [c]) h))

/-- A byte of a name, in ASCII. -/
def isNameByte (c : UInt8) : Bool := decide (c < 0x80) && isIdentContinue c.toUInt32

/-- A name ends before this. -/
def endsName (c : UInt8) : Bool := decide (c < 0x80) && !isIdentContinue c.toUInt32

theorem over_skipIdent (hrest : ∀ c ∈ rest.head?, endsName c = true) (x : Text) :
    ∀ {l : Lexer}, (∀ c ∈ x, isNameByte c = true) → l.rest = x ++ rest → Over x l l.skipIdent := by
  induction x with
  | nil =>
    intro l _ h
    have hstop : ¬(0 < l.currentCp.2 ∧ isIdentContinue l.currentCp.1 = true) := by
      cases rest with
      | nil =>
        have hnil : l.rest = [] := h
        unfold currentCp
        rw [if_pos hnil]
        decide
      | cons c rest =>
        have hc := hrest c rfl
        unfold endsName at hc
        rw [Bool.and_eq_true, decide_eq_true_eq] at hc
        rw [currentCp_cons h hc.1]
        simpa using hc.2
    rw [skipIdent, dif_neg hstop]
    exact .refl l
  | cons c x ih =>
    intro l hx h
    have hc := hx c List.mem_cons_self
    unfold isNameByte at hc
    rw [Bool.and_eq_true, decide_eq_true_eq] at hc
    have hcp := currentCp_cons h hc.1
    have hone := over_advance (l := l) h
    rw [skipIdent, dif_pos (by rw [hcp]; exact ⟨Nat.one_pos, hc.2⟩), hcp]
    exact hone.trans (ih (fun d hd => hx d (List.mem_cons_of_mem c hd)) (hone.rest_eq (x := [c]) h))

/-! ### The inside of a string -/

/-- Such bytes between the quotes stand for those. -/
def StandsFor (x bytes : Text) : Prop :=
  ∀ ⦃l : Lexer⦄ ⦃rest : Text⦄, l.rest = x ++ rest → ∃ l', Over x l l' ∧
    l.escapedBody = (l'.escapedBody.1, l'.escapedBody.2.map (bytes ++ ·))

theorem StandsFor.nil : StandsFor [] [] := fun l _ _ =>
  ⟨l, .refl l, by
    rw [show (fun x : Text => [] ++ x) = id from rfl, Option.map_id]
    rfl⟩

theorem StandsFor.append {more : Text} (h : StandsFor x bytes) (h' : StandsFor y more) :
    StandsFor (x ++ y) (bytes ++ more) := by
  intro l rest hrest
  rw [List.append_assoc] at hrest
  obtain ⟨l', hover, hbody⟩ := h hrest
  obtain ⟨l'', hover', hbody'⟩ := h' (hover.rest_eq hrest)
  refine ⟨l'', hover.trans hover', ?_⟩
  rw [hbody, hbody', Option.map_map]
  congr 2
  funext read
  exact (List.append_assoc _ _ _).symm

theorem standsFor_byte (hquote : c ≠ 34) (hescape : c ≠ 92) : StandsFor [c] [c] := by
  intro l rest hrest
  have hbyte := currentByte_cons hrest
  refine ⟨l.advance, over_advance hrest, ?_⟩
  have hne : l.rest ≠ [] := hrest ▸ List.cons_ne_nil _ _
  rw [escapedBody, dif_neg hne, if_neg (by rwa [hbyte]), if_neg (by rwa [hbyte]), hbyte]
  rfl

theorem escapedBody_escape (hrest : l.rest = 92 :: rest) :
    l.escapedBody =
      (l.scanEscape.1.escapedBody.1, l.scanEscape.1.escapedBody.2.map (l.scanEscape.2 ++ ·)) := by
  have hbyte := currentByte_cons hrest
  have hne : l.rest ≠ [] := hrest ▸ List.cons_ne_nil _ _
  rw [escapedBody, dif_neg hne, if_neg (by rw [hbyte]; decide), if_pos hbyte]

theorem standsFor_escape (hc : plainEscape c = some bytes) : StandsFor [92, c] bytes := by
  intro l rest hrest
  have hone := over_advance (l := l) hrest
  have hnext := hone.rest_eq (x := [92]) hrest
  have hscan : l.scanEscape = (l.advance.advance, bytes) := by
    unfold scanEscape
    dsimp only
    rw [currentByte_cons hnext, hc]
  refine ⟨l.advance.advance, hone.trans (over_advance hnext), ?_⟩
  rw [escapedBody_escape hrest, hscan]

theorem standsFor_hex {high low : UInt8} (hhigh : isDigitOfBase high 16 = true)
    (hlow : isDigitOfBase low 16 = true) :
    StandsFor [92, ascii 'x', high, low] [(digitsValue 16 [high, low]).toUInt8] := by
  intro l rest hrest
  have hone := over_advance (l := l) hrest
  have hnext : l.advance.rest = [ascii 'x', high, low] ++ rest := hone.rest_eq (x := [92]) hrest
  have hscan : l.scanEscape = (advanceN 3 l.advance, [(digitsValue 16 [high, low]).toUInt8]) := by
    have hfirst : l.advance.byteAt 1 = high := by
      unfold byteAt Lexing.byteAt
      rw [hnext]
      rfl
    have hsecond : l.advance.byteAt 2 = low := by
      unfold byteAt Lexing.byteAt
      rw [hnext]
      rfl
    have hplain : plainEscape (ascii 'x') = none := by decide
    unfold scanEscape
    dsimp only
    rw [currentByte_cons hnext, hplain, hfirst, hsecond, hhigh, hlow]
    rfl
  refine ⟨_, hone.trans (over_advanceN _ hnext), ?_⟩
  rw [escapedBody_escape hrest, hscan]
  rfl

theorem over_escapedBody (hx : StandsFor x bytes) (hrest : l.rest = x ++ 34 :: rest) :
    Over (x ++ [34]) l l.escapedBody.1 ∧ l.escapedBody.2 = some bytes := by
  obtain ⟨l', hover, hbody⟩ := hx hrest
  have hquote := hover.rest_eq hrest
  have hend : l'.escapedBody = (l'.advance, some []) := by
    have hne : l'.rest ≠ [] := hquote ▸ List.cons_ne_nil _ _
    rw [escapedBody, dif_neg hne, if_pos (currentByte_cons hquote)]
  rw [hbody, hend]
  refine ⟨hover.trans (over_advance hquote), ?_⟩
  rw [Option.map_some, List.append_nil]

/-! ### One token -/

/-- Where such bytes stand before the rest, they are scanned as such a token. -/
def Scans (kind : TokenKind) (x rest : Text) : Prop :=
  ∀ ⦃l : Lexer⦄, l.rest = x ++ rest → l.afterDot = false →
    ∃ l', l.scanToken = (l', l'.finish l.mark kind) ∧ Over x l l'

theorem scanToken_cons (h : l.rest = c :: rest) (hc : c < 0x80) :
    l.scanToken =
      if c = 34 then
        if l.byteAt 1 = 34 ∧ l.byteAt 2 = 34 then l.scanLineString l.mark
        else l.scanEscapedString l.mark
      else if c = 39 then l.scanRawString l.mark
      else if c = 96 then l.scanNameLiteral l.mark
      else if c = ascii '@' then scanAnnotation l l.mark
      else if c = ascii '$' then l.scanDollar l.mark
      else if isDecimalDigit c then l.scanNumber l.mark
      else if isIdentStart c.toUInt32 then l.scanIdentifier l.mark
      else if c = ascii '^' then l.scanStray l.mark .bareHat
      else l.scanOperator l.mark := by
  have hvalid : c.toUInt32 ≠ cpInvalid := by
    intro heq
    have hlt := c.toNat_lt
    rw [← UInt32.toNat_inj, UInt8.toNat_toUInt32] at heq
    rw [heq] at hlt
    exact absurd hlt (by decide)
  unfold scanToken
  rw [currentByte_cons h, currentCp_cons h hc]
  exact if_neg hvalid

theorem scans_string (hx : StandsFor x bytes) (hfirst : x.head? ≠ some 34)
    (hrest : rest.head? ≠ some 34) : Scans (.string .escaped bytes) (34 :: (x ++ [34])) rest := by
  intro l h _
  have h' : l.rest = 34 :: (x ++ 34 :: rest) := by
    rw [h, List.cons_append, List.append_assoc]
    rfl
  have hlone : ¬(l.byteAt 1 = 34 ∧ l.byteAt 2 = 34) := by
    unfold byteAt Lexing.byteAt
    rw [h']
    rintro ⟨hone, htwo⟩
    cases x with
    | nil =>
      cases rest with
      | nil => exact absurd htwo (by decide)
      | cons d rest => exact hrest (congrArg some htwo)
    | cons d x => exact hfirst (congrArg some hone)
  have hone := over_advance (l := l) h'
  obtain ⟨hover, hbytes⟩ := over_escapedBody hx (hone.rest_eq (x := [34]) h')
  refine ⟨l.advance.escapedBody.1, ?_, hone.trans hover⟩
  rw [scanToken_cons h' (by decide), if_pos rfl, if_neg hlone]
  unfold scanEscapedString finishString
  rw [hbytes]

/-- What begins an operator and nothing else. -/
def isPunctuation (c : UInt8) : Bool :=
  decide (c < 0x80) && !(c ∈ [34, 39, 96, ascii '@', ascii '$', ascii '^']) && !isDecimalDigit c &&
    !isIdentStart c.toUInt32

theorem matchOperator_last {op : OpKind} {longer : List (Text × OpKind)}
    (htable : operatorTable.filter (fun entry => entry.1.head? == some c) = longer ++ [([c], op)])
    (hlonger : ∀ entry ∈ longer, ¬entry.1 <+: c :: rest) :
    matchOperator (c :: rest) = some ([c], op) := by
  have hfilter : matchOperator (c :: rest) =
      (operatorTable.filter fun entry => entry.1.head? == some c).find?
        fun entry => entry.1.isPrefixOf (c :: rest) := by
    unfold matchOperator
    rw [List.find?_filter]
    refine List.find?_congr fun entry hentry => ?_
    cases hspelling : entry.1 with
    | nil =>
      have := length_of_mem_operatorTable hentry
      rw [hspelling] at this
      exact absurd this (by decide)
    | cons d spelling =>
      by_cases hd : d = c
      · rw [hd]
        simp only [List.head?_cons, beq_self_eq_true, true_and, Bool.decide_eq_true]
      · have hne : (some d == some c) = false := by simpa using hd
        have hne' : (d == c) = false := by simpa using hd
        simp only [List.head?_cons, hne, List.isPrefixOf_cons_cons, hne', Bool.false_and,
          Bool.false_eq_true, false_and, decide_false]
  rw [hfilter, htable, List.find?_append, List.find?_eq_none.mpr]
  · simp
  · intro entry hentry
    rw [List.isPrefixOf_iff_prefix]
    exact hlonger entry hentry

theorem scans_operator {op : OpKind} (hc : isPunctuation c = true)
    (hmatch : matchOperator (c :: rest) = some ([c], op)) : Scans (.op op) [c] rest := by
  intro l h _
  unfold isPunctuation at hc
  simp only [Bool.and_eq_true, Bool.not_eq_true', decide_eq_true_eq, decide_eq_false_iff_not,
    List.mem_cons, List.not_mem_nil, or_false, not_or] at hc
  obtain ⟨⟨⟨hascii, hquote, hraw, hname, hat, hdollar, hhat⟩, hdigit⟩, hident⟩ := hc
  refine ⟨_, ?_, over_advanceN [c] h⟩
  rw [scanToken_cons h hascii, if_neg hquote, if_neg hraw, if_neg hname, if_neg hat,
    if_neg hdollar, if_neg (by rw [hdigit]; decide), if_neg (by rw [hident]; decide), if_neg hhat]
  have h' : l.rest = c :: rest := h
  unfold scanOperator
  rw [h', hmatch]

theorem scanToken_letter (h : l.rest = c :: rest) (hc : isLetter c.toUInt32 = true)
    (hascii : c < 0x80) : l.scanToken = l.scanIdentifier l.mark := by
  have hother : c ≠ 34 ∧ c ≠ 39 ∧ c ≠ 96 ∧ c ≠ ascii '@' ∧ c ≠ ascii '$' ∧
      isDecimalDigit c = false := by
    refine ⟨?_, ?_, ?_, ?_, ?_, ?_⟩
    · rintro rfl
      exact absurd hc (by decide)
    · rintro rfl
      exact absurd hc (by decide)
    · rintro rfl
      exact absurd hc (by decide)
    · rintro rfl
      exact absurd hc (by decide)
    · rintro rfl
      exact absurd hc (by decide)
    · by_contra hdigit
      rw [Bool.not_eq_false] at hdigit
      unfold isDecimalDigit at hdigit
      unfold isLetter at hc
      simp only [Bool.and_eq_true, Bool.or_eq_true, decide_eq_true_eq, beq_iff_eq,
        UInt8.le_iff_toNat_le, UInt32.le_iff_toNat_le, ← UInt32.toNat_inj,
        UInt8.toNat_toUInt32] at hdigit hc
      simp at hdigit hc
      omega
  have hstart : isIdentStart c.toUInt32 = true := by
    have hlow : c.toUInt32 < 0x80 := by
      rw [UInt32.lt_iff_toNat_lt, UInt8.toNat_toUInt32]
      exact UInt8.lt_iff_toNat_lt.mp hascii
    unfold isIdentStart
    split
    · rename_i heq
      rw [heq] at hlow
      exact absurd hlow (by decide)
    · exact hc
  obtain ⟨hquote, hraw, hname, hat, hdollar, hdigit⟩ := hother
  rw [scanToken_cons h hascii, if_neg hquote, if_neg hraw, if_neg hname, if_neg hat,
    if_neg hdollar, if_neg (by rw [hdigit]; decide), if_pos hstart]

theorem scans_name (hc : isLetter c.toUInt32 = true)
    (hx : ∀ d ∈ c :: x, isNameByte d = true) (hrest : ∀ d ∈ rest.head?, endsName d = true)
    (hhat : rest.head? ≠ some (ascii '^')) : Scans (.ident none) (c :: x) rest := by
  intro l h _
  have hascii : c < 0x80 := by
    have := hx c List.mem_cons_self
    unfold isNameByte at this
    rw [Bool.and_eq_true, decide_eq_true_eq] at this
    exact this.1
  have hover := over_skipIdent hrest _ hx h
  have hnone : ∀ d ∈ rest.head?, decide (d = ascii '^') = false := by
    intro d hd
    rw [decide_eq_false_iff_not]
    rintro rfl
    exact hhat (Option.mem_def.mp hd)
  obtain ⟨hhats, hnil⟩ := over_passWhile (p := fun d => decide (d = ascii '^')) hnone []
    (fun _ h => nomatch h) (hover.rest_eq h)
  refine ⟨_, ?_, List.append_nil (c :: x) ▸ hover.trans hhats⟩
  rw [scanToken_letter h hc hascii]
  unfold scanIdentifier
  dsimp only
  rw [hnil]
  exact if_neg (Nat.lt_irrefl 0)

theorem scans_hat (hc : isLetter c.toUInt32 = true)
    (hx : ∀ d ∈ c :: x, isNameByte d = true) (hrest : rest.head? ≠ some (ascii '^')) :
    Scans (.hatIdent 1) (c :: (x ++ [ascii '^'])) rest := by
  intro l h _
  have hascii : c < 0x80 := by
    have := hx c List.mem_cons_self
    unfold isNameByte at this
    rw [Bool.and_eq_true, decide_eq_true_eq] at this
    exact this.1
  have h' : l.rest = (c :: x) ++ ([ascii '^'] ++ rest) := by
    rw [h, List.cons_append, List.append_assoc]
    rfl
  have hover := @over_skipIdent ([ascii '^'] ++ rest)
    (fun d hd => by rw [← Option.some.inj hd]; decide) _ _ hx h'
  have hnone : ∀ d ∈ rest.head?, decide (d = ascii '^') = false := by
    intro d hd
    rw [decide_eq_false_iff_not]
    rintro rfl
    exact hrest (Option.mem_def.mp hd)
  obtain ⟨hhats, hone⟩ := over_passWhile (p := fun d => decide (d = ascii '^')) hnone [ascii '^']
    (fun d hd => by rw [List.mem_singleton.mp hd]; decide) (hover.rest_eq h')
  refine ⟨_, ?_, hover.trans hhats⟩
  rw [scanToken_letter h' hc hascii]
  unfold scanIdentifier
  dsimp only
  rw [hone, if_pos (by decide)]
  rfl

/-- The token of a literal. -/
def numberToken (read : NumberLiteral) : TokenKind :=
  match read.kind with
  | .real => .float read.real
  | .integer => .int read.integer read.base

theorem scans_number (hc : isDecimalDigit c = true)
    (hlength : (numberLiteral (c :: x ++ rest) false).length = (c :: x).length)
    (hok : (numberLiteral (c :: x ++ rest) false).status = .ok)
    (hrest : ∀ d ∈ rest.head?, d < 0x80 ∧ isIdentStart d.toUInt32 = false) :
    Scans (numberToken (numberLiteral (c :: x ++ rest) false)) (c :: x) rest := by
  intro l h hdot
  have hother : c < 0x80 ∧ c ≠ 34 ∧ c ≠ 39 ∧ c ≠ 96 ∧ c ≠ ascii '@' ∧ c ≠ ascii '$' := by
    unfold isDecimalDigit at hc
    simp only [Bool.and_eq_true, decide_eq_true_eq, UInt8.le_iff_toNat_le] at hc
    simp only [UInt8.lt_iff_toNat_lt, ne_eq, ← UInt8.toNat_inj]
    refine ⟨?_, ?_, ?_, ?_, ?_, ?_⟩ <;> simp [ascii] at hc ⊢ <;> omega
  obtain ⟨hascii, hquote, hraw, hname, hat, hdollar⟩ := hother
  have hover := over_advanceN (c :: x) h
  have hnext := hover.rest_eq h
  have hstop : ¬(0 < (advanceN (c :: x).length l).currentCp.2 ∧
      isIdentStart (advanceN (c :: x).length l).currentCp.1 = true) := by
    cases hr : rest with
    | nil =>
      unfold currentCp
      rw [if_pos (hnext.trans hr)]
      decide
    | cons d rest' =>
      obtain ⟨hd, hident⟩ := hrest d (by rw [hr]; rfl)
      rw [currentCp_cons (hnext.trans hr) hd, hident]
      simp
  refine ⟨_, ?_, hover⟩
  rw [scanToken_cons h hascii, if_neg hquote, if_neg hraw, if_neg hname, if_neg hat,
    if_neg hdollar, if_pos hc]
  unfold scanNumber
  dsimp only
  rw [h, hdot, hlength, hok, if_neg (by decide), if_neg hstop]
  unfold numberToken
  cases (numberLiteral (c :: x ++ rest) false).kind <;> rfl

/-! ### Pieces -/

/-- The lexer stands outside of any string, and has nothing reported. -/
structure Calm (text : Text) (l : Lexer) : Prop where
  stands : Stands text l
  interp : l.interp = []
  afterDot : l.afterDot = false
  diagnostics : l.diagnostics = []

theorem Calm.over (h : Calm text l) (hover : Over x l l') : Calm text l' where
  stands := by
    refine h.stands.of_read (n := x.length) ?_ ?_ hover.pos
    · rw [hover.rest, List.length_append]
      exact Nat.le_add_right _ _
    · rw [hover.rest, List.drop_left]
  interp := hover.interp.trans h.interp
  afterDot := hover.afterDot.trans h.afterDot
  diagnostics := hover.diagnostics.trans h.diagnostics

/-- The calls that answer these tokens, none of them the end. -/
inductive Lexes (text : Text) : Lexer → List Spelled → Lexer → Prop
  | nil (m : Lexer) : Lexes text m [] m
  | cons {m m' : Lexer} {spelled : List Spelled} : m.next.2.kind ≠ .eof →
      Lexes text m.next.1 spelled m' → Lexes text m (m.next.2.spelled text :: spelled) m'

theorem Lexes.append {ys : List Spelled} (h : Lexes text l xs l') (h' : Lexes text l' ys l'') :
    Lexes text l (xs ++ ys) l'' := by
  induction h with
  | nil l => exact h'
  | cons hkind _ ih => exact .cons hkind (ih h')

theorem Lexes.run (h : Lexes text l xs l') :
    ∃ n tokens, run n l = (tokens, l') ∧ tokens.map (Token.spelled text) = xs ∧
      ∀ t ∈ tokens, t.kind ≠ .eof := by
  induction h with
  | nil l => exact ⟨0, [], rfl, rfl, fun _ h => nomatch h⟩
  | @cons l l' spelled hkind _ ih =>
    obtain ⟨n, tokens, hrun, hspelled, hall⟩ := ih
    refine ⟨n + 1, l.next.2 :: tokens, ?_, by rw [List.map_cons, hspelled], fun t ht => ?_⟩
    · show (l.next.2 :: (Lexer.run n l.next.1).1, (Lexer.run n l.next.1).2) = _
      rw [hrun]
    · obtain rfl | ht := List.mem_cons.mp ht
      · exact hkind
      · exact hall t ht

/-- Wherever such bytes stand, and what follows is as asked, they are read as these tokens. Gaps
are gone over before a token. -/
def Reads (follows : Text → Prop) (x : Text) (spelled : List Spelled) : Prop :=
  ∀ ⦃text rest gap : Text⦄ ⦃l : Lexer⦄, text.length < 2 ^ 32 → Calm text l → IsGap gap →
    l.rest = gap ++ (x ++ rest) → follows rest →
    ∃ l' gap', Lexes text l spelled l' ∧ Calm text l' ∧ IsGap gap' ∧ l'.rest = gap' ++ rest

theorem Reads.append {next : Text → Prop} {ys : List Spelled}
    (h : Reads follows x xs) (h' : Reads next y ys)
    (hnext : ∀ rest, next rest → follows (y ++ rest)) : Reads next (x ++ y) (xs ++ ys) := by
  intro text rest gap l htext hcalm hgap hrest hfollows
  rw [List.append_assoc] at hrest
  obtain ⟨l', gap', hlexes, hcalm', hgap', hrest'⟩ := h htext hcalm hgap hrest (hnext rest hfollows)
  obtain ⟨l'', gap'', hlexes', hcalm'', hgap'', hrest''⟩ := h' htext hcalm' hgap' hrest' hfollows
  exact ⟨l'', gap'', hlexes.append hlexes', hcalm'', hgap'', hrest''⟩

theorem Reads.mono {next : Text → Prop}
    (h : Reads follows x xs) (hnext : ∀ rest, next rest → follows rest) : Reads next x xs := by
  intro text rest gap l htext hcalm hgap hrest hfollows
  exact h htext hcalm hgap hrest (hnext rest hfollows)

theorem reads_gap (hx : IsGap x) : Reads (fun _ => True) x [] := by
  intro text rest gap l _ hcalm hgap hrest _
  refine ⟨l, gap ++ x, .nil l, hcalm, fun c hc => ?_, by rw [hrest, List.append_assoc]⟩
  obtain hc | hc := List.mem_append.mp hc
  · exact hgap c hc
  · exact hx c hc

theorem spelled_finish (htext : text.length < 2 ^ 32) (h : Calm text l) (hover : Over x l l')
    (kind : TokenKind) : (l'.finish l.mark kind).spelled text = (kind, x) := by
  have hpos := (h.over hover).stands.pos
  have hat := hover.pos
  unfold Token.spelled finish mark
  dsimp only
  rw [toNat_toUInt32 (by omega), toNat_toUInt32 (by omega), ← h.stands.rest, hover.rest, hat,
    Nat.add_sub_cancel_left, List.take_left]

/-- A token that leaves nothing behind it. -/
def isQuiet (kind : TokenKind) : Bool :=
  !(kind ∈ [.eof, .op .dot, .op .nilDot])

theorem reads_token {kind : TokenKind} (hc : begins c = true) (hkind : isQuiet kind = true)
    (hscan : ∀ rest, follows rest → Scans kind (c :: x) rest) :
    Reads follows (c :: x) [(kind, c :: x)] := by
  intro text rest gap l htext hcalm hgap hrest hfollows
  have htrivia := @over_skipTrivia (c :: x ++ rest)
    (fun d hd => by rw [← Option.some.inj hd]; exact hc) gap _ hgap hrest
  have hcalm₁ := hcalm.over htrivia
  have hrest₁ := htrivia.rest_eq hrest
  obtain ⟨l₂, hscanned, hover⟩ := hscan rest hfollows hrest₁ hcalm₁.afterDot
  have hcalm₂ := hcalm₁.over hover
  simp only [isQuiet, List.mem_cons, List.not_mem_nil, or_false, Bool.not_eq_true',
    decide_eq_false_iff_not, not_or] at hkind
  have hnext : l.next = ((l₂.trackBraces kind).settled (kind = .op .semicolon) false,
      l₂.finish l.skipTrivia.mark kind) := by
    have hlevel : l.skipTrivia.atHoleLevel = false := by
      unfold atHoleLevel
      rw [hcalm₁.interp]
    have hend : l.skipTrivia.atEnd = false := by
      unfold atEnd
      rw [hrest₁]
      rfl
    have hdot : decide (kind = .op .dot ∨ kind = .op .nilDot) = false := by
      simp [hkind.2.1, hkind.2.2]
    unfold next insideInterpolatedText
    rw [hcalm.interp]
    simp only [hlevel, hend, Bool.false_eq_true, false_and, if_false, hscanned]
    rw [show (l₂.finish l.skipTrivia.mark kind).kind = kind from rfl, hdot]
  have hsame : Lexes text l [(kind, c :: x)] l.next.1 := by
    have hspelled : l.next.2.spelled text = (kind, c :: x) := by
      rw [hnext]
      exact spelled_finish htext hcalm₁ hover kind
    rw [← hspelled]
    refine .cons ?_ (.nil _)
    rw [hnext]
    exact hkind.1
  refine ⟨l.next.1, [], hsame, ?_, fun _ h => (nomatch h), ?_⟩
  · rw [hnext]
    refine ⟨⟨hcalm₂.stands.rest, hcalm₂.stands.pos⟩, ?_, rfl, hcalm₂.diagnostics⟩
    show (l₂.trackBraces kind).interp = []
    unfold trackBraces
    rw [hcalm₂.interp]
  · rw [hnext]
    exact hover.rest_eq hrest₁

theorem Reads.whole (h : Reads (fun rest => rest = []) x xs)
    (hx : x.length < 2 ^ 32) :
    ∃ tokens l, Whole x tokens l ∧ tokens.map (Token.spelled x) = xs ∧
      l.next.1.diagnostics = [] := by
  have hstart : Calm x (start x) := ⟨⟨rfl, Nat.zero_le _⟩, rfl, rfl, rfl⟩
  obtain ⟨l, gap, hlexes, hcalm, hgap, hrest⟩ :=
    @h _ [] [] _ hx hstart (fun _ h => (nomatch h)) (List.append_nil x).symm rfl
  obtain ⟨n, tokens, hrun, hspelled, hall⟩ := hlexes.run
  have htrivia := @over_skipTrivia [] (fun _ h => (nomatch h)) gap _ hgap hrest
  have hcalm' := hcalm.over htrivia
  have hnext : l.next = (l.skipTrivia.settled false false,
      l.skipTrivia.finish l.skipTrivia.mark .eof) := by
    have hlevel : l.skipTrivia.atHoleLevel = false := by
      unfold atHoleLevel
      rw [hcalm'.interp]
    have hend : l.skipTrivia.atEnd = true := atEnd_iff.mpr (htrivia.rest_eq hrest)
    unfold next insideInterpolatedText
    rw [hcalm.interp]
    simp only [hlevel, hend, Bool.false_eq_true, false_and, if_false, if_true]
  refine ⟨tokens, l, ⟨n, hrun, hall, ?_⟩, hspelled, ?_⟩
  · rw [hnext]
    rfl
  · rw [hnext]
    exact hcalm'.diagnostics

end Lexer

end Lhat.Lexing
