import Lhat.Json.Numbers
import Lhat.Json.Strings
import Mathlib

/-!
# What the reader accepts

The reader answers on the documents whose numbers are those of the C library, and on no
other text. What it takes beyond JSON is the numbers alone.
-/

namespace Lhat.Json

open Lexing (Text ascii isDecimalDigit forall_byte)

variable {s blank body rest : Text} {c a : UInt8} {made : Parsed} {levels turns : Nat}

/-! ## White space -/

theorem skipSpace_spec (s : Text) : ∃ blank, Space blank ∧ s = blank ++ skipSpace s :=
  ⟨s.takeWhile isSpace, List.all_eq_true.1 List.all_takeWhile,
    List.takeWhile_append_dropWhile.symm⟩

theorem skipSpace_append (hblank : Space blank) (s : Text) : skipSpace (blank ++ s) = skipSpace s :=
  List.dropWhile_append_of_pos hblank

theorem skipSpace_cons (hc : isSpace c = false) (s : Text) : skipSpace (c :: s) = c :: s := by
  simp [skipSpace, hc]

theorem skipSpace_skipSpace (s : Text) : skipSpace (skipSpace s) = skipSpace s := by
  obtain ⟨blank, hblank, hs⟩ := skipSpace_spec s
  rw [← skipSpace_append hblank, ← hs]

theorem Space.append {blank' : Text} (h : Space blank) (h' : Space blank') :
    Space (blank ++ blank') := by
  intro c hc
  rcases List.mem_append.1 hc with hc | hc
  · exact h c hc
  · exact h' c hc

theorem isSpace_of_not_ends (hc : ¬Ends c) : isSpace c = false := by
  simpa using fun hspace => hc (.inl hspace)

theorem stops_append (hblank : Space blank) (hc : Ends c) (s : Text) : Stops (blank ++ c :: s) := by
  cases blank with
  | nil =>
    intro d hd
    obtain rfl : c = d := by simpa using hd
    exact hc
  | cons b blank =>
    intro d hd
    obtain rfl : b = d := by simpa using hd
    exact .inl (hblank b (by simp))

/-! ## Items -/

section Items

variable {α : Type}

/-- What the reader answers is spelled there, behind white space. -/
def Sound (item : Text → Except Failure (α × Text)) (grammar : Text → α → Prop) : Prop :=
  ∀ s held rest, item s = .ok (held, rest) →
    ∃ before core, Space before ∧ grammar core held ∧ s = before ++ core ++ rest

/-- What is spelled there is answered, where nothing goes on with it. -/
def Complete (item : Text → Except Failure (α × Text)) (grammar : Text → α → Prop) : Prop :=
  ∀ core held rest, grammar core held → Stops rest → item (core ++ rest) = .ok (held, rest)

/-- No item starts with what ends one. -/
def Starts (grammar : Text → α → Prop) : Prop :=
  ∀ core held, grammar core held → ∃ a tail, core = a :: tail ∧ ¬Ends a

variable {item : Text → Except Failure (α × Text)} {grammar : Text → α → Prop}
  {close : UInt8}

theorem Joined.space {all : List α} (hblank : Space blank)
    (hbody : Joined (Padded grammar) body all) : Joined (Padded grammar) (blank ++ body) all := by
  cases hbody with
  | one hitem =>
    obtain ⟨before, core, behind, hbefore, hbehind, hcore, rfl⟩ := hitem
    exact .one ⟨blank ++ before, core, behind, hblank.append hbefore, hbehind, hcore, by simp⟩
  | cons hitem hmore =>
    obtain ⟨before, core, behind, hbefore, hbehind, hcore, rfl⟩ := hitem
    rw [← List.append_assoc]
    exact .cons ⟨blank ++ before, core, behind, hblank.append hbefore, hbehind, hcore, by simp⟩
      hmore

theorem Joined.length_le {all : List α} (hbody : Joined grammar body all) :
    all.length ≤ body.length + 1 := by
  induction hbody with
  | one => simp
  | cons _ _ ih =>
    rw [List.length_cons, List.length_append, List.length_cons]
    omega

theorem readItems_sound {unended : String} (hsound : Sound item grammar) {all : List α}
    (h : readItems item close unended turns s = .ok (all, rest)) :
    ∃ body, s = body ++ close :: rest ∧ Joined (Padded grammar) body all := by
  induction turns generalizing s all with
  | zero => cases h
  | succ turns ih =>
    rw [readItems] at h
    obtain ⟨⟨held, behind⟩, hitem, hrest⟩ := Answers.of_bind h
    obtain ⟨before, core, hbefore, hcore, rfl⟩ := hsound _ _ _ hitem
    obtain ⟨blank, hblank, hbehind⟩ := skipSpace_spec behind
    have hpadded : Padded grammar (before ++ core ++ blank) held :=
      ⟨before, core, blank, hbefore, hblank, hcore, rfl⟩
    simp only at hrest
    split at hrest
    · cases hrest
    · next c after hafter =>
        rw [hafter] at hbehind
        split at hrest
        · next hcomma =>
            obtain ⟨⟨more, last⟩, hmore, hlast⟩ := Answers.of_bind hrest
            cases hlast
            obtain ⟨body, hbody, hjoined⟩ := ih hmore
            obtain ⟨blank', hblank', hspace⟩ := skipSpace_spec after
            refine ⟨before ++ core ++ blank ++ 44 :: (blank' ++ body), ?_,
              .cons hpadded (hjoined.space hblank')⟩
            rw [hbehind, hspace, hbody, hcomma]
            simp
        · split at hrest
          · next hclose =>
              cases hrest
              refine ⟨before ++ core ++ blank, ?_, .one hpadded⟩
              rw [hbehind, hclose]
              simp
          · cases hrest

theorem readBracketed_sound {unended : String} (hsound : Sound item grammar) {all : List α}
    (h : readBracketed item close unended s = .ok (all, rest)) :
    ∃ spelled, s = spelled ++ rest ∧ Bracketed grammar close spelled all := by
  obtain ⟨blank, hblank, hs⟩ := skipSpace_spec s
  rw [readBracketed] at h
  split at h
  · next hclose =>
      cases h
      refine ⟨blank ++ [close], ?_, blank, rfl, .inl ⟨hblank, rfl⟩⟩
      obtain ⟨tail, htail⟩ := List.head?_eq_some_iff.1 hclose
      rw [htail, List.tail_cons, List.append_assoc, List.singleton_append, ← htail, ← hs]
  · obtain ⟨body, hbody, hjoined⟩ := readItems_sound hsound h
    refine ⟨blank ++ body ++ [close], ?_, blank ++ body, rfl, .inr (hjoined.space hblank)⟩
    rw [List.append_assoc, List.append_assoc, List.singleton_append, ← hbody, ← hs]

theorem Padded.skip (hstarts : Starts grammar) {held : α} (h : Padded grammar s held) :
    ∃ core behind, Space behind ∧ grammar core held ∧
      ∀ rest, skipSpace (s ++ rest) = core ++ (behind ++ rest) := by
  obtain ⟨before, core, behind, hbefore, hbehind, hcore, rfl⟩ := h
  refine ⟨core, behind, hbehind, hcore, fun rest => ?_⟩
  obtain ⟨a, tail, rfl, ha⟩ := hstarts _ _ hcore
  rw [List.append_assoc, List.append_assoc, skipSpace_append hbefore, List.cons_append,
    skipSpace_cons (isSpace_of_not_ends ha)]

theorem readItems_turn (unended : String) (hcomplete : Complete item grammar) (hstarts : Starts grammar) {held : α} (h : Padded grammar s held) (hends : Ends c)
    (hspace : isSpace c = false) (rest : Text) :
    readItems item close unended (turns + 1) (skipSpace (s ++ c :: rest)) =
      if c = 44 then do
        let (more, s) ← readItems item close unended turns (skipSpace rest)
        .ok (held :: more, s)
      else if c = close then .ok ([held], rest)
      else reject .badText unended := by
  obtain ⟨core, behind, hbehind, hcore, hskip⟩ := h.skip hstarts
  rw [hskip, readItems, hcomplete _ _ _ hcore (stops_append hbehind hends rest)]
  simp only [bind, Except.bind]
  rw [skipSpace_append hbehind, skipSpace_cons hspace]

theorem readItems_complete (unended : String) (hcomplete : Complete item grammar) (hstarts : Starts grammar)
    (hclose : close = 93 ∨ close = 125) {all : List α}
    (hbody : Joined (Padded grammar) body all) (hturns : all.length ≤ turns) :
    readItems item close unended turns (skipSpace (body ++ close :: rest)) = .ok (all, rest) := by
  have hends : Ends close := .inr (.inr hclose)
  have hspace : isSpace close = false := by rcases hclose with rfl | rfl <;> rfl
  have hcomma : close ≠ 44 := by rcases hclose with rfl | rfl <;> decide
  induction hbody generalizing turns with
  | one hitem =>
    obtain ⟨turns, rfl⟩ : ∃ less, turns = less + 1 := ⟨turns - 1, by simp at hturns; omega⟩
    rw [readItems_turn unended hcomplete hstarts hitem hends hspace, if_neg hcomma, if_pos rfl]
  | @cons s s' held more hitem _ ih =>
    rw [List.length_cons] at hturns
    obtain ⟨turns, rfl⟩ : ∃ less, turns = less + 1 := ⟨turns - 1, by omega⟩
    rw [List.append_assoc, List.cons_append,
      readItems_turn unended hcomplete hstarts hitem (.inr (.inl rfl)) rfl, if_pos rfl, ih (by omega)]
    rfl

theorem Joined.skip_head (hstarts : Starts grammar) {all : List α}
    (hbody : Joined (Padded grammar) body all) (rest : Text) :
    ∃ a tail, skipSpace (body ++ rest) = a :: tail ∧ ¬Ends a := by
  cases hbody with
  | one hitem =>
    obtain ⟨core, behind, -, hcore, hskip⟩ := hitem.skip hstarts
    obtain ⟨a, tail, rfl, ha⟩ := hstarts _ _ hcore
    exact ⟨a, _, hskip rest, ha⟩
  | cons hitem _ =>
    obtain ⟨core, behind, -, hcore, hskip⟩ := hitem.skip hstarts
    obtain ⟨a, tail, rfl, ha⟩ := hstarts _ _ hcore
    rw [List.append_assoc]
    exact ⟨a, _, hskip _, ha⟩

theorem readBracketed_complete (unended : String) (hcomplete : Complete item grammar) (hstarts : Starts grammar)
    (hclose : close = 93 ∨ close = 125) {spelled : Text} {all : List α}
    (h : Bracketed grammar close spelled all) (rest : Text) :
    readBracketed item close unended (spelled ++ rest) = .ok (all, rest) := by
  obtain ⟨body, rfl, ⟨hblank, rfl⟩ | hbody⟩ := h
  · have hspace : isSpace close = false := by rcases hclose with rfl | rfl <;> rfl
    rw [List.append_assoc, List.singleton_append, readBracketed, skipSpace_append hblank,
      skipSpace_cons hspace, List.head?_cons, if_pos rfl, List.tail_cons]
  · rw [List.append_assoc, List.singleton_append, readBracketed]
    obtain ⟨a, tail, hskip, ha⟩ := hbody.skip_head hstarts (close :: rest)
    have hne : a ≠ close := by
      rintro rfl
      exact ha (.inr (.inr hclose))
    rw [if_neg (by simpa [hskip] using hne)]
    refine readItems_complete unended hcomplete hstarts hclose hbody (Nat.le_trans hbody.length_le ?_)
    simp

end Items

/-! ## Values -/

section Values

variable {c : Numerals}

theorem readMember_sound {inner : Text → Except Failure (Parsed × Text)}
    {value : Text → Parsed → Prop} (hinner : Sound inner value) :
    Sound (readMember inner) (MemberText value) := by
  intro s member rest h
  unfold readMember at h
  split at h
  · next s =>
      obtain ⟨⟨key, behind⟩, hkey, hrest⟩ := Answers.of_bind h
      obtain ⟨name, hname, hsplit⟩ := readStringText_sound hkey
      obtain ⟨blank, hblank, hbehind⟩ := skipSpace_spec behind
      simp only at hrest
      split at hrest
      · next after hafter =>
          obtain ⟨⟨held, last⟩, hheld, hlast⟩ := Answers.of_bind hrest
          cases hlast
          obtain ⟨before, core, hbefore, hcore, rfl⟩ := hinner _ _ _ hheld
          refine ⟨[], name ++ blank ++ 58 :: (before ++ core), nofun,
            ⟨name, blank, before, core, hname, hblank, hbefore, hcore, rfl⟩, ?_⟩
          rw [hsplit, hbehind, hafter]
          simp
      · cases hrest
  · cases h

theorem readMember_complete {inner : Text → Except Failure (Parsed × Text)}
    {value : Text → Parsed → Prop} (hinner : Complete inner value)
    (hspace : ∀ blank s, Space blank → inner (blank ++ s) = inner s) :
    Complete (readMember inner) (MemberText value) := by
  rintro s ⟨key, held⟩ rest ⟨name, blank, blank', core, hname, hblank, hblank', hcore, rfl⟩ hstops
  have hquoted := readStringText_complete hname (blank ++ 58 :: (blank' ++ core) ++ rest)
  obtain ⟨characters, -, rfl⟩ := hname
  simp only [List.cons_append, List.append_assoc, List.tail_cons] at hquoted ⊢
  simp only [readMember, hquoted, bind, Except.bind]
  rw [skipSpace_append hblank, skipSpace_cons (by rfl)]
  simp only [hspace _ _ hblank', hinner _ _ _ hcore hstops]

theorem readWord_sound (h : readWord s = some (made, rest)) :
    ∃ word ∈ words, made = word.2 ∧ s = word.1 ++ rest := by
  rw [readWord, Option.map_eq_some_iff] at h
  obtain ⟨word, hfind, hword⟩ := h
  obtain ⟨rfl, rfl⟩ := Prod.mk.inj hword
  refine ⟨word, List.mem_of_find?_eq_some hfind, rfl, ?_⟩
  have hprefix := List.find?_some hfind
  exact (List.prefix_iff_eq_append.1 (List.isPrefixOf_iff_prefix.1 hprefix)).symm

theorem words_eq :
    words = [([116, 114, 117, 101], .bool true), ([102, 97, 108, 115, 101], .bool false),
      ([110, 117, 108, 108], .null)] := by
  have htrue : Lexing.text "true" = [116, 114, 117, 101] := by decide_cbv
  have hfalse : Lexing.text "false" = [102, 97, 108, 115, 101] := by decide_cbv
  have hnull : Lexing.text "null" = [110, 117, 108, 108] := by decide_cbv
  rw [words, htrue, hfalse, hnull]

theorem readWord_complete {word : Text × Parsed} (hword : word ∈ words) (rest : Text) :
    readWord (word.1 ++ rest) = some (word.2, rest) := by
  rw [words_eq] at hword
  simp only [List.mem_cons, List.not_mem_nil, or_false] at hword
  rw [readWord, words_eq]
  rcases hword with rfl | rfl | rfl <;> simp [List.isPrefixOf]

theorem readWord_of_head (ht : a ≠ 116) (hf : a ≠ 102) (hn : a ≠ 110) (s : Text) :
    readWord (a :: s) = none := by
  rw [readWord, words_eq]
  simp [List.isPrefixOf, Ne.symm ht, Ne.symm hf, Ne.symm hn]

/-- What a number starts with. -/
def IsNumeric (a : UInt8) : Prop := isDecimalDigit a = true ∨ a = ascii '-' ∨ a = ascii '.'

theorem IsNumeric.spec (h : IsNumeric a) :
    ¬Ends a ∧ a ≠ 34 ∧ a ≠ 91 ∧ a ≠ 123 ∧ a ≠ 116 ∧ a ≠ 102 ∧ a ≠ 110 := by
  obtain hdigit | rfl | rfl := h
  · simp only [isDecimalDigit, Bool.and_eq_true, decide_eq_true_eq, UInt8.le_iff_toNat_le] at hdigit
    simp only [Ends, isSpace, Bool.or_eq_true, beq_iff_eq, ne_eq, ← UInt8.toNat_inj,
      UInt8.reduceToNat] at hdigit ⊢
    omega
  · decide
  · decide

theorem Spelling.IsLoose.head {n : Spelling} (h : n.IsLoose) :
    ∃ a tail, n.text = a :: tail ∧ IsNumeric a := by
  rw [Spelling.text_eq, Spelling.signText]
  cases n.minus with
  | true => exact ⟨ascii '-', _, rfl, .inr (.inl rfl)⟩
  | false =>
    cases hwhole : n.whole with
    | cons a digits => exact ⟨a, _, rfl, .inl (h.whole a (by simp [hwhole]))⟩
    | nil =>
      obtain hsome | ⟨digits, hfraction, -⟩ := h.some_digit
      · exact absurd hwhole hsome
      · refine ⟨ascii '.', digits ++ n.exponentText, ?_, .inr (.inr rfl)⟩
        simp [Spelling.fractionText, hfraction]

theorem starts_value (levels : Nat) : Starts (Value c (NumberText Spelling.IsLoose) levels) := by
  intro core held h
  cases levels with
  | zero => exact h.elim
  | succ levels =>
    cases h with
    | @word word hword =>
      rw [words_eq] at hword
      simp only [List.mem_cons, List.not_mem_nil, or_false] at hword
      rcases hword with rfl | rfl | rfl <;> exact ⟨_, _, rfl, by decide⟩
    | number hnumber =>
      obtain ⟨n, hn, rfl, -⟩ := hnumber
      obtain ⟨a, tail, htext, ha⟩ := hn.head
      exact ⟨a, tail, htext, ha.spec.1⟩
    | string hquoted =>
      obtain ⟨inside, -, rfl⟩ := hquoted
      exact ⟨34, _, rfl, by decide⟩
    | array => exact ⟨91, _, rfl, by decide⟩
    | object => exact ⟨123, _, rfl, by decide⟩

theorem starts_member (value : Text → Parsed → Prop) : Starts (MemberText value) := by
  rintro s member ⟨name, blank, blank', core, ⟨inside, -, rfl⟩, -, -, -, rfl⟩
  exact ⟨34, _, rfl, by decide⟩

theorem readValue_sound (levels : Nat) :
    Sound (readValue c levels) (Value c (NumberText Spelling.IsLoose) levels) := by
  induction levels with
  | zero =>
    intro s held rest h
    cases h
  | succ levels ih =>
    intro s held rest h
    obtain ⟨blank, hblank, hs⟩ := skipSpace_spec s
    rw [readValue] at h
    split at h
    · cases h
    · next behind hbehind =>
        obtain ⟨⟨members, last⟩, hmembers, hmade⟩ := Answers.of_map h
        cases hmade
        obtain ⟨spelled, rfl, hbracketed⟩ := readBracketed_sound (readMember_sound ih) hmembers
        exact ⟨blank, 123 :: spelled, hblank, .object hbracketed, by rw [hs, hbehind]; simp⟩
    · next behind hbehind =>
        obtain ⟨⟨elements, last⟩, helements, hmade⟩ := Answers.of_map h
        cases hmade
        obtain ⟨spelled, rfl, hbracketed⟩ := readBracketed_sound ih helements
        exact ⟨blank, 91 :: spelled, hblank, .array hbracketed, by rw [hs, hbehind]; simp⟩
    · next behind hbehind =>
        obtain ⟨⟨bytes, last⟩, hbytes, hmade⟩ := Answers.of_map h
        cases hmade
        obtain ⟨spelled, hquoted, hsplit⟩ := readStringText_sound hbytes
        refine ⟨blank, spelled, hblank, .string hquoted, ?_⟩
        rw [hs, hbehind, hsplit, List.append_assoc]
    · next hother =>
        split at h
        · next read hword =>
            cases h
            obtain ⟨word, hmem, rfl, hsplit⟩ := readWord_sound hword
            exact ⟨blank, word.1, hblank, .word hmem, by rw [hs, hsplit, List.append_assoc]⟩
        · obtain ⟨run, hsplit, hrun, rfl⟩ := readNumber_sound h
          exact ⟨blank, run, hblank, .number hrun, by rw [hs, hsplit, List.append_assoc]⟩

theorem readValue_skip (levels : Nat) (blank s : Text) (hblank : Space blank) :
    readValue c levels (blank ++ s) = readValue c levels s := by
  cases levels with
  | zero => rw [readValue_zero, readValue_zero]
  | succ levels => rw [readValue, readValue, skipSpace_append hblank]

theorem readValue_numeric (ha : IsNumeric a) (s : Text) :
    readValue c (levels + 1) (a :: s) = readNumber c (a :: s) := by
  obtain ⟨hends, hquote, hbracket, hbrace, ht, hf, hn⟩ := ha.spec
  rw [readValue, skipSpace_cons (isSpace_of_not_ends hends)]
  split
  · next hnil => cases hnil
  · next hhead => exact absurd (List.cons.inj hhead).1 hbrace
  · next hhead => exact absurd (List.cons.inj hhead).1 hbracket
  · next hhead => exact absurd (List.cons.inj hhead).1 hquote
  · rw [readWord_of_head ht hf hn]

theorem readValue_word {word : Text × Parsed} (hword : word ∈ words) (rest : Text) :
    readValue c (levels + 1) (word.1 ++ rest) = .ok (word.2, rest) := by
  have hread := readWord_complete hword rest
  rw [words_eq] at hword
  simp only [List.mem_cons, List.not_mem_nil, or_false] at hword
  rw [readValue]
  rcases hword with rfl | rfl | rfl <;>
  · simp only [List.cons_append, List.nil_append] at hread ⊢
    rw [skipSpace_cons (by rfl)]
    simp [hread]

theorem readValue_complete (levels : Nat) :
    Complete (readValue c levels) (Value c (NumberText Spelling.IsLoose) levels) := by
  induction levels with
  | zero =>
    intro core held rest h
    exact h.elim
  | succ levels ih =>
    intro core held rest h hstops
    cases h with
    | word hword => exact readValue_word hword rest
    | number hnumber =>
      obtain ⟨n, hn, rfl, hshort⟩ := hnumber
      obtain ⟨a, tail, htext, ha⟩ := hn.head
      rw [htext, List.cons_append, readValue_numeric ha, ← List.cons_append, ← htext]
      exact readNumber_complete ⟨n, hn, rfl, hshort⟩ hstops
    | string hquoted =>
      have hread := readStringText_complete hquoted rest
      obtain ⟨inside, -, rfl⟩ := hquoted
      rw [List.cons_append, List.tail_cons] at hread
      rw [List.cons_append, readValue, skipSpace_cons (by rfl)]
      simp only [hread]
      rfl
    | array hbracketed =>
      have hread := readBracketed_complete "an array with no end" ih
        (starts_value levels) (.inl rfl) hbracketed rest
      rw [List.cons_append, readValue, skipSpace_cons (by rfl)]
      simp only [readArray, hread]
      rfl
    | object hbracketed =>
      have hread := readBracketed_complete "an object with no end"
        (readMember_complete ih (readValue_skip levels)) (starts_member _) (.inr rfl)
        hbracketed rest
      rw [List.cons_append, readValue, skipSpace_cons (by rfl)]
      simp only [readObject, hread]
      rfl

theorem jsonDecode_eq_ok {text : Text} :
    jsonDecode c text = .ok made ↔ Document c (NumberText Spelling.IsLoose) text made := by
  obtain ⟨blank, hblank, htext⟩ := skipSpace_spec text
  constructor
  · intro h
    rw [jsonDecode] at h
    simp only at h
    split at h
    · cases h
    · next htop =>
        obtain ⟨⟨read, rest⟩, hread, hlast⟩ := Answers.of_bind h
        simp only at hlast
        split at hlast
        · cases hlast
        · next hend =>
            cases hlast
            obtain ⟨before, core, hbefore, hcore, hsplit⟩ := readValue_sound _ _ _ _ hread
            obtain ⟨a, tail, rfl, ha⟩ := starts_value _ _ _ hcore
            have hskip := skipSpace_skipSpace text
            rw [hsplit, List.append_assoc, skipSpace_append hbefore, List.cons_append,
              skipSpace_cons (isSpace_of_not_ends ha)] at hskip
            obtain ⟨blank', hblank', hrest⟩ := skipSpace_spec rest
            rw [Decidable.not_not.1 hend, List.append_nil] at hrest
            refine ⟨blank ++ before, a :: tail, rest, hblank.append hbefore, hrest ▸ hblank', hcore,
              ?_, ?_⟩
            · have hhead : (skipSpace text).head? = some a := by
                rw [hsplit, List.append_assoc, List.cons_append, ← hskip, List.head?_cons]
              rw [hhead] at htop
              exact Decidable.or_iff_not_not_and_not.2 htop
            · rw [List.append_assoc, List.append_assoc, ← List.append_assoc before, ← hsplit,
                ← htext]
  · rintro ⟨before, core, behind, hbefore, hbehind, hcore, htop, rfl⟩
    obtain ⟨a, tail, rfl, ha⟩ := starts_value _ _ _ hcore
    have hskip : skipSpace (before ++ a :: tail ++ behind) = a :: tail ++ behind := by
      rw [List.append_assoc, skipSpace_append hbefore, List.cons_append,
        skipSpace_cons (isSpace_of_not_ends ha)]
    have hstops : Stops behind := by
      intro d hd
      exact .inl (hbehind d (List.mem_of_mem_head? hd))
    have hnil : skipSpace behind = [] := by
      rw [← List.append_nil behind, skipSpace_append hbehind]
      rfl
    have hopen : ¬((a :: tail ++ behind).head? ≠ some 123 ∧ (a :: tail ++ behind).head? ≠ some 91) :=
      Decidable.or_iff_not_not_and_not.1 htop
    rw [jsonDecode, hskip]
    simp only
    rw [if_neg hopen, readValue_complete _ _ _ _ hcore hstops]
    simp only [bind, Except.bind]
    rw [if_neg (by simp [hnil])]

end Values

/-! ## What is accepted beyond JSON -/

/-- JSON is accepted and nothing else is, unless a number is spelled as JSON does not spell
one (`Spelling.isStrict_iff`). -/
theorem accepts_json_iff (c : Numerals) (text : Text) :
    ((∃ made, jsonDecode c text = .ok made) ↔
        ∃ made, Document c (NumberText Spelling.IsStrict) text made) ↔
      ((∃ made, Document c (NumberText Spelling.IsLoose) text made) →
        ∃ made, Document c (NumberText Spelling.IsStrict) text made) := by
  simp only [jsonDecode_eq_ok]
  exact ⟨fun h => h.1, fun h => ⟨h, fun ⟨made, hmade⟩ => ⟨made, hmade.loose⟩⟩⟩

theorem not_strict_leading {digit : UInt8} (hdigit : isDecimalDigit digit = true) (rest : Text) :
    ¬NumberText Spelling.IsStrict (ascii '0' :: digit :: rest) := by
  rintro ⟨n, hn, htext, -⟩
  rw [Spelling.text_eq, Spelling.signText] at htext
  obtain ⟨a, digits, hwhole⟩ := List.exists_cons_of_ne_nil hn.whole_digit
  cases hminus : n.minus with
  | true =>
    rw [hminus, if_pos rfl] at htext
    exact absurd (List.cons.inj htext).1 (by decide)
  | false =>
    rw [hminus, if_neg (by simp), List.nil_append, hwhole, List.cons_append] at htext
    obtain rfl := (List.cons.inj htext).1
    have hzero := hn.no_leading_zero (by rw [hwhole, List.head?_cons])
    obtain rfl : digits = [] := (List.cons.inj (hwhole.symm.trans hzero)).2
    have hhead := hn.head_fraction digit
    rw [← List.nil_append (n.fractionText ++ n.exponentText), (List.cons.inj htext).2] at hhead
    rw [hhead rfl] at hdigit
    cases hdigit

theorem Padded.of_solid {α : Type} {grammar : Text → α → Prop} {held : α}
    (h : Padded grammar s held) (hsolid : ∀ c ∈ s, isSpace c = false) : grammar s held := by
  obtain ⟨before, core, behind, hbefore, hbehind, hcore, rfl⟩ := h
  have hnil {blank : Text} (hblank : Space blank) (hmem : ∀ c ∈ blank, isSpace c = false) :
      blank = [] := by
    refine List.eq_nil_iff_forall_not_mem.2 fun c hc => ?_
    have := hmem c hc
    rw [hblank c hc] at this
    cases this
  rw [hnil hbefore fun c hc => hsolid c (by simp [hc]),
    hnil hbehind fun c hc => hsolid c (by simp [hc]), List.nil_append, List.append_nil]
  exact hcore

theorem Joined.of_no_comma {α : Type} {grammar : Text → α → Prop} {all : List α}
    (h : Joined grammar s all) (hcomma : 44 ∉ s) : ∃ held, grammar s held := by
  cases h with
  | one hitem => exact ⟨_, hitem⟩
  | cons => exact absurd (by simp) hcomma

theorem Value.bracketed_of_head {c : Numerals} {number : Text → Prop} {tail : Text} (h : Value c number levels (91 :: tail) made)
    (hnumber : ¬number (91 :: tail)) :
    ∃ inner elements, Bracketed (Value c number inner) 93 tail elements := by
  cases levels with
  | zero => exact h.elim
  | succ levels =>
    generalize hs : (91 : UInt8) :: tail = s at h hnumber
    cases h with
    | word hword =>
      rw [words_eq] at hword
      simp only [List.mem_cons, List.not_mem_nil, or_false] at hword
      rcases hword with rfl | rfl | rfl <;> cases hs
    | number h => exact absurd h hnumber
    | string h =>
      obtain ⟨held, -, rfl⟩ := h
      cases hs
    | array h =>
      cases hs
      exact ⟨levels, _, h⟩
    | object => cases hs

theorem Value.number_of_head {c : Numerals} {number : Text → Prop} {tail : Text}
    (h : Value c number levels (a :: tail) made) (ha : IsNumeric a) : number (a :: tail) := by
  obtain ⟨-, hquote, hbracket, hbrace, ht, hf, hn⟩ := ha.spec
  cases levels with
  | zero => exact h.elim
  | succ levels =>
    generalize hs : a :: tail = s at h
    cases h with
    | word hword =>
      rw [words_eq] at hword
      simp only [List.mem_cons, List.not_mem_nil, or_false] at hword
      rcases hword with rfl | rfl | rfl <;> cases hs <;> contradiction
    | number h => exact h
    | string h =>
      obtain ⟨held, -, rfl⟩ := h
      exact absurd (List.cons.inj hs).1 hquote
    | array => exact absurd (List.cons.inj hs).1 hbracket
    | object => exact absurd (List.cons.inj hs).1 hbrace

theorem not_number_bracket (tail : Text) : ¬NumberText Spelling.IsStrict (91 :: tail) := by
  rintro ⟨n, hn, htext, -⟩
  obtain ⟨a, rest, hhead, ha⟩ := hn.isLoose.head
  rw [hhead] at htext
  exact ha.spec.2.2.1 (List.cons.inj htext).1

theorem accepts_json_fails :
    ¬((∃ made, jsonDecode ⟨fun _ => ⟨0⟩, fun _ _ => []⟩ (Lexing.text "[01]") = .ok made) ↔
      ∃ made, Document ⟨fun _ => ⟨0⟩, fun _ _ => []⟩ (NumberText Spelling.IsStrict)
        (Lexing.text "[01]") made) := by
  have htext : Lexing.text "[01]" = [91, 48, 49, 93] := by decide +kernel
  have hread : (jsonDecode ⟨fun _ => ⟨0⟩, fun _ _ => []⟩ [91, 48, 49, 93]).isOk = true := by
    decide +kernel
  rw [htext]
  intro hiff
  obtain ⟨made, before, core, behind, hbefore, -, hcore, htop, hsplit⟩ := hiff.1 <| by
    cases hmade : jsonDecode ⟨fun _ => ⟨0⟩, fun _ _ => []⟩ [91, 48, 49, 93] with
    | ok made => exact ⟨made, rfl⟩
    | error failure => simp [hmade, Except.isOk, Except.toBool] at hread
  obtain rfl : before = [] := by
    cases before with
    | nil => rfl
    | cons a before =>
      have ha := hbefore a (by simp)
      rw [← (List.cons.inj hsplit).1] at ha
      cases ha
  obtain ⟨a, tail, rfl⟩ : ∃ a tail, core = a :: tail := by
    cases core with
    | nil => simp at htop
    | cons a tail => exact ⟨a, tail, rfl⟩
  obtain rfl : 91 = a := (List.cons.inj hsplit).1
  obtain ⟨inner, elements, body, rfl, hbody⟩ := hcore.bracketed_of_head (not_number_bracket _)
  obtain rfl : body = [48, 49] := by
    rcases body with _ | ⟨b, _ | ⟨b', _ | ⟨b'', body⟩⟩⟩ <;> simp at hsplit
    rw [← hsplit.1, ← hsplit.2.1]
  obtain ⟨hblank, -⟩ | hjoined := hbody
  · exact absurd (hblank 48 (by simp)) (by decide)
  · obtain ⟨held, hheld⟩ := hjoined.of_no_comma (by decide)
    have hvalue := hheld.of_solid
      (List.forall_mem_cons.2 ⟨by decide, List.forall_mem_singleton.2 (by decide)⟩)
    exact not_strict_leading (by decide) [] (hvalue.number_of_head (.inl (by decide)))
end Lhat.Json
