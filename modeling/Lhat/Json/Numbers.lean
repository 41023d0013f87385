import Lhat.Json.Grammar

/-!
# The numbers that are read

The run of bytes that is taken for a number is read as one exactly where it is a number
of the looser kind.
-/

namespace Lhat.Json

open Lexing (Text ascii isDecimalDigit forall_byte)

variable {s rest digits run : Text} {c : Numerals}

/-! ## The run -/

/-- Each byte goes on with the number, behind the one before it. -/
def Runs : UInt8 → Text → Prop
  | _, [] => True
  | previous, c :: rest => inNumber previous c = true ∧ Runs c rest

theorem numberRun_isPrefix (previous : UInt8) (s : Text) : numberRun previous s <+: s := by
  induction s generalizing previous with
  | nil => exact List.prefix_rfl
  | cons c rest ih =>
    rw [numberRun]
    split
    · exact (List.prefix_cons_inj c).2 (ih c)
    · exact List.nil_prefix

theorem numberText_isPrefix (s : Text) : numberText s <+: s := by
  cases s with
  | nil => exact List.prefix_rfl
  | cons c rest =>
    rw [numberText]
    split
    · exact (List.prefix_cons_inj c).2 (numberRun_isPrefix c rest)
    · exact numberRun_isPrefix 0 (c :: rest)

theorem inNumber_of_ends (previous : UInt8) {c : UInt8} (hends : Ends c) : inNumber previous c = false := by
  have hbyte : (((c = 32 ∨ c = 9) ∨ c = 10) ∨ c = 13) ∨ c = 44 ∨ c = 93 ∨ c = 125 := by
    simpa [Ends, isSpace] using hends
  rcases hbyte with (((rfl | rfl) | rfl) | rfl) | rfl | rfl | rfl <;> rfl

theorem numberRun_append {previous : UInt8} (hruns : Runs previous s)
    (hstops : Stops rest) : numberRun previous (s ++ rest) = s := by
  induction s generalizing previous with
  | nil =>
    cases rest with
    | nil => rfl
    | cons c rest =>
      rw [List.nil_append, numberRun, if_neg]
      simp [inNumber_of_ends previous (hstops c rfl)]
  | cons c s ih => rw [List.cons_append, numberRun, if_pos hruns.1, ih hruns.2]

theorem runs_digits (hdigits : AllDigits digits) (hs : ∀ previous, Runs previous s)
    (previous : UInt8) : Runs previous (digits ++ s) := by
  induction digits generalizing previous with
  | nil => exact hs previous
  | cons c digits ih =>
    refine ⟨by simp [inNumber, hdigits c (by simp)], ih (fun d hd => hdigits d (by simp [hd])) c⟩

/-! ## Digits -/

theorem digits_split (hdigits : AllDigits digits) (hs : ∀ c ∈ s.head?, isDecimalDigit c = false) :
    (digits ++ s).takeWhile isDecimalDigit = digits ∧
      (digits ++ s).dropWhile isDecimalDigit = s := by
  rw [List.takeWhile_append_of_pos hdigits, List.dropWhile_append_of_pos hdigits]
  cases s with
  | nil => simp
  | cons c rest => simp [hs c rfl]

theorem allDigits_takeWhile (s : Text) : AllDigits (s.takeWhile isDecimalDigit) :=
  List.all_eq_true.1 List.all_takeWhile

theorem unsigned_spec (s : Text) :
    ∃ sign, (sign = [] ∨ sign = [ascii '+'] ∨ sign = [ascii '-']) ∧ s = sign ++ unsigned s := by
  unfold unsigned
  split
  · next hsign =>
      cases s with
      | nil => simp at hsign
      | cons c rest =>
        rcases hsign with hminus | hplus
        · cases hminus
          exact ⟨_, .inr (.inr rfl), rfl⟩
        · cases hplus
          exact ⟨_, .inr (.inl rfl), rfl⟩
  · exact ⟨[], .inl rfl, rfl⟩

theorem unsigned_of_head (hminus : s.head? ≠ some (ascii '-'))
    (hplus : s.head? ≠ some (ascii '+')) : unsigned s = s := by
  rw [unsigned, if_neg (by simp [hminus, hplus])]

theorem digit_ne_sign {c : UInt8} (hdigit : isDecimalDigit c = true) :
    c ≠ ascii '-' ∧ c ≠ ascii '+' ∧ c ≠ ascii '.' ∧ c ≠ ascii 'e' ∧ c ≠ ascii 'E' :=
  forall_byte (p := fun c => isDecimalDigit c = true →
    c ≠ ascii '-' ∧ c ≠ ascii '+' ∧ c ≠ ascii '.' ∧ c ≠ ascii 'e' ∧ c ≠ ascii 'E')
    (by decide) c hdigit

theorem unsigned_digits (hdigits : AllDigits digits) : unsigned digits = digits := by
  cases digits with
  | nil => rfl
  | cons c rest =>
    have hc := digit_ne_sign (hdigits c (by simp))
    exact unsigned_of_head (by simpa using hc.1) (by simpa using hc.2.1)

theorem unsigned_sign {sign : Text} (hsign : sign = [] ∨ sign = [ascii '+'] ∨ sign = [ascii '-'])
    (hdigits : AllDigits digits) : unsigned (sign ++ digits) = digits := by
  rcases hsign with rfl | rfl | rfl
  · exact unsigned_digits hdigits
  · simp [unsigned]
  · simp [unsigned]

/-! ## What is written is read -/

namespace Spelling

variable {n : Spelling}

theorem Formed.runs_exponent (h : n.Formed) (previous : UInt8) : Runs previous n.exponentText := by
  rw [exponentText]
  cases hexponent : n.exponent with
  | none => exact trivial
  | some exponent =>
    obtain ⟨letter, sign, digits⟩ := exponent
    obtain ⟨hletter, hsign, -, hdigits⟩ := h.exponent _ _ _ hexponent
    have hbehind (previous : UInt8) : Runs previous digits := by
      rw [← List.append_nil digits]
      exact runs_digits (s := []) hdigits (fun _ => trivial) previous
    refine ⟨by rcases hletter with rfl | rfl <;> simp [inNumber], ?_⟩
    rcases hsign with rfl | rfl | rfl
    · exact hbehind letter
    · exact ⟨by rcases hletter with rfl | rfl <;> simp [inNumber], hbehind _⟩
    · exact ⟨by rcases hletter with rfl | rfl <;> simp [inNumber], hbehind _⟩

theorem Formed.runs_fraction (h : n.Formed) (previous : UInt8) :
    Runs previous (n.fractionText ++ n.exponentText) := by
  rw [fractionText]
  cases hfraction : n.fraction with
  | none => exact h.runs_exponent previous
  | some digits =>
    exact ⟨by simp [inNumber], runs_digits (h.fraction _ hfraction) h.runs_exponent _⟩

theorem Formed.runs (h : n.Formed) (previous : UInt8) :
    Runs previous (n.whole ++ (n.fractionText ++ n.exponentText)) :=
  runs_digits h.whole h.runs_fraction previous

theorem Formed.head_exponent (h : n.Formed) :
    ∀ c ∈ n.exponentText.head?, isDecimalDigit c = false ∧ c ≠ ascii '.' := by
  intro c hc
  rw [exponentText] at hc
  cases hexponent : n.exponent with
  | none => simp [hexponent] at hc
  | some exponent =>
    obtain ⟨letter, sign, digits⟩ := exponent
    obtain ⟨hletter, -⟩ := h.exponent _ _ _ hexponent
    obtain rfl : letter = c := by simpa [hexponent] using hc
    rcases hletter with rfl | rfl <;> decide

theorem Formed.head_fraction (h : n.Formed) :
    ∀ c ∈ (n.fractionText ++ n.exponentText).head?, isDecimalDigit c = false := by
  rw [fractionText]
  cases hfraction : n.fraction with
  | none => exact fun c hc => (h.head_exponent c hc).1
  | some digits =>
    intro c hc
    obtain rfl : ascii '.' = c := by simpa using hc
    decide

theorem IsLoose.head_body (h : n.IsLoose) :
    ∃ c rest, n.whole ++ (n.fractionText ++ n.exponentText) = c :: rest ∧
      c ≠ ascii '-' ∧ c ≠ ascii '+' := by
  cases hwhole : n.whole with
  | cons c digits =>
    have hc := digit_ne_sign (h.whole c (by simp [hwhole]))
    exact ⟨c, _, rfl, hc.1, hc.2.1⟩
  | nil =>
    obtain hsome | ⟨digits, hfraction, -⟩ := h.some_digit
    · exact absurd hwhole hsome
    · exact ⟨ascii '.', _, by simp [fractionText, hfraction]; rfl, by decide, by decide⟩

theorem text_eq (n : Spelling) :
    n.text = n.signText ++ (n.whole ++ (n.fractionText ++ n.exponentText)) := by
  simp [text]

theorem IsLoose.numberText_append (h : n.IsLoose) (hstops : Stops rest) :
    numberText (n.text ++ rest) = n.text := by
  obtain ⟨c, body, hbody, hminus, -⟩ := h.head_body
  have hruns := h.runs
  rw [text_eq, hbody, signText]
  rw [hbody] at hruns
  cases n.minus with
  | true =>
    simp only [if_true, List.cons_append, List.nil_append, numberText]
    rw [← List.cons_append, numberRun_append (hruns _) hstops]
  | false =>
    simp only [Bool.false_eq_true, if_false, List.cons_append, List.nil_append, numberText]
    rw [if_neg hminus, ← List.cons_append, numberRun_append (hruns _) hstops]

theorem IsLoose.unsigned_text (h : n.IsLoose) :
    unsigned n.text = n.whole ++ (n.fractionText ++ n.exponentText) := by
  obtain ⟨c, body, hbody, hminus, hplus⟩ := h.head_body
  rw [text_eq, hbody, signText]
  cases n.minus with
  | true => simp [unsigned]
  | false => exact unsigned_of_head (by simpa using hminus) (by simpa using hplus)

theorem Formed.behindExponent_eq_nil (h : n.Formed) : behindExponent n.exponentText = [] := by
  rw [exponentText]
  cases hexponent : n.exponent with
  | none => rfl
  | some exponent =>
    obtain ⟨letter, sign, digits⟩ := exponent
    obtain ⟨hletter, hsign, hsome, hdigits⟩ := h.exponent _ _ _ hexponent
    have hsplit := digits_split (s := []) hdigits (by simp)
    rw [List.append_nil] at hsplit
    simp [behindExponent, unsigned_sign hsign hdigits, hsplit, hletter, hsome]

theorem IsLoose.strtodStop_eq_nil (h : n.IsLoose) : strtodStop n.text = [] := by
  obtain ⟨hwhole, hbehind⟩ := digits_split h.whole h.head_fraction
  rw [strtodStop, h.unsigned_text, hwhole, hbehind]
  cases hfraction : n.fraction with
  | none =>
    have hwhole : n.whole ≠ [] := by
      obtain hsome | ⟨digits, hsome, -⟩ := h.some_digit
      · exact hsome
      · simp [hfraction] at hsome
    have hpoint : n.exponentText.head? ≠ some (ascii '.') := fun hpoint =>
      (h.head_exponent _ hpoint).2 rfl
    simp [fractionText, hfraction, hpoint, hwhole, h.behindExponent_eq_nil]
  | some digits =>
    obtain ⟨hdigits, hexponent⟩ := digits_split (h.fraction _ hfraction)
      fun c hc => (h.head_exponent c hc).1
    have hsome : ¬(n.whole = [] ∧ digits = []) := by
      rintro ⟨hwhole, hnone⟩
      obtain hsome | ⟨digits', hsome, hsome'⟩ := h.some_digit
      · exact hsome hwhole
      · rw [hfraction] at hsome
        exact hsome' (Option.some.inj hsome ▸ hnone)
    simp [fractionText, hfraction, hdigits, hexponent, hsome, h.behindExponent_eq_nil]

end Spelling

/-! ## What is read is written -/

theorem exponent_of_behind (hnil : behindExponent s = []) :
    s = [] ∨ ∃ letter sign digits, s = letter :: (sign ++ digits) ∧
      (letter = ascii 'e' ∨ letter = ascii 'E') ∧
      (sign = [] ∨ sign = [ascii '+'] ∨ sign = [ascii '-']) ∧ digits ≠ [] ∧ AllDigits digits := by
  cases s with
  | nil => exact .inl rfl
  | cons letter behind =>
    rw [behindExponent] at hnil
    split at hnil
    · next hletter =>
        obtain ⟨sign, hsign, hbehind⟩ := unsigned_spec behind
        have hsplit := List.takeWhile_append_dropWhile (p := isDecimalDigit) (l := unsigned behind)
        rw [hnil, List.append_nil] at hsplit
        refine .inr ⟨letter, sign, unsigned behind, by rw [← hbehind], hletter.1, hsign, ?_, ?_⟩
        · rw [← hsplit]
          exact hletter.2
        · rw [← hsplit]
          exact allDigits_takeWhile _
    · cases hnil

theorem sign_of_head (hplus : run.head? ≠ some (ascii '+')) :
    ∃ minus : Bool, run = (if minus then [ascii '-'] else []) ++ unsigned run := by
  obtain ⟨sign, rfl | rfl | rfl, hrun⟩ := unsigned_spec run
  · exact ⟨false, hrun⟩
  · rw [hrun] at hplus
    exact absurd rfl hplus
  · exact ⟨true, hrun⟩

theorem spelling_of_behind (minus : Bool) {whole : Text} (fraction : Option Text) {behind : Text}
    (hwhole : AllDigits whole) (hfraction : ∀ digits ∈ fraction, AllDigits digits)
    (hsome : whole ≠ [] ∨ ∃ digits, fraction = some digits ∧ digits ≠ [])
    (hstop : behindExponent behind = []) :
    ∃ n : Spelling, n.IsLoose ∧ n.minus = minus ∧ n.whole = whole ∧ n.fraction = fraction ∧
      n.exponentText = behind := by
  obtain rfl | ⟨letter, sign, digits, rfl, hletter, hsign, hdigits, hall⟩ := exponent_of_behind hstop
  · exact ⟨⟨minus, whole, fraction, none⟩, ⟨⟨hwhole, hfraction, nofun⟩, hsome⟩, rfl, rfl, rfl, rfl⟩
  · refine ⟨⟨minus, whole, fraction, some (letter, sign, digits)⟩,
      ⟨⟨hwhole, hfraction, ?_⟩, hsome⟩, rfl, rfl, rfl, rfl⟩
    rintro _ _ _ ⟨⟩
    exact ⟨hletter, hsign, hdigits, hall⟩

theorem loose_of_strtodStop (hsome : run ≠ []) (hplus : run.head? ≠ some (ascii '+'))
    (hstop : strtodStop run = []) : ∃ n : Spelling, n.IsLoose ∧ n.text = run := by
  obtain ⟨minus, hrun⟩ := sign_of_head hplus
  have hbody := List.takeWhile_append_dropWhile (p := isDecimalDigit) (l := unsigned run)
  unfold strtodStop at hstop
  by_cases hpoint : ((unsigned run).dropWhile isDecimalDigit).head? = some (ascii '.')
  · obtain ⟨behind, hbehind⟩ := List.head?_eq_some_iff.1 hpoint
    have hfraction := List.takeWhile_append_dropWhile (p := isDecimalDigit) (l := behind)
    simp only [hbehind, List.head?_cons, if_true, List.tail_cons] at hstop
    split at hstop
    · exact absurd hstop hsome
    · next hdigits =>
        obtain ⟨n, hn, hminus, hwhole, hpart, hexponent⟩ :=
          spelling_of_behind minus (some (behind.takeWhile isDecimalDigit))
            (allDigits_takeWhile (unsigned run))
            (by simpa using allDigits_takeWhile behind)
            (by simpa [Classical.or_iff_not_imp_left] using hdigits) hstop
        refine ⟨n, hn, ?_⟩
        rw [Spelling.text_eq, Spelling.signText, Spelling.fractionText, hminus, hwhole, hpart,
          hexponent]
        simp only [Option.map_some, Option.getD_some, List.cons_append]
        rw [hfraction, ← hbehind, hbody, ← hrun]
  · simp only [if_neg hpoint, and_true] at hstop
    split at hstop
    · exact absurd hstop hsome
    · next hdigits =>
        obtain ⟨n, hn, hminus, hwhole, hpart, hexponent⟩ :=
          spelling_of_behind minus none (allDigits_takeWhile (unsigned run)) nofun (.inl hdigits) hstop
        refine ⟨n, hn, ?_⟩
        rw [Spelling.text_eq, Spelling.signText, Spelling.fractionText, hminus, hwhole, hpart,
          hexponent]
        simp only [Option.map_none, Option.getD_none, List.nil_append]
        rw [hbody, ← hrun]

theorem strtodStop_of_strtoll (hsome : run ≠ []) (hstop : (strtoll run).2 = []) :
    strtodStop run = [] := by
  rw [strtoll] at hstop
  split at hstop
  · exact absurd hstop hsome
  · next hdigits =>
      simp only at hstop
      simp [strtodStop, hstop, hdigits, behindExponent]

theorem numberText_head (s : Text) : (numberText s).head? ≠ some (ascii '+') := by
  cases s with
  | nil => simp [numberText]
  | cons c rest =>
    rw [numberText]
    split
    · next hminus =>
        rw [hminus, List.head?_cons]
        decide
    · rw [numberRun]
      split
      · next hin =>
          intro hplus
          obtain rfl : c = ascii '+' := by simpa using hplus
          exact absurd hin (by decide)
      · simp

theorem readNumber_eq_ok {made : Parsed} :
    readNumber c s = .ok (made, rest) ↔
      numberText s ≠ [] ∧ (numberText s).length < 64 ∧ strtodStop (numberText s) = [] ∧
        made = numberValue c (numberText s) ∧ rest = s.drop (numberText s).length := by
  unfold readNumber numberValue reject
  by_cases hnil : numberText s = []
  · simp [hnil]
  by_cases hlong : 64 ≤ (numberText s).length
  · simp [hnil, hlong]
  by_cases hwhole : isIntegral (numberText s) ∧ (strtoll (numberText s)).2 = [] ∧
      -2 ^ 63 ≤ (strtoll (numberText s)).1 ∧ (strtoll (numberText s)).1 < 2 ^ 63
  · simp only [if_neg hnil, if_neg hlong, if_pos hwhole, Except.ok.injEq, Prod.mk.injEq]
    have hstop := strtodStop_of_strtoll hnil hwhole.2.1
    constructor
    · rintro ⟨rfl, rfl⟩
      exact ⟨hnil, by omega, hstop, rfl, rfl⟩
    · rintro ⟨-, -, -, rfl, rfl⟩
      exact ⟨rfl, rfl⟩
  · simp only [if_neg hnil, if_neg hlong, if_neg hwhole]
    by_cases hstop : strtodStop (numberText s) = []
    · rw [if_neg (by simpa [hstop] using Ne.symm hnil)]
      simp only [Except.ok.injEq, Prod.mk.injEq]
      constructor
      · rintro ⟨rfl, rfl⟩
        exact ⟨hnil, by omega, hstop, rfl, rfl⟩
      · rintro ⟨-, -, -, rfl, rfl⟩
        exact ⟨rfl, rfl⟩
    · simp [hstop]

theorem readNumber_sound {made : Parsed} (h : readNumber c s = .ok (made, rest)) :
    ∃ run, s = run ++ rest ∧ NumberText Spelling.IsLoose run ∧ made = numberValue c run := by
  obtain ⟨hsome, hshort, hstop, hmade, hrest⟩ := readNumber_eq_ok.1 h
  obtain ⟨n, hn, htext⟩ := loose_of_strtodStop hsome (numberText_head s) hstop
  refine ⟨numberText s, ?_, ⟨n, hn, htext, hshort⟩, hmade⟩
  rw [hrest]
  exact (List.prefix_iff_eq_append.1 (numberText_isPrefix s)).symm

theorem readNumber_complete (hrun : NumberText Spelling.IsLoose run) (hstops : Stops rest) :
    readNumber c (run ++ rest) = .ok (numberValue c run, rest) := by
  obtain ⟨n, hn, rfl, hshort⟩ := hrun
  have hrun := hn.numberText_append hstops
  obtain ⟨first, body, hbody, -⟩ := hn.head_body
  refine readNumber_eq_ok.2 ?_
  rw [hrun]
  refine ⟨?_, hshort, hn.strtodStop_eq_nil, rfl, by simp⟩
  rw [Spelling.text_eq, hbody]
  simp

end Lhat.Json
