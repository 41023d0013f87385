import Lhat.Numerals.Grammar
import Lhat.Lton.Numbers

/-!
# Reading a literal

The reader goes through the parts of a literal one after another. A literal that stands in front of a
text is read to its end, and what is read to its end without an error is one that stands.
-/

namespace Lhat.Numerals

open Lexing
open Lton (byteAt_append byteAt_zero)

variable {f e w : Text} {base : Nat} {m c : UInt8}

/-! ### A literal that stands is read -/

section Standing

variable {w rest : Text}

theorem finishLiteral_append (p rest : Text) (base : Nat) (isFloat : Bool) :
    finishLiteral (p ++ rest) base isFloat false p.length =
      finishLiteral p base isFloat false p.length := by
  unfold finishLiteral literalDigits
  rw [List.take_left, List.take_length]

theorem headD_ne {b : UInt8} (hb : b ≠ 0) (h : rest.head? ≠ some b) : rest.headD 0 ≠ b := by
  cases rest with
  | nil => exact hb.symm
  | cons c rest => exact fun hc => h (congrArg some hc)

theorem exponentLiteral_reads {a : Text} (he : Exponent e)
    (hrest : ∀ c ∈ rest.head?, ¬ RunByte 10 c)
    (hnone : e = [] → rest.head? ≠ some (ascii 'e') ∧ rest.head? ≠ some (ascii 'E'))
    (isFloat : Bool) :
    exponentLiteral (a ++ (e ++ rest)) isFloat false a.length =
      finishLiteral (a ++ e) 10 (isFloat || !e.isEmpty) false (a ++ e).length := by
  cases he with
  | none =>
    have hhead : byteAt (a ++ ([] ++ rest)) a.length = rest.headD 0 :=
      (byteAt_append rfl 0).trans (byteAt_zero _)
    have hplain := hnone rfl
    unfold exponentLiteral
    rw [hhead, if_neg (not_or.mpr ⟨headD_ne (by decide) hplain.1, headD_ne (by decide) hplain.2⟩)]
    rw [List.nil_append, finishLiteral_append, List.append_nil]
    simp
  | @some b sign digits hb hsign hdigits =>
    obtain ⟨d, tail, hd, hdigit⟩ := hdigits.head
    obtain ⟨count, -, hscan⟩ := hdigits.scan hrest false
    have hhead : byteAt (a ++ (b :: (sign ++ digits) ++ rest)) a.length = b :=
      byteAt_append rfl 0
    have hsigned : (if byteAt (a ++ (b :: (sign ++ digits) ++ rest)) (a.length + 1) = ascii '+' ∨
        byteAt (a ++ (b :: (sign ++ digits) ++ rest)) (a.length + 1) = ascii '-' then 1 else 0) =
        sign.length := by
      rw [byteAt_append rfl]
      obtain rfl | rfl | rfl := hsign
      · rw [hd, if_neg]
        · rfl
        · rintro (h | h)
          all_goals
            have h : d = _ := h
            rw [h] at hdigit
            exact absurd hdigit (by decide)
      · rfl
      · rfl
    have hplace : a.length + 1 + sign.length = (a ++ b :: sign).length := by
      simp only [List.length_append, List.length_cons]
      omega
    have hafter : a ++ (b :: (sign ++ digits) ++ rest) = (a ++ b :: sign) ++ (digits ++ rest) := by
      simp
    unfold exponentLiteral
    rw [hhead, if_pos hb]
    simp only [hsigned]
    rw [hplace, hafter, show byteAt ((a ++ b :: sign) ++ (digits ++ rest)) (a ++ b :: sign).length = d
      from (byteAt_append rfl 0).trans (by rw [hd]; rfl),
      if_pos (show isDecimalDigit d = true from hdigit), List.drop_left, hscan]
    simp only [Bool.or_false, List.isEmpty_cons, Bool.not_false, Bool.or_true]
    rw [← List.append_assoc, ← List.length_append, finishLiteral_append]
    simp

theorem fractionLiteral_reads (hf : Fraction f) (hrest : ∀ c ∈ rest.head?, ¬ RunByte 10 c)
    (hnone : f = [] → ∀ c tail, rest = ascii '.' :: c :: tail → isDigitOfBase c 10 = false) :
    fractionLiteral (w ++ (f ++ rest)) false w.length =
      exponentLiteral ((w ++ f) ++ rest) (!f.isEmpty) false (w ++ f).length := by
  cases hf with
  | none =>
    have hhead : ∀ k, byteAt (w ++ ([] ++ rest)) (w.length + k) = byteAt rest k :=
      fun k => byteAt_append rfl k
    unfold fractionLiteral
    rw [show byteAt (w ++ ([] ++ rest)) w.length = byteAt rest 0 from hhead 0, hhead 1, if_neg]
    · simp
    · rintro ⟨hpoint, hdigit⟩
      match rest, hnone rfl, hpoint, hdigit with
      | [], _, hpoint, _ => exact absurd hpoint (by decide)
      | [c], _, _, hdigit =>
        have hdigit : isDecimalDigit 0 = true := hdigit
        exact absurd hdigit (by decide)
      | c :: d :: tail, hplain, hpoint, hdigit =>
        obtain rfl : c = ascii '.' := hpoint
        have hdigit : isDigitOfBase d 10 = true := hdigit
        rw [hplain d tail rfl] at hdigit
        cases hdigit
  | @some digits hdigits =>
    obtain ⟨d, tail, hd, hdigit⟩ := hdigits.head
    obtain ⟨count, -, hscan⟩ := hdigits.scan hrest false
    have hpoint : byteAt (w ++ (ascii '.' :: digits ++ rest)) w.length = ascii '.' :=
      byteAt_append rfl 0
    have hnext : byteAt (w ++ (ascii '.' :: digits ++ rest)) (w.length + 1) = d := by
      rw [byteAt_append rfl, hd]
      rfl
    have hafter : w ++ (ascii '.' :: digits ++ rest) = (w ++ [ascii '.']) ++ (digits ++ rest) := by
      simp
    have hplace : w.length + 1 = (w ++ [ascii '.']).length := by simp
    unfold fractionLiteral
    rw [hpoint, hnext, if_pos ⟨rfl, show isDecimalDigit d = true from hdigit⟩]
    simp only
    rw [hafter, hplace, List.drop_left, hscan]
    simp only [Bool.or_false, List.isEmpty_cons, Bool.not_false]
    rw [← List.append_assoc, ← List.length_append]
    simp

theorem not_marker_of_runByte (h : RunByte 10 m) : ¬ Marker m base := by
  rintro (hm | hm | hm)
  all_goals
    obtain rfl | rfl := hm <;> exact absurd h (by unfold RunByte; decide)

theorem markedBase_of_marker (hm : Marker m base) (rest : Text) :
    markedBase (ascii '0' :: m :: rest) = base := by
  have hzero : byteAt (ascii '0' :: m :: rest) 0 = ascii '0' := rfl
  have hone : byteAt (ascii '0' :: m :: rest) 1 = m := rfl
  unfold markedBase
  rw [hzero, if_pos rfl, hone]
  obtain (rfl | rfl) | (rfl | rfl) | (rfl | rfl) := hm <;> rfl

theorem markedBase_ten {text : Text}
    (h : text.head? = some (ascii '0') → ∀ base, ¬ Marker (byteAt text 1) base) :
    markedBase text = 10 := by
  unfold markedBase
  split
  · rename_i hzero
    have hhead : text.head? = some (ascii '0') := by
      cases text with
      | nil => exact absurd hzero (by decide)
      | cons c text => exact congrArg some hzero
    have hnot := h hhead
    simp only
    rw [if_neg fun hm => hnot 16 (.hexadecimal hm), if_neg fun hm => hnot 2 (.binary hm),
      if_neg fun hm => hnot 8 (.octal hm)]
  · rfl

theorem DigitRun.markedBase (hw : DigitRun 10 w)
    (hrest : w = [ascii '0'] → ∀ m ∈ rest.head?, ∀ base, ¬ Marker m base) :
    markedBase (w ++ rest) = 10 := by
  refine markedBase_ten fun hhead base hm => ?_
  match w, hw.ne_nil, hw.bytes, hrest, hhead, hm with
  | [c], _, _, hrest, hhead, hm =>
    obtain rfl : c = ascii '0' := Option.some.inj hhead
    cases rest with
    | nil =>
      have hm : Marker 0 base := hm
      obtain (h | h) | (h | h) | (h | h) := hm <;> exact absurd h (by decide)
    | cons m rest => exact hrest rfl m rfl base hm
  | c :: d :: w, _, hbytes, _, _, hm =>
    exact not_marker_of_runByte (hbytes d (by simp)) hm

theorem digit_ten (_hm : Marker m base) : base ≠ 10 := by
  obtain _ | _ | _ := _hm <;> decide

theorem Exponent.concat (he : Exponent e) (hne : e ≠ [])
    (hc : isDigitOfBase c 10 = true) : Exponent (e ++ [c]) := by
  cases he with
  | none => exact absurd rfl hne
  | some hb hsign hdigits =>
    rw [List.cons_append, List.append_assoc]
    exact .some hb hsign (hdigits.concat hc)

theorem Fraction.concat (hf : Fraction f) (hne : f ≠ [])
    (hc : isDigitOfBase c 10 = true) : Fraction (f ++ [c]) := by
  cases hf with
  | none => exact absurd rfl hne
  | some hdigits => exact .some (hdigits.concat hc)

theorem Literal.concat {afterDot : Bool} {kind : NumberKind} {p : Text}
    (h : Literal afterDot kind base p) (hc : isDigitOfBase c base = true) :
    Literal afterDot kind base (p ++ [c]) := by
  cases h with
  | key hdigits => exact .key (hdigits.concat hc)
  | marked hm hdigits => exact .marked hm (hdigits.concat hc)
  | whole hdigits => exact .whole (hdigits.concat hc)
  | @real w f e hdigits hf he hsome =>
    rw [List.append_assoc, List.append_assoc]
    by_cases hnone : e = []
    · subst hnone
      rw [List.nil_append]
      rw [List.append_nil] at hsome
      have hlonger := Literal.real hdigits (hf.concat hsome hc) .none (by simp)
      rwa [List.append_nil] at hlonger
    · exact .real hdigits hf (he.concat hnone hc) (by simp)

namespace Stands

variable {afterDot : Bool} {kind : NumberKind} {base : Nat} {p : Text}

theorem head_run (h : Stands afterDot kind base p rest) : ∀ c ∈ rest.head?, ¬ RunByte base c := by
  rintro c hc (rfl | hdigit)
  · exact h.settled.separator hc
  · obtain ⟨tail, rfl⟩ := List.head?_eq_some_iff.mp hc
    have hlonger := h.longest _ _ (p ++ [c]) (h.literal.concat hdigit)
      ⟨tail, by simp⟩
    simp at hlonger

theorem no_fraction (h : Stands false .integer 10 p rest) (hdigits : DigitRun 10 p) :
    ∀ c tail, rest = ascii '.' :: c :: tail → isDigitOfBase c 10 = false := by
  rintro c tail rfl
  by_contra hdigit
  rw [Bool.not_eq_false] at hdigit
  have hreal : Literal false .real 10 (p ++ ([ascii '.', c] ++ [])) :=
    .real hdigits (.some (.one hdigit)) .none (by simp)
  have hlonger := h.longest _ _ _ hreal ⟨tail, by simp⟩
  simp at hlonger

theorem letter_notMem_digits (hw : DigitRun 10 w) : ascii 'e' ∉ w ∧ ascii 'E' ∉ w :=
  ⟨fun h => absurd (hw.bytes _ h) (by unfold RunByte; decide),
    fun h => absurd (hw.bytes _ h) (by unfold RunByte; decide)⟩

theorem letter_notMem (hw : DigitRun 10 w) (hf : Fraction f) :
    ascii 'e' ∉ w ++ f ∧ ascii 'E' ∉ w ++ f := by
  obtain ⟨he, hE⟩ := letter_notMem_digits hw
  cases hf with
  | none => simpa using ⟨he, hE⟩
  | some hdigits =>
    obtain ⟨he', hE'⟩ := letter_notMem_digits hdigits
    have hpoint : ascii 'e' ≠ ascii '.' ∧ ascii 'E' ≠ ascii '.' := by decide
    simp only [List.mem_append, List.mem_cons, not_or]
    exact ⟨⟨he, hpoint.1, he'⟩, hE, hpoint.2, hE'⟩

theorem decimal_reads (hw : DigitRun 10 w) (hf : Fraction f) (he : Exponent e)
    (hrest : ∀ c ∈ rest.head?, ¬ RunByte 10 c)
    (hmarker : w = [ascii '0'] → ∀ m ∈ (f ++ (e ++ rest)).head?, ∀ base, ¬ Marker m base)
    (hfraction : f = [] → ∀ c tail, e ++ rest = ascii '.' :: c :: tail → isDigitOfBase c 10 = false)
    (hexponent : e = [] → rest.head? ≠ some (ascii 'e') ∧ rest.head? ≠ some (ascii 'E')) :
    numberLiteral (w ++ (f ++ (e ++ rest))) false =
      finishLiteral (w ++ (f ++ e)) 10 (!f.isEmpty || !e.isEmpty) false (w ++ (f ++ e)).length := by
  have hletter : ¬ RunByte 10 (ascii 'e') ∧ ¬ RunByte 10 (ascii 'E') ∧
      ¬ RunByte 10 (ascii '.') := by
    unfold RunByte
    decide
  have hbehind : ∀ c ∈ (e ++ rest).head?, ¬ RunByte 10 c := by
    cases he with
    | none => exact hrest
    | some hb _ _ =>
      rintro c hc
      obtain rfl := Option.some.inj hc
      obtain rfl | rfl := hb
      · exact hletter.1
      · exact hletter.2.1
  have hnext : ∀ c ∈ (f ++ (e ++ rest)).head?, ¬ RunByte 10 c := by
    cases hf with
    | none => exact hbehind
    | some _ =>
      rintro c hc
      obtain rfl := Option.some.inj hc
      exact hletter.2.2
  obtain ⟨count, hcount, hscan⟩ := hw.scan hnext false
  have hmarked := hw.markedBase hmarker
  have hpositive : (count == 0) = false := by simpa using Nat.ne_of_gt hcount
  unfold numberLiteral
  simp only [Bool.false_eq_true, if_false, hmarked, if_true, hscan, hpositive, Bool.or_self]
  rw [fractionLiteral_reads hf hbehind hfraction, exponentLiteral_reads he hrest hexponent,
    List.append_assoc]

theorem reads (h : Stands afterDot kind base p rest) :
    numberLiteral (p ++ rest) afterDot =
      finishLiteral p base (decide (kind = .real)) false p.length := by
  have hrest := h.head_run
  have hliteral := h.literal
  cases hliteral with
  | key hdigits =>
    obtain ⟨count, hcount, hscan⟩ := hdigits.scan hrest false
    have hpositive : (count == 0) = false := by simpa using Nat.ne_of_gt hcount
    unfold numberLiteral
    simp only [if_true, hscan, hpositive, Bool.or_self]
    exact finishLiteral_append p rest 10 false
  | @marked m base digits hm hdigits =>
    obtain ⟨count, hcount, hscan⟩ := hdigits.scan hrest false
    have hpositive : (count == 0) = false := by simpa using Nat.ne_of_gt hcount
    have hmarked : markedBase (ascii '0' :: m :: digits ++ rest) = base :=
      markedBase_of_marker hm (digits ++ rest)
    have hdrop : (ascii '0' :: m :: digits ++ rest).drop 2 = digits ++ rest := rfl
    have hlength : 2 + digits.length = (ascii '0' :: m :: digits).length := by
      simp only [List.length_cons]
      omega
    unfold numberLiteral
    simp only [Bool.false_eq_true, if_false, hmarked, if_neg (digit_ten hm), hdrop, hscan,
      hpositive, Bool.or_self, hlength]
    exact finishLiteral_append _ rest base false
  | whole hdigits =>
    have hplain := h.settled.exponent rfl rfl (letter_notMem_digits hdigits).1
      (letter_notMem_digits hdigits).2
    have hread := decimal_reads hdigits .none .none hrest (fun hp => h.settled.marker rfl hp)
      (fun _ => h.no_fraction hdigits) (fun _ => hplain)
    simpa using hread
  | @real w f e hdigits hf he hsome =>
    have hmarker : w = [ascii '0'] → ∀ m ∈ (f ++ (e ++ rest)).head?, ∀ base, ¬ Marker m base := by
      intro _ m hm base hmarker
      cases hf with
      | none =>
        cases he with
        | none => exact hsome rfl
        | some hb _ _ =>
          obtain rfl := Option.some.inj hm
          obtain rfl | rfl := hb <;> obtain (h | h) | (h | h) | (h | h) := hmarker <;>
            exact absurd h (by decide)
      | some _ =>
        obtain rfl := Option.some.inj hm
        obtain (h | h) | (h | h) | (h | h) := hmarker <;> exact absurd h (by decide)
    have hfraction : f = [] → ∀ c tail, e ++ rest = ascii '.' :: c :: tail →
        isDigitOfBase c 10 = false := by
      rintro rfl c tail htext
      cases he with
      | none => exact absurd rfl hsome
      | some hb _ _ =>
        obtain rfl | rfl := hb <;> exact absurd (List.cons.inj htext).1 (by decide)
    have hexponent : e = [] → rest.head? ≠ some (ascii 'e') ∧ rest.head? ≠ some (ascii 'E') := by
      rintro rfl
      have hnone := letter_notMem hdigits hf
      rw [← List.append_nil f] at hnone
      exact h.settled.exponent rfl rfl hnone.1 hnone.2
    have hread := decimal_reads hdigits hf he hrest hmarker hfraction hexponent
    rw [List.append_assoc, List.append_assoc]
    rw [hread]
    have hfloat : (!f.isEmpty || !e.isEmpty) = true := by
      cases f <;> cases e <;> simp_all
    rw [hfloat]
    rfl

end Stands

end Standing

end Lhat.Numerals
