import Lhat.Numerals.Reads

/-!
# What is read stands

Where the reader finds nothing wrong, the parts it took make a literal, none in front of the text is
longer, and what follows begins nothing more.
-/

namespace Lhat.Numerals

open Lexing
open Lton (byteAt_append byteAt_zero)

variable {base : Nat} {text e f w : Text} {m : UInt8}

/-- Nothing was found wrong with the digits or with an exponent. -/
def Clean (literal : NumberLiteral) : Prop :=
  literal.status ≠ .malformed ∧ literal.status ≠ .badExponent

theorem not_malformed {length : Nat} {isFloat malformed : Bool}
    (h : Clean (finishLiteral text base isFloat malformed length)) : malformed = false := by
  cases malformed with
  | false => rfl
  | true => exact absurd rfl h.1

theorem exponentLiteral_malformed {isFloat : Bool} {here : Nat} :
    ¬ Clean (exponentLiteral text isFloat true here) := by
  intro h
  unfold exponentLiteral at h
  dsimp only at h
  generalize (if byteAt text (here + 1) = ascii '+' ∨ byteAt text (here + 1) = ascii '-'
    then 1 else 0) = sign at h
  split at h
  · split at h
    · exact absurd (not_malformed h) (by simp)
    · exact h.2 rfl
  · exact absurd (not_malformed h) (by simp)

theorem fractionLiteral_malformed {here : Nat} : ¬ Clean (fractionLiteral text true here) := by
  intro h
  unfold fractionLiteral at h
  split at h
  · exact exponentLiteral_malformed h
  · exact exponentLiteral_malformed h

section Parts

variable {a r : Text} {isFloat malformed : Bool}

theorem exponentLiteral_clean (h : Clean (exponentLiteral (a ++ r) isFloat malformed a.length)) :
    malformed = false ∧ ∃ e rest, r = e ++ rest ∧ Exponent e ∧
      (e ≠ [] → ∀ c ∈ rest.head?, ¬ RunByte 10 c) ∧
      (e = [] → rest.head? ≠ some (ascii 'e') ∧ rest.head? ≠ some (ascii 'E')) := by
  have hat : ∀ k, byteAt (a ++ r) (a.length + k) = byteAt r k := fun k => byteAt_append rfl k
  unfold exponentLiteral at h
  rw [show byteAt (a ++ r) a.length = byteAt r 0 from hat 0, hat 1] at h
  split at h
  · rename_i hletter
    obtain ⟨b, r, rfl⟩ : ∃ b tail, r = b :: tail := by
      cases r with
      | nil => exact absurd hletter (by decide)
      | cons b tail => exact ⟨b, tail, rfl⟩
    have hletter : b = ascii 'e' ∨ b = ascii 'E' := hletter
    -- the sign that is skipped
    obtain ⟨sign, tail, rfl, hsign, hlength⟩ : ∃ sign tail, r = sign ++ tail ∧
        (sign = [] ∨ sign = [ascii '+'] ∨ sign = [ascii '-']) ∧
        (if byteAt (b :: r) 1 = ascii '+' ∨ byteAt (b :: r) 1 = ascii '-' then 1 else 0) =
          sign.length := by
      split
      · rename_i hsigned
        cases r with
        | nil => exact absurd hsigned (by unfold byteAt; simp; decide)
        | cons c tail =>
          have hsigned : c = ascii '+' ∨ c = ascii '-' := hsigned
          refine ⟨[c], tail, rfl, ?_, rfl⟩
          obtain rfl | rfl := hsigned
          · exact .inr (.inl rfl)
          · exact .inr (.inr rfl)
      · exact ⟨[], r, rfl, .inl rfl, rfl⟩
    have hafter : a ++ b :: (sign ++ tail) = (a ++ b :: sign) ++ tail := by simp
    have hplace : a.length + 1 + sign.length = (a ++ b :: sign).length := by
      simp only [List.length_append, List.length_cons]
      omega
    simp only [hlength] at h
    rw [hplace, hafter, List.drop_left] at h
    split at h
    · rename_i hdigit
      rw [show byteAt ((a ++ b :: sign) ++ tail) (a ++ b :: sign).length = byteAt tail 0 from
        byteAt_append rfl 0] at hdigit
      have hboth := not_malformed h
      rw [Bool.or_eq_false_iff] at hboth
      obtain ⟨w, rest, rfl, -, hrest, hw⟩ := scanDigitRun_clean hboth.2
      refine ⟨hboth.1, b :: (sign ++ w), rest, by simp, .some hletter hsign ?_,
        fun _ => hrest, by simp⟩
      obtain ⟨rfl, -⟩ | hw | ⟨hfalse, -⟩ := hw
      · cases rest with
        | nil => exact absurd hdigit (by decide)
        | cons d rest => exact absurd (.inr hdigit) (hrest d rfl)
      · exact hw
      · cases hfalse
    · exact absurd rfl h.2
  · rename_i hletter
    refine ⟨not_malformed h, [], r, rfl, .none, by simp, fun _ => ?_⟩
    rw [not_or] at hletter
    cases r with
    | nil => exact ⟨nofun, nofun⟩
    | cons c r =>
      exact ⟨fun hc => hletter.1 (Option.some.inj hc), fun hc => hletter.2 (Option.some.inj hc)⟩

theorem fractionLiteral_clean (h : Clean (fractionLiteral (a ++ r) malformed a.length)) :
    malformed = false ∧ ∃ f e rest, r = f ++ (e ++ rest) ∧ Fraction f ∧ Exponent e ∧
      (f ≠ [] → ∀ c ∈ (e ++ rest).head?, ¬ RunByte 10 c) ∧
      (f = [] → ∀ c tail, e ++ rest = ascii '.' :: c :: tail → isDigitOfBase c 10 = false) ∧
      (e ≠ [] → ∀ c ∈ rest.head?, ¬ RunByte 10 c) ∧
      (e = [] → rest.head? ≠ some (ascii 'e') ∧ rest.head? ≠ some (ascii 'E')) := by
  have hat : ∀ k, byteAt (a ++ r) (a.length + k) = byteAt r k := fun k => byteAt_append rfl k
  unfold fractionLiteral at h
  rw [show byteAt (a ++ r) a.length = byteAt r 0 from hat 0, hat 1] at h
  split at h
  · rename_i hpoint
    obtain ⟨hpoint, hdigit⟩ := hpoint
    obtain ⟨c, tail, rfl⟩ : ∃ c tail, r = c :: tail := by
      cases r with
      | nil => exact absurd hpoint (by decide)
      | cons c tail => exact ⟨c, tail, rfl⟩
    obtain rfl : c = ascii '.' := hpoint
    have hdigit : isDecimalDigit (byteAt tail 0) = true := hdigit
    have hafter : a ++ ascii '.' :: tail = (a ++ [ascii '.']) ++ tail := by simp
    have hplace : a.length + 1 = (a ++ [ascii '.']).length := by simp
    simp only at h
    rw [hplace, hafter, List.drop_left] at h
    cases hrun : (scanDigitRun 10 tail false).malformed with
    | true =>
      -- a misplaced separator is told, whatever follows
      rw [hrun, Bool.or_true] at h
      exact absurd h exponentLiteral_malformed
    | false =>
      obtain ⟨w, rest, rfl, htaken, hrest, hw⟩ := scanDigitRun_clean hrun
      rw [hrun, Bool.or_false, htaken, ← List.append_assoc, ← List.length_append] at h
      obtain ⟨hmalformed, e, rest, rfl, he, hbehind, hnone⟩ := exponentLiteral_clean h
      refine ⟨hmalformed, ascii '.' :: w, e, rest, by simp, .some ?_, he, fun _ => hrest, by simp,
        hbehind, hnone⟩
      obtain ⟨rfl, -⟩ | hw | ⟨hfalse, -⟩ := hw
      · cases he' : e ++ rest with
        | nil =>
          rw [List.nil_append, he'] at hdigit
          exact absurd hdigit (by decide)
        | cons d _ =>
          rw [List.nil_append, he'] at hdigit
          rw [he'] at hrest
          exact absurd (.inr hdigit) (hrest d rfl)
      · exact hw
      · cases hfalse
  · rename_i hpoint
    obtain ⟨hmalformed, e, rest, rfl, he, hbehind, hnone⟩ := exponentLiteral_clean h
    refine ⟨hmalformed, [], e, rest, rfl, .none, he, by simp, fun _ c tail htail => ?_, hbehind,
      hnone⟩
    rw [htail] at hpoint
    by_contra hdigit
    rw [Bool.not_eq_false] at hdigit
    exact hpoint ⟨rfl, hdigit⟩

theorem digitRun_clean
    (h : ((scanDigitRun base text false).malformed || (scanDigitRun base text false).digits == 0) =
      false) :
    ∃ w rest, text = w ++ rest ∧ (scanDigitRun base text false).taken = w.length ∧
      (∀ c ∈ rest.head?, ¬ RunByte base c) ∧ DigitRun base w := by
  rw [Bool.or_eq_false_iff] at h
  obtain ⟨w, rest, htext, htaken, hrest, hw⟩ := scanDigitRun_clean h.1
  refine ⟨w, rest, htext, htaken, hrest, ?_⟩
  obtain ⟨-, hnone⟩ | hw | ⟨hfalse, -⟩ := hw
  · exact absurd hnone (by simpa using h.2)
  · exact hw
  · cases hfalse

theorem marker_of_markedBase (h : markedBase text ≠ 10) :
    ∃ m tail, text = ascii '0' :: m :: tail ∧ Marker m (markedBase text) := by
  have hzero : byteAt text 0 = ascii '0' := by
    by_contra hno
    unfold markedBase at h
    rw [if_neg hno] at h
    exact h rfl
  by_cases hmarker : ∃ base, Marker (byteAt text 1) base
  · obtain ⟨base, hm⟩ := hmarker
    match text, hzero, hm with
    | [], hzero, _ => exact absurd hzero (by decide)
    | [_], _, hm =>
      have hm : Marker 0 base := hm
      obtain (h | h) | (h | h) | (h | h) := hm <;> exact absurd h (by decide)
    | c :: m :: tail, hzero, hm =>
      obtain rfl : c = ascii '0' := hzero
      exact ⟨m, tail, rfl, (markedBase_of_marker hm tail).symm ▸ hm⟩
  · rw [not_exists] at hmarker
    exact absurd (markedBase_ten fun _ => hmarker) h

end Parts

/-! ### No literal is longer -/

section Longest

variable {rest q : Text}

theorem letter_not_runByte {b : UInt8} (hb : b = ascii 'e' ∨ b = ascii 'E') : ¬ RunByte 10 b := by
  unfold RunByte
  obtain rfl | rfl := hb <;> decide

theorem point_not_runByte : ¬ RunByte 10 (ascii '.') := by
  unfold RunByte
  decide

theorem Exponent.head (he : Exponent e) (hne : e ≠ []) :
    ∀ c ∈ e.head?, c = ascii 'e' ∨ c = ascii 'E' := by
  cases he with
  | none => exact absurd rfl hne
  | some hb _ _ => exact fun c hc => Option.some.inj hc ▸ hb

theorem real_head (hf : Fraction f) (he : Exponent e) (hne : f ++ e ≠ []) :
    ∀ c ∈ (f ++ e).head?, ¬ RunByte 10 c := by
  cases hf with
  | none => exact fun c hc => letter_not_runByte (he.head hne c hc)
  | some _ => exact fun c hc => Option.some.inj hc ▸ point_not_runByte

theorem sign_eq {s s' d d' : Text} (hs : s = [] ∨ s = [ascii '+'] ∨ s = [ascii '-'])
    (hs' : s' = [] ∨ s' = [ascii '+'] ∨ s' = [ascii '-']) (hd : DigitRun 10 d)
    (hd' : DigitRun 10 d') (h : s' ++ d' <+: s ++ (d ++ rest)) : s' = s ∧ d' <+: d ++ rest := by
  obtain ⟨c, tail, rfl, hc⟩ := hd.head
  obtain ⟨c', tail', rfl, hc'⟩ := hd'.head
  have hplus : ∀ x, isDigitOfBase x 10 = true → x ≠ ascii '+' ∧ x ≠ ascii '-' := by
    refine fun x hx => ⟨?_, ?_⟩
    all_goals
      rintro rfl
      exact absurd hx (by decide)
  have hdiffer : ascii '+' ≠ ascii '-' := by decide
  obtain rfl | rfl | rfl := hs <;> obtain rfl | rfl | rfl := hs' <;>
    simp_all [List.cons_prefix_cons, (hplus c hc).1.symm, (hplus c hc).2.symm, hdiffer.symm]

theorem exponent_le {e' : Text} (he : Exponent e) (he' : Exponent e')
    (hrest : ∀ c ∈ rest.head?, ¬ RunByte 10 c)
    (hnone : e = [] → rest.head? ≠ some (ascii 'e') ∧ rest.head? ≠ some (ascii 'E'))
    (h : e' <+: e ++ rest) : e'.length ≤ e.length := by
  cases he' with
  | none => exact Nat.zero_le _
  | @some b' sign' digits' hb' hsign' hdigits' =>
    cases he with
    | none =>
      have hhead : rest.head? = some b' := by
        obtain ⟨t, rfl⟩ := h
        rfl
      obtain rfl | rfl := hb'
      · exact absurd hhead (hnone rfl).1
      · exact absurd hhead (hnone rfl).2
    | @some b sign digits hb hsign hdigits =>
      rw [List.cons_append, List.cons_prefix_cons, List.append_assoc] at h
      obtain ⟨rfl, hdigits''⟩ := sign_eq hsign hsign' hdigits hdigits' h.2
      have hle := run_le hdigits'.bytes hrest hdigits''
      simp only [List.length_cons, List.length_append]
      omega

theorem fraction_le {f' e' : Text} (hf : Fraction f) (he : Exponent e) (hf' : Fraction f')
    (he' : Exponent e') (hbehind : f ≠ [] → ∀ c ∈ (e ++ rest).head?, ¬ RunByte 10 c)
    (hplain : f = [] → ∀ c tail, e ++ rest = ascii '.' :: c :: tail → isDigitOfBase c 10 = false)
    (hrest : ∀ c ∈ rest.head?, ¬ RunByte 10 c)
    (hnone : e = [] → rest.head? ≠ some (ascii 'e') ∧ rest.head? ≠ some (ascii 'E'))
    (h : f' ++ e' <+: f ++ (e ++ rest)) : (f' ++ e').length ≤ (f ++ e).length := by
  cases hf' with
  | none =>
    by_cases hne : e' = []
    · simp [hne]
    cases hf with
    | none => exact exponent_le he he' hrest hnone h
    | some _ =>
      cases he' with
      | none => exact absurd rfl hne
      | some hb _ _ =>
        rw [List.nil_append, List.cons_append, List.cons_prefix_cons] at h
        obtain ⟨rfl, -⟩ := h
        obtain hb | hb := hb <;> exact absurd hb (by decide)
  | @some digits' hdigits' =>
    cases hf with
    | none =>
      obtain ⟨c, tail, rfl, hc⟩ := hdigits'.head
      obtain ⟨t, ht⟩ := h
      rw [hplain rfl c (tail ++ e' ++ t) (by rw [← List.nil_append (e ++ rest), ← ht]; simp)] at hc
      cases hc
    | @some digits hdigits =>
      rw [List.cons_append, List.cons_append, List.cons_prefix_cons] at h
      have hnext := hbehind (by simp)
      by_cases hne : e' = []
      · subst hne
        rw [List.append_nil] at h ⊢
        have hle := run_le hdigits'.bytes hnext h.2
        simp only [List.length_cons, List.length_append]
        omega
      · obtain ⟨rfl, hexponent⟩ :=
          run_eq hdigits.bytes hdigits'.bytes hnext (fun c hc => letter_not_runByte (he'.head hne c hc))
            hne h.2
        have hle := exponent_le he he' hrest hnone hexponent
        simp only [List.length_append]
        omega

theorem Marker.unique {base' : Nat} (h : Marker m base) (h' : Marker m base') : base = base' :=
  (markedBase_of_marker h []).symm.trans (markedBase_of_marker h' [])

theorem not_marker_point : ¬ Marker (ascii '.') base := by
  rintro ((h | h) | (h | h) | (h | h)) <;> exact absurd h (by decide)

theorem not_marker_letter {b : UInt8} (hb : b = ascii 'e' ∨ b = ascii 'E') : ¬ Marker b base := by
  obtain rfl | rfl := hb <;> rintro ((h | h) | (h | h) | (h | h)) <;> exact absurd h (by decide)

theorem zero_of_marker {s tail : Text} (hm : Marker m base) (hw : DigitRun 10 w)
    (h : w ++ s <+: ascii '0' :: m :: tail) : w.length = 1 ∧ ∀ c ∈ s.head?, c = m := by
  match w, hw.ne_nil, hw.bytes, h with
  | [c], _, _, h =>
    rw [List.cons_append, List.cons_prefix_cons] at h
    refine ⟨rfl, fun d hd => ?_⟩
    cases s with
    | nil => cases hd
    | cons b s =>
      obtain rfl : b = d := Option.some.inj hd
      exact (List.cons_prefix_cons.mp h.2).1
  | c :: d :: w, _, hbytes, h =>
    rw [List.cons_append, List.cons_prefix_cons, List.cons_append, List.cons_prefix_cons] at h
    obtain ⟨-, rfl, -⟩ := h
    exact absurd hm (not_marker_of_runByte (hbytes d (by simp)))

theorem marked_longest {base' : Nat} {kind : NumberKind} (hm : Marker m base)
    (hrest : ∀ c ∈ rest.head?, ¬ RunByte base c) (hq : Literal false kind base' q)
    (h : q <+: ascii '0' :: m :: w ++ rest) : q.length ≤ (ascii '0' :: m :: w).length := by
  cases hq with
  | @marked m' _ digits hm' hdigits =>
    rw [List.cons_append, List.cons_append, List.cons_prefix_cons, List.cons_prefix_cons] at h
    obtain ⟨-, rfl, h⟩ := h
    obtain rfl := hm.unique hm'
    exact Nat.succ_le_succ (Nat.succ_le_succ (run_le hdigits.bytes hrest h))
  | whole hdigits =>
    rw [← List.append_nil q] at h
    rw [(zero_of_marker hm hdigits h).1]
    simp
  | @real digits f e hdigits hf he hsome =>
    obtain ⟨-, hhead⟩ := zero_of_marker hm hdigits h
    cases hf with
    | none =>
      obtain ⟨b, tail, rfl⟩ := List.exists_cons_of_ne_nil hsome
      obtain rfl := hhead b rfl
      exact absurd hm (not_marker_letter (he.head hsome b rfl))
    | some _ =>
      obtain rfl := hhead _ rfl
      exact absurd hm not_marker_point

theorem decimal_longest {kind : NumberKind} (hmarked : markedBase (w ++ (f ++ (e ++ rest))) = 10)
    (hw : DigitRun 10 w) (hf : Fraction f) (he : Exponent e)
    (hnext : ∀ c ∈ (f ++ (e ++ rest)).head?, ¬ RunByte 10 c)
    (hbehind : f ≠ [] → ∀ c ∈ (e ++ rest).head?, ¬ RunByte 10 c)
    (hplain : f = [] → ∀ c tail, e ++ rest = ascii '.' :: c :: tail → isDigitOfBase c 10 = false)
    (hrest : ∀ c ∈ rest.head?, ¬ RunByte 10 c)
    (hnone : e = [] → rest.head? ≠ some (ascii 'e') ∧ rest.head? ≠ some (ascii 'E'))
    (hq : Literal false kind base q) (h : q <+: w ++ (f ++ (e ++ rest))) :
    q.length ≤ (w ++ (f ++ e)).length := by
  cases hq with
  | marked hm _ =>
    obtain ⟨t, ht⟩ := h
    rw [← ht] at hmarked
    exact absurd ((markedBase_of_marker hm _).symm.trans hmarked) (digit_ten hm)
  | whole hdigits =>
    have hle := run_le hdigits.bytes hnext h
    rw [List.length_append]
    omega
  | @real digits f' e' hdigits hf' he' hsome =>
    obtain ⟨rfl, hreal⟩ :=
      run_eq hw.bytes hdigits.bytes hnext (real_head hf' he' hsome) hsome h
    have hle := fraction_le hf he hf' he' hbehind hplain hrest hnone hreal
    simp only [List.length_append] at hle ⊢
    omega

end Longest

/-! ### What is read without an error stands -/

section Read

variable {text : Text}

theorem stands_of_key (h : Clean (numberLiteral text true)) :
    ∃ kind base p rest, text = p ++ rest ∧ Stands true kind base p rest := by
  unfold numberLiteral at h
  rw [if_pos rfl] at h
  obtain ⟨w, rest, rfl, -, hrest, hw⟩ := digitRun_clean (not_malformed h)
  refine ⟨.integer, 10, w, rest, rfl, .key hw, fun kind' base' q hq hprefix => ?_, ?_, nofun, nofun⟩
  · cases hq with
    | key hdigits => exact run_le hdigits.bytes hrest hprefix
  · exact fun hc => hrest _ hc (.inl rfl)

theorem stands_of_marked (hbase : markedBase text ≠ 10) (h : Clean (numberLiteral text false)) :
    ∃ kind base p rest, text = p ++ rest ∧ Stands false kind base p rest := by
  obtain ⟨m, tail, rfl, hm⟩ := marker_of_markedBase hbase
  unfold numberLiteral at h
  rw [if_neg Bool.false_ne_true] at h
  dsimp only at h
  rw [if_neg hbase] at h
  generalize markedBase (ascii '0' :: m :: tail) = base at hbase h hm
  obtain ⟨w, rest, htail, -, hrest, hw⟩ := digitRun_clean (not_malformed h)
  obtain rfl : tail = w ++ rest := htail
  refine ⟨.integer, base, ascii '0' :: m :: w, rest, rfl, .marked hm hw,
    fun kind' base' q hq hprefix => marked_longest hm hrest hq hprefix, ?_,
    fun _ hten => absurd hten hbase, fun _ hp => by simp at hp⟩
  exact fun hc => hrest _ hc (.inl rfl)

theorem stands_of_decimal (hbase : markedBase text = 10) (h : Clean (numberLiteral text false)) :
    ∃ kind base p rest, text = p ++ rest ∧ Stands false kind base p rest := by
  unfold numberLiteral at h
  rw [if_neg Bool.false_ne_true] at h
  dsimp only at h
  rw [if_pos hbase] at h
  cases hrun : (scanDigitRun 10 text false).malformed || (scanDigitRun 10 text false).digits == 0 with
  | true =>
    rw [hrun] at h
    exact absurd h fractionLiteral_malformed
  | false =>
    obtain ⟨w, r, rfl, htaken, hnext, hw⟩ := digitRun_clean hrun
    rw [hrun, htaken] at h
    obtain ⟨-, f, e, rest, rfl, hf, he, hbehind, hplain, hafter, hnone⟩ := fractionLiteral_clean h
    have hrest : ∀ c ∈ rest.head?, ¬ RunByte 10 c := by
      by_cases hne : e = []
      · subst hne
        by_cases hnf : f = []
        · subst hnf
          exact hnext
        · exact hbehind hnf
      · exact hafter hne
    have hlongest : ∀ kind' base' q, Literal false kind' base' q →
        q <+: (w ++ (f ++ e)) ++ rest → q.length ≤ (w ++ (f ++ e)).length := by
      intro kind' base' q hq hprefix
      rw [List.append_assoc, List.append_assoc] at hprefix
      exact decimal_longest hbase hw hf he hnext hbehind hplain hrest hnone hq hprefix
    have hsettled : Settled false 10 (w ++ (f ++ e)) rest := by
      refine ⟨fun hc => hrest _ hc (.inl rfl), fun _ _ hsmall hlarge => hnone ?_,
        fun _ hp m hm base' hmarker => ?_⟩
      · cases he with
        | none => rfl
        | some hb _ _ =>
          obtain rfl | rfl := hb
          · exact absurd (by simp) hsmall
          · exact absurd (by simp) hlarge
      · obtain ⟨tail, rfl⟩ := List.head?_eq_some_iff.mp hm
        have htext : w ++ (f ++ (e ++ m :: tail)) = ascii '0' :: m :: tail := by
          have := congrArg (· ++ m :: tail) hp
          simpa using this
        rw [htext] at hbase
        exact absurd ((markedBase_of_marker hmarker tail).symm.trans hbase) (digit_ten hmarker)
    by_cases hwhole : f ++ e = []
    · refine ⟨.integer, 10, w ++ (f ++ e), rest, by simp, ⟨?_, hlongest, hsettled⟩⟩
      rw [hwhole, List.append_nil]
      exact .whole hw
    · exact ⟨.real, 10, w ++ (f ++ e), rest, by simp, .real hw hf he hwhole, hlongest, hsettled⟩

theorem stands_of_clean {afterDot : Bool} (h : Clean (numberLiteral text afterDot)) :
    ∃ kind base p rest, text = p ++ rest ∧ Stands afterDot kind base p rest := by
  cases afterDot with
  | true => exact stands_of_key h
  | false =>
    by_cases hbase : markedBase text = 10
    · exact stands_of_decimal hbase h
    · exact stands_of_marked hbase h

end Read

end Lhat.Numerals
