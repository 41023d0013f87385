import Lhat.Foundation.Conversions
import Lhat.Lexing.Number
import Mathlib.Data.Nat.Digits.Defs

/-!
# The grammar of the literals

A literal by what it spells: digits with separators between two of them, a marker in front or a
fraction and an exponent behind. The reader takes the longest literal in front of a text, where what
follows does not commit it to more than the grammar has.
-/

namespace Lhat.Numerals

open Conversions (run_unique)
open Lexing (Text ascii isDigitOfBase digitValue scanDigitRun NumberKind)

/-- Digits, with a separator between two of them or none. -/
inductive DigitRun (base : Nat) : Text → Prop
  | one {c : UInt8} (hc : isDigitOfBase c base = true) : DigitRun base [c]
  | next {c : UInt8} {rest : Text} (hc : isDigitOfBase c base = true)
      (hrest : DigitRun base rest) : DigitRun base (c :: rest)
  | apart {c : UInt8} {rest : Text} (hc : isDigitOfBase c base = true)
      (hrest : DigitRun base rest) : DigitRun base (c :: ascii '_' :: rest)

/-- The letter that marks a base. -/
inductive Marker : UInt8 → Nat → Prop
  | hexadecimal {m : UInt8} (hm : m = ascii 'x' ∨ m = ascii 'X') : Marker m 16
  | binary {m : UInt8} (hm : m = ascii 'b' ∨ m = ascii 'B') : Marker m 2
  | octal {m : UInt8} (hm : m = ascii 'o' ∨ m = ascii 'O') : Marker m 8

inductive Fraction : Text → Prop
  | none : Fraction []
  | some {digits : Text} (hdigits : DigitRun 10 digits) : Fraction (ascii '.' :: digits)

inductive Exponent : Text → Prop
  | none : Exponent []
  | some {e : UInt8} {sign digits : Text} (he : e = ascii 'e' ∨ e = ascii 'E')
      (hsign : sign = [] ∨ sign = [ascii '+'] ∨ sign = [ascii '-'])
      (hdigits : DigitRun 10 digits) : Exponent (e :: (sign ++ digits))

/-- The literals, with their kind and their base. Right after a point only a key is one. -/
inductive Literal : Bool → NumberKind → Nat → Text → Prop
  | key {digits : Text} (hdigits : DigitRun 10 digits) : Literal true .integer 10 digits
  | marked {m : UInt8} {base : Nat} {digits : Text} (hm : Marker m base)
      (hdigits : DigitRun base digits) :
      Literal false .integer base (ascii '0' :: m :: digits)
  | whole {digits : Text} (hdigits : DigitRun 10 digits) : Literal false .integer 10 digits
  | real {digits fraction exponent : Text} (hdigits : DigitRun 10 digits)
      (hfraction : Fraction fraction) (hexponent : Exponent exponent)
      (hsome : fraction ++ exponent ≠ []) :
      Literal false .real 10 (digits ++ (fraction ++ exponent))

/-- The digits of a literal: without its marker and its separators. -/
def digitsOf (base : Nat) (p : Text) : Text :=
  (p.drop (if base = 10 then 0 else 2)).filter (· ≠ ascii '_')

/-- The value of the digits by their positions. -/
def positionalValue (base : Nat) (p : Text) : Nat :=
  Nat.ofDigits base ((digitsOf base p).reverse.map digitValue)

/-- What follows a literal begins nothing that the literal could have gone on with: no separator, no
exponent where it has none, no marker behind its only zero. -/
structure Settled (afterDot : Bool) (base : Nat) (p rest : Text) : Prop where
  separator : rest.head? ≠ some (ascii '_')
  exponent : afterDot = false → base = 10 → ascii 'e' ∉ p → ascii 'E' ∉ p →
    rest.head? ≠ some (ascii 'e') ∧ rest.head? ≠ some (ascii 'E')
  marker : afterDot = false → p = [ascii '0'] →
    ∀ m ∈ rest.head?, ∀ base', ¬ Marker m base'

/-- The longest literal in front of a text, if it is settled. -/
structure Stands (afterDot : Bool) (kind : NumberKind) (base : Nat) (p rest : Text) : Prop where
  literal : Literal afterDot kind base p
  longest : ∀ kind' base' q, Literal afterDot kind' base' q → q <+: p ++ rest →
    q.length ≤ p.length
  settled : Settled afterDot base p rest

/-! ### Runs of digits -/

section Runs

variable {base : Nat} {w rest : Text}

/-- A byte that `scan_digit_run` takes. -/
def RunByte (base : Nat) (c : UInt8) : Prop := c = ascii '_' ∨ isDigitOfBase c base = true

theorem not_digit_separator (base : Nat) : isDigitOfBase (ascii '_') base = false := by
  unfold isDigitOfBase
  split <;> decide

theorem ne_separator {c : UInt8} (hc : isDigitOfBase c base = true) : c ≠ ascii '_' := by
  rintro rfl
  rw [not_digit_separator] at hc
  cases hc

namespace DigitRun

section

variable (h : DigitRun base w)
include h

theorem head : ∃ c tail, w = c :: tail ∧ isDigitOfBase c base = true := by
  cases h with
  | one hc => exact ⟨_, _, rfl, hc⟩
  | next hc _ => exact ⟨_, _, rfl, hc⟩
  | apart hc _ => exact ⟨_, _, rfl, hc⟩

theorem ne_nil : w ≠ [] := by
  obtain ⟨c, tail, rfl, -⟩ := h.head
  exact List.cons_ne_nil _ _

theorem bytes : ∀ c ∈ w, RunByte base c := by
  induction h with
  | one hc => exact fun c h => .inr (List.mem_singleton.mp h ▸ hc)
  | next hc _ ih =>
    intro c h
    obtain rfl | h := List.mem_cons.mp h
    · exact .inr hc
    · exact ih c h
  | apart hc _ ih =>
    intro c h
    obtain rfl | h := List.mem_cons.mp h
    · exact .inr hc
    obtain rfl | h := List.mem_cons.mp h
    · exact .inl rfl
    · exact ih c h

theorem concat {c : UInt8} (hc : isDigitOfBase c base = true) :
    DigitRun base (w ++ [c]) := by
  induction h with
  | one hd => exact .next hd (.one hc)
  | next hd _ ih => exact .next hd ih
  | apart hd _ ih => exact .apart hd ih

theorem scan (hrest : ∀ c ∈ rest.head?, ¬ RunByte base c) (previous : Bool) :
    ∃ digits, 0 < digits ∧ scanDigitRun base (w ++ rest) previous = ⟨w.length, digits, false⟩ := by
  induction h generalizing previous with
  | @one c hc =>
    refine ⟨1, Nat.one_pos, ?_⟩
    have hend : scanDigitRun base rest true = ⟨0, 0, false⟩ := by
      cases rest with
      | nil => rfl
      | cons d rest =>
        have hd := hrest d rfl
        unfold scanDigitRun
        rw [if_neg fun h => hd (.inl h), if_neg fun h => hd (.inr h)]
    rw [List.cons_append, List.nil_append, scanDigitRun, if_neg (ne_separator hc), if_pos hc, hend]
    rfl
  | next hc _ ih =>
    obtain ⟨digits, -, hscan⟩ := ih true
    refine ⟨digits + 1, Nat.succ_pos _, ?_⟩
    rw [List.cons_append, scanDigitRun, if_neg (ne_separator hc), if_pos hc, hscan]
    rfl
  | @apart c w hc hw ih =>
    obtain ⟨digits, -, hscan⟩ := ih false
    obtain ⟨d, tail, rfl, hd⟩ := hw.head
    refine ⟨digits + 1, Nat.succ_pos _, ?_⟩
    rw [List.cons_append, scanDigitRun, if_neg (ne_separator hc), if_pos hc, List.cons_append,
      scanDigitRun, if_pos rfl, hscan]
    simp [hd]

end

end DigitRun

theorem scanDigitRun_clean {text : Text} {previous : Bool}
    (h : (scanDigitRun base text previous).malformed = false) :
    ∃ w rest, text = w ++ rest ∧ (scanDigitRun base text previous).taken = w.length ∧
      (∀ c ∈ rest.head?, ¬ RunByte base c) ∧
      (w = [] ∧ (scanDigitRun base text previous).digits = 0 ∨ DigitRun base w ∨
        previous = true ∧ ∃ digits, w = ascii '_' :: digits ∧ DigitRun base digits) := by
  induction text generalizing previous with
  | nil => exact ⟨[], [], rfl, rfl, by simp, .inl ⟨rfl, rfl⟩⟩
  | cons c text ih =>
    by_cases hc : c = ascii '_'
    · unfold scanDigitRun at h ⊢
      rw [if_pos hc] at h ⊢
      simp only [Bool.or_eq_false_iff, Bool.not_eq_false'] at h
      obtain ⟨⟨hrun, hprevious⟩, hnext⟩ := h
      obtain ⟨w, rest, rfl, htaken, hrest, hw⟩ := ih hrun
      refine ⟨c :: w, rest, rfl, by simp [htaken], hrest, .inr (.inr ⟨hprevious, w, by rw [hc], ?_⟩)⟩
      obtain ⟨rfl, -⟩ | hw | ⟨hfalse, -⟩ := hw
      · cases rest with
        | nil => exact absurd hnext (by unfold isDigitOfBase; split <;> decide)
        | cons d rest => exact absurd (.inr hnext) (hrest d rfl)
      · exact hw
      · cases hfalse
    · by_cases hdigit : isDigitOfBase c base = true
      · unfold scanDigitRun at h ⊢
        rw [if_neg hc, if_pos hdigit] at h ⊢
        obtain ⟨w, rest, rfl, htaken, hrest, hw⟩ := ih h
        refine ⟨c :: w, rest, rfl, by simp [htaken], hrest, .inr (.inl ?_)⟩
        obtain ⟨rfl, -⟩ | hw | ⟨-, digits, rfl, hdigits⟩ := hw
        · exact .one hdigit
        · exact .next hdigit hw
        · exact .apart hdigit hdigits
      · refine ⟨[], c :: text, rfl, ?_, ?_, .inl ⟨rfl, ?_⟩⟩
        · unfold scanDigitRun
          rw [if_neg hc, if_neg hdigit]
          rfl
        · rintro d hd
          obtain rfl : c = d := Option.some.inj hd
          exact fun h => h.elim hc hdigit
        · unfold scanDigitRun
          rw [if_neg hc, if_neg hdigit]

theorem run_le {p q : Text} (hq : ∀ c ∈ q, RunByte base c)
    (hrest : ∀ c ∈ rest.head?, ¬ RunByte base c) (h : q <+: p ++ rest) : q.length ≤ p.length := by
  by_contra hlong
  have hpq : p <+: q := List.prefix_of_prefix_length_le (List.prefix_append _ _) h (by omega)
  obtain ⟨s, rfl⟩ := hpq
  cases s with
  | nil => simp at hlong
  | cons c s =>
    rw [List.prefix_append_right_inj] at h
    obtain ⟨t, rfl⟩ := h
    exact hrest c rfl (hq c (by simp))

theorem run_eq {p q s : Text} (hp : ∀ c ∈ p, RunByte base c) (hq : ∀ c ∈ q, RunByte base c)
    (hrest : ∀ c ∈ rest.head?, ¬ RunByte base c) (hs : ∀ c ∈ s.head?, ¬ RunByte base c)
    (hne : s ≠ []) (h : q ++ s <+: p ++ rest) : q = p ∧ s <+: rest := by
  obtain ⟨t, ht⟩ := h
  rw [List.append_assoc] at ht
  have hst : ∀ c ∈ (s ++ t).head?, ¬ RunByte base c := by
    cases s with
    | nil => exact absurd rfl hne
    | cons c s => exact hs
  obtain ⟨rfl, rfl⟩ := run_unique hq hp hst hrest ht
  exact ⟨rfl, List.prefix_append _ _⟩

end Runs

end Lhat.Numerals
