import Lhat.Json.Reader

/-!
# The bytes of a character

A sequence that `utf8_step` takes is one of UTF-8: the ranges of the first two bytes
leave out what is overlong, the surrogates and what is too large.
-/

namespace Lhat.Json

open Lexing (Text lead continuation forall_byte)

variable {a b : UInt8} {bits : UInt32} {length : Nat} {tail s rest char behind : Text}

def IsTail (b : UInt8) : Prop := 0x80 ≤ b ∧ b ≤ 0xBF

/-- The bytes of a character, by the ranges of the first two. -/
inductive Utf8Char : Text → Prop
  | one {a : UInt8} : a < 0x80 → Utf8Char [a]
  | two {a b : UInt8} : 0xC2 ≤ a → a ≤ 0xDF → IsTail b → Utf8Char [a, b]
  | three {a b c : UInt8} : 0xE0 ≤ a → a ≤ 0xEF → (a = 0xE0 → 0xA0 ≤ b) → (a = 0xED → b ≤ 0x9F) →
      IsTail b → IsTail c → Utf8Char [a, b, c]
  | four {a b c d : UInt8} : 0xF0 ≤ a → a ≤ 0xF4 → (a = 0xF0 → 0x90 ≤ b) → (a = 0xF4 → b ≤ 0x8F) →
      IsTail b → IsTail c → IsTail d → Utf8Char [a, b, c, d]

section Bytes

theorem isTail_iff (b : UInt8) : b &&& 0xC0 = 0x80 ↔ IsTail b :=
  forall_byte (p := fun b => b &&& 0xC0 = 0x80 ↔ 0x80 ≤ b ∧ b ≤ 0xBF) (by decide) b

theorem lead_spec (a : UInt8) :
    lead a =
      if a < 0xC0 then none
      else if a < 0xE0 then some (2, (a - 0xC0).toUInt32)
      else if a < 0xF0 then some (3, (a - 0xE0).toUInt32)
      else if a < 0xF8 then some (4, (a - 0xF0).toUInt32)
      else none :=
  forall_byte (p := fun a => lead a = if a < 0xC0 then none
      else if a < 0xE0 then some (2, (a - 0xC0).toUInt32)
      else if a < 0xF0 then some (3, (a - 0xE0).toUInt32)
      else if a < 0xF8 then some (4, (a - 0xF0).toUInt32)
      else none) (by decide) a

theorem tail_bits (hb : IsTail b) : (b.toUInt32 &&& 0x3F).toNat = b.toNat - 128 :=
  forall_byte (p := fun b => 0x80 ≤ b ∧ b ≤ 0xBF → (b.toUInt32 &&& 0x3F).toNat = b.toNat - 128)
    (by decide) b hb

theorem continuation_cons {cp : UInt32} (b : UInt8) (rest : Text) (hcp : cp.toNat < 2 ^ 26) :
    (¬IsTail b ∧ continuation cp (b :: rest) = none) ∨
      IsTail b ∧ ∃ next : UInt32, next.toNat = cp.toNat * 64 + (b.toNat - 128) ∧
        continuation cp (b :: rest) = continuation next rest := by
  by_cases hb : IsTail b
  · refine .inr ⟨hb, (cp <<< 6) ||| (b.toUInt32 &&& 0x3F), ?_, ?_⟩
    · have hbits := tail_bits hb
      have hlt : b.toNat - 128 < 2 ^ 6 := by
        have := UInt8.le_iff_toNat_le.1 hb.2
        have hmost : (0xBF : UInt8).toNat = 191 := rfl
        omega
      rw [UInt32.toNat_or, hbits, UInt32.toNat_shiftLeft]
      have hsix : (6 : UInt32).toNat % 32 = 6 := rfl
      rw [hsix, Nat.shiftLeft_eq, Nat.mod_eq_of_lt (by omega), ← Nat.shiftLeft_eq,
        ← Nat.shiftLeft_add_eq_or_of_lt hlt, Nat.shiftLeft_eq]
    · rw [continuation, if_pos ((isTail_iff b).2 hb)]
  · exact .inl ⟨hb, by rw [continuation, if_neg fun htail => hb ((isTail_iff b).1 htail)]⟩

/-- A number that UTF-8 spells with so many bytes. -/
def IsCode (length code : Nat) : Prop :=
  (length = 2 → 0x80 ≤ code) ∧ (length = 3 → 0x800 ≤ code) ∧ (length = 4 → 0x10000 ≤ code) ∧
    code ≤ 0x10FFFF ∧ ¬(0xD800 ≤ code ∧ code ≤ 0xDFFF)

theorem utf8Step_of_code {code : UInt32} (hhigh : ¬s.headD 0 < 0x80)
    (hlead : lead (s.headD 0) = some (length, bits)) (hlen : length ≤ s.length)
    (hcode : continuation bits ((s.drop 1).take (length - 1)) = some code) :
    IsCode length code.toNat ∧ utf8Step s = length ∨ ¬IsCode length code.toNat ∧ utf8Step s = 0 := by
  unfold utf8Step
  rw [if_neg hhigh, hlead]
  simp only
  rw [if_neg (by omega), hcode]
  simp only [UInt32.lt_iff_toNat_lt, UInt32.le_iff_toNat_le]
  have h80 : (0x80 : UInt32).toNat = 0x80 := rfl
  have h800 : (0x800 : UInt32).toNat = 0x800 := rfl
  have h10000 : (0x10000 : UInt32).toNat = 0x10000 := rfl
  have h10FFFF : (0x10FFFF : UInt32).toNat = 0x10FFFF := rfl
  have hD800 : (0xD800 : UInt32).toNat = 0xD800 := rfl
  have hDFFF : (0xDFFF : UInt32).toNat = 0xDFFF := rfl
  rw [h80, h800, h10000, h10FFFF, hD800, hDFFF]
  unfold IsCode
  split
  · next hshort => exact .inr ⟨by omega, rfl⟩
  · next hlong =>
      split
      · next hout => exact .inr ⟨by omega, rfl⟩
      · next hin => exact .inl ⟨by omega, rfl⟩

theorem utf8Step_of_none (hhigh : ¬s.headD 0 < 0x80)
    (hlead : lead (s.headD 0) = some (length, bits))
    (hcode : continuation bits ((s.drop 1).take (length - 1)) = none) : utf8Step s = 0 := by
  unfold utf8Step
  rw [if_neg hhigh, hlead]
  simp only
  split
  · rfl
  · rw [hcode]

theorem utf8Step_of_lead (rest : Text) (hhigh : ¬a < 0x80)
    (hlead : lead a = some (tail.length + 1, bits)) :
    continuation bits tail = none ∧ utf8Step (a :: (tail ++ rest)) = 0 ∨
      ∃ code, continuation bits tail = some code ∧
        (IsCode (tail.length + 1) code.toNat ∧ utf8Step (a :: (tail ++ rest)) = tail.length + 1 ∨
          ¬IsCode (tail.length + 1) code.toNat ∧ utf8Step (a :: (tail ++ rest)) = 0) := by
  have htake : ((a :: (tail ++ rest)).drop 1).take (tail.length + 1 - 1) = tail := by simp
  cases hcode : continuation bits tail with
  | none => exact .inl ⟨rfl, utf8Step_of_none hhigh hlead (by rw [htake, hcode])⟩
  | some code =>
    exact .inr ⟨code, rfl, utf8Step_of_code hhigh hlead (by simp) (by rw [htake, hcode])⟩

/-- What bytes add to a code, six bits each. -/
def tailValue (sum : Nat) (tail : Text) : Nat :=
  tail.foldl (fun sum b => sum * 64 + (b.toNat - 128)) sum

@[simp] theorem tailValue_nil (sum : Nat) : tailValue sum [] = sum := rfl

@[simp] theorem tailValue_cons (sum : Nat) (b : UInt8) (rest : Text) :
    tailValue sum (b :: rest) = tailValue (sum * 64 + (b.toNat - 128)) rest := by
  rw [tailValue, List.foldl_cons, ← tailValue]

theorem continuation_spec (tail : Text) {cp : UInt32} (hlen : tail.length ≤ 5)
    (hcp : cp.toNat < 2 ^ (32 - 6 * tail.length)) :
    (¬(∀ b ∈ tail, IsTail b) ∧ continuation cp tail = none) ∨
      (∀ b ∈ tail, IsTail b) ∧ ∃ code, continuation cp tail = some code ∧
        code.toNat = tailValue cp.toNat tail := by
  induction tail generalizing cp with
  | nil => exact .inr ⟨by simp, cp, rfl, rfl⟩
  | cons b rest ih =>
    rw [List.length_cons] at hlen hcp
    have hsmall : 2 ^ (32 - 6 * (rest.length + 1)) ≤ 2 ^ 26 :=
      Nat.pow_le_pow_right (by decide) (by omega)
    rcases continuation_cons b rest (show cp.toNat < 2 ^ 26 by omega) with
      ⟨hb, hnone⟩ | ⟨hb, next, hnext, hsome⟩
    · exact .inl ⟨fun hall => hb (hall b (by simp)), hnone⟩
    · have hmost : b.toNat - 128 < 64 := by
        have hle := UInt8.le_iff_toNat_le.1 hb.2
        rw [show (0xBF : UInt8).toNat = 191 from rfl] at hle
        omega
      have hpow : 2 ^ (32 - 6 * rest.length) = 2 ^ (32 - 6 * (rest.length + 1)) * 64 := by
        rw [show 32 - 6 * rest.length = 32 - 6 * (rest.length + 1) + 6 by omega, Nat.pow_add]
      have hroom : next.toNat < 2 ^ (32 - 6 * rest.length) := by
        rw [hnext, hpow]
        omega
      rcases ih (by omega) hroom with ⟨hall, hnone⟩ | ⟨hall, code, hcode, hvalue⟩
      · exact .inl ⟨fun hboth => hall fun b hb => hboth b (by simp [hb]), hsome.trans hnone⟩
      · refine .inr ⟨by simpa using ⟨hb, hall⟩, code, hsome.trans hcode, ?_⟩
        rw [hvalue, hnext, tailValue_cons]

theorem utf8Char_two_iff (hleast : 0xC0 ≤ a) (hmost : a < 0xE0) :
    Utf8Char [a, b] ↔ IsTail b ∧ IsCode 2 (tailValue (a.toNat - 192) [b]) := by
  constructor
  · intro hchar
    cases hchar with
    | two ha ha' hb =>
      refine ⟨hb, ?_⟩
      unfold IsTail at hb
      simp only [UInt8.le_iff_toNat_le, UInt8.lt_iff_toNat_lt, UInt8.reduceToNat] at *
      simp only [IsCode, tailValue_cons, tailValue_nil]
      omega
  · rintro ⟨hb, hcode⟩
    refine .two ?_ ?_ hb <;>
    · unfold IsTail at hb
      simp only [UInt8.le_iff_toNat_le, UInt8.lt_iff_toNat_lt, UInt8.reduceToNat] at *
      simp only [IsCode, tailValue_cons, tailValue_nil, true_implies] at hcode
      omega

theorem utf8Char_three_iff {c : UInt8} (hleast : 0xE0 ≤ a) (hmost : a < 0xF0) :
    Utf8Char [a, b, c] ↔ (IsTail b ∧ IsTail c) ∧ IsCode 3 (tailValue (a.toNat - 224) [b, c]) := by
  constructor
  · intro hchar
    cases hchar with
    | three ha ha' hlow hhigh hb hc =>
      refine ⟨⟨hb, hc⟩, ?_⟩
      unfold IsTail at hb hc
      simp only [UInt8.le_iff_toNat_le, UInt8.lt_iff_toNat_lt, UInt8.reduceToNat,
        ← UInt8.toNat_inj] at *
      simp only [IsCode, tailValue_cons, tailValue_nil]
      omega
  · rintro ⟨⟨hb, hc⟩, hcode⟩
    refine .three hleast ?_ ?_ ?_ hb hc <;>
    · unfold IsTail at hb hc
      simp only [UInt8.le_iff_toNat_le, UInt8.lt_iff_toNat_lt, UInt8.reduceToNat,
        ← UInt8.toNat_inj] at *
      simp only [IsCode, tailValue_cons, tailValue_nil, true_implies] at hcode
      omega

theorem utf8Char_four_iff {c d : UInt8} (hleast : 0xF0 ≤ a) (hmost : a < 0xF8) :
    Utf8Char [a, b, c, d] ↔
      (IsTail b ∧ IsTail c ∧ IsTail d) ∧ IsCode 4 (tailValue (a.toNat - 240) [b, c, d]) := by
  constructor
  · intro hchar
    cases hchar with
    | four ha ha' hlow hhigh hb hc hd =>
      refine ⟨⟨hb, hc, hd⟩, ?_⟩
      unfold IsTail at hb hc hd
      simp only [UInt8.le_iff_toNat_le, UInt8.lt_iff_toNat_lt, UInt8.reduceToNat,
        ← UInt8.toNat_inj] at *
      simp only [IsCode, tailValue_cons, tailValue_nil]
      omega
  · rintro ⟨⟨hb, hc, hd⟩, hcode⟩
    refine .four hleast ?_ ?_ ?_ hb hc hd <;>
    · unfold IsTail at hb hc hd
      simp only [UInt8.le_iff_toNat_le, UInt8.lt_iff_toNat_lt, UInt8.reduceToNat,
        ← UInt8.toNat_inj] at *
      simp only [IsCode, tailValue_cons, tailValue_nil, true_implies] at hcode
      omega

theorem utf8Char_iff_code (hlead : lead a = some (tail.length + 1, bits)) :
    Utf8Char (a :: tail) ↔
      (∀ b ∈ tail, IsTail b) ∧ IsCode (tail.length + 1) (tailValue bits.toNat tail) := by
  have hbits (least : UInt8) (hle : least ≤ a) :
      (a - least).toUInt32.toNat = a.toNat - least.toNat := by
    rw [UInt8.toNat_toUInt32, UInt8.toNat_sub_of_le _ _ hle]
  rw [lead_spec] at hlead
  split at hlead
  · cases hlead
  · next hleast =>
      have hleast := UInt8.not_lt.1 hleast
      split at hlead
      · next hmost =>
          simp only [Option.some.injEq, Prod.mk.injEq] at hlead
          obtain ⟨hlength, rfl⟩ := hlead
          obtain ⟨b, rfl⟩ := List.length_eq_one_iff.1 (show tail.length = 1 by omega)
          rw [utf8Char_two_iff hleast hmost, hbits _ hleast]
          simp [show (192 : UInt8).toNat = 192 from rfl]
      · next hleast' =>
          have hleast := UInt8.not_lt.1 hleast'
          split at hlead
          · next hmost =>
              simp only [Option.some.injEq, Prod.mk.injEq] at hlead
              obtain ⟨hlength, rfl⟩ := hlead
              obtain ⟨b, c, rfl⟩ := List.length_eq_two.1 (show tail.length = 2 by omega)
              rw [utf8Char_three_iff hleast hmost, hbits _ hleast]
              simp [show (224 : UInt8).toNat = 224 from rfl]
          · next hleast' =>
              have hleast := UInt8.not_lt.1 hleast'
              split at hlead
              · next hmost =>
                  simp only [Option.some.injEq, Prod.mk.injEq] at hlead
                  obtain ⟨hlength, rfl⟩ := hlead
                  obtain ⟨b, c, d, rfl⟩ := List.length_eq_three.1 (show tail.length = 3 by omega)
                  rw [utf8Char_four_iff hleast hmost, hbits _ hleast]
                  simp [show (240 : UInt8).toNat = 240 from rfl]
              · cases hlead

theorem Utf8Char.lead_eq (hchar : Utf8Char (a :: tail)) :
    a < 0x80 ∧ tail = [] ∨ ¬a < 0x80 ∧ ∃ bits, lead a = some (tail.length + 1, bits) := by
  rw [lead_spec]
  simp only [UInt8.lt_iff_toNat_lt, UInt8.reduceToNat]
  cases hchar with
  | one ha =>
    simp only [UInt8.lt_iff_toNat_lt, UInt8.reduceToNat] at ha
    exact .inl ⟨ha, rfl⟩
  | two ha ha' =>
    simp only [UInt8.le_iff_toNat_le, UInt8.reduceToNat] at ha ha'
    rw [if_neg (by omega), if_pos (by omega)]
    exact .inr ⟨by omega, _, rfl⟩
  | three ha ha' =>
    simp only [UInt8.le_iff_toNat_le, UInt8.reduceToNat] at ha ha'
    rw [if_neg (by omega), if_neg (by omega), if_pos (by omega)]
    exact .inr ⟨by omega, _, rfl⟩
  | four ha ha' =>
    simp only [UInt8.le_iff_toNat_le, UInt8.reduceToNat] at ha ha'
    rw [if_neg (by omega), if_neg (by omega), if_neg (by omega), if_pos (by omega)]
    exact .inr ⟨by omega, _, rfl⟩

theorem lead_bounds (hlead : lead a = some (length, bits)) :
    2 ≤ length ∧ length ≤ 4 ∧ bits.toNat < 32 := by
  rw [lead_spec] at hlead
  split_ifs at hlead <;> cases hlead
  all_goals
    simp only [UInt8.lt_iff_toNat_lt, UInt8.reduceToNat, UInt8.toNat_toUInt32] at *
    grind [UInt8.toNat_sub]

theorem Utf8Char.tail_of_lead
    (hhigh : ¬a < 0x80) (hlead : lead a = some (length, bits)) (hsplit : a :: rest = char ++ behind)
    (hchar : Utf8Char char) : ∃ tail, char = a :: tail ∧ length = tail.length + 1 := by
  cases char with
  | nil => cases hchar
  | cons first tail =>
    cases hsplit
    obtain ⟨hlow, -⟩ | ⟨-, bits', hsome⟩ := hchar.lead_eq
    · exact absurd hlow hhigh
    · rw [hlead] at hsome
      simp only [Option.some.injEq, Prod.mk.injEq] at hsome
      exact ⟨tail, rfl, hsome.1⟩

theorem Utf8Char.length_unique {char' behind' : Text} (hchar : Utf8Char char)
    (hchar' : Utf8Char char') (hsplit : char ++ behind = char' ++ behind') :
    char.length = char'.length := by
  cases char with
  | nil => cases hchar
  | cons a tail =>
    obtain ⟨hlow, rfl⟩ | ⟨hhigh, bits, hlead⟩ := hchar.lead_eq
    · cases char' with
      | nil => cases hchar'
      | cons a' tail' =>
        obtain rfl : a = a' := (List.cons.inj hsplit).1
        obtain ⟨-, rfl⟩ | ⟨hhigh, -⟩ := hchar'.lead_eq
        · rfl
        · exact absurd hlow hhigh
    · obtain ⟨tail', rfl, hlength⟩ := hchar'.tail_of_lead hhigh hlead hsplit
      rw [List.length_cons, List.length_cons, hlength]

/-- What `utf8_step` says of a place. -/
def Stepped (s : Text) : Prop :=
  (∃ char behind, s = char ++ behind ∧ Utf8Char char ∧ utf8Step s = char.length) ∨
    utf8Step s = 0 ∧ ∀ char behind, s = char ++ behind → ¬Utf8Char char

theorem stepped_of_none (hhigh : ¬a < 0x80) (hlead : lead a = none) : Stepped (a :: rest) := by
  refine .inr ⟨by simp [utf8Step, hhigh, hlead], fun char behind hsplit hchar => ?_⟩
  cases char with
  | nil => cases hchar
  | cons first tail =>
    cases hsplit
    obtain ⟨hlow, -⟩ | ⟨-, bits, hsome⟩ := hchar.lead_eq
    · exact hhigh hlow
    · simp [hlead] at hsome

theorem stepped_of_short (hhigh : ¬a < 0x80) (hlead : lead a = some (length, bits))
    (hshort : (a :: rest).length < length) : Stepped (a :: rest) := by
  refine .inr ⟨?_, fun char behind hsplit hchar => ?_⟩
  · unfold utf8Step
    rw [List.headD_cons, if_neg hhigh, hlead]
    simp only
    rw [if_pos hshort]
  · obtain ⟨tail, rfl, hlength⟩ := hchar.tail_of_lead hhigh hlead hsplit
    rw [hsplit, List.length_append, List.length_cons] at hshort
    omega

theorem stepped_of_lead (hhigh : ¬a < 0x80)
    (hlead : lead a = some (tail.length + 1, bits)) : Stepped (a :: (tail ++ behind)) := by
  obtain ⟨-, hmost, hbits⟩ := lead_bounds hlead
  have hroom : bits.toNat < 2 ^ (32 - 6 * tail.length) :=
    Nat.lt_of_lt_of_le hbits (Nat.pow_le_pow_right (n := 2) (i := 5) (by decide) (by omega))
  have hother (hnot : ¬Utf8Char (a :: tail)) (char behind' : Text)
      (hsplit : a :: (tail ++ behind) = char ++ behind') : ¬Utf8Char char := by
    intro hchar
    obtain ⟨tail', rfl, hlength⟩ := hchar.tail_of_lead hhigh hlead hsplit
    obtain ⟨rfl, -⟩ := List.append_inj (List.cons.inj hsplit).2 (by omega)
    exact hnot hchar
  have hiff := utf8Char_iff_code hlead
  have hspec := continuation_spec tail (by omega) hroom
  rcases utf8Step_of_lead behind hhigh hlead with
    ⟨hnone, hzero⟩ | ⟨code, hsome, hstep⟩
  · refine .inr ⟨hzero, hother fun hchar => ?_⟩
    rcases hspec with ⟨hnot, -⟩ | ⟨-, code, hsome, -⟩
    · exact hnot (hiff.1 hchar).1
    · simp [hnone] at hsome
  · rcases hspec with ⟨-, hnone⟩ | ⟨hall, code', hsome', hvalue⟩
    · simp [hnone] at hsome
    · obtain rfl : code = code' := by simpa [hsome] using hsome'
      rw [hvalue] at hstep
      rcases hstep with ⟨hin, hwide⟩ | ⟨hout, hzero⟩
      · exact .inl ⟨a :: tail, behind, rfl, hiff.2 ⟨hall, hin⟩, hwide⟩
      · exact .inr ⟨hzero, hother fun hchar => hout (hiff.1 hchar).2⟩

theorem utf8Step_spec (hsome : s ≠ []) : Stepped s := by
  obtain ⟨a, rest, rfl⟩ := List.exists_cons_of_ne_nil hsome
  by_cases hhigh : a < 0x80
  · exact .inl ⟨[a], rest, rfl, .one hhigh, by simp [utf8Step, hhigh]⟩
  · cases hlead : lead a with
    | none => exact stepped_of_none hhigh hlead
    | some entry =>
      obtain ⟨length, bits⟩ := entry
      by_cases hshort : (a :: rest).length < length
      · exact stepped_of_short hhigh hlead hshort
      · rw [List.length_cons] at hshort
        have htail : (rest.take (length - 1)).length + 1 = length := by
          rw [List.length_take]
          have := (lead_bounds hlead).1
          omega
        rw [← List.take_append_drop (length - 1) rest]
        exact stepped_of_lead hhigh (by rw [htail, hlead])

theorem utf8Step_append (hchar : Utf8Char char) (behind : Text) :
    utf8Step (char ++ behind) = char.length := by
  have hsome : char ++ behind ≠ [] := by
    intro hnil
    rw [(List.append_eq_nil_iff.1 hnil).1] at hchar
    cases hchar
  rcases utf8Step_spec hsome with ⟨char', behind', hsplit, hchar', hstep⟩ | ⟨-, hnone⟩
  · rw [hstep, hchar.length_unique hchar' hsplit]
  · exact absurd hchar (hnone _ _ rfl)

end Bytes

end Lhat.Json
