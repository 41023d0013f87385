import Lhat.Lexing.Token
import Mathlib.Logic.Relation

/-!
# Byte offsets and positions

A position counts lines and the UTF-16 units before an offset of its line. The way there
decodes every sequence; the way back goes by the lead byte alone. They come back to the
offset in every line where no sequence is malformed, and where a sequence of four bytes
that codes no more than three could is followed by pairs only.
-/

namespace Lhat.Lsp

open Lexing (Text ascii)

/-- How many bytes follow a lead byte. -/
def follow (lead : UInt8) : Nat :=
  if 0xF0 ≤ lead then 3 else if 0xE0 ≤ lead then 2 else if 0xC0 ≤ lead then 1 else 0

/-- The bits of the code point that a lead byte brings. -/
def leadBits (lead : UInt8) : Nat :=
  if 0xF0 ≤ lead then (lead &&& 0x07).toNat
  else if 0xE0 ≤ lead then (lead &&& 0x0F).toNat
  else if 0xC0 ≤ lead then (lead &&& 0x1F).toNat
  else lead.toNat

/-- The loop of `decode_and_advance`. -/
def decodeFollow : Nat → Nat → Text → Option Nat
  | 0, code, _ => some code
  | _ + 1, _, [] => none
  | k + 1, code, byte :: rest =>
    if byte &&& 0xC0 ≠ 0x80 then none
    else decodeFollow k ((code <<< 6) ||| (byte &&& 0x3F).toNat) rest

/-- `decode_and_advance` on the bytes from `*at` on: the code point, and how far it moves. -/
def decodeAndAdvance : Text → Nat × Nat
  | [] => (0, 1)
  | lead :: rest =>
    if rest.length < follow lead then (lead.toNat, 1)
    else
      match decodeFollow (follow lead) (leadBits lead) rest with
      | none => (lead.toNat, 1)
      | some code => (code, follow lead + 1)

/-- The first loop of `lsp_offset_at`. -/
def skipLines : Nat → Text → Nat
  | 0, _ => 0
  | _ + 1, [] => 0
  | line + 1, byte :: rest => 1 + skipLines (if byte = ascii '\n' then line else line + 1) rest

/-- `sequence` and `width` of a lead byte in `lsp_offset_at`. -/
def sequenceWidth (lead : UInt8) : Nat × Nat :=
  if 0xF0 ≤ lead then (4, 2) else if 0xE0 ≤ lead then (3, 1)
  else if 0xC0 ≤ lead then (2, 1) else (1, 1)

/-- The second loop of `lsp_offset_at`, in at most so many turns: how far it goes. -/
def skipUnits (character : Nat) : Nat → Text → Nat → Nat
  | 0, _, _ => 0
  | _ + 1, [], _ => 0
  | turns + 1, lead :: rest, units =>
    if lead = ascii '\n' ∨ character ≤ units then 0
    else if (lead :: rest).length < (sequenceWidth lead).1 then 0
    else (sequenceWidth lead).1 +
      skipUnits character turns ((lead :: rest).drop (sequenceWidth lead).1)
        (units + (sequenceWidth lead).2)

/-- `lsp_offset_at`. Every turn of its loops moves. -/
def lspOffsetAt (text : Text) (line character : Nat) : Nat :=
  let i := skipLines line text
  i + skipUnits character (text.drop i).length (text.drop i) 0

/-- The loop of `lsp_position_at` back to the start of a line. -/
def lineStart (text : Text) : Nat → Nat
  | 0 => 0
  | o + 1 => if text[o]? = some (ascii '\n') then o + 1 else lineStart text o

/-- What a code point counts. -/
def unitsOf (code : Nat) : Nat := if 0x10000 ≤ code then 2 else 1

/-- The last loop of `lsp_position_at`, in at most so many turns. -/
def countUnits : Nat → Text → Nat → Nat
  | 0, _, _ => 0
  | _ + 1, _, 0 => 0
  | turns + 1, text, left + 1 =>
    unitsOf (decodeAndAdvance text).1 +
      countUnits turns (text.drop (decodeAndAdvance text).2) (left + 1 - (decodeAndAdvance text).2)

structure LspPosition where
  line : Nat
  character : Nat
deriving DecidableEq

/-- `lsp_position_at`. -/
def lspPositionAt (text : Text) (byteOffset : Nat) : LspPosition :=
  let offset := if byteOffset ≤ text.length then byteOffset else text.length
  let start := lineStart text offset
  ⟨(text.take start).count (ascii '\n'),
    countUnits (offset - start) (text.drop start) (offset - start)⟩

/-- Line, then character. -/
def LspPosition.Before (p p' : LspPosition) : Prop :=
  p.line < p'.line ∨ p.line = p'.line ∧ p.character < p'.character

/-- One step of the way there. -/
def Steps (text : Text) (a b : Nat) : Prop :=
  a < text.length ∧ b = a + (decodeAndAdvance (text.drop a)).2

/-- `decode_and_advance`, stepped from the start of its line, stops at an offset. -/
def Stops (text : Text) (o : Nat) : Prop :=
  Relation.ReflTransGen (Steps text) (lineStart text o) o

/-- A line on which both walks agree. `ahead` is the way back being a unit ahead, which it
is from a sequence of four bytes on that codes no more than three could. -/
inductive Agrees : Bool → Text → Prop
  | ends {ahead} : Agrees ahead []
  | newline {ahead rest} : Agrees ahead (ascii '\n' :: rest)
  | pair {ahead lead rest} (hlead : lead ≠ ascii '\n')
      (hcode : 0x10000 ≤ (decodeAndAdvance (lead :: rest)).1)
      (hrest : Agrees ahead ((lead :: rest).drop (decodeAndAdvance (lead :: rest)).2)) :
      Agrees ahead (lead :: rest)
  | single {lead rest} (hlead : lead ≠ ascii '\n')
      (hcode : (decodeAndAdvance (lead :: rest)).1 < 0x10000)
      (hwhole : (decodeAndAdvance (lead :: rest)).2 = (sequenceWidth lead).1)
      (hrest : Agrees (0xF0 ≤ lead) ((lead :: rest).drop (decodeAndAdvance (lead :: rest)).2)) :
      Agrees false (lead :: rest)

/-! ### A sequence -/

variable {lead : UInt8} {rest : Text} {ahead : Bool} {k u : Nat}

theorem decodeFollow_spec {c : Nat} : ∀ {k code : Nat} {rest : Text},
    decodeFollow k code rest = some c →
    k ≤ rest.length ∧ (∀ b ∈ rest.take k, b ≠ ascii '\n') ∧
      ∀ n, code < 2 ^ n → c < 2 ^ (n + 6 * k)
  | 0, code, _, h => by
    cases h
    exact ⟨Nat.zero_le _, by simp, fun n hn => hn⟩
  | k + 1, _, [], h => by cases h
  | k + 1, code, byte :: rest, h => by
    simp only [decodeFollow] at h
    split_ifs at h with hbyte
    obtain ⟨hlength, hline, hbound⟩ := decodeFollow_spec h
    refine ⟨Nat.succ_le_succ hlength, fun b hb => ?_, fun n hn => ?_⟩
    · obtain rfl | hb := List.mem_cons.1 hb
      · rintro rfl
        exact hbyte (by decide)
      · exact hline b hb
    · have hsix : (byte &&& 0x3F).toNat < 2 ^ (n + 6) := by
        have : (byte &&& 0x3F).toNat < 2 ^ 6 := by
          rw [UInt8.toNat_and]
          exact Nat.and_lt_two_pow _ (by decide)
        exact Nat.lt_of_lt_of_le this (Nat.pow_le_pow_right (by decide) (by omega))
      have hcode : code <<< 6 < 2 ^ (n + 6) := by
        rw [Nat.shiftLeft_eq, Nat.pow_add]
        exact Nat.mul_lt_mul_of_pos_right hn (by decide)
      have := hbound (n + 6) (Nat.or_lt_two_pow hcode hsix)
      rwa [Nat.mul_succ, Nat.add_comm (6 * k), ← Nat.add_assoc]

theorem decode_cases (lead : UInt8) (rest : Text) :
    (2 ≤ (sequenceWidth lead).1 ∧ decodeAndAdvance (lead :: rest) = (lead.toNat, 1)) ∨
      (decodeAndAdvance (lead :: rest)).2 = (sequenceWidth lead).1 ∧
        (sequenceWidth lead).1 ≤ (lead :: rest).length ∧
        (∀ b ∈ rest.take ((sequenceWidth lead).1 - 1), b ≠ ascii '\n') ∧
        (0x10000 ≤ (decodeAndAdvance (lead :: rest)).1 → 0xF0 ≤ lead) := by
  have hfollow : (sequenceWidth lead).1 = follow lead + 1 := by
    unfold sequenceWidth follow
    split_ifs <;> rfl
  have hbits : ¬ 0xF0 ≤ lead → leadBits lead < 2 ^ (16 - 6 * follow lead) := by
    intro h
    unfold leadBits follow
    rw [if_neg h, if_neg h]
    split_ifs
    · rw [UInt8.toNat_and]
      exact Nat.and_lt_two_pow _ (by decide)
    · rw [UInt8.toNat_and]
      exact Nat.and_lt_two_pow _ (by decide)
    · exact Nat.lt_trans lead.toNat_lt (by decide)
  rw [hfollow]
  by_cases hfit : rest.length < follow lead
  · exact .inl ⟨by omega, if_pos hfit⟩
  cases hdecoded : decodeFollow (follow lead) (leadBits lead) rest with
  | none =>
    refine .inl ⟨?_, by rw [decodeAndAdvance, if_neg hfit, hdecoded]⟩
    by_contra hone
    rw [show follow lead = 0 by omega] at hdecoded
    cases hdecoded
  | some code =>
    obtain ⟨hlength, hline, hbound⟩ := decodeFollow_spec hdecoded
    simp only [decodeAndAdvance, if_neg hfit, hdecoded, Nat.add_sub_cancel, List.length_cons]
    refine .inr ⟨trivial, Nat.succ_le_succ hlength, hline, fun hpair => ?_⟩
    by_contra hlead
    have hlow := hbound _ (hbits hlead)
    have hthree : follow lead ≤ 2 := by
      unfold follow
      split_ifs <;> decide
    rw [Nat.sub_add_cancel (by omega)] at hlow
    omega

/-! ### A line -/

/-- What the way back does of a line in the first bytes of which the way there counts. -/
inductive Stepped : Text → Nat → Nat → Prop
  | here {rest : Text} : Stepped rest 0 0
  | step {lead : UInt8} {rest : Text} {k u : Nat} (hlead : lead ≠ ascii '\n')
      (hrest : Stepped ((lead :: rest).drop (decodeAndAdvance (lead :: rest)).2) k u) :
      Stepped (lead :: rest) ((decodeAndAdvance (lead :: rest)).2 + k)
        (unitsOf (decodeAndAdvance (lead :: rest)).1 + u)

theorem unitsOf_pos (code : Nat) : 0 < unitsOf code := by unfold unitsOf; split_ifs <;> decide

theorem decode_pos (text : Text) : 0 < (decodeAndAdvance text).2 := by
  cases text with
  | nil => exact Nat.one_pos
  | cons lead rest =>
    obtain ⟨-, h⟩ | ⟨h, -⟩ := decode_cases lead rest <;> rw [h]
    · exact Nat.one_pos
    · unfold sequenceWidth
      split_ifs <;> decide

theorem skipUnits_turn {character turns units : Nat} (hlead : lead ≠ ascii '\n')
    (hunits : units < character) (hfit : (sequenceWidth lead).1 ≤ (lead :: rest).length)
    (hturns : (lead :: rest).length ≤ turns) :
    ∃ turns' ≥ ((lead :: rest).drop (sequenceWidth lead).1).length,
      skipUnits character turns (lead :: rest) units = (sequenceWidth lead).1 +
        skipUnits character turns' ((lead :: rest).drop (sequenceWidth lead).1)
          (units + (sequenceWidth lead).2) := by
  obtain ⟨turns, rfl⟩ := Nat.exists_eq_succ_of_ne_zero (Nat.ne_zero_of_lt hturns)
  refine ⟨turns, ?_, ?_⟩
  · have hpos : 0 < (sequenceWidth lead).1 := by unfold sequenceWidth; split_ifs <;> decide
    rw [List.length_drop]
    omega
  · rw [skipUnits, if_neg (by simp [hlead, hunits]), if_neg (Nat.not_lt.2 hfit)]

theorem skipUnits_reached {character turns units : Nat} (hunits : character ≤ units)
    (text : Text) : skipUnits character turns text units = 0 := by
  cases turns with
  | zero => rfl
  | succ turns =>
    cases text with
    | nil => rfl
    | cons lead rest => exact if_pos (.inr hunits)

theorem Agrees.skipUnits (h : Agrees ahead rest) (hs : Stepped rest k u) :
    ∀ turns ≥ rest.length, ∀ base,
      Lsp.skipUnits (base + u) turns rest (base + ahead.toNat) = k := by
  induction h generalizing k u with
  | ends =>
    cases hs
    exact fun _ _ base => skipUnits_reached (by omega) _
  | newline =>
    cases hs with
    | here => exact fun _ _ base => skipUnits_reached (by omega) _
    | step hlead => exact absurd rfl hlead
  | @pair ahead lead rest hlead hcode hrest ih =>
    cases hs with
    | here => exact fun _ _ base => skipUnits_reached (by omega) _
    | @step _ _ k u _ hs =>
      intro turns hturns base
      obtain ⟨-, hbad⟩ | ⟨hstep, hfit, -, hfour⟩ := decode_cases lead rest
      · rw [hbad] at hcode
        exact absurd (Nat.lt_of_lt_of_le lead.toNat_lt (by decide)) (Nat.not_lt.2 hcode)
      have hwidth : (sequenceWidth lead).2 = 2 := by rw [sequenceWidth, if_pos (hfour hcode)]
      have hahead := ahead.toNat_le
      rw [hstep] at ih hs ⊢
      simp only [unitsOf, if_pos hcode]
      obtain ⟨turns', hturns', heq⟩ := skipUnits_turn hlead
        (show base + ahead.toNat < base + (2 + u) by omega) hfit hturns
      have hback := ih hs turns' hturns' (base + 2)
      rw [heq, hwidth, Nat.add_right_comm, ← Nat.add_assoc base 2 u, hback]
  | @single lead rest hlead hcode hwhole hrest ih =>
    cases hs with
    | here => exact fun _ _ base => skipUnits_reached (by omega) _
    | @step _ _ k u _ hs =>
      intro turns hturns base
      obtain ⟨hmore, hbad⟩ | ⟨-, hfit, -, -⟩ := decode_cases lead rest
      · rw [hbad] at hwhole
        omega
      have hwidth : (sequenceWidth lead).2 = 1 + (decide (0xF0 ≤ lead)).toNat := by
        unfold sequenceWidth
        split_ifs with h <;> simp [h]
      rw [hwhole] at ih hs ⊢
      simp only [unitsOf, if_neg (Nat.not_le.2 hcode)]
      obtain ⟨turns', hturns', heq⟩ := skipUnits_turn hlead
        (show base + false.toNat < base + (1 + u) by rw [Bool.toNat_false]; omega) hfit hturns
      have hback := ih hs turns' hturns' (base + 1)
      rw [heq, hwidth, Bool.toNat_false, Nat.add_zero, ← Nat.add_assoc, ← Nat.add_assoc, hback]

theorem agrees_of_skipUnits : ∀ (n : Nat) (rest : Text) (ahead : Bool) (base : Nat),
    rest.length ≤ n →
    (∀ k u, Stepped rest k u → ∃ turns,
      skipUnits (base + u) turns rest (base + ahead.toNat) = k) → Agrees ahead rest
  | _, [], _, _, _, _ => .ends
  | 0, _ :: _, _, _, hn, _ => absurd hn (by simp)
  | n + 1, lead :: rest, ahead, base, hn, hall => by
    by_cases hlead : lead = ascii '\n'
    · exact hlead ▸ .newline
    have hpos := decode_pos (lead :: rest)
    -- the way back takes a turn, for it has to move
    have hturn {k u} (hs : Stepped ((lead :: rest).drop (decodeAndAdvance (lead :: rest)).2) k u) :
        base + ahead.toNat < base + (unitsOf (decodeAndAdvance (lead :: rest)).1 + u) ∧
          (sequenceWidth lead).1 ≤ (lead :: rest).length ∧
          ∃ turns, (sequenceWidth lead).1 +
            skipUnits (base + (unitsOf (decodeAndAdvance (lead :: rest)).1 + u)) turns
              ((lead :: rest).drop (sequenceWidth lead).1)
              (base + ahead.toNat + (sequenceWidth lead).2) =
            (decodeAndAdvance (lead :: rest)).2 + k := by
      obtain ⟨turns, h⟩ := hall _ _ (.step hlead hs)
      cases turns with
      | zero => exact absurd h (by simp only [skipUnits]; omega)
      | succ turns =>
        rw [skipUnits] at h
        split_ifs at h with hstop hfit
        · omega
        · omega
        · simp only [hlead, false_or, Nat.not_le] at hstop
          exact ⟨hstop, Nat.not_lt.1 hfit, turns, h⟩
    obtain ⟨hunits, hfit, turns, hone⟩ := hturn .here
    obtain ⟨hmore, hbad⟩ | ⟨hstep, -, -, hfour⟩ := decode_cases lead rest
    · rw [hbad] at hone
      omega
    have hrest (ahead' : Bool) (base' : Nat)
        (hbase : base' = base + unitsOf (decodeAndAdvance (lead :: rest)).1)
        (hahead : base + ahead.toNat + (sequenceWidth lead).2 = base' + ahead'.toNat) :
        Agrees ahead' ((lead :: rest).drop (decodeAndAdvance (lead :: rest)).2) := by
      refine agrees_of_skipUnits n _ ahead' base' ?_ fun k u hs => ?_
      · rw [List.length_drop]
        omega
      · obtain ⟨-, -, turns, h⟩ := hturn hs
        rw [hstep] at h ⊢
        rw [hahead, ← Nat.add_assoc, ← hbase] at h
        exact ⟨turns, Nat.add_left_cancel h⟩
    by_cases hcode : 0x10000 ≤ (decodeAndAdvance (lead :: rest)).1
    · refine .pair hlead hcode (hrest _ _ rfl ?_)
      rw [unitsOf, if_pos hcode, sequenceWidth, if_pos (hfour hcode), Nat.add_right_comm]
    · rw [unitsOf, if_neg hcode] at hunits
      obtain rfl : ahead = false := by
        cases ahead
        · rfl
        · simp at hunits
      refine .single hlead (Nat.not_le.1 hcode) hstep (hrest _ _ rfl ?_)
      rw [unitsOf, if_neg hcode]
      unfold sequenceWidth
      split_ifs with h <;> simp [h]

theorem Stepped.countUnits (h : Stepped rest k u) :
    ∀ turns ≥ k, Lsp.countUnits turns rest k = u := by
  induction h with
  | here => exact fun turns _ => by cases turns <;> rfl
  | @step lead rest k u _ _ ih =>
    intro turns hturns
    have hpos := decode_pos (lead :: rest)
    obtain ⟨left, hleft⟩ := Nat.exists_eq_add_of_lt (Nat.add_pos_left hpos k)
    obtain ⟨turns, rfl⟩ := Nat.exists_eq_succ_of_ne_zero (show turns ≠ 0 by omega)
    rw [Nat.zero_add] at hleft
    rw [hleft, Lsp.countUnits, ← hleft, Nat.add_sub_cancel_left, ih turns (by omega)]

theorem Stepped.units_lt (h : Stepped rest k u) {k' u' : Nat} (h' : Stepped rest k' u')
    (hlt : k < k') : u < u' := by
  induction h generalizing k' u' with
  | here =>
    cases h' with
    | here => exact absurd hlt (Nat.lt_irrefl _)
    | step => exact Nat.add_pos_left (unitsOf_pos _) _
  | step _ _ ih =>
    cases h' with
    | here => exact absurd hlt (Nat.not_lt_zero _)
    | step _ h' => exact Nat.add_lt_add_left (ih h' (Nat.lt_of_add_lt_add_left hlt)) _

theorem Stepped.line (h : Stepped rest k u) :
    k ≤ rest.length ∧ ascii '\n' ∉ rest.take k := by
  induction h with
  | here => simp
  | @step lead rest k u hlead _ ih =>
    have hline : (decodeAndAdvance (lead :: rest)).2 ≤ (lead :: rest).length ∧
        ascii '\n' ∉ (lead :: rest).take (decodeAndAdvance (lead :: rest)).2 := by
      obtain ⟨-, hbad⟩ | ⟨hstep, hfit, hline, -⟩ := decode_cases lead rest
      · rw [hbad]
        simp [hlead.symm]
      · rw [hstep]
        refine ⟨hfit, fun h => ?_⟩
        have hpos := hstep ▸ decode_pos (lead :: rest)
        rw [← Nat.sub_add_cancel (n := (sequenceWidth lead).1) hpos, List.take_succ_cons] at h
        obtain h | h := List.mem_cons.1 h
        · exact hlead h.symm
        · exact hline _ h rfl
    rw [List.length_drop] at ih
    refine ⟨by omega, ?_⟩
    rw [List.take_add, List.mem_append, not_or]
    exact ⟨hline.2, ih.2⟩

/-! ### A text -/

section
variable {text : Text} {s o : Nat}

theorem lineStart_le (text : Text) : ∀ o, lineStart text o ≤ o
  | 0 => Nat.le_refl _
  | o + 1 => by
    rw [lineStart]
    split_ifs
    · exact Nat.le_refl _
    · exact Nat.le_succ_of_le (lineStart_le text o)

theorem lineStart_idem (text : Text) : ∀ o, lineStart text (lineStart text o) = lineStart text o
  | 0 => rfl
  | o + 1 => by
    rw [lineStart]
    split_ifs with h
    · rw [lineStart, if_pos h]
    · exact lineStart_idem text o

theorem lineStart_eq (hs : lineStart text s = s) (hle : s ≤ o) :
    lineStart text o = s ↔ ∀ j, s ≤ j → j < o → text[j]? ≠ some (ascii '\n') := by
  induction o, hle using Nat.le_induction with
  | base => exact iff_of_true hs fun j hj hlt => absurd hlt (Nat.not_lt.2 hj)
  | succ o hle ih =>
    rw [lineStart]
    split_ifs with h
    · exact iff_of_false (by omega) fun hall => hall o hle (Nat.lt_succ_self _) h
    · refine ih.trans ⟨fun hall j hj hlt => ?_, fun hall j hj hlt => hall j hj (by omega)⟩
      obtain hlt | rfl := Nat.lt_succ_iff_lt_or_eq.1 hlt
      · exact hall j hj hlt
      · exact h

theorem skipLines_newline : ∀ {s : Nat} {text : Text}, text[s]? = some (ascii '\n') →
    skipLines ((text.take (s + 1)).count (ascii '\n')) text = s + 1
  | _, [], h => by simp at h
  | 0, byte :: text, h => by
    obtain rfl : byte = ascii '\n' := by simpa using h
    simp [skipLines]
  | s + 1, byte :: text, h => by
    have htail : text[s]? = some (ascii '\n') := by simpa using h
    have hmem : ascii '\n' ∈ text.take (s + 1) :=
      List.mem_of_getElem? (i := s) (by rwa [List.getElem?_take_of_lt (Nat.lt_succ_self s)])
    obtain ⟨n, hn⟩ := Nat.exists_eq_succ_of_ne_zero
      (Nat.ne_of_gt (List.count_pos_iff.2 hmem))
    have ih := skipLines_newline htail
    rw [hn] at ih
    rw [List.take_succ_cons, List.count_cons, hn]
    by_cases hbyte : byte = ascii '\n'
    · simp only [hbyte, beq_self_eq_true, if_true, skipLines, ih]
      omega
    · simp only [hbyte, beq_iff_eq, if_false, Nat.add_zero, skipLines, ih]
      omega

theorem skipLines_count (hs : lineStart text s = s) :
    skipLines ((text.take s).count (ascii '\n')) text = s := by
  cases s with
  | zero => simp [skipLines]
  | succ s =>
    rw [lineStart] at hs
    split_ifs at hs with h
    · exact skipLines_newline h
    · have := lineStart_le text s
      omega

theorem Steps.le {a b : Nat} (h : Relation.ReflTransGen (Steps text) a b) : a ≤ b := by
  induction h with
  | refl => exact Nat.le_refl _
  | tail _ h ih => exact Nat.le_trans ih (h.2 ▸ Nat.le_add_right ..)

theorem Stops.stepped (h : Stops text o) :
    ∃ u, Stepped (text.drop (lineStart text o)) (o - lineStart text o) u := by
  have hline := (lineStart_eq (lineStart_idem text o) (lineStart_le text o)).1 rfl
  suffices hall : ∀ {a}, Relation.ReflTransGen (Steps text) a o → lineStart text o ≤ a →
      ∃ u, Stepped (text.drop a) (o - a) u from hall h (Nat.le_refl _)
  intro a ha
  induction ha using Relation.ReflTransGen.head_induction_on with
  | refl =>
    rw [Nat.sub_self]
    exact fun _ => ⟨0, .here⟩
  | @head a b hab hbo ih =>
    intro hstart
    obtain ⟨u, hu⟩ := ih (Nat.le_trans hstart (hab.2 ▸ Nat.le_add_right ..))
    obtain ⟨hlt, hb⟩ := hab
    have hbo := Steps.le hbo
    have hpos := decode_pos (text.drop a)
    have hlead : text[a] ≠ ascii '\n' := fun h =>
      hline a hstart (by omega) ((List.getElem?_eq_getElem hlt).trans (congrArg some h))
    rw [List.drop_eq_getElem_cons hlt] at hb hpos ⊢
    have hdrop : text.drop b = (text[a] :: text.drop (a + 1)).drop
        (decodeAndAdvance (text[a] :: text.drop (a + 1))).2 := by
      rw [← List.drop_eq_getElem_cons hlt, List.drop_drop, hb, List.drop_eq_getElem_cons hlt]
    have hstep := Stepped.step hlead (hdrop ▸ hu)
    have hsum : (decodeAndAdvance (text[a] :: text.drop (a + 1))).2 + (o - b) = o - a := by omega
    exact ⟨_, hsum ▸ hstep⟩

theorem Stepped.stops (hs : lineStart text s = s)
    (h : Stepped (text.drop s) k u) : lineStart text (s + k) = s ∧ Stops text (s + k) := by
  obtain ⟨hlength, hline⟩ := h.line
  have hsame : lineStart text (s + k) = s := by
    refine (lineStart_eq hs (Nat.le_add_right s k)).2 fun j hj hlt hnl => hline ?_
    refine List.mem_of_getElem? (i := j - s) ?_
    rw [List.getElem?_take_of_lt (by omega), List.getElem?_drop, Nat.add_sub_cancel' hj, hnl]
  refine ⟨hsame, ?_⟩
  rw [Stops, hsame]
  suffices hall : ∀ {rest k u}, Stepped rest k u → ∀ a, text.drop a = rest →
      Relation.ReflTransGen (Steps text) a (a + k) from hall h s rfl
  intro rest k u h
  induction h with
  | here => exact fun _ _ => .refl
  | @step lead rest k u _ _ ih =>
    intro a ha
    have hlt : a < text.length := by
      by_contra hout
      rw [List.drop_eq_nil_of_le (Nat.not_lt.1 hout)] at ha
      cases ha
    rw [← Nat.add_assoc]
    refine .head ⟨hlt, rfl⟩ (ha ▸ ih _ ?_)
    rw [← List.drop_drop, ha]

theorem lspPositionAt_stepped (hs : lineStart text s = s) (hle : s ≤ text.length)
    (h : Stepped (text.drop s) k u) :
    lspPositionAt text (s + k) = ⟨(text.take s).count (ascii '\n'), u⟩ := by
  have hlength := h.line.1
  rw [List.length_drop] at hlength
  simp only [lspPositionAt, if_pos (show s + k ≤ text.length by omega), (h.stops hs).1,
    Nat.add_sub_cancel_left, h.countUnits k (Nat.le_refl _)]

theorem lspOffsetAt_start (hs : lineStart text s = s) (character : Nat) :
    lspOffsetAt text ((text.take s).count (ascii '\n')) character =
      s + skipUnits character (text.drop s).length (text.drop s) 0 := by
  simp only [lspOffsetAt, skipLines_count hs]

theorem Stops.before {o' : Nat} (h : Stops text o) (h' : Stops text o') (hlt : o < o')
    (hle : o' ≤ text.length) : (lspPositionAt text o).Before (lspPositionAt text o') := by
  have hidem := lineStart_idem text
  have hstart := lineStart_le text
  obtain ⟨⟨u, hu⟩, u', hu'⟩ := And.intro h.stepped h'.stepped
  have ho := lspPositionAt_stepped (hidem o) (by have := hstart o; omega) hu
  have ho' := lspPositionAt_stepped (hidem o') (by have := hstart o'; omega) hu'
  rw [Nat.add_sub_cancel' (hstart o)] at ho
  rw [Nat.add_sub_cancel' (hstart o')] at ho'
  rw [ho, ho']
  by_cases hline : lineStart text o' ≤ o
  · have hsame : lineStart text o = lineStart text o' :=
      (lineStart_eq (hidem o') hline).2 fun j hj hjo =>
        (lineStart_eq (hidem o') (hstart o')).1 rfl j hj (by omega)
    rw [hsame] at hu ⊢
    exact .inr ⟨rfl, hu.units_lt hu' (by omega)⟩
  · refine .inl ?_
    -- the newline before the later line is not before the earlier one
    have hnl : text[lineStart text o' - 1]? = some (ascii '\n') := by
      have := hidem o'
      obtain ⟨s, hs⟩ := Nat.exists_eq_succ_of_ne_zero (show lineStart text o' ≠ 0 by omega)
      rw [hs, lineStart] at this
      split_ifs at this with hnl
      · rw [hs]
        exact hnl
      · have := hstart s
        omega
    have hsplit := List.take_append_drop (lineStart text o) (text.take (lineStart text o'))
    rw [List.take_take, Nat.min_eq_left (by have := hstart o; omega)] at hsplit
    change (text.take (lineStart text o)).count _ < (text.take (lineStart text o')).count _
    rw [← hsplit, List.count_append]
    refine Nat.lt_add_of_pos_right (List.count_pos_iff.2 ?_)
    refine List.mem_of_getElem? (i := lineStart text o' - 1 - lineStart text o) ?_
    have := hstart o
    rw [List.getElem?_drop, Nat.add_sub_cancel' (by omega),
      List.getElem?_take_of_lt (by omega), hnl]

end

/-- Positions and offsets are inverse exactly in the texts on every line of which the two
walks agree. -/
theorem lspOffsetAt_lspPositionAt_iff (text : Text) :
    ((∀ o ≤ text.length, Stops text o →
        lspOffsetAt text (lspPositionAt text o).line (lspPositionAt text o).character = o) ∧
      ∀ o o', o < o' → o' ≤ text.length → Stops text o → Stops text o' →
        (lspPositionAt text o).Before (lspPositionAt text o')) ↔
      ∀ s ≤ text.length, lineStart text s = s → Agrees false (text.drop s) := by
  refine ⟨fun h s hle hs => ?_, fun h => ⟨fun o hle hstops => ?_, fun o o' hlt hle ho ho' =>
    ho.before ho' hlt hle⟩⟩
  · refine agrees_of_skipUnits _ _ false 0 (Nat.le_refl _) fun k u hk =>
      ⟨(text.drop s).length, ?_⟩
    have hlength := hk.line.1
    rw [List.length_drop] at hlength
    have hback := h.1 (s + k) (by omega) (hk.stops hs).2
    rw [lspPositionAt_stepped hs hle hk, lspOffsetAt_start hs] at hback
    rw [Bool.toNat_false, Nat.zero_add]
    exact Nat.add_left_cancel hback
  · obtain ⟨u, hu⟩ := hstops.stepped
    have hstart := lineStart_le text o
    have hidem := lineStart_idem text o
    have hpos := lspPositionAt_stepped hidem (by omega) hu
    rw [Nat.add_sub_cancel' hstart] at hpos
    have hback := (h _ (by omega) hidem).skipUnits hu _ (Nat.le_refl _) 0
    rw [Bool.toNat_false, Nat.zero_add] at hback
    rw [hpos, lspOffsetAt_start hidem, hback, Nat.add_sub_cancel' hstart]

/-- The byte after a lead byte without the rest of its sequence. -/
theorem lspOffsetAt_malformed :
    ¬ ∀ (text : Text) (o : Nat), o ≤ text.length → Stops text o →
      lspOffsetAt text (lspPositionAt text o).line (lspPositionAt text o).character = o := fun h =>
  absurd (h [0xC3, ascii 'a'] 1 (by decide) (.single ⟨by decide, by decide⟩)) (by decide)

end Lhat.Lsp
