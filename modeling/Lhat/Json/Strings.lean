import Lhat.Json.Grammar
import Lhat.Foundation.Answers

/-!
# The strings that are read

A character of the grammar is what one turn of the loop takes, and a string is what the
loop takes up to its quote.
-/

namespace Lhat.Json

open Lexing (Text)

variable {s bytes rest : Text} {turns : Nat}

theorem readHex4_eq_ok {code : UInt32} :
    readHex4 s = .ok (code, rest) ↔
      ∃ digits, digits.length = 4 ∧ hexCode digits 0 = some code ∧ s = digits ++ rest := by
  unfold readHex4 reject
  constructor
  · intro h
    split at h
    · cases h
    · next hlong =>
        cases hcode : hexCode (s.take 4) 0 with
        | none => simp [hcode] at h
        | some read =>
          obtain ⟨rfl, rfl⟩ : read = code ∧ s.drop 4 = rest := by simpa [hcode] using h
          refine ⟨s.take 4, ?_, hcode, (List.take_append_drop 4 s).symm⟩
          rw [List.length_take]
          omega
  · rintro ⟨digits, hlength, hcode, rfl⟩
    have htake : (digits ++ rest).take 4 = digits := by rw [← hlength, List.take_left]
    have hdrop : (digits ++ rest).drop 4 = rest := by rw [← hlength, List.drop_left]
    rw [if_neg (by simp [hlength]), htake, hcode, hdrop]

theorem readUnicode_sound (h : readUnicode s = .ok (bytes, rest)) :
    ∃ spelled, s = spelled ++ rest ∧ Character (92 :: 117 :: spelled) bytes := by
  obtain ⟨⟨code, behind⟩, hhex, hrest⟩ := Answers.of_bind h
  obtain ⟨digits, hlength, hcode, rfl⟩ := readHex4_eq_ok.1 hhex
  simp only at hrest
  split at hrest
  · next hhigh =>
      split at hrest
      · next behind =>
          obtain ⟨⟨low, behind'⟩, hhex', hlast⟩ := Answers.of_bind hrest
          obtain ⟨digits', hlength', hcode', rfl⟩ := readHex4_eq_ok.1 hhex'
          simp only at hlast
          split at hlast
          · next hlow =>
              cases hlast
              exact ⟨digits ++ 92 :: 117 :: digits', by simp,
                .pair hlength hcode hhigh hlength' hcode' hlow⟩
          · cases hlast
      · cases hrest
  · next hhigh =>
      split at hrest
      · cases hrest
      · next hlow =>
          cases hrest
          exact ⟨digits, rfl, .unicode hlength hcode (by simpa using hhigh) (by simpa using hlow)⟩

theorem readCharacter_sound (hsome : s ≠ []) (hquote : s.headD 0 ≠ 34)
    (h : readCharacter s = .ok (bytes, rest)) :
    ∃ spelled, s = spelled ++ rest ∧ Character spelled bytes := by
  unfold readCharacter at h
  split at h
  · cases h
  · next hcontrol =>
      split at h
      · next hplain =>
          split at h
          · cases h
          · next hstep =>
              cases h
              rcases utf8Step_spec hsome with ⟨char, behind, rfl, hchar, hstep'⟩ | ⟨hzero, -⟩
              · rw [hstep', List.take_left, List.drop_left]
                have hhead : (char ++ behind).headD 0 = char.headD 0 := by
                  cases char with
                  | nil => cases hchar
                  | cons a tail => rfl
                rw [hhead] at hcontrol hplain hquote
                exact ⟨char, rfl, .plain hchar (UInt8.not_lt.1 hcontrol) hquote hplain⟩
              · exact absurd hzero hstep
      · next hescape =>
          obtain ⟨a, behind, rfl⟩ := List.exists_cons_of_ne_nil hsome
          obtain rfl : a = 92 := by simpa using hescape
          simp only [List.drop_one, List.tail_cons] at h
          split at h
          · cases h
          · obtain ⟨spelled, rfl, hcharacter⟩ := readUnicode_sound h
            exact ⟨_, rfl, hcharacter⟩
          · next escaped behind hother =>
              split at h
              · cases h
              · next plain hplain =>
                  cases h
                  exact ⟨[92, escaped], rfl, .escape hplain⟩

theorem readCharacters_turn (hsome : s ≠ []) (hquote : s.headD 0 ≠ 34) :
    readCharacters (turns + 1) s = (do
      let (bytes, s) ← readCharacter s
      let (more, s) ← readCharacters turns s
      .ok (bytes ++ more, s)) := by
  obtain ⟨a, rest, rfl⟩ := List.exists_cons_of_ne_nil hsome
  have hne : a ≠ 34 := by simpa using hquote
  rw [readCharacters.eq_4]
  · simp
  · intro s hs
    exact hne (List.cons.inj hs).1

theorem readCharacters_none (hsome : s ≠ []) (hquote : s.headD 0 ≠ 34) :
    readCharacters 0 s = reject .badText "a string with no end" := by
  obtain ⟨a, rest, rfl⟩ := List.exists_cons_of_ne_nil hsome
  have hne : a ≠ 34 := by simpa using hquote
  rw [readCharacters.eq_3]
  · simp
  · intro s hs
    exact hne (List.cons.inj hs).1

theorem readCharacters_sound (h : readCharacters turns s = .ok (bytes, rest)) :
    ∃ held, s = held ++ 34 :: rest ∧ Characters held bytes := by
  induction turns generalizing s bytes with
  | zero =>
    by_cases hnil : s = []
    · subst hnil
      cases h
    by_cases hquote : s.headD 0 = 34
    · obtain ⟨a, behind, rfl⟩ := List.exists_cons_of_ne_nil hnil
      obtain rfl : a = 34 := by simpa using hquote
      cases h
      exact ⟨[], rfl, .nil⟩
    · rw [readCharacters_none hnil hquote] at h
      cases h
  | succ turns ih =>
    by_cases hnil : s = []
    · subst hnil
      cases h
    by_cases hquote : s.headD 0 = 34
    · obtain ⟨a, behind, rfl⟩ := List.exists_cons_of_ne_nil hnil
      obtain rfl : a = 34 := by simpa using hquote
      cases h
      exact ⟨[], rfl, .nil⟩
    · rw [readCharacters_turn hnil hquote] at h
      obtain ⟨⟨first, s'⟩, hfirst, hrest⟩ := Answers.of_bind h
      obtain ⟨⟨more, s''⟩, hmore, hlast⟩ := Answers.of_bind hrest
      cases hlast
      obtain ⟨spelled, rfl, hcharacter⟩ := readCharacter_sound hnil hquote hfirst
      obtain ⟨held, rfl, hheld⟩ := ih hmore
      exact ⟨spelled ++ held, by simp, .cons hcharacter hheld⟩

theorem readStringText_sound (h : readStringText s = .ok (bytes, rest)) :
    ∃ spelled, Quoted spelled bytes ∧ 34 :: s = spelled ++ rest := by
  obtain ⟨held, rfl, hheld⟩ := readCharacters_sound h
  exact ⟨34 :: (held ++ [34]), ⟨held, hheld, rfl⟩, by simp⟩

/-! ## The other way -/

theorem readUnicode_one {digits : Text} {code : UInt32} (hlength : digits.length = 4)
    (hcode : hexCode digits 0 = some code) (hhigh : isHigh code = false) (hlow : isLow code = false)
    (rest : Text) : readUnicode (digits ++ rest) = .ok (utf8Put code, rest) := by
  rw [readUnicode, readHex4_eq_ok.2 ⟨digits, hlength, hcode, rfl⟩]
  simp [bind, Except.bind, hhigh, hlow]

theorem readUnicode_two {digits digits' : Text} {high low : UInt32} (hlength : digits.length = 4)
    (hcode : hexCode digits 0 = some high) (hhigh : isHigh high = true)
    (hlength' : digits'.length = 4) (hcode' : hexCode digits' 0 = some low)
    (hlow : isLow low = true) (rest : Text) :
    readUnicode (digits ++ 92 :: 117 :: (digits' ++ rest)) =
      .ok (utf8Put ((0x10000 : UInt32) + ((high - 0xD800) <<< 10) + (low - 0xDC00)), rest) := by
  have hlast : readHex4 (digits' ++ rest) = .ok (low, rest) :=
    readHex4_eq_ok.2 ⟨digits', hlength', hcode', rfl⟩
  rw [readUnicode, readHex4_eq_ok.2 ⟨digits, hlength, hcode, rfl⟩]
  simp [bind, Except.bind, hhigh, hlow, hlast]

theorem Character.head (h : Character s bytes) : ∃ a tail, s = a :: tail ∧ a ≠ 34 := by
  cases h with
  | plain hchar hleast hquote hslash =>
    cases s with
    | nil => cases hchar
    | cons a tail => exact ⟨a, tail, rfl, hquote⟩
  | escape => exact ⟨_, _, rfl, by decide⟩
  | unicode => exact ⟨_, _, rfl, by decide⟩
  | pair => exact ⟨_, _, rfl, by decide⟩

theorem readCharacter_unicode (s : Text) : readCharacter (92 :: 117 :: s) = readUnicode s := by
  rw [readCharacter, if_neg (by simp), if_neg (by simp)]
  rfl

theorem readCharacter_complete (h : Character s bytes) (rest : Text) :
    readCharacter (s ++ rest) = .ok (bytes, rest) := by
  cases h with
  | plain hchar hleast hquote hslash =>
    have hhead : (s ++ rest).headD 0 = s.headD 0 := by
      cases s with
      | nil => cases hchar
      | cons a tail => rfl
    have hstep := utf8Step_append hchar rest
    have hwide : s.length ≠ 0 := by
      cases s with
      | nil => cases hchar
      | cons a tail => simp
    rw [readCharacter, hhead, if_neg (UInt8.not_lt.2 hleast), if_pos hslash, hstep, if_neg hwide,
      List.take_left, List.drop_left]
  | @escape escaped byte hplain =>
    have hne : escaped ≠ 117 := by
      rintro rfl
      cases hplain
    rw [List.cons_append, readCharacter, if_neg (by simp), if_neg (by simp), List.drop_one,
      List.tail_cons]
    split
    · next hnil => cases hnil
    · next hunicode => exact absurd (List.cons.inj hunicode).1 hne
    · next hother =>
        obtain ⟨rfl, rfl⟩ := List.cons.inj hother
        rw [hplain]
        rfl
  | unicode hlength hcode hhigh hlow =>
    rw [List.cons_append, List.cons_append, readCharacter_unicode,
      readUnicode_one hlength hcode hhigh hlow]
  | pair hlength hcode hhigh hlength' hcode' hlow =>
    rw [List.append_assoc, List.cons_append, List.cons_append, readCharacter_unicode,
      List.cons_append, List.cons_append, readUnicode_two hlength hcode hhigh hlength' hcode' hlow]

theorem readCharacters_complete {held : Text} (h : Characters held bytes)
    (hturns : held.length ≤ turns) :
    readCharacters turns (held ++ 34 :: rest) = .ok (bytes, rest) := by
  induction h generalizing turns with
  | nil => cases turns <;> rfl
  | @cons s bytes s' bytes' hfirst _ ih =>
    obtain ⟨a, tail, rfl, ha⟩ := hfirst.head
    rw [List.length_append, List.length_cons] at hturns
    obtain ⟨turns, rfl⟩ : ∃ more, turns = more + 1 := ⟨turns - 1, by omega⟩
    rw [List.append_assoc, readCharacters_turn (by simp) (by simpa using ha),
      readCharacter_complete hfirst]
    simp only [bind, Except.bind]
    rw [ih (by omega)]

theorem readStringText_complete {spelled : Text} (h : Quoted spelled bytes) (rest : Text) :
    readStringText ((spelled ++ rest).tail) = .ok (bytes, rest) := by
  obtain ⟨held, hheld, rfl⟩ := h
  have hsplit : ((34 :: (held ++ [34])) ++ rest).tail = held ++ 34 :: rest := by simp
  rw [hsplit]
  exact readCharacters_complete hheld (by simp)

end Lhat.Json
