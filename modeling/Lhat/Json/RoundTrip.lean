import Lhat.Json.Contents
import Mathlib

/-!
# What is written is read back

A text that the writer answers is read back as a table with the same contents, but for two
kinds of table: one that goes 96 tables down to something, which the reader does not
follow, and one with a declared seat beside its sequence.
-/

namespace Lhat.Json

open Lexing (Text ascii)
open Lton (scalarOf)

section Back

variable {c : Numerals} {h : Heap} {store : Store}

theorem within_mono {levels : Nat} : ∀ {tree : Parsed}, Within levels tree → Within (levels + 1) tree := by
  induction levels with
  | zero => exact fun hnone => hnone.elim
  | succ levels ih =>
    intro tree hwithin
    cases tree with
    | array => exact fun element helement => ih (hwithin element helement)
    | object => exact fun pair hpair => ih (hwithin pair hpair)
    | _ => trivial

theorem head_of_table {number : Text → Prop} {levels : Nat} {t : LhatTable} {text : Text}
    {tree : Parsed} {inner : LhatValue → Parsed → Prop} (hspelled : Value c number (levels + 1) text tree)
    (hmirrors : TableMirrors h inner t tree) : text.head? = some 123 ∨ text.head? = some 91 := by
  cases hspelled with
  | @word word hword =>
    simp only [words, List.mem_cons, List.not_mem_nil, or_false] at hword
    rcases hword with rfl | rfl | rfl <;> cases hmirrors
  | number =>
    unfold numberValue at hmirrors
    split at hmirrors <;> cases hmirrors
  | string => cases hmirrors
  | array => exact .inr rfl
  | object => exact .inl rfl

theorem jsonDecode_unique {text : Text} {tree made : Parsed}
    (hspelled : Value c (NumberText Spelling.IsLoose) (jsonMaxDepth + 1) text tree)
    (hread : jsonDecode c text = .ok made) : made = tree ∧ Within jsonMaxDepth tree := by
  obtain ⟨before, core, behind, hbefore, hbehind, hcore, -, hsplit⟩ := jsonDecode_eq_ok.1 hread
  have hcore' := hcore.of_within (within_mono hcore.within)
  have hstops : Stops behind := fun d hd => .inl (hbehind d (List.mem_of_mem_head? hd))
  have hone := readValue_complete _ _ _ _ hcore' hstops
  have hother := readValue_complete _ _ _ [] hspelled nofun
  rw [List.append_nil] at hother
  rw [← readValue_skip _ before _ hbefore, ← List.append_assoc, ← hsplit, hother] at hone
  obtain ⟨rfl, -⟩ := Prod.mk.inj (Except.ok.inj hone)
  exact ⟨rfl, hcore.within⟩

/-- What is encoded is decoded as a table with the same contents, unless something stands 96
tables down or a declared seat stands beside a sequence. -/
theorem decode_encode_iff {qsort : List Member → List Member} {value : LhatValue} {text : Text}
    (hc : c.Sound) (hqsort : ∀ members, (qsort members).Perm members)
    (hwf : ∀ o t, store.table o = some t → t.Wf h)
    (htable : ∃ o, value = .object o ∧ h.object o = some .table)
    (hplain : AllTables h store (PlainTable h) jsonMaxDepth value)
    (hok : jsonEncode c qsort h store value = .ok text) :
    (∃ made d, jsonDecode c text = .ok made ∧ made.denote jsonMaxDepth = some d ∧
        ReadsBack h store jsonMaxDepth value d) ↔
      ¬Reaches h store jsonMaxDepth value ∧ AllTables h store Seatless jsonMaxDepth value := by
  obtain ⟨tree, hspelled, hmirrors⟩ := writeValue_spec hc hqsort jsonMaxDepth value text hok
  have hloose : Value c (NumberText Spelling.IsLoose) (jsonMaxDepth + 1) text tree :=
    hspelled.mono fun s ⟨n, hn, htext, hshort⟩ => ⟨n, hn.isLoose, htext, hshort⟩
  have hdepth := hmirrors.within_iff hwf jsonMaxDepth
  constructor
  · rintro ⟨made, d, hread, hmade, hback⟩
    obtain ⟨rfl, hwithin⟩ := jsonDecode_unique hloose hread
    exact ⟨hdepth.1 hwithin, (readsBack_iff hwf _ _ _ ⟨_, hmirrors, hmade⟩ hplain).1 hback⟩
  · rintro ⟨hreach, hseatless⟩
    have hvalue := hloose.of_within (hdepth.2 hreach)
    obtain ⟨d, hd⟩ := Mirrors.exists_denote _ _ hmirrors
    refine ⟨tree, d, jsonDecode_eq_ok.2 ⟨[], text, [], nofun, nofun, hvalue, ?_, by simp⟩, hd,
      (readsBack_iff hwf _ _ _ ⟨_, hmirrors, hd⟩ hplain).2 hseatless⟩
    obtain ⟨o, rfl, hobject⟩ := htable
    obtain hscalar | ⟨o', t, -, -, -, htable⟩ := hmirrors
    · exact absurd hobject hscalar.not_table
    · exact head_of_table hspelled htable

end Back

/-! ## Two tables -/

section Sample

/-- Numbers by their bits, where they are not whole. -/
def sampleNumerals : Numerals where
  strtod run :=
    if isIntegral run then Binary64.ofInt (strtoll run).1
    else ⟨UInt64.ofNat
      ((if run.head? = some (ascii '-') then 2 ^ 63 else 0) + (strtoll run).1.natAbs)⟩
  printed _ d := Lton.signed d.isNegative (Lton.decimal d.magnitudeBits ++ [ascii 'e', ascii '0'])

theorem sample_integral (precision : Nat) (d : Binary64) :
    isIntegral (sampleNumerals.printed precision d) = false := by
  have hmem : ascii 'e' ∈ sampleNumerals.printed precision d := by
    simp only [sampleNumerals, Lton.signed]
    split <;> simp
  rw [isIntegral, List.all_eq_false]
  exact ⟨_, hmem, by decide⟩

theorem sample_strtoll (precision : Nat) (d : Binary64) :
    (strtoll (sampleNumerals.printed precision d)).1.natAbs = d.magnitudeBits := by
  simp only [sampleNumerals]
  rw [strtoll_signed _ (Lton.decimal_ne_nil _) (Lton.decimal_digits _) (by decide +kernel),
    Lton.digitsValue_decimal]
  simp only
  split <;> simp

theorem sample_head (precision : Nat) (d : Binary64) :
    (sampleNumerals.printed precision d).head? = some (ascii '-') ↔ d.isNegative = true := by
  simp only [sampleNumerals, Lton.signed]
  split
  · next hneg => simp [hneg]
  · next hneg =>
      obtain ⟨a, tail, ha, hdigit⟩ := Lton.decimal_head d.magnitudeBits
      rw [ha]
      simp [hneg, (digit_ne_sign hdigit).1]

theorem sample_sound : sampleNumerals.Sound where
  shape precision d _ := by
    refine ⟨⟨d.isNegative, Lton.decimal d.magnitudeBits, none,
      some (ascii 'e', [], [ascii '0'])⟩, ⟨⟨Lton.decimal_digits _, nofun, ?_⟩,
        Lton.decimal_ne_nil _, fun hzero => ?_, nofun⟩, ?_⟩
    · rintro letter sign digits ⟨⟩
      exact ⟨.inl rfl, .inl rfl, by simp, by simp [AllDigits]; decide⟩
    · rw [decimal_leading hzero, Lton.decimal]
      rfl
    · cases hneg : d.isNegative <;>
        simp [sampleNumerals, Spelling.text, Spelling.signText, Spelling.fractionText,
          Spelling.exponentText, Lton.signed, hneg]
  short precision d _ := by
    have hlength := @Lton.decimal_length 18 d.magnitudeBits
      (Nat.lt_of_lt_of_le d.magnitudeBits_lt (by norm_num))
    simp only [sampleNumerals, Lton.signed]
    split <;> simp <;> omega
  exact d hfinite := by
    have hsame : sampleNumerals.strtod (sampleNumerals.printed 17 d) = d := by
      have hbits : (if (sampleNumerals.printed 17 d).head? = some (ascii '-') then 2 ^ 63 else 0) +
          (strtoll (sampleNumerals.printed 17 d)).1.natAbs = d.bits.toNat := by
        rw [Binary64.bits_toNat, sample_strtoll, if_congr (sample_head 17 d) rfl rfl]
      show (if isIntegral (sampleNumerals.printed 17 d) then _ else _) = _
      rw [sample_integral, if_neg (by simp), hbits, UInt64.ofNat_toNat]
    rw [hsame]
    simp [Binary64.eq, Binary64.isNan_of_isFinite hfinite]
  whole precision d n _ _ hintegral := by
    rw [sample_integral] at hintegral
    cases hintegral
  nearest run hintegral _ _ := by
    simp [sampleNumerals, hintegral, Binary64.eq, Binary64.isNan_ofInt]

/-- Tables, and nothing else. -/
def tables : Heap where
  object o := if o = 0 then none else some .table
  depth := 0
  scratch _ := false
  object_null := rfl

/-- A sequence of one. -/
def single (value : LhatValue) : LhatTable := { array := [value], arrayCapacity := 4 }

/-- So many tables, each in the one before it, and a value in the last. -/
def chain : Nat → Store
  | 0 => []
  | n + 1 =>
    (UInt64.ofNat (n + 1), single (if n = 0 then .bool true else .object (UInt64.ofNat n))) ::
      chain n

theorem single_wf (h : Heap) (value : LhatValue) : (single value).Wf h where
  placed hsome := absurd rfl hsome
  size hsome := absurd rfl hsome
  counted := rfl
  tombs := Nat.le_refl 0
  load := (by decide : 0 + 0 ≤ 0 - 0 / 4)
  storable _ hkey := by cases hkey
  told _ hkey := by cases hkey
  dense := (by decide : 1 ≤ 4)
  bounded := (by decide : 4 * 8 < 2 ^ 63)

theorem chain_single : ∀ {n : Nat} {o : Address} {t : LhatTable}, (chain n).table o = some t →
    ∃ value, t = single value ∧ value ≠ .nil := by
  intro n
  induction n with
  | zero =>
    intro o t ht
    simp [chain, Store.table] at ht
  | succ n ih =>
    intro o t ht
    unfold chain Store.table at ht
    rw [List.lookup_cons] at ht
    split at ht
    · refine ⟨_, (Option.some.inj ht).symm, ?_⟩
      split <;> exact nofun
    · exact ih ht

theorem allTables_of_store {h : Heap} {store : Store} {p : LhatTable → Prop}
    (hall : ∀ o t, store.table o = some t → p t) (n : Nat) : ∀ value, AllTables h store p n value := by
  induction n with
  | zero => exact fun _ => trivial
  | succ n ih => exact fun _ o t _ _ ht => ⟨hall o t ht, fun member _ => ih member.value⟩

theorem chain_plain (n levels : Nat) (value : LhatValue) :
    AllTables tables (chain n) (PlainTable tables) levels value := by
  refine allTables_of_store (fun o t ht => .inl ?_) levels value
  obtain ⟨value, rfl, hvalue⟩ := chain_single ht
  exact ⟨List.cons_ne_nil _ _, by simpa [single] using hvalue, rfl⟩

theorem chain_wf (n : Nat) : ∀ o t, (chain n).table o = some t → t.Wf tables := by
  intro o t ht
  obtain ⟨value, rfl, -⟩ := chain_single ht
  exact single_wf tables value

/-- A table with a truth value in it. -/
theorem decode_encode_single :
    (∃ made d, jsonDecode sampleNumerals (Lexing.text "[true]") = .ok made ∧
        made.denote jsonMaxDepth = some d ∧
        ReadsBack tables (chain 1) jsonMaxDepth (.object 1) d) ↔
      ¬Reaches tables (chain 1) jsonMaxDepth (.object 1) ∧
        AllTables tables (chain 1) Seatless jsonMaxDepth (.object 1) := by
  have hok : jsonEncode sampleNumerals id tables (chain 1) (.object 1) =
      .ok (Lexing.text "[true]") := by decide_cbv
  exact decode_encode_iff sample_sound (fun _ => .refl _) (chain_wf 1) ⟨1, rfl, rfl⟩
    (chain_plain 1 _ _) hok

/-- A truth value 96 tables down is written, and is not read. -/
theorem decode_encode_fails : ∃ text,
    jsonEncode sampleNumerals id tables (chain 96) (.object 96) = .ok text ∧
      AllTables tables (chain 96) (PlainTable tables) jsonMaxDepth (.object 96) ∧
      ¬∃ made, jsonDecode sampleNumerals text = .ok made := by
  have hwritten : (jsonEncode sampleNumerals id tables (chain 96) (.object 96)).map
      (fun text => (jsonDecode sampleNumerals text).isOk) = .ok false := by decide +kernel
  obtain ⟨text, hok, hread⟩ := Answers.of_map hwritten
  refine ⟨text, hok, chain_plain 96 _ _, ?_⟩
  rintro ⟨made, hmade⟩
  rw [hmade] at hread
  cases hread

end Sample

end Lhat.Json
