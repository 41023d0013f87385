import Lhat.Json.Writer
import Lhat.Json.Accepts
import Lhat.Lton.Made

/-!
# What is written is JSON

A text that the writer answers is a value of the grammar, with as many levels as the
writer went down and one for what stands in the last table. What it says is what was
written, the numbers up to their representation.
-/

namespace Lhat.Json

open Lexing (Text ascii isDecimalDigit forall_byte)

variable {written s text : Text} {c : UInt8}

/-! ## Strings -/

theorem character_of_escape {escape : Text} (h : escapeOf c = some escape) :
    Character escape [c] := by
  have hall : ∀ c : UInt8, (escapeOf c).all (fun escape => escape == [92, escape.getD 1 0] &&
      plainEscape (escape.getD 1 0) == some c) = true := forall_byte (by decide)
  have hc := hall c
  rw [h, Option.all_some, Bool.and_eq_true, beq_iff_eq, beq_iff_eq] at hc
  obtain ⟨hescape, hplain⟩ := hc
  rw [hescape]
  exact .escape hplain

theorem character_of_unicode (hc : c < 0x20) : Character (unicodeOf c) [c] := by
  have hall : ∀ c : UInt8, c < 0x20 →
      hexCode [48, 48, hexOf (c.toNat / 16), hexOf (c.toNat % 16)] 0 = some c.toUInt32 ∧
        isHigh c.toUInt32 = false ∧ isLow c.toUInt32 = false ∧ utf8Put c.toUInt32 = [c] :=
    forall_byte (by decide)
  obtain ⟨hcode, hhigh, hlow, hput⟩ := hall c hc
  have h := @Character.unicode [48, 48, hexOf (c.toNat / 16), hexOf (c.toNat % 16)] _ rfl
    hcode hhigh hlow
  rw [hput] at h
  exact h

theorem escapeOf_none (h : escapeOf c = none) : c ≠ 34 ∧ c ≠ 92 :=
  forall_byte (p := fun c => escapeOf c = none → c ≠ 34 ∧ c ≠ 92) (by decide) c h

theorem writeCharacter_spec {step : Nat} (hsome : s ≠ [])
    (h : writeCharacter s = .ok (written, step)) : 0 < step ∧ Character written (s.take step) := by
  obtain ⟨a, rest, rfl⟩ := List.exists_cons_of_ne_nil hsome
  unfold writeCharacter at h
  rw [List.headD_cons] at h
  cases hescape : escapeOf a with
  | some escape =>
    rw [hescape] at h
    cases h
    exact ⟨Nat.one_pos, character_of_escape hescape⟩
  | none =>
    rw [hescape] at h
    simp only at h
    split at h
    · next hcontrol =>
        cases h
        exact ⟨Nat.one_pos, character_of_unicode hcontrol⟩
    · next hcontrol =>
        split at h
        · cases h
        · next hstep =>
            cases h
            rcases utf8Step_spec hsome with ⟨char, behind, hsplit, hchar, hwide⟩ | ⟨hzero, -⟩
            · obtain ⟨hquote, hslash⟩ := escapeOf_none hescape
              refine ⟨Nat.pos_of_ne_zero hstep, ?_⟩
              rw [hwide, hsplit, List.take_left]
              cases char with
              | nil => cases hchar
              | cons b tail =>
                obtain rfl : a = b := (List.cons.inj hsplit).1
                exact .plain hchar (UInt8.not_lt.1 hcontrol) hquote hslash
            · exact absurd hzero hstep

theorem writeCharacters_spec {turns : Nat} (hturns : s.length ≤ turns)
    (h : writeCharacters turns s = .ok written) : Characters written s := by
  induction turns generalizing s written with
  | zero =>
    obtain rfl : s = [] := List.eq_nil_of_length_eq_zero (by omega)
    cases h
    exact .nil
  | succ turns ih =>
    cases s with
    | nil =>
      cases h
      exact .nil
    | cons a rest =>
      rw [writeCharacters] at h
      · obtain ⟨⟨first, step⟩, hfirst, hrest⟩ := Answers.of_bind h
        obtain ⟨more, hmore, hlast⟩ := Answers.of_bind hrest
        cases hlast
        obtain ⟨hpos, hcharacter⟩ := writeCharacter_spec (List.cons_ne_nil _ _) hfirst
        rw [List.length_cons] at hturns
        have hlength : ((a :: rest).drop step).length ≤ turns := by
          rw [List.length_drop, List.length_cons]
          omega
        have := Characters.cons hcharacter (ih hlength hmore)
        rwa [List.take_append_drop] at this
      · exact List.cons_ne_nil _ _

theorem writeString_spec (h : writeString s = .ok written) : Quoted written s := by
  obtain ⟨held, hheld, rfl⟩ := Answers.of_map h
  exact ⟨held, writeCharacters_spec (Nat.le_refl _) hheld, rfl⟩

/-! ## Numbers -/

theorem decimal_leading {n : Nat} (h : (Lton.decimal n).head? = some 48) : n = 0 := by
  fun_induction Lton.decimal n with
  | case1 n hn =>
    have hzero := congrArg UInt8.toNat (Option.some.inj h)
    rw [Lton.digit_eq hn] at hzero
    have : (48 : UInt8).toNat = 48 := rfl
    omega
  | case2 n hn ih =>
    rw [List.head?_append_of_ne_nil _ (Lton.decimal_ne_nil _)] at h
    have := ih h
    omega

theorem spelling_of_integer (negative : Bool) (n : Nat) :
    ∃ spelling : Spelling, spelling.IsStrict ∧
      spelling.text = Lton.signed negative (Lton.decimal n) := by
  refine ⟨⟨negative, Lton.decimal n, none, none⟩,
    ⟨⟨Lton.decimal_digits n, nofun, nofun⟩, Lton.decimal_ne_nil n, fun hzero => ?_, nofun⟩, ?_⟩
  · have hn := decimal_leading hzero
    subst hn
    rw [Lton.decimal]
    rfl
  · cases negative <;>
      simp [Spelling.text, Spelling.signText, Spelling.fractionText, Spelling.exponentText,
        Lton.signed]

theorem strtoll_signed (negative : Bool) {digits behind : Text} (hsome : digits ≠ [])
    (hdigits : AllDigits digits) (hbehind : ∀ c ∈ behind.head?, isDecimalDigit c = false) :
    strtoll (Lton.signed negative (digits ++ behind)) =
      (if negative then -(Lexing.digitsValue 10 digits : Int) else Lexing.digitsValue 10 digits,
        behind) := by
  have hsplit := digits_split hdigits hbehind
  cases negative with
  | true =>
    have hunsigned : unsigned (Lton.signed true (digits ++ behind)) = digits ++ behind := by
      simp [Lton.signed, unsigned]
    rw [strtoll, hunsigned, hsplit.1, hsplit.2, if_neg hsome]
    simp [Lton.signed]
  | false =>
    obtain ⟨a, rest, rfl⟩ := List.exists_cons_of_ne_nil hsome
    have ha := digit_ne_sign (hdigits a (by simp))
    have hunsigned : unsigned (Lton.signed false (a :: rest ++ behind)) = a :: rest ++ behind :=
      unsigned_of_head (by simpa [Lton.signed] using ha.1) (by simpa [Lton.signed] using ha.2.1)
    rw [strtoll, hunsigned, hsplit.1, hsplit.2, if_neg hsome]
    simp [Lton.signed, ha.1]

theorem isIntegral_signed (negative : Bool) {digits : Text} (hdigits : AllDigits digits) :
    isIntegral (Lton.signed negative digits) = true := by
  have hall : ∀ c ∈ digits, (!(c == ascii '.' || c == ascii 'e' || c == ascii 'E')) = true := by
    intro c hc
    have hdigit := digit_ne_sign (hdigits c hc)
    simp [hdigit.2.2.1, hdigit.2.2.2.1, hdigit.2.2.2.2]
  cases negative with
  | true =>
    simp only [isIntegral, Lton.signed, if_true, List.all_cons, List.all_eq_true.2 hall]
    decide
  | false => exact List.all_eq_true.2 hall

theorem writeInteger_spec (c : Numerals) (i : Int64) :
    NumberText Spelling.IsStrict (writeInteger i) ∧ numberValue c (writeInteger i) = .integer i := by
  have hlow := i.minValue_le_toInt
  have hhigh := i.toInt_le
  rw [Int64.toInt_minValue] at hlow
  rw [Int64.toInt_maxValue] at hhigh
  have hvalue : strtoll (writeInteger i) = (i.toInt, []) := by
    have hread := @strtoll_signed (decide (i < 0)) (Lton.decimal i.toInt.natAbs) []
      (Lton.decimal_ne_nil _) (Lton.decimal_digits _) (by simp)
    rw [List.append_nil, Lton.digitsValue_decimal] at hread
    rw [writeInteger, hread]
    have hneg : decide (i < 0) = decide (i.toInt < 0) := by
      rw [decide_eq_decide, Int64.lt_iff_toInt_lt]
      rfl
    rw [hneg]
    refine Prod.ext ?_ rfl
    simp only [decide_eq_true_eq]
    split <;> omega
  constructor
  · obtain ⟨spelling, hstrict, htext⟩ := spelling_of_integer (decide (i < 0)) i.toInt.natAbs
    refine ⟨spelling, hstrict, htext, ?_⟩
    have hlength := @Lton.decimal_length 19 i.toInt.natAbs (by omega)
    rw [writeInteger, Lton.signed]
    split
    · rw [List.length_cons]
      omega
    · omega
  · have hless : i.toInt < 2 ^ 63 := by omega
    rw [numberValue, hvalue, if_pos ⟨isIntegral_signed _ (Lton.decimal_digits _), rfl, hlow, hless⟩,
      Int64.ofInt_toInt]

/-! ## Reals -/

/-- What the C library does: a number is printed with the digits asked for, in the shape of
`%g`; seventeen tell every number from the others; a whole number that is printed with
neither a point nor an exponent is printed in full; and digits alone are read as the number
nearest to them. -/
structure Numerals.Sound (c : Numerals) : Prop where
  shape : ∀ precision d, d.isFinite = true →
    ∃ n : Spelling, n.IsStrict ∧ c.printed precision d = n.text
  short : ∀ precision d, d.isFinite = true → (c.printed precision d).length < 40
  exact : ∀ d, d.isFinite = true → (c.strtod (c.printed 17 d)).eq d = true
  whole : ∀ precision d n, d.isFinite = true → d.scaled = n * 2 ^ 1074 →
    isIntegral (c.printed precision d) = true → (strtoll (c.printed precision d)).1 = n
  nearest : ∀ run, isIntegral run = true → (strtoll run).2 = [] → run ≠ [] →
    (c.strtod run).eq (Binary64.ofInt (strtoll run).1) = true

/-- `lhat_value_equal`, of two scalars. -/
def equalScalar : Lton.Scalar → Lton.Scalar → Prop
  | .integer i, .real d => integerEqualsReal i d.1 = true
  | .real d, .integer i => integerEqualsReal i d.1 = true
  | .real d, .real e => d.1.eq e.1 = true
  | x, y => x = y

/-- The scalar that is read, where a number is finite. -/
def Parsed.scalar : Parsed → Option Lton.Scalar
  | .null => some .nil
  | .bool b => some (.bool b)
  | .integer i => some (.integer i)
  | .real d => if h : d.isFinite = true then some (.real ⟨d, h⟩) else none
  | .string bytes => some (.string bytes)
  | _ => none

theorem real_eq_spec {x y : Binary64} (h : x.eq y = true) :
    x.isNan = false ∧ y.isNan = false ∧ x.scaled = y.scaled := by
  simpa [Binary64.eq, and_assoc] using h

theorem isFinite_of_eq {x y : Binary64} (h : x.eq y = true) (hy : y.isFinite = true) :
    x.isFinite = true := by
  obtain ⟨-, -, hscaled⟩ := real_eq_spec h
  have hmagnitude : x.magnitudeBits = y.magnitudeBits := by
    apply Binary64.decode_strictMono.injective
    rw [← Binary64.scaled_natAbs, ← Binary64.scaled_natAbs, hscaled]
  rwa [Binary64.isFinite, hmagnitude]

theorem printed_spec {c : Numerals} (hc : c.Sound) {d : Binary64} (hfinite : d.isFinite = true)
    {precision : Nat} (heq : (c.strtod (c.printed precision d)).eq d = true) :
    NumberText Spelling.IsStrict (c.printed precision d) ∧ ∃ back : Lton.Scalar,
      (numberValue c (c.printed precision d)).scalar = some back ∧
        equalScalar (.real ⟨d, hfinite⟩) back := by
  obtain ⟨n, hn, htext⟩ := hc.shape precision d hfinite
  have hshort := hc.short precision d hfinite
  have hsome : c.printed precision d ≠ [] := by
    obtain ⟨a, tail, hhead, -⟩ := hn.isLoose.head
    rw [htext, hhead]
    exact List.cons_ne_nil _ _
  refine ⟨⟨n, hn, htext.symm, by omega⟩, ?_⟩
  rw [numberValue]
  split
  · next hwhole =>
      obtain ⟨hintegral, hstop, hlow, hhigh⟩ := hwhole
      refine ⟨_, rfl, ?_⟩
      obtain ⟨m, hm⟩ := Binary64.ofInt_whole (strtoll (c.printed precision d)).1
      obtain ⟨-, -, hnearest⟩ := real_eq_spec (hc.nearest _ hintegral hstop hsome)
      obtain ⟨-, -, hsame⟩ := real_eq_spec heq
      have hscaled : d.scaled = m * 2 ^ 1074 := hsame.symm.trans (hnearest.trans hm)
      have hfull := hc.whole precision d m hfinite hscaled hintegral
      rw [hfull] at hlow hhigh ⊢
      exact integerEqualsReal_of_whole (Binary64.isNan_of_isFinite hfinite) hscaled hlow hhigh
  · have hback := isFinite_of_eq heq hfinite
    refine ⟨.real ⟨_, hback⟩, by rw [Parsed.scalar, dif_pos hback], ?_⟩
    obtain ⟨hnan, hnan', hscaled⟩ := real_eq_spec heq
    simp [equalScalar, Binary64.eq, hnan, hnan', hscaled]

theorem writeReal_spec {c : Numerals} (hc : c.Sound) {d : Binary64} (h : writeReal c d = .ok text) :
    NumberText Spelling.IsStrict text ∧ ∃ (hfinite : d.isFinite = true) (back : Lton.Scalar),
      (numberValue c text).scalar = some back ∧ equalScalar (.real ⟨d, hfinite⟩) back := by
  unfold writeReal at h
  split at h
  · cases h
  · next hfinite =>
      have hfinite : d.isFinite = true := by simpa using hfinite
      split at h
      · next heq =>
          cases h
          obtain ⟨hnumber, back, hback⟩ := printed_spec hc hfinite heq
          exact ⟨hnumber, hfinite, back, hback⟩
      · cases h
        obtain ⟨hnumber, back, hback⟩ := printed_spec hc hfinite (hc.exact d hfinite)
        exact ⟨hnumber, hfinite, back, hback⟩

/-! ## Tables -/

theorem joined_commas {α : Type} {grammar : Text → α → Prop} {written : List Text} {all : List α}
    (h : List.Forall₂ grammar written all) (hsome : written ≠ []) :
    Joined (Padded grammar) (commas written) all := by
  have hpadded {s : Text} {held : α} (hs : grammar s held) : Padded grammar s held :=
    ⟨[], s, [], nofun, nofun, hs, by simp⟩
  induction h with
  | nil => exact absurd rfl hsome
  | @cons s held more rest hs hrest ih =>
    cases hrest with
    | nil => exact .one (hpadded hs)
    | cons => exact .cons (hpadded hs) (ih (List.cons_ne_nil _ _))

theorem bracketed_commas {α : Type} {grammar : Text → α → Prop} {written : List Text} {all : List α}
    (h : List.Forall₂ grammar written all) (close : UInt8) :
    Bracketed grammar close (commas written ++ [close]) all := by
  refine ⟨commas written, rfl, ?_⟩
  cases h with
  | nil => exact .inl ⟨nofun, rfl⟩
  | cons hs hrest => exact .inr (joined_commas (.cons hs hrest) (List.cons_ne_nil _ _))

section Mirrors

variable (h : Heap) (store : Store)

/-- A scalar and what is read of it. -/
def ScalarMirrors (value : LhatValue) (tree : Parsed) : Prop :=
  ∃ scalar back, Lton.scalarOf h value = some scalar ∧ tree.scalar = some back ∧
    equalScalar scalar back

/-- A key and its name, of those that are written. -/
def Named (member : Member) : Prop :=
  (∃ o s, member.key = .object o ∧ h.object o = some (.string s) ∧ member.text = s.text) ∨
    ∃ i, member.key = .integer i ∧ member.text = writeInteger i

/-- A table and what is read of it. -/
inductive TableMirrors (inner : LhatValue → Parsed → Prop) (t : LhatTable) : Parsed → Prop
  | array {elements : List Parsed} : t.entryCount = 0 → t.array ≠ [] →
      List.Forall₂ inner t.array elements → TableMirrors inner t (.array elements)
  | object {sorted : List Member} {read : List (Text × Parsed)} :
      ¬(t.entryCount = 0 ∧ 0 < t.array.length) → sorted.Perm (members h t) →
      List.Forall₂ (fun member pair => Named h member ∧ member.text = pair.1 ∧
        inner member.value pair.2) sorted read → TableMirrors inner t (.object read)

/-- A value and what is read of it, through so many tables. -/
def Mirrors : Nat → LhatValue → Parsed → Prop
  | 0, value, tree => ScalarMirrors h value tree
  | levels + 1, value, tree => ScalarMirrors h value tree ∨
      ∃ o t, value = .object o ∧ h.object o = some .table ∧ store.table o = some t ∧
        TableMirrors h (Mirrors levels) t tree

end Mirrors

section Written

variable {c : Numerals} {qsort : List Member → List Member} {h : Heap} {store : Store}

theorem sortedMembers_perm (hqsort : ∀ members, (qsort members).Perm members) (t : LhatTable) :
    (sortedMembers qsort h t).Perm (members h t) := by
  unfold sortedMembers
  split
  · exact hqsort _
  · exact .refl _

theorem characters_plain (hs : ∀ c ∈ s, 0x20 ≤ c ∧ c < 0x80 ∧ c ≠ 34 ∧ c ≠ 92) :
    Characters s s := by
  induction s with
  | nil => exact .nil
  | cons c s ih =>
    obtain ⟨hleast, hmost, hquote, hslash⟩ := hs c (by simp)
    exact .cons (.plain (.one hmost) hleast hquote hslash) (ih fun d hd => hs d (by simp [hd]))

theorem writeInteger_plain (i : Int64) :
    ∀ c ∈ writeInteger i, 0x20 ≤ c ∧ c < 0x80 ∧ c ≠ 34 ∧ c ≠ 92 := by
  have hdigit : ∀ c : UInt8, isDecimalDigit c = true → 0x20 ≤ c ∧ c < 0x80 ∧ c ≠ 34 ∧ c ≠ 92 :=
    forall_byte (by decide)
  intro c hc
  rw [writeInteger, Lton.signed] at hc
  split at hc
  · rcases List.mem_cons.1 hc with rfl | hc
    · decide
    · exact hdigit c (Lton.decimal_digits _ c hc)
  · exact hdigit c (Lton.decimal_digits _ c hc)

theorem writeKey_spec {key value : LhatValue} (hok : writeKey h key = .ok written) :
    Named h (nameKey h key value) ∧ Quoted written (nameKey h key value).text := by
  unfold writeKey at hok
  unfold nameKey Named
  cases key with
  | object o =>
    cases hobject : h.object o with
    | none =>
      simp only [hobject] at hok
      cases hok
    | some object =>
      cases object with
      | string s =>
        simp only [hobject] at hok ⊢
        exact ⟨.inl ⟨o, s, rfl, hobject, rfl⟩, writeString_spec hok⟩
      | _ =>
        simp only [hobject] at hok
        cases hok
  | integer i =>
    cases hok
    exact ⟨.inr ⟨i, rfl, rfl⟩, _, characters_plain (writeInteger_plain i), rfl⟩
  | _ => cases hok

theorem mem_members {t : LhatTable} {member : Member} (hmember : member ∈ members h t) :
    ∃ key value, member = nameKey h key value := by
  unfold members at hmember
  rcases List.mem_append.1 hmember with hseq | hrest
  · obtain ⟨⟨value, i⟩, -, rfl⟩ := List.mem_map.1 hseq
    exact ⟨_, _, rfl⟩
  · obtain ⟨entry, -, rfl⟩ := List.mem_map.1 hrest
    exact ⟨_, _, rfl⟩

theorem writeMember_spec {write : LhatValue → Except Failure Text} {member : Member}
    (hmember : ∃ key value, member = nameKey h key value)
    (hok : writeMember h write member = .ok written) :
    ∃ text, write member.value = .ok text ∧ Named h member ∧
      ∀ (grammar : Text → Parsed → Prop) (tree : Parsed), grammar text tree →
        MemberText grammar written (member.text, tree) := by
  obtain ⟨key, value, rfl⟩ := hmember
  obtain ⟨name, hname, hrest⟩ := Answers.of_bind hok
  obtain ⟨text, htext, hlast⟩ := Answers.of_bind hrest
  cases hlast
  obtain ⟨hnamed, hquoted⟩ := writeKey_spec hname
  refine ⟨text, htext, hnamed, fun grammar tree htree => ?_⟩
  exact ⟨name, [], [], text, hquoted, nofun, nofun, htree, by simp⟩

theorem writeValue_cases (hc : c.Sound) {write : Address → Except Failure Text} {value : LhatValue} (hok : writeValue c h write value = .ok text) :
    (∃ tree, ScalarMirrors h value tree ∧
        ∀ inner, Shape c (NumberText Spelling.IsStrict) inner text tree) ∨
      ∃ o, value = .object o ∧ h.object o = some .table ∧ write o = .ok text := by
  unfold writeValue at hok
  cases value with
  | nil =>
    cases hok
    exact .inl ⟨.null, ⟨.nil, .nil, rfl, rfl, rfl⟩, fun inner =>
      @Shape.word c _ inner (Lexing.text "null", .null) (by simp [words])⟩
  | bool b =>
    cases hok
    refine .inl ⟨.bool b, ⟨.bool b, .bool b, rfl, rfl, rfl⟩, fun inner => ?_⟩
    cases b with
    | true => exact @Shape.word c _ inner (Lexing.text "true", .bool true) (by simp [words])
    | false => exact @Shape.word c _ inner (Lexing.text "false", .bool false) (by simp [words])
  | integer i =>
    cases hok
    obtain ⟨hnumber, hvalue⟩ := writeInteger_spec c i
    refine .inl ⟨.integer i, ⟨.integer i, .integer i, rfl, rfl, rfl⟩, fun inner => ?_⟩
    rw [← hvalue]
    exact .number hnumber
  | real d =>
    obtain ⟨hnumber, hfinite, back, hback, hequal⟩ := writeReal_spec hc hok
    refine .inl ⟨_, ⟨.real ⟨d, hfinite⟩, back, ?_, hback, hequal⟩, fun inner => .number hnumber⟩
    exact dif_pos hfinite
  | object o =>
    cases hobject : h.object o with
    | none =>
      simp only [hobject] at hok
      cases hok
    | some object =>
      cases object with
      | string s =>
        simp only [hobject] at hok
        refine .inl ⟨.string s.text, ⟨.string s.text, .string s.text, ?_, rfl, rfl⟩,
          fun inner => .string (writeString_spec hok)⟩
        simp [Lton.scalarOf, hobject]
      | table =>
        simp only [hobject] at hok
        exact .inr ⟨o, rfl, hobject, hok⟩
      | _ =>
        simp only [hobject] at hok
        cases hok
  | _ => cases hok

theorem writeTable_spec (hqsort : ∀ members, (qsort members).Perm members) {left : Nat}
    (hinner : ∀ value text, writeValue c h (writeTable c qsort h store left) value = .ok text →
      ∃ tree, Value c (NumberText Spelling.IsStrict) (left + 1) text tree ∧
        Mirrors h store left value tree)
    {o : Address} (hok : writeTable c qsort h store (left + 1) o = .ok text) :
    ∃ t tree, store.table o = some t ∧ TableMirrors h (Mirrors h store left) t tree ∧
      Value c (NumberText Spelling.IsStrict) (left + 2) text tree := by
  unfold writeTable at hok
  cases ht : store.table o with
  | none =>
    simp only [ht] at hok
    cases hok
  | some t =>
    simp only [ht] at hok
    split at hok
    · next harray =>
        obtain ⟨written, hwritten, rfl⟩ := Answers.of_map hok
        obtain ⟨trees, hspelled, hmirrors⟩ := Lton.exists_beside (Answers.of_mapM hwritten)
          (S := Value c (NumberText Spelling.IsStrict) (left + 1))
          (T := Mirrors h store left) fun value _ text _ hvalue => hinner value text hvalue
        exact ⟨t, _, rfl, .array harray.1 (List.length_pos_iff.1 harray.2) hmirrors,
          .array (bracketed_commas hspelled 93)⟩
    · next harray =>
        obtain ⟨written, hwritten, rfl⟩ := Answers.of_map hok
        have hperm := sortedMembers_perm (h := h) hqsort t
        have hbeside : ∀ member ∈ sortedMembers qsort h t, ∀ text ∈ written,
            writeMember h (writeValue c h (writeTable c qsort h store left)) member = .ok text →
            ∃ pair, MemberText (Value c (NumberText Spelling.IsStrict) (left + 1)) text pair ∧
              Named h member ∧ member.text = pair.1 ∧
                Mirrors h store left member.value pair.2 := by
          intro member hmember text _ hmade
          obtain ⟨spelled, hvalue, hnamed, hspells⟩ :=
            writeMember_spec (mem_members (hperm.mem_iff.1 hmember)) hmade
          obtain ⟨tree, htree, hmirrors⟩ := hinner _ _ hvalue
          exact ⟨(member.text, tree), hspells _ _ htree, hnamed, rfl, hmirrors⟩
        obtain ⟨read, hspelled, hmirrors⟩ :=
          Lton.exists_beside (Answers.of_mapM hwritten) hbeside
        exact ⟨t, _, rfl, .object harray hperm hmirrors, .object (bracketed_commas hspelled 125)⟩

theorem writeValue_spec (hc : c.Sound) (hqsort : ∀ members, (qsort members).Perm members)
    (left : Nat) :
    ∀ value text, writeValue c h (writeTable c qsort h store left) value = .ok text →
      ∃ tree, Value c (NumberText Spelling.IsStrict) (left + 1) text tree ∧
        Mirrors h store left value tree := by
  induction left with
  | zero =>
    intro value text hok
    obtain ⟨tree, hmirrors, hshape⟩ | ⟨o, -, -, hwrite⟩ := writeValue_cases hc hok
    · exact ⟨tree, hshape _, hmirrors⟩
    · cases hwrite
  | succ left ih =>
    intro value text hok
    obtain ⟨tree, hmirrors, hshape⟩ | ⟨o, rfl, hobject, hwrite⟩ := writeValue_cases hc hok
    · exact ⟨tree, hshape _, .inl hmirrors⟩
    · obtain ⟨t, tree, ht, hmirrors, hspelled⟩ := writeTable_spec hqsort ih hwrite
      exact ⟨tree, hspelled, .inr ⟨o, t, rfl, hobject, ht, hmirrors⟩⟩

end Written

end Lhat.Json
