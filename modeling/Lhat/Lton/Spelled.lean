import Lhat.Lton.Contents
import Mathlib

/-!
# The tokens of a text

Every piece that is written is read as its own tokens: nothing it is followed by runs into it, and
nothing is reported.
-/

namespace Lhat.Lton

open Lexing (Text ascii Spelled TokenKind OpKind operatorTable matchOperator isDecimalDigit)
open Lexing.Lexer

variable {c : UInt8} {x : Text}

/-! ### Tokens -/

/-- An operator of one byte. -/
def opToken (c : Char) (op : OpKind) : Spelled := (.op op, [ascii c])

def spelledInteger (magnitude : Nat) : Spelled :=
  (.int (UInt64.ofNat magnitude) 10, decimal magnitude)

/-- With the minus in front, if there is one. -/
def spelledSign (negative : Bool) (token : Spelled) : List Spelled :=
  if negative then [opToken '-' .sub, token] else [token]

/-- What is written for a real, less its sign. -/
def unsignedReal (c : Printing) (d : Binary64) : Text :=
  if d.isNegative then (textReal c d).tail else textReal c d

def spelledScalar (c : Printing) : Scalar → List Spelled
  | .nil => [(.hatIdent 1, Lexing.text "nil^")]
  | .bool b => [(.hatIdent 1, if b then Lexing.text "true^" else Lexing.text "false^")]
  | .integer i =>
    if i = Int64.minValue then
      [opToken '(' .lparen, opToken '-' .sub, spelledInteger 9223372036854775807,
        opToken '-' .sub, spelledInteger 1, opToken ')' .rparen]
    else spelledSign (decide (i < 0)) (spelledInteger i.toInt.natAbs)
  | .real d => spelledSign d.1.isNegative (.float (unsignedReal c d), unsignedReal c d)
  | .string bytes => [(.string .escaped bytes, textString bytes)]

def spelledKey (c : Printing) (key : Scalar) : List Spelled :=
  let written :=
    match key with
    | .string bytes =>
      if nameKey bytes then [(.ident none, bytes)]
      else [opToken '[' .lbracket] ++ spelledScalar c (.string bytes) ++ [opToken ']' .rbracket]
    | key => [opToken '[' .lbracket] ++ spelledScalar c key ++ [opToken ']' .rbracket]
  written ++ [opToken '=' .eq]

def spelledLines {α : Type} (c : Printing) (value : α → List Spelled) (s : SequenceMap Scalar α) :
    List Spelled :=
  (s.seq.map fun element => value element ++ [opToken ',' .comma]).flatten ++
    ((sortedRest s).map fun entry =>
      spelledKey c entry.1 ++ value entry.2 ++ [opToken ',' .comma]).flatten

def spelledDatum (c : Printing) : (n : Nat) → Datum n → List Spelled
  | 0, d => spelledScalar c d
  | _ + 1, .inl d => spelledScalar c d
  | n + 1, .inr s => [opToken '\x7b' .lbrace] ++ spelledLines c (spelledDatum c n) s ++
      [opToken '\x7d' .rbrace]

/-! ### Operators -/

/-- The operators that nothing runs into. -/
def alone : List (Char × OpKind) :=
  [(',', .comma), ('[', .lbracket), (']', .rbracket), ('(', .lparen), (')', .rparen),
    ('\x7b', .lbrace), ('\x7d', .rbrace)]

theorem alone_spec : ∀ p ∈ alone, begins (ascii p.1) = true ∧ isPunctuation (ascii p.1) = true ∧
    isQuiet (.op p.2) = true ∧
    operatorTable.filter (fun entry => entry.1.head? == some (ascii p.1)) =
      [([ascii p.1], p.2)] := by
  decide_cbv

theorem reads_alone {c : Char} {op : OpKind} (h : (c, op) ∈ alone) :
    Reads (fun _ => True) [ascii c] [opToken c op] := by
  obtain ⟨hbegins, hc, hkind, htable⟩ := alone_spec (c, op) h
  exact reads_token hbegins hkind fun _ _ =>
    scans_operator hc (@matchOperator_last _ _ _ [] htable fun _ h => (nomatch h))

theorem not_prefix_of_second {d : UInt8} {rest : Text} (h : rest.head? ≠ some d) :
    ¬[c, d] <+: c :: rest := by
  rintro ⟨tail, htail⟩
  refine h ?_
  have hrest : d :: tail = rest := (List.cons.inj htail).2
  rw [← hrest]
  rfl

theorem reads_eq :
    Reads (fun rest => rest.head? = some (ascii ' ')) [ascii '='] [opToken '=' .eq] := by
  refine reads_token (by decide) (by decide) fun rest hrest =>
    scans_operator (by decide)
      (@matchOperator_last _ _ _ [([61, 47], .ne)] (by decide_cbv) ?_)
  intro entry hentry
  rw [List.mem_singleton.mp hentry]
  exact not_prefix_of_second (by rw [hrest]; decide)

theorem reads_minus :
    Reads (fun rest => rest.head? ≠ some (ascii '>') ∧ rest.head? ≠ some (ascii '='))
      [ascii '-'] [opToken '-' .sub] := by
  refine reads_token (by decide) (by decide) fun rest hrest =>
    scans_operator (by decide)
      (@matchOperator_last _ _ _ [([45, 62], .arrow), ([45, 61], .subAssign)]
        (by decide_cbv) ?_)
  intro entry hentry
  rw [List.mem_cons, List.mem_singleton] at hentry
  obtain rfl | rfl := hentry
  · exact not_prefix_of_second hrest.1
  · exact not_prefix_of_second hrest.2

/-! ### Scalars -/

theorem words :
    Lexing.text "nil^" = ascii 'n' :: ([ascii 'i', ascii 'l'] ++ [ascii '^']) ∧
    Lexing.text "true^" =
      ascii 't' :: ([ascii 'r', ascii 'u', ascii 'e'] ++ [ascii '^']) ∧
    Lexing.text "false^" =
      ascii 'f' :: ([ascii 'a', ascii 'l', ascii 's', ascii 'e'] ++ [ascii '^']) ∧
    Lexing.text " = " = [ascii ' '] ++ ([ascii '='] ++ [ascii ' ']) ∧
    Lexing.text ",\n" = [ascii ','] ++ [10] ∧
    Lexing.text "\x7b\n" = [ascii '\x7b'] ++ [10] ∧
    Lexing.text "\x7d" = [ascii '\x7d'] ∧
    IsGap (Lexing.text "    ") := by
  decide +kernel

theorem reads_constant (hc : Lexing.isLetter c.toUInt32 = true)
    (hx : (c :: x).all isNameByte = true) (hbegins : begins c = true) :
    Reads Ends (c :: (x ++ [ascii '^'])) [(.hatIdent 1, c :: (x ++ [ascii '^']))] := by
  refine reads_token hbegins (by decide) fun rest hrest => scans_hat hc (List.all_eq_true.1 hx) ?_
  intro hhat
  have := hrest.head (p := fun c => c != ascii '^') (by decide) (ascii '^') hhat
  exact absurd this (by decide)

theorem begins_digit (hc : isDecimalDigit c = true) : begins c = true := by
  have hall : ∀ c : UInt8, isDecimalDigit c = true → begins c = true :=
    Lexing.forall_byte (by decide)
  exact hall c hc

theorem Ends.number {rest : Text} (h : Ends rest) :
    ∀ d ∈ rest.head?, d < 0x80 ∧ Lexing.isIdentStart d.toUInt32 = false := by
  intro d hd
  have := h.head (p := fun c => decide (c < 0x80) && !Lexing.isIdentStart c.toUInt32)
    (by decide) d hd
  simpa using this

theorem reads_decimal {n : Nat} (hn : n < 2 ^ 64) : Reads Ends (decimal n) [spelledInteger n] := by
  obtain ⟨c, x, hcons⟩ := List.exists_cons_of_ne_nil (decimal_ne_nil n)
  have hc : isDecimalDigit c = true := decimal_digits n c (by rw [hcons]; exact List.mem_cons_self)
  unfold spelledInteger
  rw [hcons]
  refine reads_token (begins_digit hc) (by rfl) fun rest hrest => ?_
  have hread := numberLiteral_decimal hn hrest
  rw [hcons] at hread
  have hscans := @scans_number rest x c hc (by rw [hread]) (by rw [hread])
    hrest.number
  rw [hread] at hscans
  exact hscans

theorem minus_digit (hc : isDecimalDigit c = true) (x : Text) :
    (c :: x).head? ≠ some (ascii '>') ∧ (c :: x).head? ≠ some (ascii '=') :=
  ⟨fun h => ne_of_isDecimalDigit hc (by decide) (Option.some.inj h),
    fun h => ne_of_isDecimalDigit hc (by decide) (Option.some.inj h)⟩

theorem reads_signed {token : Spelled} (negative : Bool)
    (hx : ∃ c tail, x = c :: tail ∧ isDecimalDigit c = true) (h : Reads Ends x [token]) :
    Reads Ends (signed negative x) (spelledSign negative token) := by
  obtain ⟨c, tail, rfl, hc⟩ := hx
  unfold signed spelledSign
  cases negative with
  | false => exact h
  | true => exact reads_minus.append h fun rest _ => minus_digit hc (tail ++ rest)

theorem decimal_head (n : Nat) : ∃ c tail, decimal n = c :: tail ∧ isDecimalDigit c = true := by
  obtain ⟨c, x, hcons⟩ := List.exists_cons_of_ne_nil (decimal_ne_nil n)
  exact ⟨c, x, hcons, decimal_digits n c (by rw [hcons]; exact List.mem_cons_self)⟩

theorem reads_space : Reads (fun _ => True) [ascii ' '] [] := reads_gap (by decide)

theorem reads_least :
    Reads Ends (Lexing.text "(-9223372036854775807 - 1)")
      [opToken '(' .lparen, opToken '-' .sub, spelledInteger 9223372036854775807,
        opToken '-' .sub, spelledInteger 1, opToken ')' .rparen] := by
  have htext : Lexing.text "(-9223372036854775807 - 1)" =
      [ascii '('] ++ (signed true (decimal 9223372036854775807) ++ ([ascii ' '] ++
        ([ascii '-'] ++ ([ascii ' '] ++ (decimal 1 ++ [ascii ')']))))) := by
    decide_cbv
  rw [htext]
  have hopen := @reads_alone '(' .lparen (by decide)
  have hclose := @reads_alone ')' .rparen (by decide)
  have hone : Reads (fun _ => True) (decimal 1 ++ [ascii ')'])
      ([spelledInteger 1] ++ [opToken ')' .rparen]) :=
    (reads_decimal (by decide)).append hclose fun rest _ => ⟨ascii ')', rfl, by decide⟩
  have hspaced := reads_space.append hone fun _ _ => trivial
  have hminus := reads_minus.append hspaced fun rest _ => ⟨by rintro ⟨⟩, by rintro ⟨⟩⟩
  have hdifference := reads_space.append hminus fun _ _ => trivial
  have hwhole := (reads_signed true (decimal_head _)
    (reads_decimal (n := 9223372036854775807) (by decide))).append hdifference
      fun rest _ => ⟨ascii ' ', rfl, by decide⟩
  exact (hopen.append hwhole fun _ _ => trivial).mono fun _ _ => trivial

theorem natAbs_lt (i : Int64) : i.toInt.natAbs < 2 ^ 64 := by
  have := i.toInt_lt
  have := i.le_toInt
  omega

theorem unsignedReal_spec {c : Printing} (hc : c.Sound) (d : Finite) :
    ∃ x : Decimal, x.IsReal ∧ unsignedReal c d = x.spelled [ascii '.'] ∧
      textReal c d = signed d.1.isNegative (x.spelled [ascii '.']) ∧
      (x.spelled [ascii '.']).length < 256 ∧
      withSign d.1.isNegative (c.source (x.spelled [ascii '.'])) = d := by
  obtain ⟨x, hreal, htext, hlength, hread⟩ := textReal_spec hc d.2
  refine ⟨x, hreal, ?_, htext, hlength, hread⟩
  unfold unsignedReal
  rw [htext]
  unfold signed
  cases d.1.isNegative <;> rfl

theorem spelled_head (x : Decimal) (point : Text) :
    ∃ c tail, x.spelled point = c :: tail ∧ isDecimalDigit c = true := by
  obtain ⟨c, tail, hcons⟩ := List.exists_cons_of_ne_nil x.whole_ne
  refine ⟨c, tail ++ (x.spelledFraction point ++ x.spelledExponent), ?_, ?_⟩
  · unfold Decimal.spelled
    rw [hcons]
    rfl
  · exact x.whole_digits c (by rw [hcons]; exact List.mem_cons_self)

theorem reads_spelled {x : Decimal} (hreal : x.IsReal)
    (hlength : (x.spelled [ascii '.']).length < 256) :
    Reads Ends (x.spelled [ascii '.'])
      [(.float (x.spelled [ascii '.']), x.spelled [ascii '.'])] := by
  obtain ⟨c, tail, hcons, hc⟩ := spelled_head x [ascii '.']
  have hread := fun rest (hrest : Ends rest) => numberLiteral_spelled hreal hlength hrest
  rw [hcons] at hread ⊢
  refine reads_token (begins_digit hc) (by rfl) fun rest hrest => ?_
  have hread := hread rest hrest
  have hscans := @scans_number rest tail c hc (by rw [hread]) (by rw [hread])
    hrest.number
  rw [hread] at hscans
  exact hscans

theorem reads_string (bytes : Text) :
    Reads Ends (textString bytes) [(.string .escaped bytes, textString bytes)] := by
  refine reads_token (by decide) (by rfl) fun rest hrest =>
    scans_string (standsFor_textBytes bytes) (textBytes_head bytes) ?_
  intro hquote
  have := hrest.head (p := fun c => c != 34) (by decide) 34 hquote
  exact absurd this (by decide)

theorem reads_scalar {c : Printing} (hc : c.Sound) (scalar : Scalar) :
    Reads Ends (textScalar c scalar) (spelledScalar c scalar) := by
  cases scalar with
  | nil =>
    unfold textScalar spelledScalar
    rw [words.1]
    exact reads_constant (by decide) (by decide) (by decide)
  | bool b =>
    obtain ⟨-, htrue, hfalse, -⟩ := words
    unfold textScalar spelledScalar
    rw [htrue, hfalse]
    cases b with
    | true => exact reads_constant (by decide) (by decide) (by decide)
    | false => exact reads_constant (by decide) (by decide) (by decide)
  | integer i =>
    unfold textScalar textInteger spelledScalar
    dsimp only
    split
    · exact reads_least
    · exact reads_signed _ (decimal_head _) (reads_decimal (natAbs_lt i))
  | real d =>
    obtain ⟨x, hreal, hunsigned, htext, hlength, -⟩ := unsignedReal_spec hc d
    unfold textScalar spelledScalar
    dsimp only
    rw [hunsigned, htext]
    exact reads_signed _ (spelled_head x _) (reads_spelled hreal hlength)
  | string bytes => exact reads_string bytes

/-! ### Tables -/

theorem nameStart_spec (hc : isNameStart c = true) :
    Lexing.isLetter c.toUInt32 = true ∧ begins c = true := by
  have hall : ∀ c : UInt8, isNameStart c = true →
      Lexing.isLetter c.toUInt32 = true ∧ begins c = true := Lexing.forall_byte (by decide)
  exact hall c hc

theorem nameByte_spec
    (hc : (isNameStart c || (ascii '0' ≤ c && c ≤ ascii '9')) = true) : isNameByte c = true := by
  have hall : ∀ c : UInt8, (isNameStart c || (ascii '0' ≤ c && c ≤ ascii '9')) = true →
      isNameByte c = true := Lexing.forall_byte (by decide)
  exact hall c hc

theorem reads_name {bytes : Text} (h : nameKey bytes = true) :
    Reads (fun rest => rest.head? = some (ascii ' ')) bytes [(.ident none, bytes)] := by
  cases bytes with
  | nil => cases h
  | cons c x =>
    unfold nameKey at h
    rw [Bool.and_eq_true, List.all_eq_true] at h
    obtain ⟨hletter, hbegins⟩ := nameStart_spec h.1
    refine reads_token hbegins (by decide) fun rest hrest => scans_name hletter ?_ ?_ ?_
    · intro d hd
      obtain rfl | hd := List.mem_cons.mp hd
      · exact nameByte_spec (by rw [h.1, Bool.true_or])
      · exact nameByte_spec (h.2 d hd)
    · intro d hd
      rw [hrest] at hd
      rw [← Option.some.inj hd]
      decide
    · rw [hrest]
      decide

theorem reads_bracketed {c : Printing} (hc : c.Sound) (key : Scalar) :
    Reads (fun _ => True) ([ascii '['] ++ textScalar c key ++ [ascii ']'])
      ([opToken '[' .lbracket] ++ spelledScalar c key ++ [opToken ']' .rbracket]) := by
  have hopen := @reads_alone '[' .lbracket (by decide)
  have hclose := @reads_alone ']' .rbracket (by decide)
  exact (hopen.append (reads_scalar hc key) fun _ _ => trivial).append hclose
    fun _ _ => ⟨ascii ']', rfl, by decide⟩

theorem reads_key {c : Printing} (hc : c.Sound) (key : Scalar) :
    Reads (fun _ => True) (textKey c key) (spelledKey c key) := by
  obtain ⟨-, -, -, htext, -⟩ := words
  have hequals : Reads (fun _ => True) (Lexing.text " = ") ([] ++ ([opToken '=' .eq] ++ [])) := by
    rw [htext]
    exact reads_space.append (reads_eq.append reads_space fun _ _ => rfl) fun _ _ => trivial
  have hspace : ∀ rest : Text, (Lexing.text " = " ++ rest).head? = some (ascii ' ') := by
    intro rest
    rw [htext]
    rfl
  unfold textKey spelledKey
  cases key with
  | string bytes =>
    dsimp only
    split
    · rename_i hname
      exact (reads_name hname).append hequals fun rest _ => hspace rest
    · exact (reads_bracketed hc (.string bytes)).append hequals fun _ _ => trivial
  | nil => exact (reads_bracketed hc .nil).append hequals fun _ _ => trivial
  | bool b => exact (reads_bracketed hc (.bool b)).append hequals fun _ _ => trivial
  | integer i => exact (reads_bracketed hc (.integer i)).append hequals fun _ _ => trivial
  | real d => exact (reads_bracketed hc (.real d)).append hequals fun _ _ => trivial

theorem isGap_indent (depth : Nat) : IsGap (indent depth) := by
  obtain ⟨-, -, -, -, -, -, -, hfour⟩ := words
  intro c hc
  unfold indent at hc
  obtain ⟨piece, hpiece, hc⟩ := List.mem_flatten.mp hc
  rw [List.eq_of_mem_replicate hpiece] at hc
  exact hfour c hc

theorem reads_line {depth : Nat} {tokens : List Spelled} (h : Reads Ends x tokens) :
    Reads (fun _ => True) (line depth x) (tokens ++ [opToken ',' .comma]) := by
  obtain ⟨-, -, -, -, htext, -⟩ := words
  have hend : Reads (fun _ => True) (Lexing.text ",\n") ([opToken ',' .comma] ++ []) := by
    rw [htext]
    exact (reads_alone (c := ',') (by decide)).append (reads_gap (by decide)) fun _ _ => trivial
  have hcomma : ∀ rest : Text, Ends (Lexing.text ",\n" ++ rest) := by
    intro rest
    rw [htext]
    exact ⟨ascii ',', rfl, by decide⟩
  unfold line
  exact ((reads_gap (isGap_indent depth)).append h fun _ _ => trivial).append hend
    fun rest _ => hcomma rest

theorem reads_flatten {α : Type} {xs : List α} {x : α → Text} {tokens : α → List Spelled}
    (h : ∀ a ∈ xs, Reads (fun _ => True) (x a) (tokens a)) :
    Reads (fun _ => True) (xs.map x).flatten (xs.map tokens).flatten := by
  induction xs with
  | nil => exact reads_gap fun _ h => (nomatch h)
  | cons a xs ih =>
    exact (h a List.mem_cons_self).append (ih fun b hb => h b (List.mem_cons_of_mem a hb))
      fun _ _ => trivial

theorem reads_lines {α : Type} {c : Printing} (hc : c.Sound) {value : α → Text}
    {tokens : α → List Spelled} (h : ∀ a, Reads Ends (value a) (tokens a)) (depth : Nat)
    (s : SequenceMap Scalar α) :
    Reads (fun _ => True) (textLines c value depth s) (spelledLines c tokens s) := by
  refine (reads_flatten fun a _ => reads_line (h a)).append (reads_flatten fun entry _ => ?_)
    fun _ _ => trivial
  exact reads_line ((reads_key hc entry.1).append (h entry.2) fun _ _ => trivial)

theorem reads_datum {c : Printing} (hc : c.Sound) (n : Nat) : ∀ (depth : Nat) (d : Datum n),
    Reads Ends (textDatum c n depth d) (spelledDatum c n d) := by
  induction n with
  | zero => exact fun _ d => reads_scalar hc d
  | succ n ih =>
    intro depth d
    match d with
    | .inl d => exact reads_scalar hc d
    | .inr s =>
      obtain ⟨-, -, -, -, -, hopening, hclosing, -⟩ := words
      have hopen : Reads (fun _ => True) (Lexing.text "\x7b\n")
          ([opToken '\x7b' .lbrace] ++ []) := by
        rw [hopening]
        have hbrace := @reads_alone '\x7b' .lbrace (by decide)
        exact hbrace.append (reads_gap (by decide)) fun _ _ => trivial
      have hclose : Reads (fun _ => True) (Lexing.text "\x7d") [opToken '\x7d' .rbrace] := by
        rw [hclosing]
        exact reads_alone (by decide)
      have hlines := reads_lines hc (fun d => ih (depth + 1) d) depth s
      have hindent := reads_gap (isGap_indent (depth - 1))
      have hall := ((hopen.append hlines fun _ _ => trivial).append hindent
        fun _ _ => trivial).append hclose fun _ _ => trivial
      refine @Reads.mono _ _ (fun _ => True) Ends ?_ fun _ _ => trivial
      simp only [List.append_nil] at hall
      exact hall

end Lhat.Lton
