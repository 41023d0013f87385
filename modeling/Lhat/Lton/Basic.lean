import Lhat.Lton.Numbers
import Lhat.Table.Basic

/-!
# Writing LTON

A table of plain data is written as the entries of a table literal, the sequence whole and the
keyed half sorted. A table with an enum in it is not followed here (`Refusal.enum`), and the
requests for memory are granted.
-/

namespace Lhat.Lton

open Lexing (Text ascii)

/-! ### Strings -/

/-- The length a lead byte asks for. -/
def leadLength (first : UInt8) : Nat :=
  if 0xC2 ≤ first ∧ first ≤ 0xDF then 2
  else if 0xE0 ≤ first ∧ first ≤ 0xEF then 3
  else if 0xF0 ≤ first ∧ first ≤ 0xF4 then 4
  else 0

/-- `text_utf8`: the length of a character outside of ASCII that stands here, or zero. -/
def textUtf8 (s : Text) : Nat :=
  let first := s.headD 0
  let second := Lexing.byteAt s 1
  let n := leadLength first
  if n = 0 ∨ s.length < n then 0
  else if ((s.take n).drop 1).any (fun c => c &&& 0xC0 != 0x80) then 0
  else if first = 0xE0 ∧ second < 0xA0 ∨ first = 0xED ∧ 0xA0 ≤ second ∨
      first = 0xF0 ∧ second < 0x90 ∨ first = 0xF4 ∧ 0x90 ≤ second then 0
  else n

/-- A digit of `%X`. -/
def hexDigit (n : Nat) : UInt8 := if n < 10 then 48 + n.toUInt8 else 55 + n.toUInt8

/-- One byte of a string. -/
def textByte (ch : UInt8) : Text :=
  if ch = 34 then [92, 34]
  else if ch = 92 then [92, 92]
  else if ch = 10 then [92, ascii 'n']
  else if ch = 13 then [92, ascii 'r']
  else if ch = 9 then [92, ascii 't']
  else if ch < 32 ∨ 127 ≤ ch then
    [92, ascii 'x', hexDigit (ch.toNat / 16), hexDigit (ch.toNat % 16)]
  else [ch]

/-- The loop of `text_string`. -/
def textBytes : Text → Text
  | [] => []
  | ch :: rest =>
    if h : 128 ≤ ch ∧ 0 < textUtf8 (ch :: rest) then
      (ch :: rest).take (textUtf8 (ch :: rest)) ++
        textBytes ((ch :: rest).drop (textUtf8 (ch :: rest)))
    else textByte ch ++ textBytes rest
termination_by s => s.length
decreasing_by
  · rw [List.length_drop, List.length_cons]
    omega
  · exact Nat.lt_succ_self _

/-- `text_string`. -/
def textString (s : Text) : Text := 34 :: (textBytes s ++ [34])

theorem ne_of_high {c d : UInt8} (hc : 128 ≤ c) (hd : d < 128) : c ≠ d := by
  rintro rfl
  rw [UInt8.le_iff_toNat_le] at hc
  rw [UInt8.lt_iff_toNat_lt] at hd
  omega

theorem high_of_continuation {c : UInt8} (h : c &&& 0xC0 = 0x80) : 128 ≤ c := by
  have hall : ∀ c : UInt8, c &&& 0xC0 = 0x80 → 128 ≤ c := Lexing.forall_byte (by decide)
  exact hall c h

theorem textUtf8_high {ch : UInt8} {rest : Text} (hch : 128 ≤ ch) :
    ∀ c ∈ (ch :: rest).take (textUtf8 (ch :: rest)), 128 ≤ c := by
  unfold textUtf8
  dsimp only
  split
  · exact fun _ h => (nomatch h)
  · split
    · exact fun _ h => (nomatch h)
    · rename_i hany
      split
      · exact fun _ h => (nomatch h)
      · intro c hc
        generalize leadLength ((ch :: rest).headD 0) = n at hany hc
        cases n with
        | zero => cases hc
        | succ n =>
          rw [List.take_succ_cons] at hany hc
          obtain rfl | hc := List.mem_cons.mp hc
          · exact hch
          · rw [Bool.not_eq_true, List.any_eq_false] at hany
            have := hany c hc
            rw [bne_iff_ne, not_not] at this
            exact high_of_continuation this

theorem textByte_head (ch : UInt8) : (textByte ch).head? ≠ some 34 := by
  unfold textByte
  repeat' split
  all_goals first
    | (intro h; injection h with h; revert h; decide)
    | skip
  rename_i hquote _ _ _ _ _
  intro h
  exact hquote (Option.some.inj h)

theorem textByte_ne_nil (ch : UInt8) : textByte ch ≠ [] := by
  unfold textByte
  repeat' split
  all_goals exact List.cons_ne_nil _ _

theorem textBytes_head (s : Text) : (textBytes s).head? ≠ some 34 := by
  fun_induction textBytes s with
  | case1 => exact nofun
  | case2 ch rest h ih =>
    obtain ⟨hch, hpos⟩ := h
    obtain ⟨n, hn⟩ := Nat.exists_eq_succ_of_ne_zero (Nat.ne_of_gt hpos)
    rw [hn, List.take_succ_cons, List.cons_append, List.head?_cons]
    exact fun heq => ne_of_high hch (by decide) (Option.some.inj heq)
  | case3 ch rest h ih =>
    rw [List.head?_append_of_ne_nil _ (textByte_ne_nil ch)]
    exact textByte_head ch

open Lexing.Lexer in
theorem standsFor_bytes {x : Text} (hquote : 34 ∉ x) (hescape : 92 ∉ x) : StandsFor x x := by
  induction x with
  | nil => exact .nil
  | cons c x ih =>
    rw [List.mem_cons, not_or] at hquote hescape
    exact (standsFor_byte (Ne.symm hquote.1) (Ne.symm hescape.1)).append (ih hquote.2 hescape.2)

theorem hexDigit_spec {n : Nat} (h : n < 16) :
    Lexing.isDigitOfBase (hexDigit n) 16 = true ∧ Lexing.digitValue (hexDigit n) = n := by
  have hall : ∀ n : Fin 16, Lexing.isDigitOfBase (hexDigit n) 16 = true ∧
      Lexing.digitValue (hexDigit n) = n := by decide_cbv
  exact hall ⟨n, h⟩

open Lexing.Lexer in
theorem standsFor_textByte (ch : UInt8) : StandsFor (textByte ch) [ch] := by
  unfold textByte
  split
  · rename_i h
    subst h
    exact standsFor_escape (by decide)
  · split
    · rename_i h
      subst h
      exact standsFor_escape (by decide)
    · split
      · rename_i h
        subst h
        exact standsFor_escape (by decide)
      · split
        · rename_i h
          subst h
          exact standsFor_escape (by decide)
        · split
          · rename_i h
            subst h
            exact standsFor_escape (by decide)
          · split
            · have hlt := ch.toNat_lt
              obtain ⟨hhigh, hhigh'⟩ := hexDigit_spec (n := ch.toNat / 16) (by omega)
              obtain ⟨hlow, hlow'⟩ := hexDigit_spec (n := ch.toNat % 16) (by omega)
              have hvalue : (Lexing.digitsValue 16
                  [hexDigit (ch.toNat / 16), hexDigit (ch.toNat % 16)]).toUInt8 = ch := by
                show ((0 * 16 + Lexing.digitValue (hexDigit (ch.toNat / 16))) * 16 +
                  Lexing.digitValue (hexDigit (ch.toNat % 16))).toUInt8 = ch
                rw [hhigh', hlow', Nat.zero_mul, Nat.zero_add, Nat.div_add_mod']
                exact UInt8.ofNat_toNat
              have hstands := standsFor_hex hhigh hlow
              rwa [hvalue] at hstands
            · rename_i hquote hescape _ _ _ _
              exact standsFor_byte hquote hescape

open Lexing.Lexer in
theorem standsFor_textBytes (s : Text) : StandsFor (textBytes s) s := by
  fun_induction textBytes s with
  | case1 => exact .nil
  | case2 ch rest h ih =>
    have hhigh := @textUtf8_high ch rest h.1
    have hstands := (standsFor_bytes (fun hmem => ne_of_high (hhigh 34 hmem) (by decide) rfl)
      (fun hmem => ne_of_high (hhigh 92 hmem) (by decide) rfl)).append ih
    rwa [List.take_append_drop] at hstands
  | case3 ch rest h ih => exact (standsFor_textByte ch).append ih

/-! ### Scalars -/

/-- A finite real. -/
abbrev Finite := {d : Binary64 // d.isFinite = true}

/-- What is written without going into a table. -/
inductive Scalar where
  | nil
  | bool (b : Bool)
  | integer (i : Int64)
  | real (d : Finite)
  | string (bytes : Text)
deriving DecidableEq

/-- The scalar a value is, if it is one: `arg_string` for the strings. -/
def scalarOf (h : Heap) : LhatValue → Option Scalar
  | .nil => some .nil
  | .bool b => some (.bool b)
  | .integer i => some (.integer i)
  | .real d => if h : d.isFinite = true then some (.real ⟨d, h⟩) else none
  | .object o =>
    match h.object o with
    | some (.string s) => some (.string s.text)
    | _ => none
  | _ => none

/-- `enum_type` answers one. -/
def isEnum (h : Heap) : LhatValue → Bool
  | .object o =>
    match h.object o with
    | some (.enum _) => true
    | some (.other .enumerator) => true
    | _ => false
  | _ => false

/-- `"%lld"`, and the expression of the least integer. -/
def textInteger (i : Int64) : Text :=
  if i = Int64.minValue then Lexing.text "(-9223372036854775807 - 1)"
  else signed (decide (i < 0)) (decimal i.toInt.natAbs)

def textScalar (c : Printing) : Scalar → Text
  | .nil => Lexing.text "nil^"
  | .bool b => if b then Lexing.text "true^" else Lexing.text "false^"
  | .integer i => textInteger i
  | .real d => textReal c d
  | .string bytes => textString bytes

/-! ### The order of the keys -/

/-- `memcmp`, of as many bytes on either side. -/
def memcmp : Text → Text → Ordering
  | a :: as, b :: bs => (compare a b).then (memcmp as bs)
  | _, _ => .eq

/-- `compare_string`. -/
def compareString (a b : Text) : Ordering :=
  let n := min a.length b.length
  (memcmp (a.take n) (b.take n)).then (compare a.length b.length)

namespace Scalar

/-- `key_rank`, of what may be a key. -/
def rank : Scalar → Nat
  | integer _ => 0
  | real _ => 0
  | bool _ => 1
  | string _ => 2
  | nil => 3

/-- The number the two kinds of numbers are compared by. -/
def number : Scalar → Binary64
  | integer i => Binary64.ofInt i.toInt
  | real d => d
  | _ => Binary64.ofInt 0

def isInteger : Scalar → Bool
  | integer _ => true
  | _ => false

end Scalar

/-- `compare_entries`, of the keys of two entries. -/
def compareKeys (x y : Scalar) : Ordering :=
  if x.rank ≠ y.rank then compare x.rank y.rank
  else match x, y with
    | .bool a, .bool b => compare a b
    | .string a, .string b => compareString a b
    | .nil, .nil => .eq
    | _, _ =>
      if !x.number.eq y.number then if x.number.lt y.number then .lt else .gt
      else if x.isInteger != y.isInteger then if x.isInteger then .lt else .gt
      else match x, y with
        | .integer i, .integer j => compare i j
        | _, _ => .eq

/-- Entries that are keyed are in order. -/
def keyLe {α : Type*} (x y : Scalar × α) : Bool := (compareKeys x.1 y.1).isLE

def isNameStart (c : UInt8) : Bool :=
  (ascii 'a' ≤ c && c ≤ ascii 'z') || (ascii 'A' ≤ c && c ≤ ascii 'Z') || c == ascii '_'

/-- `name_key`. -/
def nameKey : Text → Bool
  | [] => false
  | c :: s => isNameStart c && s.all fun c => isNameStart c || (ascii '0' ≤ c && c ≤ ascii '9')

/-! ### Tables -/

/-- What is answered in place of a text. -/
inductive Refusal where
  | unsupported
  | cycle
  | tooDeep
  | enum
deriving DecidableEq

/-- `LTON_MAX_DEPTH`. -/
def maxDepth : Nat := 96

/-- `text_indent`. -/
def indent (depth : Nat) : Text := (List.replicate depth (Lexing.text "    ")).flatten

/-- What stands in front of the value of an entry. -/
def textKey (c : Printing) (key : Scalar) : Text :=
  let written :=
    match key with
    | .string bytes =>
      if nameKey bytes then bytes else [ascii '['] ++ textString bytes ++ [ascii ']']
    | key => [ascii '['] ++ textScalar c key ++ [ascii ']']
  written ++ Lexing.text " = "

/-- A line of a table. -/
def line (depth : Nat) (written : Text) : Text := indent depth ++ written ++ Lexing.text ",\n"

/-- The braces of a table at this depth around its lines. -/
def braced (depth : Nat) (lines : Text) : Text :=
  Lexing.text "\x7b\n" ++ lines ++ indent (depth - 1) ++ Lexing.text "\x7d"

section Writer

variable (c : Printing) (h : Heap) (store : Store)

/-- A key of an entry that can be written. -/
def keyOf (key : LhatValue) : Except Refusal Scalar :=
  if isEnum h key then .error .enum
  else match scalarOf h key with
    | some .nil | none => .error .unsupported
    | some scalar => .ok scalar

/-- `text_value`, with the `text_table` of the tables below. -/
def textValue (textTable : Address → Except Refusal Text) (depth : Nat) (value : LhatValue) :
    Except Refusal Text :=
  match scalarOf h value with
  | some scalar => .ok (textScalar c scalar)
  | none =>
    if isEnum h value then .error .enum
    else match value with
      | .object o =>
        match h.object o with
        | some .table => (textTable o).map (braced depth)
        | _ => .error .unsupported
      | _ => .error .unsupported

/-- `text_table`, with so many depths left below the ancestors. -/
def textTable : Nat → List Address → Address → Except Refusal Text
  | 0, _, _ => .error .tooDeep
  | left + 1, ancestors, o =>
    if o ∈ ancestors then .error .cycle
    else match store.table o with
      | none => .error .unsupported
      | some t =>
        if t.isDefinition ∨ t.definition ≠ 0 then .error .unsupported
        else do
          let depth := ancestors.length
          let value := textValue c h (textTable left (o :: ancestors)) (depth + 1)
          let held := t.entries.filter fun entry => !entry.key.isNil
          let keyed ← held.mapM fun entry => do return (← keyOf h entry.key, entry.value)
          let elements ← t.array.mapM fun element => do return line depth (← value element)
          let entries ← (keyed.mergeSort keyLe).mapM fun entry => do
            return line depth (textKey c entry.1 ++ (← value entry.2))
          return elements.flatten ++ entries.flatten

/-- `lhatstdlib_lton_stringify`. -/
def stringify (value : LhatValue) : Except Refusal Text :=
  match value with
  | .object o =>
    match h.object o with
    | some .table => textTable c h store maxDepth [] o
    | _ => .error .unsupported
  | _ => .error .unsupported

end Writer

end Lhat.Lton
