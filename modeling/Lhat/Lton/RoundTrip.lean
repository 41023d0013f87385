import Lhat.Lton.Reading

/-!
# A text denotes the table it was written from

The tokens of a datum are read as its entries in their order, and the entries make a table that
holds what was written, unless a key is taken for a position.
-/

namespace Lhat.Lton

open Lexing (Text ascii Spelled TokenKind OpKind)

variable {rest tokens : List Spelled} {value : Scalar} {fuel : Nat} {token : Spelled} {α : Type}

/-- The entries of a table as a literal, the sequence first. -/
def literalEntries {α β : Type} (literal : α → β) (s : SequenceMap Scalar α) :
    List (Option Scalar × β) :=
  s.seq.map (fun element => (none, literal element)) ++
    (sortedRest s).map fun entry => (some entry.1, literal entry.2)

/-- A datum as a literal, which says as much. -/
def Datum.literal : (n : Nat) → Datum n → Literal n
  | 0, d => d
  | _ + 1, .inl d => .inl d
  | n + 1, .inr s => .inr (literalEntries (Datum.literal n) s)

section Reading

variable {c : Printing}

/-! ### Scalars -/

/-- No minus follows. -/
def NoMinus (rest : List Spelled) : Prop := ∀ token ∈ rest.head?, token.1 ≠ .op .sub

theorem readMinus_stop (h : NoMinus rest) :
    readMinus c (fuel + 1) value rest = some (value, rest) := by
  unfold readMinus
  split
  · exact absurd rfl (h _ rfl)
  · rfl

theorem readUnary_constant (hconstant : constant c token = some value) :
    readUnary c (fuel + 1) (token :: rest) = some (value, rest) := by
  unfold readUnary
  split
  · rename_i h
    cases h
  · rename_i h
    cases h
    cases hconstant
  · rename_i h
    cases h
    cases hconstant
  · rename_i h
    cases h
    rw [hconstant]
    rfl

theorem readUnary_minus {negated : Scalar}
    (h : readUnary c fuel tokens = some (value, rest)) (hnegated : value.negated = some negated) :
    readUnary c (fuel + 1) (opToken '-' .sub :: tokens) = some (negated, rest) := by
  unfold opToken
  rw [readUnary, h, Option.bind_eq_bind, Option.bind_some]
  dsimp only
  rw [hnegated]
  rfl

theorem readUnary_brackets
    (h : readDifference c fuel tokens = some (value, opToken ')' .rparen :: rest)) :
    readUnary c (fuel + 1) (opToken '(' .lparen :: tokens) = some (value, rest) := by
  unfold opToken at h ⊢
  rw [readUnary, h]
  rfl

theorem readMinus_step {other difference : Scalar}
    (h : readUnary c fuel tokens = some (other, rest))
    (hminus : value.minus other = some difference) :
    readMinus c (fuel + 1) value (opToken '-' .sub :: tokens) =
      readMinus c fuel difference rest := by
  unfold opToken
  rw [readMinus, h, Option.bind_eq_bind, Option.bind_some]
  dsimp only
  rw [hminus]
  rfl

theorem readScalar_one (hconstant : constant c token = some value) (hrest : NoMinus rest) :
    readScalar c (token :: rest) = some (value, rest) := by
  unfold readScalar
  rw [List.length_cons, readDifference, readUnary_constant hconstant, Option.bind_eq_bind,
    Option.bind_some]
  exact readMinus_stop hrest

theorem readScalar_signed {negative : Bool} {signed : Scalar} (hconstant : constant c token = some value)
    (hsigned : if negative then value.negated = some signed else value = signed)
    (hrest : NoMinus rest) :
    readScalar c (spelledSign negative token ++ rest) = some (signed, rest) := by
  cases negative with
  | false =>
    have hsame : value = signed := hsigned
    rw [← hsame]
    exact readScalar_one hconstant hrest
  | true =>
    have hnegated : value.negated = some signed := hsigned
    show readScalar c (opToken '-' .sub :: token :: rest) = _
    unfold readScalar
    rw [List.length_cons, Nat.mul_succ, Nat.add_assoc, readDifference,
      readUnary_minus (readUnary_constant hconstant) hnegated, Option.bind_eq_bind,
      Option.bind_some]
    exact readMinus_stop hrest

theorem constant_integer (magnitude : Nat) :
    constant c (spelledInteger magnitude) = some (.integer (Int64.ofNat magnitude)) := rfl

theorem constant_bool (b : Bool) :
    constant c (.hatIdent 1, if b then Lexing.text "true^" else Lexing.text "false^") =
      some (.bool b) := by
  obtain ⟨hnil, htrue, hfalse, -⟩ := words
  have hone : Lexing.text "true^" ≠ Lexing.text "nil^" := by
    rw [hnil, htrue]
    decide
  have htwo : Lexing.text "false^" ≠ Lexing.text "nil^" := by
    rw [hnil, hfalse]
    decide
  have hthree : Lexing.text "false^" ≠ Lexing.text "true^" := by
    rw [htrue, hfalse]
    decide
  cases b with
  | true => exact (if_neg hone).trans (if_pos rfl)
  | false => exact (if_neg htwo).trans ((if_neg hthree).trans (if_pos rfl))

theorem readScalar_least (hrest : NoMinus rest) :
    readScalar c (spelledScalar c (.integer Int64.minValue) ++ rest) =
      some (.integer Int64.minValue, rest) := by
  have htokens : spelledScalar c (.integer Int64.minValue) ++ rest =
      opToken '(' .lparen :: opToken '-' .sub :: spelledInteger 9223372036854775807 ::
        opToken '-' .sub :: spelledInteger 1 :: opToken ')' .rparen :: rest := by
    unfold spelledScalar
    dsimp only
    rw [if_pos rfl]
    rfl
  have hclose : NoMinus (opToken ')' .rparen :: rest) := by
    intro token htoken
    rw [← Option.some.inj htoken]
    exact nofun
  have hdifference : ∀ fuel, readDifference c (fuel + 4) (opToken '-' .sub ::
      spelledInteger 9223372036854775807 :: opToken '-' .sub :: spelledInteger 1 ::
      opToken ')' .rparen :: rest) =
      some (.integer Int64.minValue, opToken ')' .rparen :: rest) := by
    intro fuel
    rw [readDifference, readUnary_minus (readUnary_constant (constant_integer _)) rfl,
      Option.bind_eq_bind, Option.bind_some]
    dsimp only
    rw [readMinus_step (readUnary_constant (constant_integer _)) rfl, readMinus_stop hclose]
    rfl
  rw [htokens]
  unfold readScalar
  simp only [List.length_cons]
  rw [show 2 * (rest.length + 1 + 1 + 1 + 1 + 1 + 1) + 6 = (2 * rest.length + 12) + 4 + 2 by omega,
    readDifference, readUnary_brackets (hdifference _), Option.bind_eq_bind, Option.bind_some]
  exact readMinus_stop hrest

theorem readScalar_spelled (hc : c.Sound) (scalar : Scalar) (hrest : NoMinus rest) :
    readScalar c (spelledScalar c scalar ++ rest) = some (scalar, rest) := by
  cases scalar with
  | nil => exact readScalar_one (if_pos rfl) hrest
  | bool b => exact readScalar_one (constant_bool b) hrest
  | integer i =>
    by_cases hleast : i = Int64.minValue
    · rw [hleast]
      exact readScalar_least hrest
    · unfold spelledScalar
      dsimp only
      rw [if_neg hleast]
      refine readScalar_signed (constant_integer _) ?_ hrest
      have hle := i.le_toInt
      have hlt := i.toInt_lt
      split
      · rename_i hneg
        rw [decide_eq_true_eq, Int64.lt_iff_toInt_lt] at hneg
        refine congrArg (fun i => some (Scalar.integer i)) (Int64.toInt_inj.mp ?_)
        rw [Int64.toInt_neg_ofNat_of_le (by omega)]
        have : (0 : Int64).toInt = 0 := rfl
        omega
      · rename_i hneg
        rw [decide_eq_true_eq, Int64.lt_iff_toInt_lt] at hneg
        refine congrArg Scalar.integer (Int64.toInt_inj.mp ?_)
        have : (0 : Int64).toInt = 0 := rfl
        rw [Int64.toInt_ofNat_of_lt (by omega)]
        omega
  | real d =>
    obtain ⟨x, hreal, hunsigned, -, -, hread⟩ := unsignedReal_spec hc d
    have hmag : (c.source (unsignedReal c d.1)).magnitudeBits = d.1.magnitudeBits := by
      rw [hunsigned, ← hread]
      unfold withSign
      split
      · rw [Binary64.magnitudeBits_negate]
      · rfl
    have hfinite : (c.source (unsignedReal c d.1)).isFinite = true := by
      have hd := d.2
      unfold Binary64.isFinite at hd ⊢
      rwa [hmag]
    rw [← hunsigned] at hread
    have hconstant : constant c (.float (unsignedReal c d), unsignedReal c d) =
        some (.real ⟨_, hfinite⟩) := dif_pos hfinite
    refine readScalar_signed hconstant ?_ hrest
    unfold withSign at hread
    split at hread
    · rename_i hsign
      rw [if_pos hsign]
      exact congrArg (fun d => some (Scalar.real d)) (Subtype.ext hread)
    · rename_i hsign
      rw [if_neg hsign]
      exact congrArg Scalar.real (Subtype.ext hread)
  | string bytes => exact readScalar_one rfl hrest

/-! ### Entries -/

/-- A token that a value begins with: it is no key and ends nothing. -/
def Leads (token : Spelled) : Prop :=
  nameOf token = none ∧ token.1 ≠ .op .lbracket ∧ token.1 ≠ .op .rbrace

theorem leads_scalar (c : Printing) (scalar : Scalar) : ∃ token tail,
    spelledScalar c scalar = token :: tail ∧ Leads token ∧ token.1 ≠ .op .lbrace := by
  have hsign : ∀ (negative : Bool) (token : Spelled), Leads token → token.1 ≠ .op .lbrace →
      ∃ first tail, spelledSign negative token = first :: tail ∧ Leads first ∧
        first.1 ≠ .op .lbrace := by
    intro negative token hleads htoken
    cases negative with
    | false => exact ⟨token, [], rfl, hleads, htoken⟩
    | true => exact ⟨_, _, rfl, ⟨rfl, nofun, nofun⟩, nofun⟩
  cases scalar with
  | nil => exact ⟨_, _, rfl, ⟨rfl, nofun, nofun⟩, nofun⟩
  | bool b => exact ⟨_, _, rfl, ⟨rfl, nofun, nofun⟩, nofun⟩
  | integer i =>
    unfold spelledScalar
    dsimp only
    split
    · exact ⟨_, _, rfl, ⟨rfl, nofun, nofun⟩, nofun⟩
    · exact hsign _ _ ⟨rfl, nofun, nofun⟩ nofun
  | real d => exact hsign _ _ ⟨rfl, nofun, nofun⟩ nofun
  | string bytes => exact ⟨_, _, rfl, ⟨rfl, nofun, nofun⟩, nofun⟩

theorem leads_datum (c : Printing) (n : Nat) (d : Datum n) : ∃ token tail,
    spelledDatum c n d = token :: tail ∧ Leads token := by
  match n, d with
  | 0, d =>
    obtain ⟨token, tail, htokens, hleads, -⟩ := leads_scalar c d
    exact ⟨token, tail, htokens, hleads⟩
  | _ + 1, .inl d =>
    obtain ⟨token, tail, htokens, hleads, -⟩ := leads_scalar c d
    exact ⟨token, tail, htokens, hleads⟩
  | _ + 1, .inr s => exact ⟨_, _, rfl, rfl, nofun, nofun⟩

theorem readKey_value {tail : List Spelled} (h : Leads token) :
    readKey c (token :: tail) = some (none, token :: tail) := by
  unfold readKey
  split
  · rename_i heq
    cases heq
    exact absurd rfl h.2.1
  · rename_i heq
    cases heq
    rw [h.1]
  · rfl

theorem readKey_bracketed (hc : c.Sound) (key : Scalar) (rest : List Spelled) :
    readKey c ([opToken '[' .lbracket] ++ spelledScalar c key ++ [opToken ']' .rbracket] ++
      [opToken '=' .eq] ++ rest) = some (some key, rest) := by
  have hclose : NoMinus (opToken ']' .rbracket :: opToken '=' .eq :: rest) := by
    intro token htoken
    rw [← Option.some.inj htoken]
    exact nofun
  simp only [List.append_assoc, List.cons_append, List.nil_append]
  have hread := readScalar_spelled hc key hclose
  unfold opToken at hread ⊢
  unfold readKey
  dsimp only
  rw [hread]
  rfl

theorem readKey_spelled (hc : c.Sound) (key : Scalar) (rest : List Spelled) :
    readKey c (spelledKey c key ++ rest) = some (some key, rest) := by
  cases key with
  | string bytes =>
    unfold spelledKey
    dsimp only
    split
    · rfl
    · exact readKey_bracketed hc _ rest
  | nil => exact readKey_bracketed hc _ rest
  | bool b => exact readKey_bracketed hc _ rest
  | integer i => exact readKey_bracketed hc _ rest
  | real d => exact readKey_bracketed hc _ rest

/-- The tokens of an entry. -/
def spelledEntry {α : Type} (c : Printing) (value : α → List Spelled) (entry : Option Scalar × α) :
    List Spelled :=
  (entry.1.elim [] (spelledKey c)) ++ value entry.2 ++ [opToken ',' .comma]

theorem spelledLines_eq (c : Printing) (value : α → List Spelled) (s : SequenceMap Scalar α) :
    spelledLines c value s = ((literalEntries id s).map (spelledEntry c value)).flatten := by
  unfold literalEntries
  rw [List.map_append, List.flatten_append, List.map_map, List.map_map]
  rfl

theorem literalEntries_map {β : Type} (literal : α → β) (s : SequenceMap Scalar α) :
    literalEntries literal s =
      (literalEntries id s).map fun entry => (entry.1, literal entry.2) := by
  unfold literalEntries
  rw [List.map_append, List.map_map, List.map_map]
  rfl

section Entries

variable {α β : Type} {value : α → List Spelled} {literal : α → β}
  {read : List Spelled → Option (β × List Spelled)}

theorem readEntries_spelled (hc : c.Sound)
    (hvalue : ∀ d rest, NoMinus rest → read (value d ++ rest) = some (literal d, rest))
    (hleads : ∀ d, ∃ token tail, value d = token :: tail ∧ Leads token)
    (hrest : atClose rest = true) (entries : List (Option Scalar × α)) :
    ∀ fuel, entries.length < fuel →
      readEntries c read fuel ((entries.map (spelledEntry c value)).flatten ++ rest) =
        some (entries.map fun entry => (entry.1, literal entry.2), rest) := by
  induction entries with
  | nil =>
    rintro (_ | fuel) hfuel
    · exact absurd hfuel (Nat.not_lt_zero _)
    · exact if_pos hrest
  | cons entry entries ih =>
    rintro (_ | fuel) hfuel
    · exact absurd hfuel (Nat.not_lt_zero _)
    have hrest' := ih fuel (Nat.lt_of_succ_lt_succ hfuel)
    generalize htokens : (entries.map (spelledEntry c value)).flatten ++ rest = tokens at hrest'
    have hread : read (value entry.2 ++ opToken ',' .comma :: tokens) =
        some (literal entry.2, opToken ',' .comma :: tokens) := by
      refine hvalue entry.2 _ fun token htoken => ?_
      rw [← Option.some.inj htoken]
      exact nofun
    obtain ⟨first, tail, hfirst, hfirstLeads⟩ := hleads entry.2
    have hkey : readKey c (spelledEntry c value entry ++ tokens) =
        some (entry.1, value entry.2 ++ opToken ',' .comma :: tokens) := by
      unfold spelledEntry
      rw [List.append_assoc, List.append_assoc]
      obtain ⟨_ | key, d⟩ := entry
      · show readKey c (value d ++ _) = _
        rw [hfirst]
        exact readKey_value hfirstLeads
      · exact readKey_spelled hc key _
    have hopen : atClose (spelledEntry c value entry ++ tokens) = false := by
      unfold spelledEntry
      obtain ⟨_ | key, d⟩ := entry
      · show atClose (value d ++ _ ++ _) = _
        rw [hfirst]
        exact decide_eq_false hfirstLeads.2.2
      · show atClose (spelledKey c key ++ _ ++ _ ++ _) = _
        unfold spelledKey
        cases key with
        | string bytes =>
          dsimp only
          split
          · rfl
          · rfl
        | nil => rfl
        | bool b => rfl
        | integer i => rfl
        | real d => rfl
    rw [List.map_cons, List.flatten_cons, List.append_assoc, htokens, readEntries, hopen,
      if_neg Bool.false_ne_true, hkey, Option.bind_eq_bind, Option.bind_some]
    dsimp only
    rw [hread, Option.bind_eq_bind, Option.bind_some]
    unfold opToken
    dsimp only
    rw [hrest']
    rfl

end Entries

theorem length_flatten_entries (c : Printing) (value : α → List Spelled)
    (entries : List (Option Scalar × α)) :
    entries.length ≤ ((entries.map (spelledEntry c value)).flatten).length := by
  induction entries with
  | nil => exact Nat.zero_le _
  | cons entry entries ih =>
    rw [List.map_cons, List.flatten_cons, List.length_append, List.length_cons]
    unfold spelledEntry at ih ⊢
    rw [List.length_append, List.length_singleton]
    omega

theorem readValue_spelled (hc : c.Sound) (n : Nat) :
    ∀ (d : Datum n) (rest : List Spelled), NoMinus rest →
      readValue c n (spelledDatum c n d ++ rest) = some (d.literal, rest) := by
  have hscalar : ∀ n (scalar : Scalar) (rest : List Spelled), NoMinus rest →
      readValue c (n + 1) (spelledScalar c scalar ++ rest) = some (.inl scalar, rest) := by
    intro n scalar rest hrest
    obtain ⟨token, tail, htokens, -, hbrace⟩ := leads_scalar c scalar
    have hread := readScalar_spelled hc scalar hrest
    rw [htokens] at hread ⊢
    unfold readValue
    split
    · rename_i heq
      cases heq
      exact absurd rfl hbrace
    · rw [hread]
      rfl
  induction n with
  | zero => exact fun d rest hrest => readScalar_spelled hc d hrest
  | succ n ih =>
    rintro (d | s) rest hrest
    · exact hscalar n d rest hrest
    · have hclose : atClose (opToken '\x7d' .rbrace :: rest) = true := rfl
      have hentries := readEntries_spelled hc ih (leads_datum c n) hclose (literalEntries id s)
      rw [← literalEntries_map, ← spelledLines_eq] at hentries
      have hlength : (literalEntries id s).length <
          (spelledLines c (spelledDatum c n) s ++ opToken '\x7d' .rbrace :: rest).length + 1 := by
        have := length_flatten_entries c (spelledDatum c n) (literalEntries id s)
        rw [← spelledLines_eq] at this
        rw [List.length_append]
        omega
      have hread := hentries _ hlength
      show readValue c (n + 1) ([opToken '\x7b' .lbrace] ++ spelledLines c (spelledDatum c n) s ++
        [opToken '\x7d' .rbrace] ++ rest) = _
      rw [List.append_assoc, List.append_assoc, List.singleton_append, List.singleton_append]
      unfold opToken at hread ⊢
      unfold readValue
      dsimp only
      rw [hread]
      rfl

theorem readDocument_spelled (hc : c.Sound) {n : Nat} (s : SequenceMap Scalar (Datum n)) :
    readDocument c n (spelledLines c (spelledDatum c n) s) =
      some (Datum.literal (n + 1) (.inr s)) := by
  have hentries := readEntries_spelled hc (readValue_spelled hc n) (leads_datum c n)
    (show atClose [] = true from rfl) (literalEntries id s)
  rw [← literalEntries_map, ← spelledLines_eq, List.append_nil] at hentries
  have hlength : (literalEntries id s).length <
      (spelledLines c (spelledDatum c n) s).length + 1 := by
    have := length_flatten_entries c (spelledDatum c n) (literalEntries id s)
    rw [← spelledLines_eq] at this
    omega
  unfold readDocument
  rw [hentries _ hlength]
  rfl

end Reading

end Lhat.Lton
