import Lhat.Binary.Basic
import Lhat.Foundation.BitCursor
import Mathlib.Algebra.Order.Floor.Ring
import Mathlib.Data.Rat.Floor
import Mathlib.Tactic.IntervalCases
import Mathlib.Tactic.Linarith

/-!
# Kinds

A kind is a width and a rule for turning a value into that many bits, and a format is an
ordered list of named kinds. What the constructors make is sound: a width is that of the
numbers packed, and no name is written twice.
-/

namespace Lhat.Binary

/-- The largest format. -/
def maxBits : Nat := 2 ^ 32

/-- The nearest whole number, half of them away from zero. -/
def llround (x : ℚ) : Int := if 0 ≤ x then ⌊x + 1 / 2⌋ else ⌈x - 1 / 2⌉

/-- The kinds with no kind inside. `span` is the largest number packed, the smallest being 0. -/
inductive Scalar where
  | uint (width : Nat) (span : UInt64)
  | int (width : Nat)
  | bool
  | range (low : Int64) (span : UInt64)
  | fixed (origin step : ℚ) (span : UInt64)
  | enum (owner : Enum)
deriving DecidableEq

def Scalar.width : Scalar → Nat
  | uint width _ => width
  | int width => width
  | bool => 1
  | range _ span => widthOf span.toNat
  | fixed _ _ span => widthOf span.toNat
  | enum owner => widthOf (owner.count - 1)

mutual

inductive Kind where
  | scalar (s : Scalar)
  | array (length : Nat) (element : Kind)
  | format (fields : Fields)

inductive Fields where
  | nil
  | cons (name : Text) (kind : Kind) (rest : Fields)

end

mutual

/-- The whole width, an array's or a format's included. -/
def Kind.bits : Kind → Nat
  | .scalar s => s.width
  | .array length element => element.bits * length
  | .format fields => fields.bits

def Fields.bits : Fields → Nat
  | .nil => 0
  | .cons _ kind rest => kind.bits + rest.bits

end

def Kind.size (k : Kind) : Nat := (k.bits + 7) / 8

def Fields.ofList (rows : List (Text × Kind)) : Fields :=
  rows.foldr (fun row rest => .cons row.1 row.2 rest) .nil

def Fields.names : Fields → List Text
  | .nil => []
  | .cons name _ rest => name :: rest.names

/-! ### The constructors -/

/-- What `%.*s` prints: no more than `most` bytes, and none from the first zero on. -/
def printed (most : Nat) (name : Text) : Text := (name.take most).takeWhile (· ≠ 0)

/-- `snprintf` leaves one byte of its room for the zero. -/
def snprintf (room : Nat) (parts : List Text) : Text := parts.flatten.take (room - 1)

def integerArgument (value : Value) (low high : Int64) (function : String) : Except Text Int64 :=
  let refused := snprintf 128 [text "std.binary.", text function,
    text ": expected an integer from ", text (toString low.toInt), text " to ",
    text (toString high.toInt)]
  match value with
  | .integer n => if n < low || high < n then .error refused else .ok n
  | _ => .error refused

def binaryUint (n : Value) : Except Text Kind := do
  let n ← integerArgument n 1 64 "uint"
  let span := if n = 64 then UInt64.ofNat (2 ^ 64 - 1) else (1 <<< n.toUInt64) - 1
  return .scalar (.uint n.toInt.toNat span)

def binaryInt (n : Value) : Except Text Kind := do
  let n ← integerArgument n 1 64 "int"
  return .scalar (.int n.toInt.toNat)

def binaryBool : Kind := .scalar .bool

def binaryRange (low high : Value) : Except Text Kind := do
  let low ← integerArgument low Int64.minValue Int64.maxValue "range"
  let high ← integerArgument high low Int64.maxValue "range"
  return .scalar (.range low (high.toUInt64 - low.toUInt64))

/-- The arguments are numbers already, read as reals. Past `2 ^ 53` the steps are no longer
whole numbers that a double can count. -/
def binaryFixed (low high step : ℚ) : Except Text Kind :=
  let steps := (high - low) / step
  if !(0 < step) || !(low ≤ high) || !(steps < 2 ^ 53) then
    .error (text "std.binary.fixed: expected min <= max and a step above 0")
  else .ok (.scalar (.fixed low step (UInt64.ofInt (llround steps))))

def binaryEnum : Value → Except Text Kind
  | .enum owner =>
    if owner.count = 0 then .error (text "std.binary.enum: the enum^ has no members")
    else .ok (.scalar (.enum owner))
  | _ => .error (text "std.binary.enum: expected an enum^")

/-- A kind that was disposed is `none`. -/
def binaryArray (length : Value) (element : Option Kind) : Except Text Kind := do
  let length ← integerArgument length 0 (Int64.ofNat maxBits) "array"
  match element with
  | none => .error (text "std.binary.array: the kind was disposed")
  | some element =>
    if 0 < length && maxBits / length.toInt.toNat < element.bits then
      .error (text "std.binary.array: too many bits")
    else .ok (.array length.toInt.toNat element)

/-- What a row of `format` has in its first two places, where those are a name and a kind. -/
structure Row where
  name : Option Text
  kind : Option Kind

/-- The loop over the rows, with the fields that are made already. -/
def formatFields : Nat → List (Text × Kind) → Nat → List Row → Except Text (List (Text × Kind))
  | _, fields, _, [] => .ok fields
  | i, fields, bits, row :: rows =>
    match row.name, row.kind with
    | some name, some kind =>
      if fields.any fun field => field.1 = name then
        .error (snprintf 256 [text "std.binary.format: the name ", printed 48 name,
          text " is written twice"])
      else if maxBits < bits + kind.bits then
        .error (snprintf 256 [text "std.binary.format: too many bits at ", printed 48 name])
      else formatFields (i + 1) (fields ++ [(name, kind)]) (bits + kind.bits) rows
    | _, _ =>
      .error (snprintf 256 [text "std.binary.format: row ", text (toString i),
        text " is not { name, kind }"])

/-- `describes` is whether what a format decodes conforms to the type that is declared. -/
def binaryFormat (describes : Kind → Bool) (rows : List Row) : Except Text Kind := do
  let fields ← formatFields 0 [] 0 rows
  let format := Kind.format (Fields.ofList fields)
  if describes format then return format
  else
    .error (text ("std.binary.format: the declared type does not describe what the format " ++
      "decodes"))

/-- The kinds that a program can make. -/
inductive Made : Kind → Prop
  | uint {k : Kind} (n : Value) (h : binaryUint n = .ok k) : Made k
  | int {k : Kind} (n : Value) (h : binaryInt n = .ok k) : Made k
  | bool : Made binaryBool
  | range {k : Kind} (low high : Value) (h : binaryRange low high = .ok k) : Made k
  | fixed {k : Kind} (low high step : ℚ) (h : binaryFixed low high step = .ok k) : Made k
  | enum {k : Kind} (owner : Value) (h : binaryEnum owner = .ok k) : Made k
  | array {k : Kind} (length : Value) {element : Kind} (hmade : Made element)
      (h : binaryArray length (some element) = .ok k) : Made k
  | format {k : Kind} (describes : Kind → Bool) (rows : List Row)
      (hmade : ∀ row ∈ rows, ∀ kind, row.kind = some kind → Made kind)
      (h : binaryFormat describes rows = .ok k) : Made k

/-! ### What is made is sound -/

def Scalar.Sound : Scalar → Prop
  | uint width span => 1 ≤ width ∧ width ≤ 64 ∧ span.toNat = 2 ^ width - 1
  | int width => 1 ≤ width ∧ width ≤ 64
  | bool => True
  | range low span => low.toInt + span.toNat < 2 ^ 63
  | fixed _ step span => 0 < step ∧ span.toNat ≤ 2 ^ 53
  | enum owner => 0 < owner.count

mutual

def Kind.Sound : Kind → Prop
  | .scalar s => s.Sound
  | .array _ element => element.Sound
  | .format fields => fields.names.Nodup ∧ fields.Sound

def Fields.Sound : Fields → Prop
  | .nil => True
  | .cons _ kind rest => kind.Sound ∧ rest.Sound

end

theorem integerArgument_ok {value : Value} {low high n : Int64} {function : String}
    (h : integerArgument value low high function = .ok n) : low ≤ n ∧ n ≤ high := by
  unfold integerArgument at h
  split at h
  · split at h
    · cases h
    · rename_i hinside
      cases h
      simpa [Int64.not_lt] using hinside
  · cases h

theorem bind_ok {ε α β : Type} {x : Except ε α} {f : α → Except ε β} {b : β}
    (h : (x >>= f) = .ok b) : ∃ a, x = .ok a ∧ f a = .ok b := by
  cases x with
  | error e => cases h
  | ok a => exact ⟨a, rfl, h⟩

theorem width_argument {value : Value} {n : Int64} {function : String}
    (h : integerArgument value 1 64 function = .ok n) : 1 ≤ n.toInt ∧ n.toInt ≤ 64 := by
  obtain ⟨hlow, hhigh⟩ := integerArgument_ok h
  exact ⟨Int64.le_iff_toInt_le.mp hlow, Int64.le_iff_toInt_le.mp hhigh⟩

theorem sound_uint {k : Kind} {n : Value} (h : binaryUint n = .ok k) : k.Sound := by
  obtain ⟨n, hn, h⟩ := bind_ok h
  cases h
  obtain ⟨hlow, hhigh⟩ := width_argument hn
  have hcast : n = Int64.ofInt n.toInt := (Int64.ofInt_toInt n).symm
  generalize n.toInt = m at *
  subst hcast
  refine ⟨by omega, by omega, ?_⟩
  interval_cases m <;> rfl

theorem sound_int {k : Kind} {n : Value} (h : binaryInt n = .ok k) : k.Sound := by
  obtain ⟨n, hn, h⟩ := bind_ok h
  cases h
  obtain ⟨hlow, hhigh⟩ := width_argument hn
  exact ⟨by omega, by omega⟩

theorem toNat_toUInt64 (n : Int64) : (n.toUInt64.toNat : Int) = n.toInt % 2 ^ 64 := by
  have hn : n.toInt = ((n.toUInt64.toNat : Int)).bmod (2 ^ 64) :=
    BitVec.toInt_eq_toNat_bmod n.toBitVec
  have hlt := n.toUInt64.toNat_lt
  rw [hn]
  change _ = _ % ((2 ^ 64 : Nat) : Int)
  rw [Int.bmod_emod]
  omega

theorem sound_range {k : Kind} {low high : Value} (h : binaryRange low high = .ok k) : k.Sound := by
  obtain ⟨low, _, h⟩ := bind_ok h
  obtain ⟨high, hhigh, h⟩ := bind_ok h
  cases h
  have hle := Int64.le_iff_toInt_le.mp (integerArgument_ok hhigh).1
  have hmin := low.le_toInt
  have hmax := high.toInt_lt
  have hlow := toNat_toUInt64 low
  have hhigh := toNat_toUInt64 high
  change low.toInt + ((high.toUInt64 - low.toUInt64).toNat : Int) < 2 ^ 63
  rw [UInt64.toNat_sub]
  omega

theorem llround_spec {x : ℚ} (h : -1 / 2 < x) :
    0 ≤ llround x ∧ (llround x : ℚ) ≤ x + 1 / 2 ∧ x - 1 / 2 ≤ llround x := by
  unfold llround
  split
  · rename_i hpos
    have hlt := Int.lt_floor_add_one (x + 1 / 2)
    exact ⟨Int.floor_nonneg.mpr (by linarith), Int.floor_le _, by linarith⟩
  · rename_i hneg
    have hzero : ⌈x - 1 / 2⌉ = 0 := Int.ceil_eq_iff.mpr ⟨by push_cast; linarith, by
      push_cast
      linarith⟩
    rw [hzero]
    exact ⟨le_refl _, by push_cast; linarith, by push_cast; linarith⟩

theorem llround_half_below : llround (-1 / 2) = -1 := by
  norm_num [llround]

theorem toNat_ofInt {z : Int} (hlow : 0 ≤ z) (hhigh : z < 2 ^ 64) :
    ((UInt64.ofInt z).toNat : Int) = z := by
  rw [UInt64.ofInt, UInt64.toNat_ofNat']
  omega

theorem sound_fixed {k : Kind} {low high step : ℚ} (h : binaryFixed low high step = .ok k) :
    k.Sound := by
  unfold binaryFixed at h
  dsimp only at h
  split at h
  · cases h
  · rename_i hchecked
    cases h
    simp only [Bool.or_eq_true, Bool.not_eq_true', decide_eq_false_iff_not, not_or, not_not]
      at hchecked
    obtain ⟨⟨hstep, hle⟩, hsteps⟩ := hchecked
    have hnonneg : 0 ≤ (high - low) / step := div_nonneg (by linarith) hstep.le
    obtain ⟨hlow, hhigh, _⟩ := llround_spec (x := (high - low) / step) (by linarith)
    have hround : llround ((high - low) / step) ≤ 2 ^ 53 := by
      have : (llround ((high - low) / step) : ℚ) < ((2 ^ 53 + 1 : Int) : ℚ) := by
        push_cast
        linarith
      exact Int.lt_add_one_iff.mp (Int.cast_lt.mp this)
    have hnat := toNat_ofInt hlow (by omega)
    exact ⟨hstep, by omega⟩

theorem sound_enum {k : Kind} {owner : Value} (h : binaryEnum owner = .ok k) : k.Sound := by
  unfold binaryEnum at h
  split at h
  · split at h
    · cases h
    · cases h
      exact Nat.pos_of_ne_zero (by assumption)
  · cases h

theorem sound_array {k element : Kind} {length : Value} (hsound : element.Sound)
    (h : binaryArray length (some element) = .ok k) : k.Sound := by
  obtain ⟨length, _, h⟩ := bind_ok h
  dsimp only at h
  split at h
  · cases h
  · cases h
    exact hsound

theorem names_ofList (rows : List (Text × Kind)) :
    (Fields.ofList rows).names = rows.map Prod.fst := by
  induction rows with
  | nil => rfl
  | cons row rows ih => exact congrArg (row.1 :: ·) ih

theorem sound_ofList {rows : List (Text × Kind)} (h : ∀ row ∈ rows, row.2.Sound) :
    (Fields.ofList rows).Sound := by
  induction rows with
  | nil => trivial
  | cons row rows ih =>
    exact ⟨h row List.mem_cons_self, ih fun other hmem => h other (List.mem_cons_of_mem _ hmem)⟩

theorem formatFields_sound (rows : List Row) : ∀ {i bits : Nat} {fields made : List (Text × Kind)},
    (∀ row ∈ rows, ∀ kind, row.kind = some kind → kind.Sound) →
    (fields.map Prod.fst).Nodup → (∀ field ∈ fields, field.2.Sound) →
    formatFields i fields bits rows = .ok made →
    (made.map Prod.fst).Nodup ∧ ∀ field ∈ made, field.2.Sound := by
  induction rows with
  | nil =>
    intro i bits fields made _ hnodup hsound h
    cases h
    exact ⟨hnodup, hsound⟩
  | cons row rows ih =>
    intro i bits fields made hrows hnodup hsound h
    unfold formatFields at h
    split at h
    · rename_i name kind hname hkind
      split at h
      · cases h
      · rename_i hnew
        split at h
        · cases h
        · refine ih (fun other hmem => hrows other (List.mem_cons_of_mem _ hmem)) ?_ ?_ h
          · rw [List.map_append, List.nodup_append]
            refine ⟨hnodup, List.nodup_singleton _, fun a ha b hb hab => hnew ?_⟩
            obtain ⟨field, hfield, rfl⟩ := List.mem_map.mp ha
            simp at hb
            exact List.any_eq_true.mpr ⟨field, hfield, by simp [hab, hb]⟩
          · intro field hfield
            obtain hfield | hfield := List.mem_append.mp hfield
            · exact hsound field hfield
            · rw [List.mem_singleton.mp hfield]
              exact hrows row List.mem_cons_self kind hkind
    · cases h

theorem sound_format {k : Kind} {describes : Kind → Bool} {rows : List Row}
    (hrows : ∀ row ∈ rows, ∀ kind, row.kind = some kind → kind.Sound)
    (h : binaryFormat describes rows = .ok k) : k.Sound := by
  obtain ⟨fields, hfields, h⟩ := bind_ok h
  obtain ⟨hnodup, hsound⟩ :=
    formatFields_sound rows hrows (by exact List.nodup_nil) (by simp) hfields
  dsimp only at h
  split at h
  · cases h
    exact ⟨(names_ofList fields).symm ▸ hnodup, sound_ofList hsound⟩
  · cases h

theorem Made.sound {k : Kind} (h : Made k) : k.Sound := by
  induction h with
  | uint n h => exact sound_uint h
  | int n h => exact sound_int h
  | bool => trivial
  | range low high h => exact sound_range h
  | fixed low high step h => exact sound_fixed h
  | enum owner h => exact sound_enum h
  | array length hmade h ih => exact sound_array ih h
  | format describes rows hmade h ih => exact sound_format ih h

end Lhat.Binary
