import Mathlib.Data.List.Basic
import Mathlib.Tactic.Common

/-!
# Format strings

The grammar in which `printf` and `scanf` read their formats: ordinary bytes, `%%`, and the
conversions with their flags, width, precision, length modifier and specifier. It is stated by what
the directives spell. A text has one reading at most in either dialect.
-/

namespace Lhat.Conversions

abbrev Bytes := List UInt8

def bytes (letters : List Char) : Bytes := letters.map Char.toUInt8

def flagBytes : Bytes := bytes ['-', '+', ' ', '#', '0']

def digitBytes : Bytes := bytes ['0', '1', '2', '3', '4', '5', '6', '7', '8', '9']

def lengthBytes : Bytes := bytes ['h', 'l', 'j', 'z', 't', 'L']

def lengthModifiers : List Bytes :=
  [[], bytes ['h', 'h'], bytes ['h'], bytes ['l'], bytes ['l', 'l'], bytes ['j'], bytes ['z'],
    bytes ['t'], bytes ['L']]

def specifiers : Bytes :=
  bytes ['d', 'i', 'o', 'u', 'x', 'X', 'f', 'F', 'e', 'E', 'g', 'G', 'a', 'A', 'c', 's', 'p', 'n']

/-- One conversion by its parts. The precision holds its period, and the scanlist what stands
behind a bracket. -/
structure Conversion where
  flags : Bytes := []
  width : Bytes := []
  precision : Bytes := []
  length : Bytes := []
  specifier : UInt8
  scanlist : Bytes := []
deriving DecidableEq

def Conversion.spelled (c : Conversion) : Bytes :=
  '%'.toUInt8 :: (c.flags ++ (c.width ++ (c.precision ++ (c.length ++ c.specifier :: c.scanlist))))

/-- An asterisk takes the width or the precision from a further argument of `printf`, and keeps
`scanf` from assigning. -/
def Conversion.Starred (c : Conversion) : Prop :=
  '*'.toUInt8 ∈ c.flags ++ c.width ++ c.precision

/-- A zero in front of the width is a flag. -/
structure Printf (c : Conversion) : Prop where
  flags : ∀ b ∈ c.flags, b ∈ flagBytes
  width : c.width = bytes ['*'] ∨
    (∀ b ∈ c.width, b ∈ digitBytes) ∧ c.width.head? ≠ some '0'.toUInt8
  precision : c.precision = [] ∨ c.precision = bytes ['.', '*'] ∨
    ∃ digits, c.precision = '.'.toUInt8 :: digits ∧ ∀ b ∈ digits, b ∈ digitBytes
  length : c.length ∈ lengthModifiers
  specifier : c.specifier ∈ specifiers
  scanlist : c.scanlist = []

/-- The first byte of a scanlist does not close it. -/
def Scanlist (listed : Bytes) : Prop :=
  ∃ first rest, ']'.toUInt8 ∉ rest ∧
    (first ≠ '^'.toUInt8 ∧ listed = first :: (rest ++ [']'.toUInt8]) ∨
      listed = '^'.toUInt8 :: first :: (rest ++ [']'.toUInt8]))

/-- The width of `scanf` is greater than zero, and it has neither flags nor a precision. -/
structure Scanf (c : Conversion) : Prop where
  flags : c.flags = [] ∨ c.flags = bytes ['*']
  width : ∀ b ∈ c.width, b ∈ digitBytes
  positive : c.width = [] ∨ ∃ b ∈ c.width, b ≠ '0'.toUInt8
  precision : c.precision = []
  length : c.length ∈ lengthModifiers
  specifier : c.specifier ∈ specifiers ∧ c.scanlist = [] ∨
    c.specifier = '['.toUInt8 ∧ Scanlist c.scanlist

inductive Directive where
  | ordinary (b : UInt8)
  | percent
  | conversion (c : Conversion)
deriving DecidableEq

def Directive.spelled : Directive → Bytes
  | .ordinary b => [b]
  | .percent => bytes ['%', '%']
  | .conversion c => c.spelled

def Directive.Formed (dialect : Conversion → Prop) : Directive → Prop
  | .ordinary b => b ≠ '%'.toUInt8
  | .percent => True
  | .conversion c => dialect c

def Directive.asConversion : Directive → Option Conversion
  | .conversion c => some c
  | _ => none

def spelled (directives : List Directive) : Bytes := directives.flatMap Directive.spelled

def conversions (directives : List Directive) : List Conversion :=
  directives.filterMap Directive.asConversion

/-- The directives are the reading of the text. A text ends before its first zero byte. -/
structure Reads (dialect : Conversion → Prop) (directives : List Directive) (text : Bytes) :
    Prop where
  formed : ∀ d ∈ directives, d.Formed dialect
  spells : spelled directives = text
  ended : (0 : UInt8) ∉ text

@[simp] theorem spelled_nil : spelled [] = [] := rfl

@[simp] theorem spelled_cons (d : Directive) (rest : List Directive) :
    spelled (d :: rest) = d.spelled ++ spelled rest := rfl

@[simp] theorem spelled_append (before after : List Directive) :
    spelled (before ++ after) = spelled before ++ spelled after := by
  simp [spelled]

@[simp] theorem conversions_append (before after : List Directive) :
    conversions (before ++ after) = conversions before ++ conversions after := by
  simp [conversions]

/-! ### Runs of bytes -/

section Runs

variable {α : Type*} {p : α → Prop}

theorem run_unique : ∀ {xs ys r s : List α}, (∀ b ∈ xs, p b) → (∀ b ∈ ys, p b) →
    (∀ b ∈ r.head?, ¬ p b) → (∀ b ∈ s.head?, ¬ p b) → xs ++ r = ys ++ s → xs = ys ∧ r = s
  | [], [], _, _, _, _, _, _, h => ⟨rfl, h⟩
  | [], y :: ys, r, s, _, hy, hr, _, h => by
    have hhead : r.head? = some y := by
      rw [show r = y :: (ys ++ s) from h]
      rfl
    exact absurd (hy y (by simp)) (hr y hhead)
  | x :: xs, [], r, s, hx, _, _, hs, h => by
    have hhead : s.head? = some x := by
      rw [show s = x :: (xs ++ r) from h.symm]
      rfl
    exact absurd (hx x (by simp)) (hs x hhead)
  | x :: xs, y :: ys, r, s, hx, hy, hr, hs, h => by
    simp only [List.cons_append, List.cons.injEq] at h
    obtain ⟨rfl, h⟩ := h
    obtain ⟨rfl, rfl⟩ := run_unique (fun b hb => hx b (by simp [hb]))
      (fun b hb => hy b (by simp [hb])) hr hs h
    exact ⟨rfl, rfl⟩

theorem head_append {xs r : List α} {q : α → Prop} (hx : ∀ b ∈ xs.head?, q b)
    (hr : ∀ b ∈ r.head?, q b) : ∀ b ∈ (xs ++ r).head?, q b := by
  cases xs with
  | nil => exact hr
  | cons x xs => exact hx

end Runs

/-! ### What stands behind each part of a conversion -/

def letterBytes : Bytes := lengthBytes ++ '['.toUInt8 :: specifiers

theorem all_bytes {p : UInt8 → Prop} [DecidablePred p] {bs : Bytes} (h : bs.all (p ·)) :
    ∀ b ∈ bs, p b := by
  simpa using h

theorem mem_lengthBytes {modifier : Bytes} (hmodifier : modifier ∈ lengthModifiers) :
    ∀ b ∈ modifier, b ∈ lengthBytes := by
  have hall : lengthModifiers.all (·.all (· ∈ lengthBytes)) := by decide
  exact all_bytes (List.all_eq_true.mp hall modifier hmodifier)

theorem letters_head {modifier : Bytes} {specifier : UInt8} {rest : Bytes}
    (hmodifier : modifier ∈ lengthModifiers)
    (hspecifier : specifier ∈ '['.toUInt8 :: specifiers) :
    ∀ b ∈ (modifier ++ specifier :: rest).head?, b ∈ letterBytes := by
  refine head_append (fun b hb => ?_) (fun b hb => ?_)
  · exact List.mem_append_left _ (mem_lengthBytes hmodifier b (List.mem_of_mem_head? hb))
  · obtain rfl : specifier = b := by simpa using hb
    exact List.mem_append_right _ hspecifier

/-- The length modifier and the specifier are told apart by their letters. -/
theorem letters_unique {m n r s : Bytes} {a b : UInt8} (hm : m ∈ lengthModifiers)
    (hn : n ∈ lengthModifiers) (ha : a ∈ '['.toUInt8 :: specifiers)
    (hb : b ∈ '['.toUInt8 :: specifiers) (h : m ++ a :: r = n ++ b :: s) :
    m = n ∧ a = b ∧ r = s := by
  have hout : ∀ c ∈ '['.toUInt8 :: specifiers, c ∉ lengthBytes := all_bytes (by decide)
  obtain ⟨hmn, hrest⟩ := run_unique (p := (· ∈ lengthBytes)) (mem_lengthBytes hm)
    (mem_lengthBytes hn) (by simpa using hout a ha) (by simpa using hout b hb) h
  exact ⟨hmn, by simpa using hrest⟩

namespace Printf

variable {c d : Conversion} {r s : Bytes}

section

variable (hc : Printf c)
include hc

theorem specified : c.specifier ∈ '['.toUInt8 :: specifiers :=
  List.mem_cons_of_mem _ hc.specifier

theorem width_bytes : ∀ b ∈ c.width, b ∈ '*'.toUInt8 :: digitBytes := by
  obtain hstar | ⟨hdigits, -⟩ := hc.width
  · rw [hstar]
    exact all_bytes (by decide)
  · exact fun b hb => List.mem_cons_of_mem _ (hdigits b hb)

theorem precision_bytes :
    ∀ b ∈ c.precision, b ∈ '.'.toUInt8 :: '*'.toUInt8 :: digitBytes := by
  obtain hnone | hstar | ⟨digits, hdigits, hall⟩ := hc.precision
  · simp [hnone]
  · rw [hstar]
    exact all_bytes (by decide)
  · intro b hb
    rw [hdigits] at hb
    obtain rfl | hb := List.mem_cons.mp hb
    · decide
    · exact List.mem_cons_of_mem _ (List.mem_cons_of_mem _ (hall b hb))

theorem precision_head : ∀ b ∈ c.precision.head?, b = '.'.toUInt8 := by
  obtain hnone | hstar | ⟨digits, hdigits, -⟩ := hc.precision
  · simp [hnone]
  · simp [hstar, bytes]
  · simp [hdigits]

theorem letters : ∀ b ∈ (c.length ++ c.specifier :: r).head?, b ∈ letterBytes :=
  letters_head hc.length hc.specified

theorem behind_width :
    ∀ b ∈ (c.precision ++ (c.length ++ c.specifier :: r)).head?, b ∈ '.'.toUInt8 :: letterBytes :=
  head_append (fun b hb => by simp [hc.precision_head b hb])
    (fun b hb => List.mem_cons_of_mem _ (hc.letters b hb))

theorem behind_flags :
    ∀ b ∈ (c.width ++ (c.precision ++ (c.length ++ c.specifier :: r))).head?, b ∉ flagBytes := by
  refine head_append (fun b hb => ?_) (fun b hb => ?_)
  · obtain hstar | ⟨hdigits, hzero⟩ := hc.width
    · obtain rfl : '*'.toUInt8 = b := by simpa [hstar, bytes] using hb
      decide
    · have hdigit := hdigits b (List.mem_of_mem_head? hb)
      have hother : ∀ b ∈ digitBytes, b = '0'.toUInt8 ∨ b ∉ flagBytes := all_bytes (by decide)
      refine (hother b hdigit).resolve_left fun hb0 => hzero ?_
      rw [← hb0]
      exact hb
  · have hother : ∀ b ∈ '.'.toUInt8 :: letterBytes, b ∉ flagBytes := all_bytes (by decide)
    exact hother b (hc.behind_width b hb)

/-- One conversion of `printf` stands in front of a text at most. -/
theorem unique (hd : Printf d) (h : c.spelled ++ r = d.spelled ++ s) :
    c = d ∧ r = s := by
  have hwidth : ∀ b ∈ '.'.toUInt8 :: letterBytes, b ∉ '*'.toUInt8 :: digitBytes := all_bytes (by decide)
  have hprecision :
      ∀ b ∈ letterBytes, b ∉ '.'.toUInt8 :: '*'.toUInt8 :: digitBytes := all_bytes (by decide)
  simp only [Conversion.spelled, List.cons_append, List.append_assoc, hc.scanlist, hd.scanlist,
    List.nil_append, List.cons.injEq, true_and] at h
  obtain ⟨hflags, h⟩ := run_unique hc.flags hd.flags hc.behind_flags hd.behind_flags h
  obtain ⟨hw, h⟩ := run_unique hc.width_bytes hd.width_bytes
    (fun b hb => hwidth b (hc.behind_width b hb)) (fun b hb => hwidth b (hd.behind_width b hb)) h
  obtain ⟨hp, h⟩ := run_unique hc.precision_bytes hd.precision_bytes
    (fun b hb => hprecision b (hc.letters b hb)) (fun b hb => hprecision b (hd.letters b hb)) h
  obtain ⟨hl, hs, hrest⟩ := letters_unique hc.length hd.length hc.specified hd.specified h
  have hscan : c.scanlist = d.scanlist := by rw [hc.scanlist, hd.scanlist]
  obtain ⟨flags, width, precision, length, specifier, scanlist⟩ := c
  simp only at hflags hw hp hl hs hscan
  subst hflags hw hp hl hs hscan
  exact ⟨rfl, hrest⟩

end

end Printf

namespace Scanf

variable {c d : Conversion} {r s : Bytes}

theorem specified (hc : Scanf c) : c.specifier ∈ '['.toUInt8 :: specifiers := by
  obtain ⟨hs, -⟩ | ⟨hs, -⟩ := hc.specifier
  · exact List.mem_cons_of_mem _ hs
  · exact hs ▸ List.mem_cons_self

theorem letters (hc : Scanf c) : ∀ b ∈ (c.length ++ c.specifier :: r).head?, b ∈ letterBytes :=
  letters_head hc.length hc.specified

theorem behind_flags (hc : Scanf c) :
    ∀ b ∈ (c.width ++ (c.length ++ c.specifier :: r)).head?, b ≠ '*'.toUInt8 := by
  have hdigit : ∀ b ∈ digitBytes, b ≠ '*'.toUInt8 := all_bytes (by decide)
  have hletter : ∀ b ∈ letterBytes, b ≠ '*'.toUInt8 := all_bytes (by decide)
  exact head_append (fun b hb => hdigit b (hc.width b (List.mem_of_mem_head? hb)))
    (fun b hb => hletter b (hc.letters b hb))

theorem flags_bytes (hc : Scanf c) : ∀ b ∈ c.flags, b = '*'.toUInt8 := by
  obtain h | h := hc.flags <;> simp [h, bytes]

end Scanf

theorem closing_unique {x y r s : Bytes} (hx : ']'.toUInt8 ∉ x) (hy : ']'.toUInt8 ∉ y)
    (h : x ++ ']'.toUInt8 :: r = y ++ ']'.toUInt8 :: s) : x = y ∧ r = s := by
  obtain ⟨hxy, hrest⟩ := run_unique (p := (· ≠ ']'.toUInt8))
    (fun b hb h => hx (h ▸ hb)) (fun b hb h => hy (h ▸ hb)) (by simp) (by simp) h
  exact ⟨hxy, by simpa using hrest⟩

theorem Scanlist.unique {x y r s : Bytes} (hx : Scanlist x) (hy : Scanlist y)
    (h : x ++ r = y ++ s) : x = y ∧ r = s := by
  obtain ⟨a, u, hu, ⟨ha, rfl⟩ | rfl⟩ := hx <;> obtain ⟨b, v, hv, ⟨hb, rfl⟩ | rfl⟩ := hy <;>
    simp only [List.cons_append, List.append_assoc, List.nil_append, List.cons.injEq] at h
  · obtain ⟨rfl, h⟩ := h
    obtain ⟨rfl, rfl⟩ := closing_unique hu hv h
    exact ⟨rfl, rfl⟩
  · exact absurd h.1 ha
  · exact absurd h.1.symm hb
  · obtain ⟨-, rfl, h⟩ := h
    obtain ⟨rfl, rfl⟩ := closing_unique hu hv h
    exact ⟨rfl, rfl⟩

/-- One conversion of `scanf` stands in front of a text at most. -/
theorem Scanf.unique {c d : Conversion} {r s : Bytes} (hc : Scanf c) (hd : Scanf d)
    (h : c.spelled ++ r = d.spelled ++ s) : c = d ∧ r = s := by
  have hletter : ∀ b ∈ letterBytes, b ∉ digitBytes := all_bytes (by decide)
  have hopen : '['.toUInt8 ∉ specifiers := by decide
  simp only [Conversion.spelled, List.cons_append, List.append_assoc, hc.precision, hd.precision,
    List.nil_append, List.cons.injEq, true_and] at h
  obtain ⟨hflags, h⟩ := run_unique hc.flags_bytes hd.flags_bytes hc.behind_flags hd.behind_flags h
  obtain ⟨hw, h⟩ := run_unique hc.width hd.width
    (fun b hb => hletter b (hc.letters b hb)) (fun b hb => hletter b (hd.letters b hb)) h
  obtain ⟨hl, hs, h⟩ := letters_unique hc.length hd.length hc.specified hd.specified h
  have hscan : c.scanlist = d.scanlist ∧ r = s := by
    obtain ⟨hcs, hcl⟩ | ⟨hcs, hcl⟩ := hc.specifier <;>
      obtain ⟨hds, hdl⟩ | ⟨hds, hdl⟩ := hd.specifier
    · rw [hcl, hdl] at h
      exact ⟨by rw [hcl, hdl], h⟩
    · exact absurd (hds ▸ hs ▸ hcs) hopen
    · exact absurd (hcs ▸ hs ▸ hds) hopen
    · exact hcl.unique hdl h
  have hp : c.precision = d.precision := by rw [hc.precision, hd.precision]
  obtain ⟨flags, width, precision, length, specifier, scanlist⟩ := c
  simp only at hflags hw hp hl hs hscan
  obtain ⟨hscan, rfl⟩ := hscan
  subst hflags hw hp hl hs hscan
  exact ⟨rfl, rfl⟩

/-! ### The reading -/

/-- One conversion of the dialect stands in front of a text at most, and none where `%%` does. -/
structure Determined (dialect : Conversion → Prop) : Prop where
  unique : ∀ {c d r s}, dialect c → dialect d → c.spelled ++ r = d.spelled ++ s → c = d ∧ r = s
  other : ∀ {c r s}, dialect c → c.spelled ++ r ≠ bytes ['%', '%'] ++ s

theorem spelled_ne_percent {c : Conversion} {r s : Bytes}
    (hflags : ∀ b ∈ c.flags, b ≠ '%'.toUInt8)
    (hbehind : ∀ b ∈ (c.width ++ (c.precision ++ (c.length ++ c.specifier :: c.scanlist))).head?,
      b ≠ '%'.toUInt8) :
    c.spelled ++ r ≠ bytes ['%', '%'] ++ s := by
  intro h
  have hhead := head_append (fun b hb => hflags b (List.mem_of_mem_head? hb)) hbehind
  simp only [Conversion.spelled, bytes, List.map_cons, List.map_nil, List.cons_append,
    List.cons.injEq, true_and, List.nil_append] at h
  cases hparts : c.flags ++ (c.width ++ (c.precision ++ (c.length ++ c.specifier :: c.scanlist)))
    with
  | nil => simp at hparts
  | cons b rest =>
    rw [hparts, List.cons_append, List.cons.injEq] at h
    exact hhead b (by simp [hparts]) h.1

theorem determined_printf : Determined Printf where
  unique := Printf.unique
  other {c} _ _ hc := by
    have hflag : ∀ b ∈ flagBytes, b ≠ '%'.toUInt8 := all_bytes (by decide)
    have hwidth : ∀ b ∈ '*'.toUInt8 :: digitBytes, b ≠ '%'.toUInt8 := all_bytes (by decide)
    have hletter : ∀ b ∈ '.'.toUInt8 :: letterBytes, b ≠ '%'.toUInt8 := all_bytes (by decide)
    exact spelled_ne_percent (fun b hb => hflag b (hc.flags b hb))
      (head_append (fun b hb => hwidth b (hc.width_bytes b (List.mem_of_mem_head? hb)))
        (fun b hb => hletter b (hc.behind_width b hb)))

theorem determined_scanf : Determined Scanf where
  unique := Scanf.unique
  other {c} _ _ hc := by
    have hdigit : ∀ b ∈ digitBytes, b ≠ '%'.toUInt8 := all_bytes (by decide)
    have hletter : ∀ b ∈ letterBytes, b ≠ '%'.toUInt8 := all_bytes (by decide)
    refine spelled_ne_percent (fun b hb => ?_)
      (head_append (fun b hb => hdigit b (hc.width b (List.mem_of_mem_head? hb))) ?_)
    · rw [hc.flags_bytes b hb]
      decide
    · rw [hc.precision]
      exact fun b hb => hletter b (hc.letters b hb)

variable {dialect : Conversion → Prop}

theorem Directive.unique (hdialect : Determined dialect) {d e : Directive} {r s : Bytes}
    (hd : d.Formed dialect) (he : e.Formed dialect) (h : d.spelled ++ r = e.spelled ++ s) :
    d = e ∧ r = s := by
  cases d with
  | ordinary a =>
    cases e with
    | ordinary b => simpa [Directive.spelled] using h
    | percent => exact absurd (List.cons.inj h).1 hd
    | conversion c => exact absurd (List.cons.inj h).1 hd
  | percent =>
    cases e with
    | ordinary b => exact absurd (List.cons.inj h).1.symm he
    | percent => exact ⟨rfl, List.append_cancel_left h⟩
    | conversion c => exact absurd h.symm (hdialect.other he)
  | conversion c =>
    cases e with
    | ordinary b => exact absurd (List.cons.inj h).1.symm he
    | percent => exact absurd h (hdialect.other hd)
    | conversion c' =>
      obtain ⟨rfl, hrest⟩ := hdialect.unique hd he h
      exact ⟨rfl, hrest⟩

theorem Directive.spelled_ne_nil (d : Directive) : d.spelled ≠ [] := by
  cases d <;> simp [Directive.spelled, bytes, Conversion.spelled]

theorem spelled_split (hdialect : Determined dialect) {before : List Directive} :
    ∀ {directives : List Directive} {rest : Bytes}, (∀ d ∈ directives, d.Formed dialect) →
      (∀ d ∈ before, d.Formed dialect) → spelled directives = spelled before ++ rest →
      ∃ after, directives = before ++ after ∧ spelled after = rest := by
  induction before with
  | nil => exact fun _ _ h => ⟨_, rfl, h⟩
  | cons d before ih =>
    intro directives rest hdirectives hbefore h
    cases directives with
    | nil => simp [d.spelled_ne_nil] at h
    | cons e directives =>
      rw [spelled_cons, spelled_cons, List.append_assoc] at h
      obtain ⟨rfl, hbehind⟩ := Directive.unique hdialect (hdirectives e (by simp))
        (hbefore d (by simp)) h
      obtain ⟨after, rfl, hafter⟩ := ih (fun d hd => hdirectives d (by simp [hd]))
        (fun d hd => hbefore d (by simp [hd])) hbehind
      exact ⟨after, rfl, hafter⟩

theorem Reads.unique (hdialect : Determined dialect) {xs ys : List Directive} {text : Bytes}
    (hx : Reads dialect xs text) (hy : Reads dialect ys text) : xs = ys := by
  have hspells : spelled xs = spelled ys ++ [] := by
    rw [hx.spells, hy.spells, List.append_nil]
  obtain ⟨after, rfl, hafter⟩ := spelled_split hdialect hx.formed hy.formed hspells
  cases after with
  | nil => simp
  | cons d after => simp [d.spelled_ne_nil] at hafter

end Lhat.Conversions
