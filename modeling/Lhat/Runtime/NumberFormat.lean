import Lhat.Foundation.Conversions
import Lhat.Json.Utf8
import Mathlib.Data.List.TakeWhile

/-!
# The formats a number is written and read through

`read_format` and `read_scan_format` rebuild a format for `snprintf` and for `sscanf`. Both carry
over what stands between the per cent sign and the specifier, byte by byte, and supply the length
modifier. What they carry over is a conversion only in the order of the grammar.
-/

namespace Lhat.NumberFormat

open Lhat.Conversions

/-- Which reading of a number a conversion asks for. `FORMAT_BAD` is `none`. -/
inductive FormatFamily where
  | integer
  | real
deriving DecidableEq

def integerSpecifiers : Bytes := bytes ['d', 'i', 'o', 'u', 'x', 'X']

def realSpecifiers : Bytes := bytes ['f', 'F', 'e', 'E', 'g', 'G', 'a', 'A']

def specifierFamily (spec : UInt8) : Option FormatFamily :=
  if spec ∈ integerSpecifiers then some .integer
  else if spec ∈ realSpecifiers then some .real
  else none

/-- What differs between the two readers: the bytes carried over in front of the specifier and the
length modifier of a real. -/
structure Filter where
  carried : UInt8 → Bool
  realModifier : Bytes
  zero : ¬ carried 0
  percent : ¬ carried '%'.toUInt8
  letters : ∀ b ∈ letterBytes, ¬ carried b
  lengthens : realModifier ∈ lengthModifiers

variable {family : FormatFamily} {spec : UInt8} {room : Nat} {out rest text run : Bytes}
  {filter : Filter} {directives : List Directive} {c : Conversion} {found : FormatFamily × UInt8}

def Filter.modifier (filter : Filter) : FormatFamily → Bytes
  | .integer => bytes ['l', 'l']
  | .real => filter.realModifier

/-- The buffer keeps a byte for the end of the text. -/
def put (room : Nat) (rebuilt written : Bytes) : Option Bytes :=
  if written = [] then some rebuilt
  else if rebuilt.length + written.length ≥ room then none
  else some (rebuilt ++ written)

def readCarried (carried : UInt8 → Bool) (room : Nat) : Bytes → Bytes → Option (Bytes × Bytes)
  | [], rebuilt => some (rebuilt, [])
  | f :: rest, rebuilt =>
    if carried f then
      match put room rebuilt [f] with
      | none => none
      | some rebuilt => readCarried carried room rest rebuilt
    else some (rebuilt, f :: rest)

/-- A conversion behind its per cent sign: its family and specifier, what is rebuilt, and what is
left to read. -/
def readConversion (filter : Filter) (room : Nat) (text rebuilt : Bytes) :
    Option ((FormatFamily × UInt8) × Bytes × Bytes) := do
  let rebuilt ← put room rebuilt ['%'.toUInt8]
  let (rebuilt, rest) ← readCarried filter.carried room text rebuilt
  match rest with
  | [] => none
  | spec :: rest =>
    let family ← specifierFamily spec
    let rebuilt ← put room rebuilt (filter.modifier family)
    let rebuilt ← put room rebuilt [spec]
    some ((family, spec), rebuilt, rest)

theorem put_eq {rebuilt written : Bytes} (h : put room rebuilt written = some out) :
    out = rebuilt ++ written := by
  unfold put at h
  split_ifs at h with hempty
  · obtain rfl := Option.some.inj h
    simp [hempty]
  · exact (Option.some.inj h).symm

theorem readCarried_eq {carried : UInt8 → Bool} :
    ∀ {text rebuilt out rest : Bytes}, readCarried carried room text rebuilt = some (out, rest) →
      ∃ run, (∀ b ∈ run, carried b) ∧ text = run ++ rest ∧ out = rebuilt ++ run ∧
        ∀ b ∈ rest.head?, ¬ carried b := by
  intro text
  induction text with
  | nil =>
    intro rebuilt out rest h
    obtain ⟨rfl, rfl⟩ := Prod.mk.inj (Option.some.inj h)
    exact ⟨[], by simp⟩
  | cons f text ih =>
    intro rebuilt out rest h
    unfold readCarried at h
    split_ifs at h with hf
    · cases hput : put room rebuilt [f] with
      | none => simp [hput] at h
      | some next =>
        rw [hput] at h
        obtain ⟨run, hrun, rfl, rfl, hrest⟩ := ih h
        refine ⟨f :: run, ?_, rfl, by simp [put_eq hput], hrest⟩
        simpa [hf] using hrun
    · obtain ⟨rfl, rfl⟩ := Prod.mk.inj (Option.some.inj h)
      exact ⟨[], by simp, rfl, by simp, by simpa using hf⟩

theorem readConversion_eq {rebuilt : Bytes}
    (h : readConversion filter room text rebuilt = some (found, out, rest)) :
    ∃ run, (∀ b ∈ run, filter.carried b) ∧ ¬ filter.carried found.2 ∧
      specifierFamily found.2 = some found.1 ∧ text = run ++ found.2 :: rest ∧
      out = rebuilt ++ '%'.toUInt8 :: (run ++ (filter.modifier found.1 ++ [found.2])) := by
  unfold readConversion at h
  obtain ⟨opened, hopened, h⟩ := Option.bind_eq_some_iff.mp h
  obtain ⟨⟨carried, behind⟩, hcarried, h⟩ := Option.bind_eq_some_iff.mp h
  obtain ⟨run, hrun, rfl, rfl, hbehind⟩ := readCarried_eq hcarried
  cases behind with
  | nil => exact absurd h (by simp)
  | cons b behind =>
    obtain ⟨family, hfamily, h⟩ := Option.bind_eq_some_iff.mp h
    obtain ⟨lengthened, hlengthened, h⟩ := Option.bind_eq_some_iff.mp h
    obtain ⟨finished, hfinished, h⟩ := Option.bind_eq_some_iff.mp h
    simp only [Option.some.injEq, Prod.mk.injEq] at h
    obtain ⟨rfl, rfl, rfl⟩ := h
    refine ⟨run, hrun, by simpa using hbehind, hfamily, rfl, ?_⟩
    rw [put_eq hfinished, put_eq hlengthened, put_eq hopened]
    simp

theorem readConversion_shorter {rebuilt : Bytes}
    (h : readConversion filter room text rebuilt = some (found, out, rest)) :
    rest.length < text.length := by
  obtain ⟨run, -, -, -, rfl, -⟩ := readConversion_eq h
  simp only [List.length_append, List.length_cons]
  omega

/-- The loop of both readers: what is left of the format, the conversion that was found, and what is
rebuilt. -/
def readText (filter : Filter) (room : Nat) (text : Bytes) (found : Option (FormatFamily × UInt8))
    (rebuilt : Bytes) : Option (FormatFamily × UInt8 × Bytes) :=
  match text with
  | [] => found.map fun (family, spec) => (family, spec, rebuilt)
  | c :: rest =>
    if c = 0 then none
    else if c ≠ '%'.toUInt8 then
      (put room rebuilt [c]).bind fun rebuilt => readText filter room rest found rebuilt
    else if rest.head? = some '%'.toUInt8 then
      (put room rebuilt (bytes ['%', '%'])).bind fun rebuilt =>
        readText filter room rest.tail found rebuilt
    else if found.isSome then none
    else
      match hread : readConversion filter room rest rebuilt with
      | none => none
      | some (found, rebuilt, behind) => readText filter room behind (some found) rebuilt
termination_by text.length
decreasing_by
  · simp
  · simp only [List.length_tail, List.length_cons]
    omega
  · have := readConversion_shorter hread
    simp only [List.length_cons]
    omega

def isDigit (f : UInt8) : Bool := '0'.toUInt8 ≤ f && f ≤ '9'.toUInt8

/-- Flags, width and precision. -/
def isCarried (f : UInt8) : Bool :=
  isDigit f || f == '-'.toUInt8 || f == '+'.toUInt8 || f == ' '.toUInt8 || f == '#'.toUInt8 ||
    f == '.'.toUInt8

def printFilter : Filter where
  carried := isCarried
  realModifier := []
  zero := by decide
  percent := by decide
  letters := all_bytes (by decide)
  lengthens := by decide

def scanFilter : Filter where
  carried := isDigit
  realModifier := bytes ['l']
  zero := by decide
  percent := by decide
  letters := all_bytes (by decide)
  lengthens := by decide

/-- `read_format`. -/
def readFormat (format : Bytes) (room : Nat) : Option (FormatFamily × Bytes) :=
  (readText printFilter room format none []).map fun (family, _, rebuilt) => (family, rebuilt)

/-- `read_scan_format`, with the conversion it found. -/
def readScanFormat (format : Bytes) (room : Nat) : Option (FormatFamily × Bytes × UInt8) :=
  (readText scanFilter room format none []).bind fun (family, conversion, rebuilt) =>
    if rebuilt.length + 3 ≥ room then none
    else some (family, rebuilt ++ bytes ['%', 'n'], conversion)

/-! ### What the loop reads -/

def Plain (directives : List Directive) : Prop :=
  ∀ d ∈ directives, d = .percent ∨ ∃ b, b ≠ 0 ∧ b ≠ '%'.toUInt8 ∧ d = .ordinary b

theorem Plain.cons {d : Directive}
    (hd : d = .percent ∨ ∃ b, b ≠ 0 ∧ b ≠ '%'.toUInt8 ∧ d = .ordinary b)
    (hdirectives : Plain directives) : Plain (d :: directives) := by
  intro e he
  obtain rfl | he := List.mem_cons.mp he
  · exact hd
  · exact hdirectives e he

theorem Plain.formed {dialect : Conversion → Prop}
    (h : Plain directives) : ∀ d ∈ directives, d.Formed dialect := by
  intro d hd
  obtain rfl | ⟨b, -, hb, rfl⟩ := h d hd
  · trivial
  · exact hb

theorem Plain.conversions (h : Plain directives) : conversions directives = [] := by
  refine List.filterMap_eq_nil_iff.mpr fun d hd => ?_
  obtain rfl | ⟨b, -, -, rfl⟩ := h d hd <;> rfl

theorem Plain.ended (h : Plain directives) : (0 : UInt8) ∉ spelled directives := by
  intro hzero
  obtain ⟨d, hd, hzero⟩ := List.mem_flatMap.mp hzero
  obtain rfl | ⟨b, hb, -, rfl⟩ := h d hd
  · revert hzero
    decide
  · exact hb (List.mem_singleton.mp hzero).symm

theorem doubled {c : UInt8} (hc : ¬ c ≠ '%'.toUInt8)
    (hhead : rest.head? = some '%'.toUInt8) : c :: rest = bytes ['%', '%'] ++ rest.tail := by
  obtain ⟨behind, rfl⟩ := List.head?_eq_some_iff.mp hhead
  rw [not_not.mp hc]
  rfl

theorem readText_found {rebuilt : Bytes}
    (h : readText filter room text (some found) rebuilt = some (family, spec, out)) :
    ∃ after, Plain after ∧ text = spelled after ∧ found = (family, spec) ∧
      out = rebuilt ++ text := by
  generalize hstate : some found = state at h
  fun_induction readText filter room text state rebuilt with
  | case1 rebuilt state =>
    subst hstate
    simp only [Option.map_some, Option.some.injEq, Prod.mk.injEq] at h
    obtain ⟨rfl, rfl, rfl⟩ := h
    exact ⟨[], by simp [Plain], rfl, rfl, by simp⟩
  | case2 => exact absurd h (by simp)
  | case3 state rebuilt c rest hzero hpercent ih =>
    obtain ⟨next, hput, h⟩ := Option.bind_eq_some_iff.mp h
    obtain ⟨after, hafter, rfl, hfound, rfl⟩ := ih next hstate h
    refine ⟨.ordinary c :: after, hafter.cons (.inr ⟨c, hzero, hpercent, rfl⟩), rfl, hfound, ?_⟩
    rw [put_eq hput]
    simp
  | case4 state rebuilt c rest hzero hpercent hhead ih =>
    obtain ⟨next, hput, h⟩ := Option.bind_eq_some_iff.mp h
    obtain ⟨after, hafter, htail, hfound, hout⟩ := ih next hstate h
    refine ⟨.percent :: after, hafter.cons (.inl rfl), ?_, hfound, ?_⟩
    · rw [doubled hpercent hhead, htail]
      rfl
    · rw [hout, put_eq hput, doubled hpercent hhead]
      simp
  | case5 => exact absurd h (by simp)
  | case6 state rebuilt c rest hzero hpercent hhead hfound =>
    exact absurd (show state.isSome = true by rw [← hstate]; rfl) hfound
  | case7 state rebuilt c rest hzero hpercent hhead hfound =>
    exact absurd (show state.isSome = true by rw [← hstate]; rfl) hfound

/-- An accepted format: what stands plainly before and behind its one conversion, and the bytes
carried over in it. -/
structure Accepted (filter : Filter) (family : FormatFamily) (spec : UInt8) where
  before : List Directive
  run : Bytes
  after : List Directive
  plain_before : Plain before
  plain_after : Plain after
  carried : ∀ b ∈ run, filter.carried b
  stops : ¬ filter.carried spec
  takes : specifierFamily spec = some family

namespace Accepted

variable {filter : Filter} {family : FormatFamily} {spec : UInt8}

def format (accepted : Accepted filter family spec) : Bytes :=
  spelled accepted.before ++
    '%'.toUInt8 :: (accepted.run ++ spec :: spelled accepted.after)

def rebuilt (accepted : Accepted filter family spec) : Bytes :=
  spelled accepted.before ++
    '%'.toUInt8 :: (accepted.run ++ (filter.modifier family ++ spec :: spelled accepted.after))

def behind (accepted : Accepted filter family spec) (d : Directive)
    (hd : d = .percent ∨ ∃ b, b ≠ 0 ∧ b ≠ '%'.toUInt8 ∧ d = .ordinary b) :
    Accepted filter family spec :=
  { accepted with
    before := d :: accepted.before
    plain_before := accepted.plain_before.cons hd }

end Accepted

theorem readText_eq {rebuilt : Bytes}
    (h : readText filter room text none rebuilt = some (family, spec, out)) :
    ∃ accepted : Accepted filter family spec,
      text = accepted.format ∧ out = rebuilt ++ accepted.rebuilt := by
  generalize hstate : none = state at h
  fun_induction readText filter room text state rebuilt with
  | case1 =>
    subst hstate
    exact absurd h (by simp)
  | case2 => exact absurd h (by simp)
  | case3 state rebuilt c rest hzero hpercent ih =>
    obtain ⟨next, hput, h⟩ := Option.bind_eq_some_iff.mp h
    obtain ⟨accepted, rfl, rfl⟩ := ih next hstate h
    refine ⟨accepted.behind (.ordinary c) (.inr ⟨c, hzero, hpercent, rfl⟩), rfl, ?_⟩
    rw [put_eq hput, List.append_assoc]
    rfl
  | case4 state rebuilt c rest hzero hpercent hhead ih =>
    obtain ⟨next, hput, h⟩ := Option.bind_eq_some_iff.mp h
    obtain ⟨accepted, htail, rfl⟩ := ih next hstate h
    refine ⟨accepted.behind .percent (.inl rfl), ?_, ?_⟩
    · rw [doubled hpercent hhead, htail]
      rfl
    · rw [put_eq hput, List.append_assoc]
      rfl
  | case5 => exact absurd h (by simp)
  | case6 => exact absurd h (by simp)
  | case7 state rebuilt c rest hzero hpercent hhead _ found next behind hread ih =>
    obtain ⟨run, hrun, hspec, hfamily, rfl, rfl⟩ :=
      readConversion_eq hread
    obtain ⟨after, hafter, rfl, rfl, rfl⟩ := readText_found h
    obtain rfl : c = '%'.toUInt8 := not_not.mp hpercent
    refine ⟨⟨[], run, after, by simp [Plain], hafter, hrun, hspec, hfamily⟩, rfl, ?_⟩
    simp [Accepted.rebuilt]

/-! ### The carried bytes -/

/-- The bytes of a format that a reader carries over: those behind its first lone per cent sign. -/
def carriedRun (carried : UInt8 → Bool) : Bytes → Bytes
  | [] => []
  | c :: rest =>
    if c ≠ '%'.toUInt8 then carriedRun carried rest
    else
      match rest with
      | [] => []
      | d :: rest =>
        if d = '%'.toUInt8 then carriedRun carried rest else (d :: rest).takeWhile carried

/-- Flags, then digits, then a period with digits behind it or none. -/
def ordered (run : Bytes) : Bool :=
  match (run.dropWhile (· ∈ flagBytes)).dropWhile (· ∈ digitBytes) with
  | [] => true
  | b :: digits => b = '.'.toUInt8 && digits.all (· ∈ digitBytes)

/-- A width that is given is greater than zero. -/
def positive (run : Bytes) : Bool := run.isEmpty || run.any (· ≠ '0'.toUInt8)

theorem carriedRun_ordinary {carried : UInt8 → Bool} {b : UInt8}
    (hb : b ≠ '%'.toUInt8) : carriedRun carried (b :: rest) = carriedRun carried rest := by
  cases rest <;> simp [carriedRun, hb]

theorem carriedRun_eq {carried : UInt8 → Bool} {before : List Directive} (hbefore : Plain before) (hrun : ∀ b ∈ run, carried b)
    (hspec : ¬ carried spec) (hother : spec ≠ '%'.toUInt8) (hpercent : ¬ carried '%'.toUInt8) :
    carriedRun carried (spelled before ++ '%'.toUInt8 :: (run ++ spec :: rest)) = run := by
  induction before with
  | nil =>
    have htake : (run ++ spec :: rest).takeWhile carried = run := by
      rw [List.takeWhile_append_of_pos hrun, List.takeWhile_cons_of_neg hspec, List.append_nil]
    cases run with
    | nil => simp [carriedRun, hother, hspec]
    | cons b run =>
      have hb : b ≠ '%'.toUInt8 := fun hb => hpercent (hb ▸ hrun b (by simp))
      simpa [carriedRun, hb] using htake
  | cons d before ih =>
    have htail : Plain before := fun e he => hbefore e (List.mem_cons_of_mem _ he)
    obtain rfl | ⟨b, -, hb, rfl⟩ := hbefore d (by simp)
    · simpa [carriedRun, Directive.spelled, bytes] using ih htail
    · exact (carriedRun_ordinary hb).trans (ih htail)

theorem isDigit_iff (b : UInt8) : isDigit b = true ↔ b ∈ digitBytes := by
  have hdigit : isDigit b = (48 ≤ b && b ≤ 57) := rfl
  have hdigits : digitBytes = [48, 49, 50, 51, 52, 53, 54, 55, 56, 57] := by decide
  simp only [hdigit, hdigits, Bool.and_eq_true, decide_eq_true_eq, UInt8.le_iff_toNat_le,
    List.mem_cons, List.not_mem_nil, or_false, ← UInt8.toNat_inj, UInt8.reduceToNat]
  omega

theorem isCarried_iff (b : UInt8) :
    isCarried b = true ↔ b ∈ flagBytes ∨ b ∈ digitBytes ∨ b = '.'.toUInt8 := by
  have hzero : '0'.toUInt8 ∈ digitBytes := by decide
  simp only [isCarried, Bool.or_eq_true, isDigit_iff, beq_iff_eq, flagBytes, bytes, List.map_cons,
    List.map_nil, List.mem_cons, List.not_mem_nil, or_false]
  grind

/-- The parts of a conversion without an asterisk, in their order. -/
structure Parts (flags width precision : Bytes) : Prop where
  flagged : ∀ b ∈ flags, b ∈ flagBytes
  digits : ∀ b ∈ width, b ∈ digitBytes
  unflagged : width.head? ≠ some '0'.toUInt8
  fraction : precision = [] ∨
    ∃ digits, precision = '.'.toUInt8 :: digits ∧ ∀ b ∈ digits, b ∈ digitBytes

theorem Parts.ordered {flags width precision : Bytes} (h : Parts flags width precision) :
    ordered (flags ++ (width ++ precision)) = true := by
  have hdigit : ∀ b ∈ digitBytes, b = '0'.toUInt8 ∨ b ∉ flagBytes := all_bytes (by decide)
  have hperiod : '.'.toUInt8 ∉ flagBytes ∧ '.'.toUInt8 ∉ digitBytes := by decide
  have hwidth : (width ++ precision).dropWhile (· ∈ flagBytes) = width ++ precision := by
    cases width with
    | nil =>
      obtain hp | ⟨digits, hp, -⟩ := h.fraction <;> simp [hp, hperiod.1]
    | cons b width =>
      have hb : b ∉ flagBytes := by
        refine (hdigit b (h.digits b (by simp))).resolve_left fun hzero => h.unflagged ?_
        rw [hzero]
        rfl
      simp [hb]
  unfold NumberFormat.ordered
  rw [List.dropWhile_append_of_pos (by simpa using h.flagged), hwidth,
    List.dropWhile_append_of_pos (by simpa using h.digits)]
  obtain hp | ⟨digits, hp, hdigits⟩ := h.fraction
  · rw [hp]
    rfl
  · rw [hp, List.dropWhile_cons_of_neg (by simpa using hperiod.2)]
    simpa using hdigits

theorem ordered_parts (h : ordered run = true) :
    ∃ flags width precision, run = flags ++ (width ++ precision) ∧ Parts flags width precision := by
  set behind := run.dropWhile (· ∈ flagBytes) with hbehind
  refine ⟨run.takeWhile (· ∈ flagBytes), behind.takeWhile (· ∈ digitBytes),
    behind.dropWhile (· ∈ digitBytes), ?_, ?_, ?_, ?_, ?_⟩
  · rw [List.takeWhile_append_dropWhile, hbehind, List.takeWhile_append_dropWhile]
  · exact fun b hb => by simpa using List.mem_takeWhile_imp hb
  · exact fun b hb => by simpa using List.mem_takeWhile_imp hb
  · intro hzero
    have hhead : behind.head? = some '0'.toUInt8 := by
      cases hb : behind with
      | nil => simp [hb] at hzero
      | cons b rest =>
        rw [hb, List.takeWhile_cons] at hzero
        split_ifs at hzero with hdigit
        · exact hzero
        · simp at hzero
    have hflag := List.head?_dropWhile_not (fun b => decide (b ∈ flagBytes)) run
    rw [← hbehind, hhead] at hflag
    revert hflag
    decide
  · unfold ordered at h
    rw [← hbehind] at h
    cases hp : behind.dropWhile (· ∈ digitBytes) with
    | nil => exact .inl rfl
    | cons b digits =>
      rw [hp] at h
      simp only [Bool.and_eq_true, decide_eq_true_eq, List.all_eq_true] at h
      exact .inr ⟨digits, by rw [h.1], h.2⟩

/-! ### What the rebuilt format says to C -/

/-- The conversion takes one number of the family and nothing besides. -/
structure Numeric (realModifier : Bytes) (family : FormatFamily) (c : Conversion) : Prop where
  unstarred : ¬ c.Starred
  taken : family = .integer ∧ c.specifier ∈ integerSpecifiers ∧ c.length = bytes ['l', 'l'] ∨
    family = .real ∧ c.specifier ∈ realSpecifiers ∧ c.length = realModifier

/-- The text is a format of `printf` that takes one number: it can be read, and a reading has one
conversion. What else it has is ordinary or `%%`. -/
def SafePrintf (family : FormatFamily) (text : Bytes) : Prop :=
  (∃ directives, Reads Printf directives text) ∧
    ∀ directives, Reads Printf directives text →
      ∃ c, conversions directives = [c] ∧ Numeric [] family c

/-- The conversion `%n`. -/
def count : Conversion where
  specifier := 'n'.toUInt8

/-- The text is a format of `scanf` that stores one number and, at its end, the count of what was
read. -/
def SafeScanf (family : FormatFamily) (text : Bytes) : Prop :=
  (∃ directives, Reads Scanf directives text) ∧
    ∀ directives, Reads Scanf directives text →
      ∃ before c, directives = before ++ [.conversion count] ∧ conversions before = [c] ∧
        Numeric (bytes ['l']) family c

theorem specifierFamily_eq (h : specifierFamily spec = some family) :
    family = .integer ∧ spec ∈ integerSpecifiers ∨ family = .real ∧ spec ∈ realSpecifiers := by
  unfold specifierFamily at h
  split_ifs at h with hinteger hreal
  · exact .inl ⟨(Option.some.inj h).symm, hinteger⟩
  · exact .inr ⟨(Option.some.inj h).symm, hreal⟩

theorem mem_specifiers (h : specifierFamily spec = some family) : spec ∈ specifiers := by
  have hall : ∀ b ∈ integerSpecifiers ++ realSpecifiers, b ∈ specifiers := all_bytes (by decide)
  refine hall spec (List.mem_append.mpr ?_)
  obtain ⟨-, h⟩ | ⟨-, h⟩ := specifierFamily_eq h
  · exact .inl h
  · exact .inr h

theorem parts_of_spelled {r s : Bytes} (hrun : ∀ b ∈ run, filter.carried b)
    (hparts : ∀ b ∈ c.flags ++ (c.width ++ c.precision), filter.carried b)
    (hc : ∀ b ∈ (c.length ++ c.specifier :: (c.scanlist ++ r)).head?, b ∈ letterBytes)
    (hs : ∀ b ∈ s.head?, b ∈ letterBytes) (h : c.spelled ++ r = '%'.toUInt8 :: (run ++ s)) :
    run = c.flags ++ (c.width ++ c.precision) := by
  simp only [Conversion.spelled, List.cons_append, List.cons.injEq, true_and] at h
  refine (run_unique (p := fun b => filter.carried b = true) hrun hparts
    (fun b hb => filter.letters b (hs b hb)) (fun b hb => filter.letters b (hc b hb)) ?_).1
  rw [← h]
  simp

theorem zero_notMem_modifier {modifier : Bytes} (h : modifier ∈ lengthModifiers) :
    (0 : UInt8) ∉ modifier := by
  have hzero : (0 : UInt8) ∉ lengthBytes := by decide
  exact fun h0 => hzero (mem_lengthBytes h 0 h0)

namespace Accepted

variable {filter : Filter} {family : FormatFamily} {spec : UInt8}
  (accepted : Accepted filter family spec)

include accepted in
theorem spec_ne {b : UInt8} (hb : b ∉ specifiers) : spec ≠ b :=
  fun h => hb (h ▸ mem_specifiers accepted.takes)

theorem carriedRun_format : carriedRun filter.carried accepted.format = accepted.run :=
  carriedRun_eq accepted.plain_before accepted.carried accepted.stops
    (accepted.spec_ne (by decide)) filter.percent

theorem modifier_mem : filter.modifier family ∈ lengthModifiers := by
  cases family
  · exact (by decide : bytes ['l', 'l'] ∈ lengthModifiers)
  · exact filter.lengthens

include accepted in
theorem letters_head (rest : Bytes) :
    ∀ b ∈ (filter.modifier family ++ spec :: rest).head?, b ∈ letterBytes :=
  Conversions.letters_head modifier_mem (List.mem_cons_of_mem _ (mem_specifiers accepted.takes))

theorem run_head (rest : Bytes) :
    ∀ b ∈ (accepted.run ++ (filter.modifier family ++ spec :: rest)).head?, b ≠ '%'.toUInt8 := by
  have hpercent : '%'.toUInt8 ∉ letterBytes := by decide
  refine head_append (fun b hb h => ?_) (fun b hb h => hpercent
    (h ▸ accepted.letters_head rest b hb))
  exact filter.percent (h ▸ accepted.carried b (List.mem_of_mem_head? hb))

theorem ended : (0 : UInt8) ∉ accepted.rebuilt := by
  have hpercent : (0 : UInt8) ≠ '%'.toUInt8 := by decide
  simp only [rebuilt, List.mem_append, List.mem_cons, not_or]
  exact ⟨accepted.plain_before.ended, hpercent, fun h => filter.zero (accepted.carried 0 h),
    zero_notMem_modifier modifier_mem, (accepted.spec_ne (by decide)).symm,
    accepted.plain_after.ended⟩

variable {dialect : Conversion → Prop} (trailing : List Directive)

theorem reads (hc : dialect c)
    (hspelled : c.spelled = '%'.toUInt8 :: (accepted.run ++ (filter.modifier family ++ [spec])))
    (htrailing : ∀ d ∈ trailing, d.Formed dialect) (hended : (0 : UInt8) ∉ spelled trailing) :
    Reads dialect (accepted.before ++ .conversion c :: (accepted.after ++ trailing))
      (accepted.rebuilt ++ spelled trailing) := by
  refine ⟨fun d hd => ?_, ?_, ?_⟩
  · obtain hd | rfl | hd | hd := by simpa only [List.mem_append, List.mem_cons] using hd
    · exact accepted.plain_before.formed d hd
    · exact hc
    · exact accepted.plain_after.formed d hd
    · exact htrailing d hd
  · simp [rebuilt, Directive.spelled, hspelled]
  · rw [List.mem_append, not_or]
    exact ⟨accepted.ended, hended⟩

theorem conversion_of_reads (hdialect : Determined dialect)
    (hreads : Reads dialect directives (accepted.rebuilt ++ spelled trailing)) :
    ∃ c behind, directives = accepted.before ++ .conversion c :: behind ∧ dialect c ∧
      c.spelled ++ spelled behind = '%'.toUInt8 :: (accepted.run ++
        (filter.modifier family ++ spec :: spelled (accepted.after ++ trailing))) := by
  have hspells : spelled directives = spelled accepted.before ++ '%'.toUInt8 :: (accepted.run ++
      (filter.modifier family ++ spec :: spelled (accepted.after ++ trailing))) := by
    rw [hreads.spells]
    simp [rebuilt]
  obtain ⟨behind, rfl, hbehind⟩ :=
    spelled_split hdialect hreads.formed accepted.plain_before.formed hspells
  cases behind with
  | nil => simp at hbehind
  | cons d behind =>
    have hd : d.Formed dialect := hreads.formed d (by simp)
    cases d with
    | ordinary b => exact absurd (List.cons.inj hbehind).1 hd
    | percent =>
      exact absurd rfl (accepted.run_head _ '%'.toUInt8 (by rw [← (List.cons.inj hbehind).2]; rfl))
    | conversion c => exact ⟨c, behind, rfl, hd, hbehind⟩

include accepted in
theorem numeric (hstar : ¬ c.Starred) (hspec : c.specifier = spec)
    (hlength : c.length = filter.modifier family) : Numeric filter.realModifier family c := by
  refine ⟨hstar, ?_⟩
  obtain ⟨rfl, hmem⟩ | ⟨rfl, hmem⟩ := specifierFamily_eq accepted.takes
  · exact .inl ⟨rfl, hspec ▸ hmem, hlength⟩
  · exact .inr ⟨rfl, hspec ▸ hmem, hlength⟩

end Accepted

/-! ### The format for `snprintf` -/

theorem Parts.unstarred (h : Parts c.flags c.width c.precision) : ¬ c.Starred := by
  have hstar : '*'.toUInt8 ∉ flagBytes ∧ '*'.toUInt8 ∉ digitBytes ∧
      '*'.toUInt8 ≠ '.'.toUInt8 := by decide
  simp only [Conversion.Starred, List.mem_append, not_or]
  refine ⟨⟨fun hf => hstar.1 (h.flagged _ hf), fun hw => hstar.2.1 (h.digits _ hw)⟩, ?_⟩
  obtain hp | ⟨digits, hp, hdigits⟩ := h.fraction
  · simp [hp]
  · rw [hp, List.mem_cons, not_or]
    exact ⟨hstar.2.2, fun hd => hstar.2.1 (hdigits _ hd)⟩

theorem Parts.carried {flags width precision : Bytes} (h : Parts flags width precision) :
    ∀ b ∈ flags ++ (width ++ precision), isCarried b := by
  intro b hb
  rw [isCarried_iff]
  obtain hb | hb | hb := by simpa only [List.mem_append] using hb
  · exact .inl (h.flagged b hb)
  · exact .inr (.inl (h.digits b hb))
  · obtain hp | ⟨digits, hp, hdigits⟩ := h.fraction
    · simp [hp] at hb
    · rw [hp] at hb
      obtain rfl | hb := List.mem_cons.mp hb
      · exact .inr (.inr rfl)
      · exact .inr (.inl (hdigits b hb))

theorem parts_of_printf (hc : Printf c) (hstar : ¬ c.Starred) :
    Parts c.flags c.width c.precision := by
  simp only [Conversion.Starred, List.mem_append, not_or] at hstar
  obtain ⟨⟨-, hw⟩, hp⟩ := hstar
  have hwidth := hc.width.resolve_left fun h => hw (by rw [h]; decide)
  refine ⟨hc.flags, hwidth.1, hwidth.2, hc.precision.imp_right fun h => ?_⟩
  exact h.resolve_left fun h => hp (by rw [h]; decide)

theorem Accepted.ordered_of_safe (accepted : Accepted printFilter family spec)
    (hsafe : SafePrintf family accepted.rebuilt) : ordered accepted.run = true := by
  obtain ⟨⟨directives, hreads⟩, hnumeric⟩ := hsafe
  obtain ⟨c, behind, rfl, hc, hspells⟩ :=
    accepted.conversion_of_reads [] determined_printf (by simpa using hreads)
  obtain ⟨d, hd, hnumeric⟩ := hnumeric _ hreads
  obtain rfl : c = d := by
    rw [conversions_append, accepted.plain_before.conversions] at hd
    exact (List.cons.inj hd).1
  have hparts := parts_of_printf hc hnumeric.unstarred
  rw [parts_of_spelled accepted.carried hparts.carried hc.letters (accepted.letters_head _) hspells]
  exact hparts.ordered

theorem Accepted.safe_of_ordered (accepted : Accepted printFilter family spec)
    (hordered : ordered accepted.run = true) : SafePrintf family accepted.rebuilt := by
  obtain ⟨flags, width, precision, hrun, hparts⟩ := ordered_parts hordered
  let c : Conversion := ⟨flags, width, precision, printFilter.modifier family, spec, []⟩
  have hc : Printf c :=
    ⟨hparts.flagged, .inr ⟨hparts.digits, hparts.unflagged⟩, hparts.fraction.imp_right .inr,
      modifier_mem, mem_specifiers accepted.takes, rfl⟩
  have hreads := accepted.reads [] hc (by rw [hrun]; simp [c, Conversion.spelled])
    (by simp) (by simp)
  simp only [List.append_nil, spelled_nil] at hreads
  refine ⟨⟨_, hreads⟩, fun directives hother => ⟨c, ?_, ?_⟩⟩
  · rw [hother.unique determined_printf hreads, conversions_append,
      accepted.plain_before.conversions]
    exact congrArg (c :: ·) accepted.plain_after.conversions
  · exact accepted.numeric hparts.unstarred rfl rfl

theorem readFormat_safe {format rebuilt : Bytes}
    (h : readFormat format room = some (family, rebuilt)) :
    SafePrintf family rebuilt ↔ ordered (carriedRun isCarried format) = true := by
  obtain ⟨⟨family, spec, out⟩, hread, heq⟩ := Option.map_eq_some_iff.mp h
  obtain ⟨rfl, rfl⟩ := Prod.mk.inj heq
  obtain ⟨accepted, rfl, rfl⟩ := readText_eq hread
  have hrun : carriedRun isCarried accepted.format = accepted.run := accepted.carriedRun_format
  rw [hrun, List.nil_append]
  exact ⟨accepted.ordered_of_safe, accepted.safe_of_ordered⟩

/-! ### The format for `sscanf` -/

theorem scanf_count : Scanf count where
  flags := .inl rfl
  width := all_bytes (by decide)
  positive := .inl rfl
  precision := rfl
  length := by decide
  specifier := .inl ⟨by decide, rfl⟩

theorem positive_iff : positive run = true ↔ run = [] ∨ ∃ b ∈ run, b ≠ '0'.toUInt8 := by
  simp [positive]

theorem Accepted.positive_of_safe (accepted : Accepted scanFilter family spec)
    (hsafe : SafeScanf family (accepted.rebuilt ++ bytes ['%', 'n'])) :
    positive accepted.run = true := by
  obtain ⟨⟨directives, hreads⟩, hnumeric⟩ := hsafe
  obtain ⟨c, behind, rfl, hc, hspells⟩ :=
    accepted.conversion_of_reads [.conversion count] determined_scanf hreads
  obtain ⟨before, d, hbefore, hd, hnumeric⟩ := hnumeric _ hreads
  -- the first conversion is not the count, for one stands in front of that
  have hfirst : conversions (accepted.before ++ .conversion c :: behind) = [d, count] := by
    rw [hbefore, conversions_append, hd]
    rfl
  obtain rfl : c = d := by
    rw [conversions_append, accepted.plain_before.conversions] at hfirst
    exact (List.cons.inj hfirst).1
  have hflags : c.flags = [] := by
    refine hc.flags.resolve_right fun h => hnumeric.unstarred ?_
    simp [Conversion.Starred, h, bytes]
  have hcarried : ∀ b ∈ c.flags ++ (c.width ++ c.precision), scanFilter.carried b := by
    rw [hflags, hc.precision, List.append_nil]
    exact fun b hb => (isDigit_iff b).mpr (hc.width b hb)
  have hrun := parts_of_spelled accepted.carried hcarried
    hc.letters (accepted.letters_head _) hspells
  rw [hflags, hc.precision, List.append_nil, List.nil_append] at hrun
  rw [hrun, positive_iff]
  exact hc.positive

theorem Accepted.safe_of_positive
    (accepted : Accepted scanFilter family spec) (hpositive : positive accepted.run = true) :
    SafeScanf family (accepted.rebuilt ++ bytes ['%', 'n']) := by
  let c : Conversion := ⟨[], accepted.run, [], scanFilter.modifier family, spec, []⟩
  have hdigits : ∀ b ∈ accepted.run, b ∈ digitBytes :=
    fun b hb => (isDigit_iff b).mp (accepted.carried b hb)
  have hc : Scanf c :=
    ⟨.inl rfl, hdigits, positive_iff.mp hpositive, rfl, modifier_mem,
      .inl ⟨mem_specifiers accepted.takes, rfl⟩⟩
  have hstar : ¬ c.Starred := by
    have hother : '*'.toUInt8 ∉ digitBytes := by decide
    simpa [Conversion.Starred, c] using fun h => hother (hdigits _ h)
  have hreads : Reads Scanf
      (accepted.before ++ .conversion c :: (accepted.after ++ [.conversion count]))
      (accepted.rebuilt ++ bytes ['%', 'n']) :=
    accepted.reads [.conversion count] hc (by simp [c, Conversion.spelled])
      (fun d hd => List.mem_singleton.mp hd ▸ scanf_count) (by decide)
  refine ⟨⟨_, hreads⟩, fun directives hother =>
    ⟨accepted.before ++ .conversion c :: accepted.after, c, ?_, ?_, ?_⟩⟩
  · rw [hother.unique determined_scanf hreads]
    simp
  · rw [conversions_append, accepted.plain_before.conversions]
    exact congrArg (c :: ·) accepted.plain_after.conversions
  · exact accepted.numeric hstar rfl rfl

theorem readScanFormat_safe {format rebuilt : Bytes} {conversion : UInt8}
    (h : readScanFormat format room = some (family, rebuilt, conversion)) :
    SafeScanf family rebuilt ↔ positive (carriedRun isDigit format) = true := by
  obtain ⟨⟨family, spec, out⟩, hread, heq⟩ := Option.bind_eq_some_iff.mp h
  obtain ⟨accepted, rfl, rfl⟩ := readText_eq hread
  simp only [List.nil_append] at heq
  split_ifs at heq
  simp only [Option.some.injEq, Prod.mk.injEq] at heq
  obtain ⟨rfl, rfl, rfl⟩ := heq
  have hrun : carriedRun isDigit accepted.format = accepted.run := accepted.carriedRun_format
  rw [hrun]
  exact ⟨accepted.positive_of_safe, accepted.safe_of_positive⟩

/-- An accepted format is safe to hand on exactly where what is carried over stands in the order of
the grammar, and for `sscanf` where the width is not zero. -/
theorem formats_safe (format : Bytes) (room : Nat) (family : FormatFamily) (rebuilt : Bytes) :
    (readFormat format room = some (family, rebuilt) →
      (SafePrintf family rebuilt ↔ ordered (carriedRun isCarried format) = true)) ∧
    ∀ conversion,
      readScanFormat format room = some (family, rebuilt, conversion) →
        (SafeScanf family rebuilt ↔ positive (carriedRun isDigit format) = true) :=
  ⟨readFormat_safe, fun _ => readScanFormat_safe⟩

theorem formats_safe_ordered :
    SafePrintf .real (bytes ['%', '-', '8', '.', '3', 'f']) ∧
      SafeScanf .real (bytes ['%', '8', 'l', 'f', '%', 'n']) := by
  refine ⟨((formats_safe (bytes ['%', '-', '8', '.', '3', 'f']) 128 _ _).1 ?_).mpr (by decide),
    ((formats_safe (bytes ['%', '8', 'f']) 128 _ _).2 'f'.toUInt8 ?_).mpr (by decide)⟩
  · decide_cbv
  · decide_cbv

/-- Two precisions are accepted for `snprintf`, and a width of zero for `sscanf`. -/
theorem formats_safe_fails :
    (readFormat (bytes ['%', '1', '.', '2', '.', '3', 'd']) 128 =
        some (.integer, bytes ['%', '1', '.', '2', '.', '3', 'l', 'l', 'd']) ∧
      ¬ SafePrintf .integer (bytes ['%', '1', '.', '2', '.', '3', 'l', 'l', 'd'])) ∧
    readScanFormat (bytes ['%', '0', 'd']) 128 =
        some (.integer, bytes ['%', '0', 'l', 'l', 'd', '%', 'n'], 'd'.toUInt8) ∧
      ¬ SafeScanf .integer (bytes ['%', '0', 'l', 'l', 'd', '%', 'n']) := by
  have hprint : readFormat (bytes ['%', '1', '.', '2', '.', '3', 'd']) 128 =
      some (.integer, bytes ['%', '1', '.', '2', '.', '3', 'l', 'l', 'd']) := by decide_cbv
  have hscan : readScanFormat (bytes ['%', '0', 'd']) 128 =
      some (.integer, bytes ['%', '0', 'l', 'l', 'd', '%', 'n'], 'd'.toUInt8) := by decide_cbv
  refine ⟨⟨hprint, fun hsafe => ?_⟩, hscan, fun hsafe => ?_⟩
  · exact absurd ((readFormat_safe hprint).mp hsafe) (by decide)
  · exact absurd ((readScanFormat_safe hscan).mp hsafe) (by decide)

end Lhat.NumberFormat
