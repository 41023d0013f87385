import Lhat.Runtime.Shape

/-!
# Table keys

What a table does with a key before it looks for it: `normaliseKey` folds a real
that names an integer into that integer, `usableKey` refuses what could not be
found again, and `hashKey` says where to begin looking.

Two keys are one when they have one `keyForm`: a string is its bytes, a sealed
box its tag and bytes, live host data its tag and pointer, a runtime type its
shape, and anything else on the heap its address. `lhatValueEqual_decides` says
that the equality of values is this one on normalised keys, and `hashKey_congr`
that the hash respects it. A runtime type is the exception to the second: its
hash is read off its address. `KeysTold` is what a table needs of two of its
keys, and it fails of runtime types only.
-/

namespace Lhat

variable {d : Binary64} {h : Heap} {a b : LhatValue} {i : Int64} {c : KeyForm}

/-- `normalise_key`. -/
def normaliseKey : LhatValue → LhatValue
  | .real d =>
    match lhatNumberAsWhole (.real d) with
    | some whole => .integer whole
    | none => .real d
  | key => key

/-- `usable_key`. -/
def usableKey : LhatValue → Bool
  | .nil => false
  | .real d => d.eq d
  | .hostvalue _ => false
  | _ => true

/-- The upper half folded onto the lower one. -/
def fold64 (bits : UInt64) : UInt32 := (bits ^^^ (bits >>> 32)).toUInt32

/-- `content_key_hash`. -/
def contentKeyHash (tag : Address) (bytes : List UInt8) : UInt32 :=
  lhatStringHash bytes ^^^ (tag >>> 4).toUInt32

/-- `hash_key` of an object. -/
def hashObject (h : Heap) (o : Address) : UInt32 :=
  match h.object o with
  | some (.string s) => s.hash
  | some (.hostvalueBox box) => if box.tag ≠ 0 then contentKeyHash box.tag box.bytes else fold64 o
  | some (.hostdata data) => fold64 (data.pointer ^^^ (data.tag <<< 16))
  | _ => fold64 o

/-- `hash_key`. -/
def hashKey (h : Heap) : LhatValue → UInt32
  | .bool b => if b then 1 else 0
  | .integer i => fold64 i.toUInt64
  | .real d => fold64 d.bits
  | .object o => hashObject h o
  | _ => 0

/-- What a key is, apart from where it stands. -/
inductive KeyForm where
  | bool (b : Bool)
  | integer (i : Int64)
  | real (d : Binary64)
  | bytes (text : List UInt8)
  | content (tag : Address) (bytes : List UInt8)
  | hostdata (tag : Address) (pointer : UInt64)
  | type (depth : Nat) (s : Shape depth)
  | address (o : Address)

/-- The form of a key on the heap. -/
def objectForm (h : Heap) (o : Address) : KeyForm :=
  match h.object o with
  | some (.string s) => .bytes s.text
  | some (.type _) => .type h.depth (shape h h.depth (some o))
  | some (.hostvalueBox box) => if box.tag ≠ 0 then .content box.tag box.bytes else .address o
  | some (.hostdata data) =>
    if data.tag ≠ 0 ∧ data.released = false then .hostdata data.tag data.pointer else .address o
  | _ => .address o

/-- The form of a normalised key. The tags no value of the language has are equal
to nothing and have none. -/
def keyForm (h : Heap) : LhatValue → Option KeyForm
  | .bool b => some (.bool b)
  | .integer i => some (.integer i)
  | .real d => if d.isNan then none else some (.real d)
  | .object o => some (objectForm h o)
  | _ => none

/-- A key as a table holds it. -/
def NormalKey (key : LhatValue) : Prop := normaliseKey key = key

/-- A key that is compared by structure and hashed by address. -/
def IsType (h : Heap) (key : LhatValue) : Prop :=
  ∃ o t, key = .object o ∧ h.object o = some (.type t)

/-- Comparing the two answers, and when they are equal they hash alike. -/
def Agrees (h : Heap) (a b : LhatValue) : Prop :=
  ∃ r, lhatValueEqual h a b = some r ∧ (r = true → hashKey h a = hashKey h b)

/-- What a table needs of two of its keys. -/
def KeysTold (h : Heap) (a b : LhatValue) : Prop := Agrees h a b ∧ Agrees h b a

theorem normaliseKey_normal (key : LhatValue) : NormalKey (normaliseKey key) := by
  cases key with
  | real d =>
    unfold NormalKey
    cases hwhole : lhatNumberAsWhole (.real d) with
    | none => simp only [normaliseKey, hwhole]
    | some i => simp only [normaliseKey, hwhole]
  | _ => rfl

theorem asWhole_of_normal (hn : NormalKey (.real d)) : lhatNumberAsWhole (.real d) = none := by
  cases hwhole : lhatNumberAsWhole (.real d) with
  | none => rfl
  | some i => simp [NormalKey, normaliseKey, hwhole] at hn

theorem scaled_ofInt_low : (Binary64.ofInt (-2 ^ 63)).scaled = -2 ^ 1137 := by decide +kernel

theorem scaled_ofInt_high : (Binary64.ofInt (2 ^ 63)).scaled = 2 ^ 1137 := by decide +kernel

theorem isNan_ofInt_low : (Binary64.ofInt (-2 ^ 63)).isNan = false := by decide +kernel

theorem isNan_ofInt_high : (Binary64.ofInt (2 ^ 63)).isNan = false := by decide +kernel

theorem castToInteger_eq_some :
    castToInteger d = some i ↔
      d.isNan = false ∧ -2 ^ 63 ≤ d.truncate ∧ d.truncate < 2 ^ 63 ∧ Int64.ofInt d.truncate = i := by
  unfold castToInteger
  cases hnan : d.isNan with
  | true => simp
  | false =>
    rw [if_neg (by simp)]
    split
    · next hrange =>
        constructor
        · exact fun heq => ⟨rfl, hrange.1, hrange.2, Option.some.inj heq⟩
        · rintro ⟨-, -, -, rfl⟩
          rfl
    · next hrange =>
        constructor
        · intro heq
          cases heq
        · rintro ⟨-, hlo, hhi, -⟩
          exact absurd ⟨hlo, hhi⟩ hrange

theorem toInt_of_castToInteger (hcast : castToInteger d = some i) : i.toInt = d.truncate := by
  obtain ⟨-, hlo, hhi, rfl⟩ := castToInteger_eq_some.1 hcast
  exact Int64.toInt_ofInt_of_le hlo hhi

theorem scaled_lt_of_truncate_lt (hhi : d.truncate < 2 ^ 63) : d.scaled < 2 ^ 1137 := by
  obtain ⟨r, hr, -, hrhi⟩ := d.scaled_eq_truncate
  have hpow : (2 : Int) ^ 1137 = 2 ^ 63 * 2 ^ 1074 := by rw [← pow_add]
  have hpos : (0 : Int) < 2 ^ 1074 := by positivity
  have hmul : d.truncate * 2 ^ 1074 ≤ (2 ^ 63 - 1) * 2 ^ 1074 :=
    Int.mul_le_mul_of_nonneg_right (Int.le_sub_one_of_lt hhi) hpos.le
  rw [hpow, hr]
  rw [Int.sub_mul, Int.one_mul] at hmul
  exact lt_of_lt_of_le (Int.add_lt_add_of_le_of_lt hmul hrhi) (by rw [Int.sub_add_cancel])

theorem truncate_of_scaled_lt (hlo : -2 ^ 63 ≤ d.truncate)
    (hlt : d.scaled < -2 ^ 1137) : d.truncate = -2 ^ 63 := by
  obtain ⟨r, hr, hrlo, -⟩ := d.scaled_eq_truncate
  have hpow : (2 : Int) ^ 1137 = 2 ^ 63 * 2 ^ 1074 := by rw [← pow_add]
  have hpos : (0 : Int) < 2 ^ 1074 := by positivity
  generalize (2 : Int) ^ 1074 = unit at *
  rw [hpow, hr] at hlt
  refine le_antisymm (le_of_not_gt fun hgt => ?_) hlo
  have hmul : (-2 ^ 63 + 1) * unit ≤ d.truncate * unit :=
    Int.mul_le_mul_of_nonneg_right (Int.add_one_le_of_lt hgt) hpos.le
  linarith

theorem asWhole_of_integerEqualsReal
    (heq : integerEqualsReal i d = true) : lhatNumberAsWhole (.real d) = some i := by
  simp only [integerEqualsReal, Bool.and_eq_true, beq_iff_eq] at heq
  obtain ⟨hval, hcast⟩ := heq
  obtain ⟨hnan, hlo, hhi, -⟩ := castToInteger_eq_some.1 hcast
  simp only [Binary64.eq, Bool.and_eq_true, Bool.not_eq_true', decide_eq_true_eq] at hval
  obtain ⟨⟨hinan, -⟩, hscaled⟩ := hval
  have hle : (Binary64.ofInt (-2 ^ 63)).le d = true := by
    simp only [Binary64.le, isNan_ofInt_low, hnan, scaled_ofInt_low, Bool.not_false,
      Bool.true_and, decide_eq_true_eq]
    refine le_of_not_gt fun hlt => ?_
    have htrunc := truncate_of_scaled_lt hlo hlt
    rw [toInt_of_castToInteger hcast, htrunc, scaled_ofInt_low] at hscaled
    exact absurd hscaled (ne_of_gt hlt)
  have hlt : d.lt (Binary64.ofInt (2 ^ 63)) = true := by
    simp only [Binary64.lt, isNan_ofInt_high, hnan, scaled_ofInt_high, Bool.not_false,
      Bool.true_and, decide_eq_true_eq]
    exact scaled_lt_of_truncate_lt hhi
  have hback : d.eq (Binary64.ofInt i.toInt) = true := by
    simp only [Binary64.eq, hnan, hinan, Bool.not_false, Bool.true_and, decide_eq_true_eq]
    exact hscaled.symm
  unfold lhatNumberAsWhole
  split
  · next heq => cases heq
  · next heq =>
      cases heq
      rw [hle, hlt, hcast]
      exact if_pos hback
  · next hne => exact (hne d rfl).elim

theorem integerEqualsReal_of_whole (hnan : d.isNan = false) {n : Int}
    (hscaled : d.scaled = n * 2 ^ 1074) (hlo : -2 ^ 63 ≤ n) (hhi : n < 2 ^ 63) :
    integerEqualsReal (Int64.ofInt n) d = true := by
  have htrunc := Binary64.truncate_of_whole hscaled
  have hcast : castToInteger d = some (Int64.ofInt n) := by
    rw [castToInteger_eq_some, htrunc]
    exact ⟨hnan, hlo, hhi, rfl⟩
  rw [integerEqualsReal, hcast, Int64.toInt_ofInt_of_le hlo hhi]
  simp [Binary64.eq, Binary64.isNan_ofInt, hnan, Binary64.scaled_ofInt_of_whole hnan hscaled]

theorem asWhole_of_whole (hnan : d.isNan = false) {n : Int} (hscaled : d.scaled = n * 2 ^ 1074)
    (hlo : -2 ^ 63 ≤ n) (hhi : n < 2 ^ 63) : lhatNumberAsWhole (.real d) = some (Int64.ofInt n) :=
  asWhole_of_integerEqualsReal (integerEqualsReal_of_whole hnan hscaled hlo hhi)

theorem asWhole_of_scaled_zero (hnan : d.isNan = false) (hzero : d.scaled = 0) :
    lhatNumberAsWhole (.real d) = some 0 :=
  asWhole_of_whole (n := 0) hnan (by rw [hzero, Int.zero_mul]) (by decide) (by decide)

theorem real_eq_iff {c : Binary64} (hc : NormalKey (.real c)) (hcn : c.isNan = false)
    (hdn : d.isNan = false) : c.eq d = true ↔ c = d := by
  simp only [Binary64.eq, hcn, hdn, Bool.not_false, Bool.true_and, decide_eq_true_eq]
  refine ⟨fun heq => Binary64.eq_of_scaled_eq heq fun hzero => ?_, fun heq => by rw [heq]⟩
  have := asWhole_of_normal hc
  rw [asWhole_of_scaled_zero hcn hzero] at this
  cases this

theorem objectForm_cases (h : Heap) (o : Address) :
    (∃ text, objectForm h o = .bytes text) ∨ (∃ tag bytes, objectForm h o = .content tag bytes) ∨
      (∃ tag pointer, objectForm h o = .hostdata tag pointer) ∨
      (∃ depth s, objectForm h o = .type depth s) ∨ objectForm h o = .address o := by
  unfold objectForm
  rcases h.object o with - | (s | - | - | - | - | - | d | b | - | - | -) <;> simp only [] <;>
    try split
  all_goals simp

@[simp] theorem objectForm_ne_bool (h : Heap) (o : Address) (b : Bool) :
    objectForm h o ≠ .bool b := by
  rcases objectForm_cases h o with ⟨_, ho⟩ | ⟨_, _, ho⟩ | ⟨_, _, ho⟩ | ⟨_, _, ho⟩ | ho <;> simp [ho]

@[simp] theorem objectForm_ne_integer (h : Heap) (o : Address) (i : Int64) :
    objectForm h o ≠ .integer i := by
  rcases objectForm_cases h o with ⟨_, ho⟩ | ⟨_, _, ho⟩ | ⟨_, _, ho⟩ | ⟨_, _, ho⟩ | ho <;> simp [ho]

@[simp] theorem objectForm_ne_real (h : Heap) (o : Address) (d : Binary64) :
    objectForm h o ≠ .real d := by
  rcases objectForm_cases h o with ⟨_, ho⟩ | ⟨_, _, ho⟩ | ⟨_, _, ho⟩ | ⟨_, _, ho⟩ | ho <;> simp [ho]

theorem objectEqual_self (h : Heap) (o : Address) : objectEqual h o o = some true := by
  unfold objectEqual
  rcases h.object o with - | (- | - | - | - | - | - | - | - | - | - | -) <;> simp

theorem objectEqual_decides (h : Heap) (o p : Address) :
    Decides (objectEqual h o p) (objectForm h o = objectForm h p) := by
  by_cases hop : o = p
  · subst hop
    rw [objectEqual_self]
    exact (Decides.answer true).congr (by simp)
  · have hne : (o == p) = false := by simpa using hop
    unfold objectEqual objectForm
    rcases ho : h.object o with - | (s | - | - | - | - | s | s | s | - | - | -) <;>
      rcases hp : h.object p with - | (t | - | - | - | - | t | t | t | - | - | -)
    case neg.some.type.some.type =>
      exact (lhatRuntimeTypeEqual_decides h h.depth (some o) (some p)).congr (by simp)
    all_goals refine (Decides.answer _).congr ?_
    -- Objects of two kinds have two forms; three kinds compared by content are left.
    all_goals try simp [hop, hne, apply_ite, ite_eq_iff]
    · exact lhatStringEqual_iff
    · constructor
      · rintro ⟨⟨⟨⟨htag, heq⟩, hs⟩, ht⟩, hpointer⟩
        exact ⟨⟨heq ▸ htag, ht⟩, ⟨htag, hs⟩, heq, hpointer⟩
      · rintro ⟨⟨-, ht⟩, ⟨htag, hs⟩, heq, hpointer⟩
        exact ⟨⟨⟨⟨htag, heq⟩, hs⟩, ht⟩, hpointer⟩
    · constructor
      · rintro ⟨⟨htag, heq⟩, hbytes⟩
        exact ⟨heq ▸ htag, htag, heq, hbytes⟩
      · rintro ⟨-, htag, heq, hbytes⟩
        exact ⟨⟨htag, heq⟩, hbytes⟩

theorem objectEqual_answers {o p : Address}
    (hne : ¬(IsType h (.object o) ∧ IsType h (.object p))) : ∃ r, objectEqual h o p = some r := by
  unfold objectEqual
  split
  · exact ⟨_, rfl⟩
  · next s t hs ht => exact absurd ⟨⟨o, s, rfl, hs⟩, p, t, rfl, ht⟩ hne
  · exact ⟨_, rfl⟩
  · exact ⟨_, rfl⟩
  · exact ⟨_, rfl⟩

theorem integerEqualsReal_normal (hd : NormalKey (.real d)) (i : Int64) :
    integerEqualsReal i d = false := by
  cases heq : integerEqualsReal i d with
  | false => rfl
  | true =>
    have := asWhole_of_normal hd
    rw [asWhole_of_integerEqualsReal heq] at this
    cases this

theorem lhatValueEqual_decides (ha : NormalKey a) (hb : NormalKey b) (hua : usableKey a = true) :
    Decides (lhatValueEqual h a b) (∃ c, keyForm h a = some c ∧ keyForm h b = some c) := by
  rcases a with - | x | i | c | o | x | x | x <;> rcases b with - | y | j | d | p | y | y | y
  case object.object =>
    exact (objectEqual_decides h o p).congr (by simp [keyForm, eq_comm])
  case real.real =>
    refine (Decides.answer (c.eq d)).congr ?_
    cases hc : c.isNan with
    | true => simp [Binary64.eq, keyForm, hc]
    | false =>
      cases hd : d.isNan with
      | true => simp [Binary64.eq, keyForm, hd]
      | false => simp [keyForm, real_eq_iff ha hc hd, hc, hd, eq_comm]
  case nil.nil => exact absurd hua (by decide)
  -- Values of two tags are told apart by their forms as well.
  all_goals refine (Decides.answer _).congr ?_
  all_goals try simp [keyForm, integerEqualsReal_normal, ha, hb, (objectForm_ne_bool h _ _).symm,
    (objectForm_ne_integer h _ _).symm, (objectForm_ne_real h _ _).symm]
  · exact eq_comm
  · exact eq_comm

theorem lhatValueEqual_answers (hne : ¬(IsType h a ∧ IsType h b)) :
    ∃ r, lhatValueEqual h a b = some r := by
  rcases a with - | x | i | c | o | x | x | x <;> rcases b with - | y | j | d | p | y | y | y
  case object.object => exact objectEqual_answers hne
  all_goals exact ⟨_, rfl⟩

/-- What a form is looked for by. -/
def formHash (h : Heap) : KeyForm → UInt32
  | .bool b => if b then 1 else 0
  | .integer i => fold64 i.toUInt64
  | .real d => fold64 d.bits
  | .bytes text => lhatStringHash text
  | .content tag bytes => contentKeyHash tag bytes
  | .hostdata tag pointer => fold64 (pointer ^^^ (tag <<< 16))
  | .type _ _ => 0
  | .address o => hashObject h o

theorem hashObject_eq_formHash {o : Address} (hne : ¬IsType h (.object o)) :
    hashObject h o = formHash h (objectForm h o) := by
  unfold objectForm
  split
  · next s hs => simp [hashObject, formHash, hs, s.hashed]
  · next t ht => exact absurd ⟨o, t, rfl, ht⟩ hne
  · next box hbox =>
      split
      · next htag => simp [hashObject, formHash, hbox, htag]
      · rfl
  · next data hdata =>
      split
      · simp [hashObject, formHash, hdata]
      · rfl
  · rfl

theorem hashKey_eq_formHash (hne : ¬IsType h a)
    (ha : keyForm h a = some c) : hashKey h a = formHash h c := by
  cases a with
  | real d =>
    obtain ⟨-, rfl⟩ : d.isNan = false ∧ KeyForm.real d = c := by simpa [keyForm] using ha
    rfl
  | object o =>
    obtain rfl : objectForm h o = c := by simpa [keyForm] using ha
    exact hashObject_eq_formHash hne
  | bool | integer =>
    cases ha
    rfl
  | nil | hostvalue | cont | run => cases ha

theorem isType_of_form (ha : keyForm h a = some c)
    (hb : keyForm h b = some c) (htype : IsType h a) : IsType h b := by
  obtain ⟨o, t, rfl, ho⟩ := htype
  obtain rfl : KeyForm.type h.depth (shape h h.depth (some o)) = c := by
    simpa [keyForm, objectForm, ho] using ha
  cases b with
  | object p =>
    have hp : objectForm h p = .type h.depth (shape h h.depth (some o)) := by
      simpa [keyForm] using hb
    unfold objectForm at hp
    split at hp
    · cases hp
    · next t' ht => exact ⟨p, t', rfl, ht⟩
    · split at hp <;> cases hp
    · split at hp <;> cases hp
    · cases hp
  | real d =>
    simp [keyForm] at hb
  | bool | integer | nil | hostvalue | cont | run => cases hb

theorem hashKey_congr (hne : ¬IsType h a)
    (ha : keyForm h a = some c) (hb : keyForm h b = some c) : hashKey h a = hashKey h b := by
  have hneb : ¬IsType h b := fun htype => hne (isType_of_form hb ha htype)
  rw [hashKey_eq_formHash hne ha, hashKey_eq_formHash hneb hb]

theorem KeysTold.symm (htold : KeysTold h a b) : KeysTold h b a :=
  And.symm htold

theorem normaliseKey_usable {key : LhatValue} (hu : usableKey key = true) :
    usableKey (normaliseKey key) = true := by
  cases key with
  | real d =>
    simp only [normaliseKey]
    split
    · rfl
    · exact hu
  | _ => exact hu

theorem agrees_of_not_type (ha : NormalKey a) (hb : NormalKey b)
    (hua : usableKey a = true) (hne : ¬(IsType h a ∧ IsType h b)) : Agrees h a b := by
  obtain ⟨r, hr⟩ := lhatValueEqual_answers hne
  refine ⟨r, hr, fun hrt => ?_⟩
  obtain ⟨c, hac, hbc⟩ := (lhatValueEqual_decides ha hb hua r hr).1 hrt
  exact hashKey_congr (fun htype => hne ⟨htype, isType_of_form hac hbc htype⟩) hac hbc

theorem keysTold_of_not_type (ha : NormalKey a) (hb : NormalKey b) (hua : usableKey a = true)
    (hub : usableKey b = true) (hne : ¬(IsType h a ∧ IsType h b)) : KeysTold h a b :=
  ⟨agrees_of_not_type ha hb hua hne, agrees_of_not_type hb ha hub fun hand => hne hand.symm⟩

theorem keysTold_self (h : Heap) (a : LhatValue) : KeysTold h a a := by
  have hagrees : Agrees h a a := by
    cases a with
    | object o => exact ⟨true, objectEqual_self h o, fun _ => rfl⟩
    | _ => exact ⟨_, rfl, fun _ => rfl⟩
  exact ⟨hagrees, hagrees⟩

theorem normaliseKey_of_equal (hua : usableKey a = true) (heq : lhatValueEqual h a b = some true) :
    normaliseKey a = normaliseKey b ∨ ∃ o p, a = .object o ∧ b = .object p := by
  rcases a with - | x | i | c | o | x | x | x <;> rcases b with - | y | j | d | p | y | y | y
  case object.object => exact Or.inr ⟨o, p, rfl, rfl⟩
  case nil.nil => exact absurd hua (by decide)
  case bool.bool | integer.integer =>
    refine Or.inl ?_
    simp only [lhatValueEqual, Option.some.injEq, beq_iff_eq] at heq
    rw [heq]
  case integer.real =>
    refine Or.inl ?_
    simp only [lhatValueEqual, Option.some.injEq] at heq
    simp only [normaliseKey, asWhole_of_integerEqualsReal heq]
  case real.integer =>
    refine Or.inl ?_
    simp only [lhatValueEqual, Option.some.injEq] at heq
    simp only [normaliseKey, asWhole_of_integerEqualsReal heq]
  case real.real =>
    refine Or.inl ?_
    simp only [lhatValueEqual, Option.some.injEq, Binary64.eq, Bool.and_eq_true, Bool.not_eq_true',
      decide_eq_true_eq] at heq
    obtain ⟨⟨hc, hd⟩, hscaled⟩ := heq
    by_cases hzero : c.scaled = 0
    · simp only [normaliseKey, asWhole_of_scaled_zero hc hzero,
        asWhole_of_scaled_zero hd (hscaled ▸ hzero)]
    · rw [Binary64.eq_of_scaled_eq hscaled hzero]
  all_goals simp [lhatValueEqual] at heq

end Lhat
