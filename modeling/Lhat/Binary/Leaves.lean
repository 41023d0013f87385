import Lhat.Binary.Scalars

/-!
# A kind as the list of its numbers

However deep a kind is nested, a record is one number after another. So an encoding is what the
value reads as, put one after another, and the tables it is read from no longer matter.
-/

namespace Lhat.Binary

variable {rd : Nat → Option (List Value)}

mutual

/-- The scalars of a kind, in the order they are written. -/
def Kind.leaves : Kind → List Scalar
  | .scalar s => [s]
  | .array length element => (List.replicate length element.leaves).flatten
  | .format fields => fields.leaves

def Fields.leaves : Fields → List Scalar
  | .nil => []
  | .cons _ kind rest => kind.leaves ++ rest.leaves

end

/-- What the positions from `i` on read as, one after another. -/
def readItems (read : Nat → Option (List Value)) : Nat → Nat → Option (List Value)
  | 0, _ => some []
  | left + 1, i => do
    let values ← read i
    let rest ← readItems read left (i + 1)
    return values ++ rest

mutual

/-- What a value reads as under a kind: the value of every scalar of it. -/
def read (h : Heap) : Kind → Value → Option (List Value)
  | .scalar _, value => some [value]
  | .array length element, value =>
    match value with
    | .table a => readItems (fun i => read h element (h.get a (.position i))) length 0
    | _ => none
  | .format fields, value =>
    match value with
    | .table a => readFields h fields a
    | _ => none

def readFields (h : Heap) : Fields → Nat → Option (List Value)
  | .nil, _ => some []
  | .cons name kind rest, a => do
    let values ← read h kind (h.get a (.name name))
    let others ← readFields h rest a
    return values ++ others

end

def putAll : List Scalar → List Value → Written → Option Written
  | [], [], w => some w
  | s :: ss, v :: vs, (out, p) =>
    match s.pack v with
    | .ok packed => putAll ss vs (putBits out p packed s.width, p + s.width)
    | .error _ => none
  | _, _, _ => none

def getAll (bytes : List UInt8) : List Scalar → Nat → Option (List Value × Nat)
  | [], p => some ([], p)
  | s :: ss, p => do
    let v ← s.unpack (getBits bytes p s.width)
    let (vs, p) ← getAll bytes ss (p + s.width)
    return (v :: vs, p)

/-- The bits that so many scalars take. -/
def total (ss : List Scalar) : Nat := (ss.map Scalar.width).sum

theorem total_append (ss ts : List Scalar) : total (ss ++ ts) = total ss + total ts := by
  simp [total]

mutual

theorem total_leaves : ∀ k : Kind, total k.leaves = k.bits
  | .scalar s => by simp [Kind.leaves, Kind.bits, total]
  | .array length element => by
    have ih := total_leaves element
    simp only [Kind.leaves, Kind.bits]
    induction length with
    | zero => rfl
    | succ n ihn =>
      rw [List.replicate_succ, List.flatten_cons, total_append, ih, ihn, Nat.mul_succ,
        Nat.add_comm]
  | .format fields => total_fields fields

theorem total_fields : ∀ fields : Fields, total fields.leaves = fields.bits
  | .nil => rfl
  | .cons _ kind rest => by
    rw [Fields.leaves, Fields.bits, total_append, total_leaves kind, total_fields rest]

end

mutual

theorem leaves_sound : ∀ {k : Kind}, k.Sound → ∀ s ∈ k.leaves, s.Sound
  | .scalar s, h, t, ht => by
    rw [List.mem_singleton.mp ht]
    exact h
  | .array _ element, h, t, ht => by
    obtain ⟨ss, hss, ht⟩ := List.mem_flatten.mp ht
    rw [List.eq_of_mem_replicate hss] at ht
    exact leaves_sound (k := element) h t ht
  | .format _, h, t, ht => fields_sound h.2 t ht

theorem fields_sound : ∀ {fields : Fields}, fields.Sound → ∀ s ∈ fields.leaves, s.Sound
  | .nil, _, _, ht => nomatch ht
  | .cons _ _ _, h, t, ht => by
    obtain ht | ht := List.mem_append.mp ht
    · exact leaves_sound h.1 t ht
    · exact fields_sound h.2 t ht

end

/-! ### Numbers one after another -/

variable {ss ts : List Scalar} {vs us : List Value} {w : Written}

theorem putAll_append (h : ss.length = vs.length) :
    putAll (ss ++ ts) (vs ++ us) w = (putAll ss vs w).bind (putAll ts us) := by
  induction ss generalizing vs w with
  | nil =>
    cases vs with
    | nil => rfl
    | cons => cases h
  | cons s ss ih =>
    cases vs with
    | nil => cases h
    | cons v vs =>
      simp only [List.cons_append, putAll]
      cases s.pack v with
      | error _ => rfl
      | ok packed => exact ih (Nat.succ.inj h)

theorem getAll_append {bytes : List UInt8} {p : Nat} :
    getAll bytes (ss ++ ts) p =
      (getAll bytes ss p).bind fun got =>
        (getAll bytes ts got.2).map fun rest => (got.1 ++ rest.1, rest.2) := by
  induction ss generalizing p with
  | nil => simp [getAll]
  | cons s ss ih =>
    simp only [List.cons_append, getAll]
    cases s.unpack (getBits bytes p s.width) with
    | none => rfl
    | some v =>
      simp only [Option.bind_eq_bind, Option.bind_some, ih]
      cases getAll bytes ss (p + s.width) with
      | none => rfl
      | some got =>
        cases hrest : getAll bytes ts got.2 with
        | none => simp [hrest]
        | some rest => simp [hrest]

/-! ### An encoding is what is read, put one after another -/

theorem readItems_succ {n i : Nat} {vs : List Value} :
    readItems rd (n + 1) i = some vs ↔
      ∃ us rest, rd i = some us ∧ readItems rd n (i + 1) = some rest ∧ vs = us ++ rest := by
  simp only [readItems, Option.bind_eq_bind, Option.bind_eq_some_iff]
  constructor
  · rintro ⟨us, hus, rest, hrest, h⟩
    cases h
    exact ⟨us, rest, hus, hrest, rfl⟩
  · rintro ⟨us, rest, hus, hrest, rfl⟩
    exact ⟨us, hus, rest, hrest, rfl⟩

theorem readFields_cons {h : Heap} {name : Text} {kind : Kind} {rest : Fields} {a : Nat}
    {vs : List Value} :
    readFields h (.cons name kind rest) a = some vs ↔
      ∃ us others, read h kind (h.get a (.name name)) = some us ∧
        readFields h rest a = some others ∧ vs = us ++ others := by
  simp only [readFields, Option.bind_eq_bind, Option.bind_eq_some_iff]
  constructor
  · rintro ⟨us, hus, others, hothers, h⟩
    cases h
    exact ⟨us, others, hus, hothers, rfl⟩
  · rintro ⟨us, others, hus, hothers, rfl⟩
    exact ⟨us, hus, others, hothers, rfl⟩

theorem length_readItems (hrd : ∀ i us, rd i = some us → us.length = ss.length) (n : Nat) :
    ∀ {i : Nat}, readItems rd n i = some vs → vs.length = (List.replicate n ss).flatten.length := by
  induction n generalizing vs with
  | zero =>
    intro i h
    cases h
    rfl
  | succ n ih =>
    intro i h
    obtain ⟨us, rest, hus, hrest, rfl⟩ := readItems_succ.mp h
    rw [List.replicate_succ, List.flatten_cons, List.length_append, List.length_append,
      hrd i us hus, ih hrest]

mutual

theorem length_read {h : Heap} : ∀ {k : Kind} {v : Value} {vs : List Value},
    read h k v = some vs → vs.length = k.leaves.length
  | .scalar s, _, _, hread => by
    cases hread
    rfl
  | .array length element, v, vs, hread => by
    unfold read at hread
    split at hread
    · exact length_readItems (fun i us hus => length_read hus) length hread
    · cases hread
  | .format fields, v, vs, hread => by
    unfold read at hread
    split at hread
    · exact length_readFields hread
    · cases hread

theorem length_readFields {h : Heap} : ∀ {fields : Fields} {a : Nat} {vs : List Value},
    readFields h fields a = some vs → vs.length = fields.leaves.length
  | .nil, _, _, hread => by
    cases hread
    rfl
  | .cons name kind rest, a, vs, hread => by
    obtain ⟨us, others, hus, hothers, rfl⟩ := readFields_cons.mp hread
    rw [Fields.leaves, List.length_append, List.length_append, length_read hus,
      length_readFields hothers]

end

theorem toOption_bind {ε α β : Type} (x : Except ε α) (f : α → Except ε β) :
    (x >>= f).toOption = x.toOption.bind fun a => (f a).toOption := by
  cases x <;> rfl

theorem encodeItems_eq {step : Nat → Written → Except Text Written} (hrd : ∀ i us, rd i = some us → us.length = ss.length)
    (hstep : ∀ i w, (step i w).toOption = (rd i).bind fun us => putAll ss us w) (n : Nat) :
    ∀ {i : Nat} {w : Written}, (eachItem step n i w).toOption =
      (readItems rd n i).bind fun us => putAll (List.replicate n ss).flatten us w := by
  induction n with
  | zero => intros; rfl
  | succ n ih =>
    intro i w
    rw [eachItem, toOption_bind, hstep, List.replicate_succ, List.flatten_cons]
    simp only [readItems, Option.bind_eq_bind, Option.bind_assoc, ih]
    refine Option.bind_congr fun us hus => ?_
    rw [Option.bind_comm]
    refine Option.bind_congr fun rest _ => ?_
    exact (putAll_append (hrd i us hus).symm).symm

theorem putAll_nil {h : Heap} (k : Kind) :
    ((read h k .nil).bind fun us => putAll k.leaves us w) = none := by
  cases k with
  | scalar s => cases s <;> rfl
  | array => rfl
  | format => rfl

mutual

theorem encodeKind_eq {h : Heap} : ∀ (k : Kind) (v : Value) (place : Place) (w : Written),
    (encodeKind h k v place w).toOption = (read h k v).bind fun us => putAll k.leaves us w
  | .scalar s, v, place, (out, p) => by
    simp only [encodeKind, read, Kind.leaves, Option.bind_some, putAll]
    cases s.pack v <;> rfl
  | .array length element, v, place, w => by
    cases v with
    | table a =>
      refine encodeItems_eq (fun i us hus => length_read hus) (fun i w => ?_) length
      dsimp only
      split
      · rename_i hnil
        rw [hnil, putAll_nil]
        rfl
      · exact encodeKind_eq element _ _ w
    | _ => rfl
  | .format fields, v, place, w => by
    cases v with
    | table a => exact encodeFields_eq fields a w
    | _ => rfl

theorem encodeFields_eq {h : Heap} : ∀ (fields : Fields) (a : Nat) (w : Written),
    (encodeFields h fields a w).toOption =
      (readFields h fields a).bind fun us => putAll fields.leaves us w
  | .nil, a, w => rfl
  | .cons name kind rest, a, w => by
    have hitem : (if h.get a (.name name) = .nil then
          Except.error (refuse { field := some name } (text "is missing"))
        else encodeKind h kind (h.get a (.name name)) { field := some name } w).toOption =
        (read h kind (h.get a (.name name))).bind fun us => putAll kind.leaves us w := by
      split
      · rename_i hnil
        rw [hnil, putAll_nil]
        rfl
      · exact encodeKind_eq kind _ _ w
    rw [encodeFields, toOption_bind, hitem]
    simp only [readFields, Option.bind_eq_bind, Option.bind_assoc, encodeFields_eq rest,
      Fields.leaves]
    refine Option.bind_congr fun us hus => ?_
    rw [Option.bind_comm]
    refine Option.bind_congr fun others _ => ?_
    exact (putAll_append (length_read hus).symm).symm

end

end Lhat.Binary
