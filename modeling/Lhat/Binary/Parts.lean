import Lhat.Binary.Leaves

/-!
# The parts of a kind

An array and a format are the same to a reader: kinds under keys. So what holds of every kind is
proved of one number, and of a list of parts from what holds of each.
-/

namespace Lhat.Binary

/-- The place of a value: a table and what stands for it there. -/
abbrev Slot := Nat × Key

/-- What a table holds itself under a key. -/
def Heap.held (h : Heap) (a : Nat) (key : Key) : Value := (h.own a key).getD .nil

def Heap.slot (h : Heap) (s : Slot) : Option Value := h.own s.1 s.2

mutual

/-- The places a record is read into when a value stands in its own: a table that is held is
filled, and those it holds are with it. -/
def slots (h : Heap) : Kind → Value → List Slot
  | .scalar _, _ => []
  | .array length element, value =>
    match value with
    | .table a => (List.range' 0 length).flatMap fun i =>
      (a, .position i) :: slots h element (h.held a (.position i))
    | _ => []
  | .format fields, value =>
    match value with
    | .table a => slotsFields h fields a
    | _ => []

def slotsFields (h : Heap) : Fields → Nat → List Slot
  | .nil, _ => []
  | .cons name kind rest, a =>
    (a, .name name) :: slots h kind (h.held a (.name name)) ++ slotsFields h rest a

end

def Fields.parts : Fields → List (Key × Kind)
  | .nil => []
  | .cons name kind rest => (.name name, kind) :: rest.parts

def items (element : Kind) (n i : Nat) : List (Key × Kind) :=
  (List.range' i n).map fun i => (.position i, element)

def Kind.parts : Kind → List (Key × Kind)
  | .scalar _ => []
  | .array length element => items element length 0
  | .format fields => fields.parts

def Kind.isNested : Kind → Bool
  | .scalar _ => false
  | _ => true

mutual

theorem Kind.induction {P : Kind → Prop} (scalar : ∀ s, P (.scalar s))
    (nested : ∀ k : Kind, k.isNested = true → (∀ part ∈ k.parts, P part.2) → P k) : ∀ k, P k
  | .scalar s => scalar s
  | .array length element => nested _ rfl fun part hpart => by
    obtain ⟨i, _, rfl⟩ := List.mem_map.mp hpart
    exact Kind.induction scalar nested element
  | .format fields => nested _ rfl (Fields.induction scalar nested fields)

theorem Fields.induction {P : Kind → Prop} (scalar : ∀ s, P (.scalar s))
    (nested : ∀ k : Kind, k.isNested = true → (∀ part ∈ k.parts, P part.2) → P k) :
    ∀ fields : Fields, ∀ part ∈ fields.parts, P part.2
  | .nil, _, h => nomatch h
  | .cons _ kind rest, part, h => by
    obtain rfl | h := List.mem_cons.mp h
    · exact Kind.induction scalar nested kind
    · exact Fields.induction scalar nested rest part h

end

/-! ### One loop over the parts -/

def partsSlots (h : Heap) (parts : List (Key × Kind)) (a : Nat) : List Slot :=
  parts.flatMap fun part => (a, part.1) :: slots h part.2 (h.held a part.1)

def readParts (h : Heap) : List (Key × Kind) → Nat → Option (List Value)
  | [], _ => some []
  | part :: parts, a => do
    let values ← read h part.2 (h.get a part.1)
    let others ← readParts h parts a
    return values ++ others

def decodeParts (bytes : List UInt8) :
    List (Key × Kind) → Nat → Heap × Nat → Except Failure (Heap × Nat)
  | [], _, s => .ok s
  | part :: parts, a, s => do
    let s ← decodePart (decodeKind bytes part.2) a part.1 s
    decodeParts bytes parts a s

variable {h h' : Heap} {k : Kind} {v : Value} {a : Nat} {bytes : List UInt8}

theorem items_succ (element : Kind) (n i : Nat) :
    items element (n + 1) i = (.position i, element) :: items element n (i + 1) := rfl

theorem slotsFields_eq : ∀ (fields : Fields) (a : Nat),
    slotsFields h fields a = partsSlots h fields.parts a
  | .nil, _ => rfl
  | .cons name kind rest, a => by
    rw [slotsFields, slotsFields_eq rest]
    rfl

theorem readFields_eq : ∀ (fields : Fields) (a : Nat),
    readFields h fields a = readParts h fields.parts a
  | .nil, _ => rfl
  | .cons name kind rest, a => by
    rw [readFields, readFields_eq rest]
    rfl

theorem decodeFields_eq : ∀ (fields : Fields) (a : Nat) (s : Heap × Nat),
    decodeFields bytes fields a s = decodeParts bytes fields.parts a s
  | .nil, _, _ => rfl
  | .cons name kind rest, a, s => by
    rw [decodeFields, Fields.parts, decodeParts]
    congr 1
    funext s
    exact decodeFields_eq rest a s

theorem fieldsLeaves_eq (fields : Fields) :
    fields.leaves = fields.parts.flatMap fun part => part.2.leaves := by
  cases fields with
  | nil => rfl
  | cons name kind rest =>
    rw [Fields.leaves, fieldsLeaves_eq rest]
    rfl

theorem readItems_eq (element : Kind) (n : Nat) : ∀ {i : Nat},
    readItems (fun i => read h element (h.get a (.position i))) n i =
      readParts h (items element n i) a := by
  induction n with
  | zero => intros; rfl
  | succ n ih =>
    intro i
    rw [readItems, ih, items_succ]
    rfl

theorem decodeItems_eq (element : Kind) (n : Nat) : ∀ {i : Nat} {s : Heap × Nat},
    eachItem (fun i => decodePart (decodeKind bytes element) a (.position i)) n i s =
      decodeParts bytes (items element n i) a s := by
  induction n with
  | zero => intros; rfl
  | succ n ih =>
    intro i s
    rw [eachItem, items_succ, decodeParts]
    congr 1
    funext s
    exact ih

theorem itemsLeaves_eq (element : Kind) (n : Nat) : ∀ {i : Nat},
    (List.replicate n element.leaves).flatten =
      (items element n i).flatMap fun part => part.2.leaves := by
  induction n with
  | zero => intros; rfl
  | succ n ih =>
    intro i
    rw [List.replicate_succ, List.flatten_cons, items_succ, List.flatMap_cons, ← ih]

theorem slots_nested (hk : k.isNested = true) :
    slots h k v = (v.asTable.map (partsSlots h k.parts)).getD [] := by
  cases k with
  | scalar => cases hk
  | array n element =>
    cases v with
    | table a =>
      simp only [slots, Value.asTable, Option.map_some, Option.getD_some, partsSlots, Kind.parts,
        items, List.flatMap_map]
    | _ => rfl
  | format fields =>
    cases v with
    | table a => exact slotsFields_eq fields a
    | _ => rfl

theorem read_nested (hk : k.isNested = true) :
    read h k v = v.asTable.bind (readParts h k.parts) := by
  cases k with
  | scalar => cases hk
  | array n element =>
    cases v with
    | table a => exact readItems_eq element n
    | _ => rfl
  | format fields =>
    cases v with
    | table a => exact readFields_eq fields a
    | _ => rfl

theorem leaves_nested (hk : k.isNested = true) :
    k.leaves = k.parts.flatMap fun part => part.2.leaves := by
  cases k with
  | scalar => cases hk
  | array n element => exact itemsLeaves_eq element n
  | format fields => exact fieldsLeaves_eq fields

theorem decodeKind_nested (hk : k.isNested = true) (p : Nat) :
    decodeKind bytes k (h, p) v = (do
      let s ← decodeParts bytes k.parts (refill h v).1 ((refill h v).2, p)
      return (.table (refill h v).1, s)) := by
  cases k with
  | scalar => cases hk
  | array n element =>
    rw [decodeKind, Kind.parts, ← decodeItems_eq]
  | format fields =>
    rw [decodeKind, Kind.parts, ← decodeFields_eq]

end Lhat.Binary
