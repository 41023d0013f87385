import Lhat.Runtime.Key
import Mathlib.Data.List.Nodup
import Mathlib.Logic.Function.Basic

/-!
# The tables that records hold

A table has a sequence, and entries under every other key. How an entry is found among the
slots is not looked at again here: a key stands in one slot at most, and the slots of a table
that is read from a record are filled one after the other. Strings are their bytes.

Requests for memory are granted, but never for a sequence of half the address space.
-/

namespace Lhat.Records

inductive Value where
  | nil
  | bool (b : Bool)
  | integer (n : Int64)
  | real (d : Binary64)
  | string (text : List UInt8)
  | table (address : Nat)
  /-- What no record holds: a subroutine, an enum, a host's own. -/
  | other (address : Nat)
deriving DecidableEq

/-- `isfinite`. -/
def isFinite (d : Binary64) : Bool := decide (d.magnitudeBits < 2047 * 2 ^ 52)

/-- `usable_key`. -/
def usableKey : Value → Bool
  | .nil => false
  | .real d => d.eq d
  | _ => true

/-- `normalise_key`. -/
def normaliseKey : Value → Value
  | .real d =>
    match lhatNumberAsWhole (.real d) with
    | some whole => .integer whole
    | none => .real d
  | key => key

theorem normaliseKey_normaliseKey (key : Value) :
    normaliseKey (normaliseKey key) = normaliseKey key := by
  cases key with
  | real d =>
    cases hwhole : lhatNumberAsWhole (.real d) with
    | none => simp only [normaliseKey, hwhole]
    | some n => simp only [normaliseKey, hwhole]
  | _ => rfl

/-- A key as a table holds it. -/
structure Held (key : Value) : Prop where
  usable : usableKey key = true
  normal : normaliseKey key = key

theorem Held.ne_nil {key : Value} (h : Held key) : key ≠ .nil := by
  rintro rfl
  cases h.usable

theorem held_normaliseKey {key : Value} (h : usableKey key = true) : Held (normaliseKey key) := by
  refine ⟨?_, normaliseKey_normaliseKey key⟩
  cases key with
  | real d =>
    cases hwhole : lhatNumberAsWhole (.real d) with
    | none => simpa only [normaliseKey, hwhole] using h
    | some n => simp only [normaliseKey, hwhole, usableKey]
  | _ => exact h

/-- A slot without a key is free, or a tombstone. -/
structure Entry where
  key : Value := .nil
  value : Value := .nil
deriving DecidableEq

def Entry.tombstone : Entry := { value := .bool true }

/-- The keys that are held. -/
def keysOf (entries : List Entry) : List Value :=
  (entries.map Entry.key).filter (· ≠ .nil)

structure Table where
  array : List Value := []
  entries : List Entry := []
  isDefinition : Bool := false
  definition : Option Nat := none
  held : ∀ key ∈ keysOf entries, Held key
  once : (keysOf entries).Nodup
  short : array.length < 2 ^ 63

namespace Table

variable {t : Table} {key : Value}

/-- `lhat_table_new`. -/
def new : Table where
  entries := []
  held := fun _ h => by cases h
  once := List.nodup_nil
  short := by simp

/-- The entries that stand. -/
def live (t : Table) : List Entry := t.entries.filter (·.key ≠ .nil)

def entryCount (t : Table) : Nat := t.live.length

/-- What stands under a key beside the sequence. -/
def find (t : Table) (key : Value) : Option Value :=
  (t.live.find? (·.key = key)).map Entry.value

/-- `array_index`. A real names the position it rounds to. -/
def arrayIndex (length : Nat) (key : Value) : Option Nat :=
  let inside (i : Int) : Option Nat := if i < 0 ∨ (length : Int) ≤ i then none else some i.toNat
  match key with
  | .integer i => inside i.toInt
  | .real d =>
    if (Binary64.ofInt (-9000000000000000)).lt d && d.lt (Binary64.ofInt 9000000000000000) then
      inside d.floorAddHalf
    else none
  | _ => none

theorem keysOf_eq (entries : List Entry) :
    keysOf entries = (entries.filter (·.key ≠ .nil)).map Entry.key := by
  induction entries with
  | nil => rfl
  | cons e entries ih =>
    by_cases h : e.key = .nil
    · simpa [keysOf, h] using ih
    · simpa [keysOf, h] using ih

theorem arrayIndex_lt {length i : Nat} (h : arrayIndex length key = some i) : i < length := by
  have hinside : ∀ n : Int, (if n < 0 ∨ (length : Int) ≤ n then none else some n.toNat) = some i →
      i < length := by
    intro n hn
    split at hn
    · cases hn
    · cases hn
      omega
  unfold arrayIndex at h
  cases key with
  | integer n => exact hinside _ h
  | real d =>
    dsimp only at h
    split at h
    · exact hinside _ h
    · cases h
  | _ => cases h

/-! ### Reading and writing -/

/-- `lhat_table_get`, of a table without a definition. -/
def get (t : Table) (key : Value) : Value :=
  if usableKey key = false then .nil
  else
    let key := normaliseKey key
    match arrayIndex t.array.length key with
    | some i => t.array.getD i .nil
    | none => (t.find key).getD .nil

/-- The slots with the entry of a key made a tombstone. -/
def bury (entries : List Entry) (key : Value) : List Entry :=
  entries.map fun e => if e.key = key then .tombstone else e

theorem keysOf_bury (entries : List Entry) (hne : key ≠ .nil) :
    keysOf (bury entries key) = (keysOf entries).filter (· ≠ key) := by
  induction entries with
  | nil => rfl
  | cons e entries ih =>
    have ih' : keysOf (bury entries key) = (keysOf entries).filter (· ≠ key) := ih
    by_cases he : e.key = key
    · have hcons : keysOf (bury (e :: entries) key) = keysOf (bury entries key) := by
        simp [keysOf, bury, he, Entry.tombstone]
      have hcons' : keysOf (e :: entries) = e.key :: keysOf entries := by
        simp [keysOf, he, hne]
      rw [hcons, hcons', ih']
      simp [he]
    · by_cases hnil : e.key = .nil
      · have hcons : keysOf (bury (e :: entries) key) = keysOf (bury entries key) := by
          simp [keysOf, bury, hnil, Ne.symm hne]
        have hcons' : keysOf (e :: entries) = keysOf entries := by simp [keysOf, hnil]
        rw [hcons, hcons', ih']
      · have hcons : keysOf (bury (e :: entries) key) = e.key :: keysOf (bury entries key) := by
          simp [keysOf, bury, he, hnil]
        have hcons' : keysOf (e :: entries) = e.key :: keysOf entries := by simp [keysOf, hnil]
        rw [hcons, hcons', ih']
        simp [he]

/-- A table without the entry of a key. -/
def without (t : Table) (key : Value) (hne : key ≠ .nil) : Table :=
  { t with
    entries := bury t.entries key
    held := fun k hk => t.held k (List.mem_of_mem_filter (keysOf_bury t.entries hne ▸ hk))
    once := (keysOf_bury t.entries hne) ▸ t.once.filter _ }

/-- One position more, where there is memory for it. -/
def append (t : Table) (value : Value) : Option Table :=
  if h : t.array.length + 1 < 2 ^ 63 then
    some { t with
      array := t.array ++ [value]
      short := by simpa using h }
  else none

/-- `drain_into_array`, in no more turns than there are entries. -/
def drainIntoArray : Nat → Table → Table
  | 0, t => t
  | turns + 1, t =>
    let key := Value.integer (Int64.ofNat t.array.length)
    match t.find key with
    | none => t
    | some value =>
      match (t.without key (by simp [key])).append value with
      | none => t
      | some t => drainIntoArray turns t

/-- The slots with the value of a key written over. -/
def overwrite (entries : List Entry) (key value : Value) : List Entry :=
  entries.map fun e => if e.key = key then { e with value := value } else e

theorem keysOf_overwrite (entries : List Entry) (value : Value) :
    keysOf (overwrite entries key value) = keysOf entries := by
  unfold keysOf overwrite
  rw [List.map_map]
  congr 1
  refine List.map_congr_left fun e _ => ?_
  dsimp only [Function.comp]
  split <;> rfl

theorem keysOf_snoc (entries : List Entry) (value : Value) (hne : key ≠ .nil) :
    keysOf (entries ++ [⟨key, value⟩]) = keysOf entries ++ [key] := by
  simp [keysOf, hne]

/-- The write of `lhat_table_set` past the sequence. -/
def setEntry (t : Table) (key value : Value) (hkey : Held key) : Table :=
  if value = .nil then t.without key hkey.ne_nil
  else if hin : key ∈ keysOf t.entries then
    { t with
      entries := overwrite t.entries key value
      held := fun k hk => t.held k (keysOf_overwrite t.entries value ▸ hk)
      once := (keysOf_overwrite t.entries value) ▸ t.once }
  else
    { t with
      entries := t.entries ++ [⟨key, value⟩]
      held := fun k hk => by
        rw [keysOf_snoc t.entries value hkey.ne_nil, List.mem_append, List.mem_singleton] at hk
        obtain hk | rfl := hk
        · exact t.held k hk
        · exact hkey
      once := by
        rw [keysOf_snoc t.entries value hkey.ne_nil]
        exact t.once.append (List.nodup_singleton key) (by simpa using hin) }

/-- What a write answers. -/
inductive Outcome where
  | done (t : Table)
  | refused
  | outOfMemory

/-- `lhat_table_set`. -/
def set (t : Table) (key value : Value) : Outcome :=
  if hkey : usableKey key = false then .refused
  else
    have hheld : Held (normaliseKey key) := held_normaliseKey (Bool.not_eq_false _ ▸ hkey)
    match arrayIndex t.array.length (normaliseKey key) with
    | some i => .done { t with
        array := t.array.set i value
        short := by simpa using t.short }
    | none =>
      if normaliseKey key = .integer (Int64.ofNat t.array.length) then
        match t.append value with
        | none => .outOfMemory
        | some t => .done (drainIntoArray t.entryCount t)
      else .done (t.setEntry (normaliseKey key) value hheld)

/-- `lhat_table_resize`, of a table that has nothing yet. -/
def sized (length : Nat) : Option Table :=
  if h : length < 2 ^ 63 then
    some { new with
      array := List.replicate length .nil
      short := by simpa using h }
  else none

end Table

/-! ### Contents -/

structure Heap where
  tables : Nat → Table
  next : Nat

/-- `lhat_machine_make_table`. -/
def Heap.make (h : Heap) (t : Table) : Heap :=
  { tables := Function.update h.tables h.next t, next := h.next + 1 }

def Heap.write (h : Heap) (a : Nat) (t : Table) : Heap :=
  { h with tables := Function.update h.tables a t }

/-- What a value holds, down to a depth. A mapping is what stands under each key. -/
inductive Contents where
  | scalar (v : Value)
  /-- A table that is too deep to look into. -/
  | cut
  | table (array : List Contents) (entries : Value → Option Contents)

def contents (h : Heap) : Nat → Value → Contents
  | 0, .table _ => .cut
  | depth + 1, .table a =>
    .table ((h.tables a).array.map (contents h depth)) fun key =>
      ((h.tables a).find key).map (contents h depth)
  | _, v => .scalar v

/-- The values of two heaps hold the same, as deep as one may look. -/
def SameContents (h : Heap) (v : Value) (g : Heap) (w : Value) : Prop :=
  ∀ depth, contents h depth v = contents g depth w

/-- The tables of a value: itself and those it holds. -/
inductive Within (h : Heap) : Value → Nat → Prop where
  | self {a : Nat} : Within h (.table a) a
  | item {a b : Nat} {v : Value} : v ∈ (h.tables a).array → Within h v b → Within h (.table a) b
  | entry {a b : Nat} {e : Entry} : e ∈ (h.tables a).live → Within h e.value b →
      Within h (.table a) b

/-- `lhat_number_as_real`. -/
def Value.asReal : Value → Option Binary64
  | integer n => some (.ofInt n.toInt)
  | real d => some d
  | _ => none

/-- Whether a number is whole: `floor(n) == n`. -/
def isWhole (d : Binary64) : Bool := decide (d.scaled % 2 ^ 1074 = 0)

/-- Whether a key is a number that belongs to a sequence of so many positions, the next one
included. -/
def belongs (length : Nat) (key : Value) : Bool :=
  match key.asReal with
  | none => false
  | some n => (Binary64.ofInt 0).le n && n.le (.ofInt length) && isWhole n

/-- An entry with a value, under a key that is no position of a sequence of so many: neither a
whole number up to its length, nor a number that rounds to a position. -/
def Entry.Apart (length : Nat) (e : Entry) : Prop :=
  e.value ≠ .nil ∧ belongs length e.key = false ∧ e.key ≠ .integer (.ofNat length) ∧
    Table.arrayIndex length e.key = none

instance (length : Nat) (e : Entry) : Decidable (e.Apart length) := by
  unfold Entry.Apart
  infer_instance

/-- Every entry stands apart from the sequence. -/
def Table.Apart (t : Table) : Prop := ∀ e ∈ t.live, e.Apart t.array.length

instance (t : Table) : Decidable t.Apart := by
  unfold Table.Apart
  infer_instance

end Lhat.Records
