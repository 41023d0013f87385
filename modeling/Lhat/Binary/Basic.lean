import Mathlib.Data.Rat.Init
import Mathlib.Data.UInt
import Mathlib.Logic.Function.Basic

/-!
# The tables that records are read from and written to

A table is what it holds under each position and each name, and what it is read through when
it holds nothing there: its definition, and what its definition lends it members of. A
position that holds nil in the middle of a sequence is held.

The requests for memory of this part are granted.
-/

namespace Lhat.Binary

/-- Bytes that are read as characters. -/
abbrev Text := List UInt8

def text (s : String) : Text := s.toUTF8.toList

/-- An enum that is declared, with its members numbered from one. -/
structure Enum where
  id : Nat
  count : Nat
deriving DecidableEq

structure Enumerator where
  owner : Enum
  index : Nat
  inside : 1 ≤ index ∧ index ≤ owner.count
deriving DecidableEq

/-- The member at a place counted from zero. -/
def Enum.member (e : Enum) (place : Nat) : Option Enumerator :=
  if h : place + 1 ≤ e.count then some ⟨e, place + 1, by omega, h⟩ else none

/-- The values a record is made of. The reals are exact here, and an object that is neither
read nor written is `other`. -/
inductive Value where
  | nil
  | bool (b : Bool)
  | integer (n : Int64)
  | real (x : ℚ)
  | enumerator (member : Enumerator)
  | enum (owner : Enum)
  | table (address : Nat)
  | hostdata (members : Option Nat)
  | subroutine (takesSelf : Bool)
  | other
deriving DecidableEq

namespace Value

/-- `lhat_number_as_real`, of what is a number. -/
def number : Value → Option ℚ
  | integer n => some n.toInt
  | real x => some x
  | _ => none

def asTable : Value → Option Nat
  | table a => some a
  | _ => none

def membersTable : Value → Option Nat
  | table a => some a
  | hostdata members => members
  | _ => none

def takesReceiver : Value → Bool
  | subroutine takesSelf => takesSelf
  | _ => false

theorem asTable_of_takesReceiver {v : Value} (h : v.takesReceiver = true) : v.asTable = none := by
  cases v <;> first | rfl | cases h

end Value

inductive Key where
  | position (i : Nat)
  | name (text : Text)
deriving DecidableEq

structure Table where
  own : Key → Option Value := fun _ => none
  definition : Option Nat := none
  isDefinition : Bool := false
  delegateKey : Option Key := none
  delegateFromSelf : Bool := false
  shared : Bool := false

structure Heap where
  tables : Nat → Table
  next : Nat

namespace Heap

def own (h : Heap) (a : Nat) (key : Key) : Option Value := (h.tables a).own key

/-- `delegate_next`. -/
def delegateNext (h : Heap) : Value → Option Value
  | .table a =>
    let receiver := h.tables a
    if receiver.isDefinition then none
    else do
      let owner ← receiver.definition
      let key ← (h.tables owner).delegateKey
      let value ← h.own (if (h.tables owner).delegateFromSelf then a else owner) key
      if value.membersTable.isSome then some value else none
  | _ => none

/-- One table and the definitions behind it. A nearer name blocks deeper ones even when it
cannot be lent. -/
def readDefinitions (h : Heap) (key : Key) (restricted delegated : Bool) :
    Nat → Option Nat → Bool → Option Value
  | 0, _, _ => none
  | _ + 1, none, _ => none
  | fuel + 1, some a, inherited =>
    match h.own a key with
    | none => readDefinitions h key restricted delegated fuel (h.tables a).definition true
    | some value =>
      if ((restricted && inherited) || delegated) && !value.takesReceiver then some .nil
      else some value

/-- The walk over what a receiver is lent members of. A receiver that is come to again has
nothing either, so there are no more turns than receivers. -/
def readDelegates (h : Heap) (key : Key) (root : Value) : Nat → Value → Value
  | 0, _ => .nil
  | fuel + 1, receiver =>
    match receiver.membersTable with
    | none => .nil
    | some a =>
      match readDefinitions h key (!(h.tables a).isDefinition) (receiver ≠ root) (h.next + 1)
          (some a) false with
      | some value => value
      | none =>
        match h.delegateNext receiver with
        | none => .nil
        | some next => readDelegates h key root fuel next

/-- `table_get_in`, of a key that is a position or a name. -/
def get (h : Heap) (a : Nat) (key : Key) : Value :=
  readDelegates h key (.table a) (h.next + 2) (.table a)

/-- `lhat_machine_table_set`, of a table that is not shared. -/
def set (h : Heap) (a : Nat) (key : Key) (value : Value) : Heap :=
  { h with
    tables := Function.update h.tables a
      { h.tables a with own := Function.update (h.tables a).own key (some value) } }

/-- `lhat_machine_make_table`. -/
def make (h : Heap) : Nat × Heap :=
  (h.next, { tables := Function.update h.tables h.next {}, next := h.next + 1 })

variable {h : Heap} {a b : Nat} {key other : Key} {value : Value}

theorem get_of_own (hown : h.own a key = some value) : h.get a key = value := by
  unfold get readDelegates
  simp only [Value.membersTable]
  unfold readDefinitions
  simp [hown]

/-- Whether the member read of a key would find what the table holds itself. A definition
that extends another reads through to it. -/
def Finds (h : Heap) (a : Nat) (key : Key) : Prop :=
  (h.own a key).isSome ∨ ¬((h.tables a).isDefinition = true ∧ (h.tables a).definition.isSome)

theorem readDefinitions_lent {restricted delegated : Bool} :
    ∀ (fuel : Nat) (node : Option Nat) (inherited : Bool) (value : Value),
      ((restricted && inherited) || delegated) = true →
      readDefinitions h key restricted delegated fuel node inherited = some value →
      value.asTable = none
  | 0, _, _, _, _, h => nomatch h
  | _ + 1, none, _, _, _, h => nomatch h
  | fuel + 1, some a, inherited, value, hlent, hread => by
    unfold readDefinitions at hread
    split at hread
    · refine readDefinitions_lent fuel _ true value ?_ hread
      revert hlent
      cases restricted <;> cases delegated <;> simp
    · rw [hlent, Bool.true_and] at hread
      split at hread
      · cases hread
        rfl
      · rename_i htaken
        cases hread
        rw [Bool.not_eq_true', Bool.not_eq_false] at htaken
        exact Value.asTable_of_takesReceiver htaken

theorem readDelegates_lent (hown : h.own a key = none) (hplain : (h.tables a).isDefinition = false) :
    ∀ (fuel : Nat) (node : Value), (readDelegates h key (.table a) fuel node).asTable = none
  | 0, _ => rfl
  | fuel + 1, node => by
    unfold readDelegates
    split
    · rfl
    · rename_i b hb
      split
      · rename_i value hread
        by_cases hroot : node = .table a
        · subst hroot
          cases hb
          unfold readDefinitions at hread
          rw [hown] at hread
          exact readDefinitions_lent _ _ _ _ (by simp [hplain]) hread
        · exact readDefinitions_lent _ _ _ _ (by simp [hroot]) hread
      · split
        · rfl
        · exact readDelegates_lent hown hplain fuel _

theorem asTable_get (hfinds : h.Finds a key) :
    (h.get a key).asTable = (h.own a key).bind Value.asTable := by
  cases hown : h.own a key with
  | some value => rw [get_of_own hown, Option.bind_some]
  | none =>
    rw [Option.bind_none]
    by_cases hdefinition : (h.tables a).isDefinition = true
    · obtain hheld | hbase := hfinds
      · rw [hown] at hheld
        cases hheld
      · have hnone : (h.tables a).definition = none :=
          Option.not_isSome_iff_eq_none.mp fun hsome => hbase ⟨hdefinition, hsome⟩
        unfold get readDelegates
        simp only [Value.membersTable]
        unfold readDefinitions
        rw [hown]
        simp only [hnone]
        cases h.next with
        | zero => simp [readDefinitions, delegateNext, hdefinition, Value.asTable]
        | succ n => simp [readDefinitions, delegateNext, hdefinition, Value.asTable]
    · exact readDelegates_lent hown (Bool.eq_false_iff.mpr hdefinition) _ _

end Heap

end Lhat.Binary
