import Lhat.Table.Basic

/-!
# The memo of a carry

Which node stands for an object that was met: open addressing over the addresses,
never more than half full, and nothing is ever taken out of it.
-/

namespace Lhat.Carry

/-- A place of the two runs `keys` and `values`. It is free while the key is `NULL`. -/
structure MemoSlot where
  key : Address := 0
  value : Nat := 0
deriving DecidableEq

/-- `Memo`. The capacity is the number of slots. -/
structure Memo where
  slots : List MemoSlot := []
  count : Nat := 0
deriving DecidableEq

/-- `hash_pointer`. -/
def hashPointer (p : Address) : UInt64 :=
  let x := p ^^^ (p >>> 17)
  let x := x * 0x9E3779B97F4A7C15
  x ^^^ (x >>> 29)

def MemoSlot.free (slot : MemoSlot) : Bool := decide (slot.key = 0)

/-- No slot of the memo holds a value without a key. -/
def MemoSlot.keyless (_ : MemoSlot) : Bool := false

/-- The key of a slot in use. -/
def MemoSlot.held (slot : MemoSlot) : Option Address :=
  if slot.key = 0 then none else some slot.key

/-- The loop that looks for `NULL`, or for a slot the comparison answers. -/
def Memo.probe (slots : List MemoSlot) (hit : MemoSlot → Option Bool) (key : Address) :
    Option Nat :=
  OpenAddressing.search MemoSlot.free MemoSlot.keyless hit slots slots.length
    ((hashPointer key).toNat &&& (slots.length - 1)) none

/-- `memo_find`. -/
def memoFind (memo : Memo) (key : Address) : Option (Option Nat) :=
  if memo.slots = [] then some none
  else
    match Memo.probe memo.slots (fun slot => some (decide (slot.key = key))) key with
    | none => none
    | some i =>
      let slot := memo.slots.getD i {}
      some (if slot.key = 0 then none else some slot.value)

/-- The capacity that `memo_grow` asks for. -/
def Memo.wider (memo : Memo) : Nat := if memo.slots = [] then 64 else memo.slots.length * 2

/-- `memo_grow`. Both runs are asked for before either is looked at. -/
def memoGrow (memo : Memo) (m : Memory) : Option (Bool × Memo × Memory) :=
  let keys := m.request (memo.wider * 8)
  let values := keys.request (memo.wider * 8)
  if m.granted (memo.wider * 8) && keys.granted (memo.wider * 8) then
    match OpenAddressing.rehash MemoSlot.free MemoSlot.keyless MemoSlot.held
        (fun key => (hashPointer key).toNat) (fun _ _ => some false) memo.slots
        (List.replicate memo.wider {}) 0 with
    | none => none
    | some (slots, _) => some (true, { memo with slots := slots }, values)
  else some (false, memo, values)

/-- The write that ends `memo_put`. -/
def Memo.enter (memo : Memo) (key : Address) (index : Nat) : Option Memo :=
  (Memo.probe memo.slots (fun _ => some false) key).map fun i =>
    { slots := memo.slots.set i ⟨key, index⟩, count := memo.count + 1 }

/-- `memo_put`. -/
def memoPut (memo : Memo) (m : Memory) (key : Address) (index : Nat) :
    Option (Bool × Memo × Memory) :=
  if memo.slots.length < (memo.count + 1) * 2 then
    match memoGrow memo m with
    | none => none
    | some (false, memo, m) => some (false, memo, m)
    | some (true, memo, m) => (memo.enter key index).map fun memo => (true, memo, m)
  else (memo.enter key index).map fun memo => (true, memo, m)

end Lhat.Carry
