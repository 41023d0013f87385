import Lhat.Check.Types
import Lhat.Foundation.ProbeRuns

/-!
# The index of a list of members

A list of members that is long enough has an index beside it, an open addressing that is at most
half full and from which nothing is taken. It is built from the list, where there is memory for
it, and answers every name as a walk down the list would.
-/

namespace Lhat.Check

open Lexing (Text)

/-- `LHAT_TYPE_INDEX_FROM`. -/
def indexFrom : Nat := 16

/-- `LhatTypeIndex`. The capacity is the number of slots. -/
structure LhatTypeIndex where
  slots : List (Option LhatTypeMember)
  count : Nat

/-- A type with the index of its members. -/
structure IndexedType where
  type : LhatType
  index : Option LhatTypeIndex := none

/-- Which requests of a call the arena has memory for. -/
structure Grants where
  member : Bool
  owned : Bool
  index : Bool
  slots : Bool

/-- `member_hash`. -/
def memberHash (name : Text) : UInt64 :=
  name.foldl (fun h byte => (h ^^^ byte.toUInt64) * 1099511628211) 1469598103934665603

/-- Where the loops over the slots begin. -/
def memberHome (name : Text) : Nat := (memberHash name).toNat

/-- `index_put`. There is no index where its loop finds no free slot. -/
def indexPut (index : LhatTypeIndex) (member : LhatTypeMember) : Option LhatTypeIndex :=
  (ProbeRuns.put LhatTypeMember.name memberHome index.slots member).map fun slots =>
    { slots := slots, count := index.count + 1 }

/-- The loop of `index_build` to a capacity. -/
def indexCapacity (wanted : Nat) : Nat → Nat → Nat
  | 0, capacity => capacity
  | turns + 1, capacity =>
    if capacity < wanted * 2 then indexCapacity wanted turns (capacity * 2) else capacity

/-- `index_build`. -/
def indexBuild (granted : Grants) (owner : IndexedType) (wanted : Nat) : Option IndexedType :=
  if granted.index && granted.slots then
    (owner.type.members.foldlM indexPut
      { slots := List.replicate (indexCapacity wanted wanted 16) none, count := 0 }).map
      fun index => { owner with index := some index }
  else some { owner with index := none }

/-- `index_added`, of the member that is the last on the list. -/
def indexAdded (granted : Grants) (owner : IndexedType) (member : LhatTypeMember) :
    Option IndexedType :=
  match owner.index with
  | none =>
    if indexFrom ≤ owner.type.members.length then
      indexBuild granted owner owner.type.members.length
    else some owner
  | some index =>
    if index.slots.length < (index.count + 1) * 2 then indexBuild granted owner (index.count + 1)
    else (indexPut index member).map fun index => { owner with index := some index }

/-- `lhat_type_own_member`, without an answer where its loop has no end. -/
def lhatTypeOwnMember (table : IndexedType) (name : Text) : Option (Option LhatTypeMember) :=
  if !table.type.holdsMembers then some none
  else
    match table.index with
    | none => some (table.type.members.find? (·.name = heldAs table.type name))
    | some index =>
      ProbeRuns.lookup LhatTypeMember.name memberHome index.slots (heldAs table.type name)

/-- `lhat_type_add_member`, of a type whose members are on its list. -/
def lhatTypeAddMember (granted : Grants) (owner : IndexedType) (name : Text) (type : TypeRef) :
    Option IndexedType :=
  let held := heldAs owner.type name
  if granted.member && (held.isEmpty || granted.owned) then
    let member : LhatTypeMember := { name := held, type := type }
    indexAdded granted
      { owner with type := { owner.type with members := owner.type.members ++ [member] } } member
  else some owner

/-- `index_digits`. -/
def indexDigits (index capacity : Nat) : Text :=
  let digits := Lexing.text (Nat.repr index)
  if capacity < digits.length then [] else digits

/-- `lhat_type_add_index_member`. -/
def lhatTypeAddIndexMember (granted : Grants) (owner : IndexedType) (index : Nat)
    (type : TypeRef) : Option IndexedType :=
  let digits := indexDigits index 24
  if digits.isEmpty then some owner else lhatTypeAddMember granted owner digits type

/-- What is done to a type: a member is added, or it is marked as one whose names are not the
writer's. -/
inductive MemberCall where
  | addMember (granted : Grants) (name : Text) (type : TypeRef)
  | addIndexMember (granted : Grants) (index : Nat) (type : TypeRef)
  | mark (isDefinition fromDefinition nominal : Bool)

def MemberCall.run (owner : IndexedType) : MemberCall → Option IndexedType
  | .addMember granted name type => lhatTypeAddMember granted owner name type
  | .addIndexMember granted index type => lhatTypeAddIndexMember granted owner index type
  | .mark isDefinition fromDefinition nominal =>
    some { owner with type := { owner.type with
      isDefinition := isDefinition, fromDefinition := fromDefinition, nominal := nominal } }

/-- An index of so many members. -/
structure LhatTypeIndex.Holds (index : LhatTypeIndex) (members : List LhatTypeMember) : Prop where
  wf : ProbeRuns.Wf LhatTypeMember.name memberHome index.slots members
  count : index.count = members.length
  load : members.length * 2 ≤ index.slots.length

/-- What is kept of a type: its index, where there is one, is of the members on its list. -/
def IndexedType.Inv (owner : IndexedType) : Prop :=
  ∀ index, owner.index = some index → index.Holds owner.type.members

theorem indexPut_holds {index : LhatTypeIndex} {members : List LhatTypeMember}
    (hwf : ProbeRuns.Wf LhatTypeMember.name memberHome index.slots members)
    (hcount : index.count = members.length) (member : LhatTypeMember)
    (hroom : members.length + 1 < index.slots.length) :
    ∃ index', indexPut index member = some index' ∧
      index'.slots.length = index.slots.length ∧ index'.count = (members ++ [member]).length ∧
      ProbeRuns.Wf LhatTypeMember.name memberHome index'.slots (members ++ [member]) := by
  obtain ⟨slots, hput, hlength, hwf'⟩ := hwf.put member hroom
  exact ⟨_, by rw [indexPut, hput]; rfl, hlength, by simp [hcount], hwf'⟩

theorem foldlM_indexPut : ∀ (rest : List LhatTypeMember) {members : List LhatTypeMember}
    {index : LhatTypeIndex}, ProbeRuns.Wf LhatTypeMember.name memberHome index.slots members →
    index.count = members.length → members.length + rest.length < index.slots.length →
    ∃ index', rest.foldlM indexPut index = some index' ∧
      index'.slots.length = index.slots.length ∧ index'.count = (members ++ rest).length ∧
      ProbeRuns.Wf LhatTypeMember.name memberHome index'.slots (members ++ rest)
  | [], members, index, hwf, hcount, _ => by
    rw [List.append_nil]
    exact ⟨index, rfl, rfl, hcount, hwf⟩
  | member :: rest, members, index, hwf, hcount, hroom => by
    rw [List.length_cons] at hroom
    obtain ⟨index₁, hput, hlength, hcount₁, hwf₁⟩ := indexPut_holds hwf hcount member (by omega)
    obtain ⟨index₂, hfold, hlength₂, hcount₂, hwf₂⟩ := foldlM_indexPut rest hwf₁ hcount₁
      (by rw [hlength, List.length_append, List.length_singleton]; omega)
    rw [List.append_assoc, List.singleton_append] at hcount₂ hwf₂
    exact ⟨index₂, by rw [List.foldlM_cons, hput]; exact hfold, hlength₂.trans hlength, hcount₂,
      hwf₂⟩

theorem indexCapacity_spec (wanted : Nat) : ∀ (turns e : Nat), 16 ≤ 2 ^ e →
    wanted * 2 ≤ 2 ^ e + turns * 16 →
    ∃ e', indexCapacity wanted turns (2 ^ e) = 2 ^ e' ∧ 16 ≤ 2 ^ e' ∧ wanted * 2 ≤ 2 ^ e'
  | 0, e, hlow, hwanted => ⟨e, rfl, hlow, by omega⟩
  | turns + 1, e, hlow, hwanted => by
    rw [indexCapacity]
    split
    · rw [← Nat.pow_succ]
      exact indexCapacity_spec wanted turns (e + 1) (by rw [Nat.pow_succ]; omega)
        (by rw [Nat.pow_succ]; omega)
    · exact ⟨e, rfl, hlow, by omega⟩

theorem indexBuild_inv (granted : Grants) (owner : IndexedType) {wanted : Nat}
    (hwanted : wanted = owner.type.members.length) :
    ∃ owner', indexBuild granted owner wanted = some owner' ∧ owner'.Inv := by
  unfold indexBuild
  split
  · obtain ⟨e, hcap, hlow, hload⟩ := indexCapacity_spec wanted wanted 4 (by decide) (by omega)
    rw [show indexCapacity wanted wanted 16 = 2 ^ e from hcap]
    let blank : LhatTypeIndex := { slots := List.replicate (2 ^ e) none, count := 0 }
    have hblank : blank.slots.length = 2 ^ e := List.length_replicate
    obtain ⟨index, hfold, hlength, hcount, hwf⟩ := @foldlM_indexPut owner.type.members [] blank
      (.blank e) rfl (by rw [List.length_nil]; omega)
    refine ⟨_, by rw [hfold]; rfl, fun index' h => ?_⟩
    obtain rfl := Option.some.inj h
    exact ⟨hwf, hcount, by rw [hlength, hblank, ← hwanted]; exact hload⟩
  · exact ⟨_, rfl, nofun⟩

theorem lhatTypeAddMember_inv {owner : IndexedType} (h : owner.Inv) (granted : Grants)
    (name : Text) (type : TypeRef) :
    ∃ owner', lhatTypeAddMember granted owner name type = some owner' ∧ owner'.Inv := by
  unfold lhatTypeAddMember
  dsimp only
  split
  · unfold indexAdded
    dsimp only
    split
    · next hnone =>
        split
        · exact indexBuild_inv granted _ rfl
        · exact ⟨_, rfl, fun index hindex => nomatch hnone.symm.trans hindex⟩
    · next index hindex =>
        obtain ⟨hwf, hcount, hload⟩ := h index hindex
        split
        · exact indexBuild_inv granted _ (by simp [hcount])
        · next hfit =>
            obtain ⟨index', hput, hlength, hcount', hwf'⟩ :=
              indexPut_holds hwf hcount { name := heldAs owner.type name, type := type } (by omega)
            refine ⟨_, by rw [hput]; rfl, fun index'' h => ?_⟩
            obtain rfl := Option.some.inj h
            exact ⟨hwf', hcount', by rw [List.length_append, List.length_singleton]; omega⟩
  · exact ⟨owner, rfl, h⟩

theorem MemberCall.run_inv {owner : IndexedType} (h : owner.Inv) (call : MemberCall) :
    ∃ owner', call.run owner = some owner' ∧ owner'.Inv := by
  cases call with
  | addMember granted name type => exact lhatTypeAddMember_inv h granted name type
  | addIndexMember granted index type =>
    unfold MemberCall.run lhatTypeAddIndexMember
    dsimp only
    split
    · exact ⟨owner, rfl, h⟩
    · exact lhatTypeAddMember_inv h granted _ type
  | mark => exact ⟨_, rfl, h⟩

/-- Whatever members were added, and wherever there was no memory, every loop ends and a name is
answered by the first member on the list that is held under it. -/
theorem lhatTypeOwnMember_eq (type : LhatType) (calls : List MemberCall) :
    ∃ table, calls.foldlM MemberCall.run { type := { type with members := [] } } = some table ∧
      ∀ name, lhatTypeOwnMember table name = some (if table.type.holdsMembers then
        table.type.members.find? (·.name = heldAs table.type name) else none) := by
  suffices hall : ∀ (calls : List MemberCall) {owner : IndexedType}, owner.Inv →
      ∃ table, calls.foldlM MemberCall.run owner = some table ∧ table.Inv by
    obtain ⟨table, hrun, h⟩ := @hall calls { type := { type with members := [] } } nofun
    refine ⟨table, hrun, fun name => ?_⟩
    unfold lhatTypeOwnMember
    cases hholds : table.type.holdsMembers with
    | false => rfl
    | true =>
      cases hindex : table.index with
      | none => rfl
      | some index => exact (h index hindex).wf.lookup_eq _
  intro calls
  induction calls with
  | nil => exact fun h => ⟨_, rfl, h⟩
  | cons call calls ih =>
    intro owner h
    obtain ⟨owner', hcall, h'⟩ := call.run_inv h
    rw [List.foldlM_cons, hcall]
    exact ih h'

end Lhat.Check
