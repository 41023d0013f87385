import Lhat.Check.Types
import Lhat.Foundation.AvoidingPaths
import Lhat.Foundation.PathSearch

/-!
# The types a descriptor is made of

A type of the checker with all that a conversion reads of it, and the types it is converted out of.
-/

namespace Lhat.Descriptor

open Check (TypeRef LhatTypeArena LhatTypeMember MemberPlace)
open Lexing (Text)

variable {t : CheckedType} {place : MemberPlace}

/-- `LhatType`, with what a conversion reads of it. A table and a signature share `variadic`, a
signature and a coroutine `result` and `isFunction`. Only tables and host values are specialized. -/
structure CheckedType extends Check.LhatType where
  coroutineTop : Bool := false
  receiveAny : Bool := false
  produceAny : Bool := false
  resultAny : Bool := false
  kindAny : Bool := false
  specializationArguments : List TypeRef := []
  instanceType : TypeRef := 0
  variadic : TypeRef := 0
  indexKey : TypeRef := 0
  indexValue : TypeRef := 0
  params : List TypeRef := []
  result : TypeRef := 0
  answers : TypeRef := 0
  receive : TypeRef := 0
  produce : TypeRef := 0
  isFunction : Bool := false
  selfLast : Bool := false
  mutableSelf : Bool := false
  answersFresh : Bool := false
  endless : Bool := false
  name : Text := []
  kinds : List TypeRef := []
  runtimeKind : Nat := 0
  specialized : specializationBase ≠ 0 → kind = .table ∨ kind = .hostvalue := by decide
deriving DecidableEq

/-- The arena of them. A type that holds itself names its own place. -/
abbrev CheckedArena := List CheckedType

namespace CheckedArena

variable (arena : CheckedArena)

/-- The arena as the checker's questions read it. -/
def types : LhatTypeArena := arena.map CheckedType.toLhatType

/-- The type at a place. -/
def type (a : TypeRef) : Option CheckedType := if a = 0 then none else arena[a - 1]?

/-- The loop of `unwrapped`, along so many bounds. -/
def unwrappedIn : Nat → TypeRef → TypeRef
  | 0, _ => 0
  | left + 1, a =>
    match arena.type a with
    | none => a
    | some t => if t.kind = .argument then unwrappedIn left t.bound else a

/-- `unwrapped`, of bounds that do not come back to themselves. -/
def unwrapped (a : TypeRef) : TypeRef := arena.unwrappedIn (arena.length + 1) a

/-- `lhat_type_call_answer`. -/
def callAnswer (t : CheckedType) : TypeRef :=
  if t.kind = .func then (if t.answers ≠ 0 then t.answers else t.result) else 0

/-- The types of a chain up to the first that a host declared. -/
def ownChain (a : TypeRef) : List TypeRef :=
  (arena.types.typeChain a).takeWhile fun up =>
    match arena.type up with
    | some t => decide (t.hostdataTag = [])
    | none => true

/-- The members along them. -/
def chainMembers (a : TypeRef) : List TypeRef :=
  (arena.ownChain a).flatMap fun up =>
    match arena.type up with
    | some t => t.members.map LhatTypeMember.type
    | none => []

/-- The types that `each_child` names, before they are unwrapped. -/
def namedChildren (a : TypeRef) (t : CheckedType) : List TypeRef :=
  if t.specializationBase ≠ 0 then t.specializationArguments ++ [t.specializationBase]
  else match t.kind with
    | .table =>
      if t.isTypeinfo ∨ t.hostdataTag ≠ [] then []
      else
        t.instanceType :: arena.chainMembers a ++ [t.variadic, t.indexKey, t.indexValue]
    | .func => t.params ++ [t.variadic, callAnswer t]
    | .coro => [t.receive, t.produce, t.result]
    | .union | .intersect | .tuple => t.arms
    | _ => []

/-- `each_child`: the types in the order they are given to `edge`. -/
def eachChild (a : TypeRef) : List TypeRef :=
  match arena.type a with
  | none => []
  | some t => ((arena.namedChildren a t).map arena.unwrapped).filter (· ≠ 0)

theorem ne_zero_of_mem_eachChild {a b : TypeRef} (h : b ∈ arena.eachChild a) : b ≠ 0 := by
  unfold eachChild at h
  split at h
  · cases h
  · simpa using (List.mem_filter.mp h).2

/-- The types an arena has edges to. -/
def targets : List TypeRef :=
  (List.range arena.length).flatMap fun i => arena.eachChild (i + 1)

theorem mem_targets {a b : TypeRef} (h : b ∈ arena.eachChild a) : b ∈ arena.targets := by
  have hlt : a ≠ 0 ∧ a - 1 < arena.length := by
    by_contra hno
    unfold eachChild type at h
    by_cases hzero : a = 0
    · rw [if_pos hzero] at h
      cases h
    · rw [if_neg hzero, List.getElem?_eq_none (Nat.not_lt.mp fun hlt => hno ⟨hzero, hlt⟩)] at h
      cases h
  refine List.mem_flatMap.mpr ⟨a - 1, List.mem_range.mpr hlt.2, ?_⟩
  rwa [Nat.sub_add_cancel (Nat.pos_of_ne_zero hlt.1)]

/-! ### What is converted -/

/-- `index_digits`. -/
def indexDigits (index : Nat) : Text := (Nat.toDigits 10 index).map fun c => c.toNat.toUInt8

/-- `lhat_type_member_at`. -/
def memberAt (table : TypeRef) (index : Nat) : Option MemberPlace :=
  match arena.type table with
  | none => none
  | some t =>
    if t.kind = .table then
      (arena.types.ownPlaces table).find? fun place => place.member.name = indexDigits index
    else none

/-- The positions from one on, of so many members. -/
def positionsFrom (table : TypeRef) : Nat → Nat → List MemberPlace
  | 0, _ => []
  | left + 1, index =>
    match arena.memberAt table index with
    | none => []
    | some place => place :: positionsFrom table left (index + 1)

/-- The sequence half of a table. -/
def positions (table : TypeRef) : List MemberPlace :=
  arena.positionsFrom table (arena.types.ownPlaces table).length 0

/-- The members that have a name, a table's own and what its links lend. -/
def shownMembers (table : TypeRef) : List MemberPlace :=
  ((arena.ownChain table).flatMap arena.types.ownPlaces).filter fun place =>
    arena.types.findMember table place.member.name = some place ∧ place ∉ arena.positions table

/-- The types `build_rt` converts, before they are unwrapped. -/
def namedConverted (a : TypeRef) (t : CheckedType) : List TypeRef :=
  if t.specializationBase ≠ 0 then t.specializationBase :: t.specializationArguments
  else match t.kind with
    | .table =>
      if t.isTypeinfo ∨ t.hostdataTag ≠ [] then []
      else
        t.instanceType :: (arena.positions a ++ arena.shownMembers a).map (·.member.type) ++
          t.variadic :: if t.indexKey ≠ 0 then [t.indexKey, t.indexValue] else []
    | .func => t.params ++ [t.variadic, callAnswer t]
    | .coro => [t.receive, t.produce, t.result]
    | .union | .intersect | .tuple => t.arms
    | _ => []

/-- The types the descriptor of a type is made out of. -/
def convertedChildren (a : TypeRef) : List TypeRef :=
  match arena.type a with
  | none => []
  | some t => ((arena.namedConverted a t).map arena.unwrapped).filter (· ≠ 0)

section Named

variable {arena : CheckedArena} {a b : TypeRef}

theorem types_type (a : TypeRef) :
    arena.types.type a = (arena.type a).map CheckedType.toLhatType := by
  unfold LhatTypeArena.type type types
  split
  · rfl
  · exact List.getElem?_map

theorem unwrappedIn_kind (left : Nat) (a : TypeRef) :
    ∀ t, arena.type (arena.unwrappedIn left a) = some t → t.kind ≠ .argument := by
  induction left generalizing a with
  | zero => exact fun t ht => nomatch ht
  | succ left ih =>
    intro t ht
    unfold unwrappedIn at ht
    split at ht
    · rename_i hnone
      rw [hnone] at ht
      cases ht
    · split at ht
      · exact ih _ t ht
      · rename_i s hs hkind
        obtain rfl := Option.some.inj (hs.symm.trans ht)
        exact hkind

theorem unwrapped_kind (h : arena.type (arena.unwrapped a) = some t) : t.kind ≠ .argument :=
  unwrappedIn_kind _ a t h

theorem unwrapped_unwrapped (a : TypeRef) :
    arena.unwrapped (arena.unwrapped a) = arena.unwrapped a := by
  generalize hb : arena.unwrapped a = b
  unfold unwrapped unwrappedIn
  split
  · rfl
  · rename_i t ht
    exact if_neg (unwrapped_kind (hb ▸ ht))

theorem mem_convertedChildren :
    b ∈ arena.convertedChildren a ↔
      ∃ t, arena.type a = some t ∧ b ≠ 0 ∧ ∃ c ∈ arena.namedConverted a t, arena.unwrapped c = b :=
        by
  unfold convertedChildren
  split
  · rename_i hnone
    simp [hnone]
  · rename_i t ht
    simp [ht, and_comm]

theorem unwrapped_of_mem (h : b ∈ arena.convertedChildren a) : arena.unwrapped b = b := by
  obtain ⟨t, -, -, c, -, rfl⟩ := mem_convertedChildren.mp h
  exact unwrapped_unwrapped c

theorem type_ne_zero (h : arena.type a = some t) : a ≠ 0 := by
  rintro rfl
  cases h

theorem mem_ownChain_self (h : arena.type a = some t)
    (htag : t.hostdataTag = []) : a ∈ arena.ownChain a := by
  have hchain : arena.types.typeChain a =
      a :: Check.chainFrom arena.types.typeNext (arena.types.length + 1) [a]
        (arena.types.typeNext a) := by
    unfold LhatTypeArena.typeChain
    rw [Check.chainFrom, if_neg (by simp [type_ne_zero h])]
  unfold ownChain
  rw [hchain, List.takeWhile_cons, h]
  simp [htag]

theorem mem_ownPlaces_type {up : TypeRef} (h : place ∈ arena.types.ownPlaces up) :
    ∃ t, arena.type up = some t ∧ place.member ∈ t.members := by
  unfold LhatTypeArena.ownPlaces at h
  rw [types_type] at h
  cases hup : arena.type up with
  | none => simp [hup] at h
  | some t =>
    rw [hup] at h
    obtain ⟨⟨member, index⟩, hmember, rfl⟩ := List.mem_map.mp h
    exact ⟨t, rfl, (List.mem_zipIdx' hmember).2 ▸ List.getElem_mem _⟩

theorem mem_chainMembers {up : TypeRef} (hup : up ∈ arena.ownChain a)
    (h : place ∈ arena.types.ownPlaces up) : place.member.type ∈ arena.chainMembers a := by
  obtain ⟨t, ht, hmember⟩ := mem_ownPlaces_type h
  refine List.mem_flatMap.mpr ⟨up, hup, ?_⟩
  rw [ht]
  exact List.mem_map.mpr ⟨place.member, hmember, rfl⟩

theorem mem_positionsFrom {left index : Nat}
    (h : place ∈ arena.positionsFrom a left index) : place ∈ arena.types.ownPlaces a := by
  induction left generalizing index with
  | zero => cases h
  | succ left ih =>
    unfold positionsFrom at h
    split at h
    · cases h
    · rename_i found hfound
      obtain rfl | h := List.mem_cons.mp h
      · unfold memberAt at hfound
        split at hfound
        · cases hfound
        · split at hfound
          · exact List.mem_of_find?_eq_some hfound
          · cases hfound
      · exact ih h

theorem mem_eachChild_of_converted (h : b ∈ arena.convertedChildren a) : b ∈ arena.eachChild a := by
  obtain ⟨t, ht, hne, c, hc, rfl⟩ := mem_convertedChildren.mp h
  have hnamed : c ∈ arena.namedChildren a t := by
    unfold namedConverted at hc
    unfold namedChildren
    split at hc
    · rename_i hspecial
      rw [if_pos hspecial]
      simpa [or_comm] using hc
    rename_i hspecial
    rw [if_neg hspecial]
    cases hkind : t.kind with
    | table =>
      simp only [hkind] at hc ⊢
      split at hc
      · cases hc
      rename_i hplain
      rw [if_neg hplain]
      have htag : t.hostdataTag = [] := by
        by_contra htag
        exact hplain (.inr htag)
      have hmember : ∀ place ∈ arena.positions a ++ arena.shownMembers a,
          place.member.type ∈ arena.chainMembers a := by
        intro place hplace
        obtain hplace | hplace := List.mem_append.mp hplace
        · exact mem_chainMembers (mem_ownChain_self ht htag) (mem_positionsFrom hplace)
        · obtain ⟨up, hup, hplace⟩ := List.mem_flatMap.mp (List.mem_filter.mp hplace).1
          exact mem_chainMembers hup hplace
      obtain hc | hc := List.mem_append.mp hc
      · obtain rfl | hc := List.mem_cons.mp hc
        · exact List.mem_append_left _ List.mem_cons_self
        · obtain ⟨place, hplace, rfl⟩ := List.mem_map.mp hc
          exact List.mem_append_left _ (List.mem_cons_of_mem _ (hmember place hplace))
      · refine List.mem_append_right _ ?_
        split at hc
        · exact hc
        · exact List.mem_cons.mpr ((List.mem_cons.mp hc).imp id nofun)
    | func | coro | union | intersect | tuple => simpa [hkind] using hc
    | _ => simp [hkind] at hc
  unfold eachChild
  rw [ht]
  exact List.mem_filter.mpr ⟨List.mem_map.mpr ⟨c, hnamed, rfl⟩, by simpa using hne⟩

end Named

end CheckedArena

end Lhat.Descriptor

/-!
# Whether an error hides in a type

The walk that looks for an error comes back with what can be got to over the edges that it follows.
It stops at a table that it stands in, which loses nothing.
-/

namespace Lhat.Descriptor

open Check (TypeRef LhatTypeMember)
open AvoidingPaths (Path)
open Relation (ReflTransGen)

namespace CheckedArena

variable (arena : CheckedArena)

/-- The types `mentions_error` goes on to, in its order. -/
def mentionedChildren (t : CheckedType) : List TypeRef :=
  if t.specializationBase ≠ 0 then t.specializationArguments ++ [t.specializationBase]
  else match t.kind with
    | .table =>
      if t.nominal then []
      else t.members.map LhatTypeMember.type ++ [t.variadic, t.indexKey, t.indexValue]
    | .func => t.params ++ [t.variadic, callAnswer t]
    | .union | .intersect => t.arms
    | .coro => [t.receive, t.produce, t.result]
    | _ => []

/-- `mentions_error`. `none` is a walk that does not come back. -/
def mentionsError : Nat → TypeRef → List TypeRef → Option Bool
  | 0, _, _ => none
  | fuel + 1, type, seen =>
    match arena.type type with
    | none => some false
    | some t =>
      if t.specializationBase ≠ 0 then
        (mentionedChildren t).anyM fun child => mentionsError fuel child seen
      else if t.kind = .table ∧ t.nominal then some false
      else if t.kind = .table ∧ type ∈ seen then some false
      else if t.isErrorType then some true
      else (mentionedChildren t).anyM fun child => mentionsError fuel child (type :: seen)

/-- An edge that `mentions_error` follows. -/
def Mentions (a b : TypeRef) : Prop := ∃ t, arena.type a = some t ∧ b ∈ mentionedChildren t

/-- An error, a set of them or one of its kinds. -/
def ErrorAt (a : TypeRef) : Prop :=
  ∃ t, arena.type a = some t ∧ t.specializationBase = 0 ∧ t.isErrorType = true

def TableAt (a : TypeRef) : Prop := ∃ t, arena.type a = some t ∧ t.kind = .table

end CheckedArena

open CheckedArena

section Exact

variable {arena : CheckedArena} {fuel : Nat} {type : TypeRef} {seen : List TypeRef}

theorem mentionsError_true (h : arena.mentionsError fuel type seen = some true) :
    ∃ e, ReflTransGen arena.Mentions type e ∧ arena.ErrorAt e := by
  induction fuel generalizing type seen with
  | zero => cases h
  | succ fuel ih =>
    unfold mentionsError at h
    split at h
    · cases h
    rename_i t ht
    have hdeeper : ∀ {seen : List TypeRef},
        ((mentionedChildren t).anyM fun child => arena.mentionsError fuel child seen) = some true →
        ∃ e, ReflTransGen arena.Mentions type e ∧ arena.ErrorAt e := by
      intro seen h
      obtain ⟨child, hchild, h⟩ := PathSearch.anyM_true h
      obtain ⟨e, hreach, he⟩ := ih h
      exact ⟨e, .head ⟨t, ht, hchild⟩ hreach, he⟩
    split at h
    · exact hdeeper h
    rename_i hbase
    split at h
    · cases h
    split at h
    · cases h
    split at h
    · rename_i herror
      exact ⟨type, .refl, t, ht, not_not.mp hbase, herror⟩
    · exact hdeeper h

theorem mentionsError_false (h : arena.mentionsError fuel type seen = some false) {e : TypeRef}
    (hpath : Path arena.Mentions (fun x => x ∈ seen ∧ arena.TableAt x) type e) :
    ¬ arena.ErrorAt e := by
  rintro ⟨s, hs, hplain, herror⟩
  induction fuel generalizing type seen with
  | zero => cases h
  | succ fuel ih =>
    unfold mentionsError at h
    split at h
    · rename_i hnone
      obtain rfl | ⟨c, ⟨t, ht, -⟩, -⟩ := hpath.onward
      · rw [hnone] at hs
        cases hs
      · rw [hnone] at ht
        cases ht
    rename_i t ht
    split at h
    · rename_i hbase
      obtain rfl | ⟨c, ⟨t', ht', hc⟩, hrest⟩ := hpath.onward
      · obtain rfl := Option.some.inj (ht.symm.trans hs)
        exact hbase hplain
      · obtain rfl := Option.some.inj (ht.symm.trans ht')
        exact ih (PathSearch.anyM_false h c hc) hrest
    rename_i hbase
    split at h
    · rename_i hnominal
      obtain rfl | ⟨c, ⟨t', ht', hc⟩, -⟩ := hpath.onward
      · obtain rfl := Option.some.inj (ht.symm.trans hs)
        simp [Check.LhatType.isErrorType, hnominal.1] at herror
      · obtain rfl := Option.some.inj (ht.symm.trans ht')
        simp [mentionedChildren, hbase, hnominal.1, hnominal.2] at hc
    split at h
    · rename_i hagain
      exact hpath.off ⟨hagain.2, t, ht, hagain.1⟩
    split at h
    · cases h
    rename_i hnot
    obtain rfl | ⟨c, ⟨t', ht', hc⟩, hrest⟩ := hpath.leave
    · obtain rfl := Option.some.inj (ht.symm.trans hs)
      exact hnot herror
    · obtain rfl := Option.some.inj (ht.symm.trans ht')
      refine ih (PathSearch.anyM_false h c hc) (hrest.mono (fun _ _ => id) ?_)
      rintro x ⟨hx, htable⟩
      exact (List.mem_cons.mp hx).symm.imp (fun hx => ⟨hx, htable⟩) id

theorem mentionsError_iff {answer : Bool} (h : arena.mentionsError fuel type [] = some answer) :
    answer = true ↔ ∃ e, ReflTransGen arena.Mentions type e ∧ arena.ErrorAt e := by
  cases answer with
  | true => exact ⟨fun _ => mentionsError_true h, fun _ => rfl⟩
  | false =>
    refine ⟨nofun, ?_⟩
    rintro ⟨e, hreach, he⟩
    exact absurd he (mentionsError_false h (.of_reach hreach fun _ _ hx => nomatch hx.1))

end Exact

end Lhat.Descriptor
