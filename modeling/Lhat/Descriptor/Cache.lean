import Lhat.Descriptor.Types
import Lhat.Foundation.HalfFull
import Lhat.Table.Basic
import Lhat.Foundation.Components

/-!
# What is remembered of the types

The nodes of a cache, by the address of the type, and the components of the types, found as they
are asked for. Where memory runs out the cache is broken, and stays so.

`none` is a walk that does not come back: the one over slots of which none is free, and the one
along the types, which is given so much fuel.
-/

namespace Lhat.Descriptor

open Check (TypeRef)

/-- `LhatRtNode`, without its type. No component is `SIZE_MAX`, as it is while the type stands on
the stack. -/
structure LhatRtNode where
  runtime : Nat := 0
  nextInComponent : TypeRef := 0
  index : Nat := 0
  low : Nat := 0
  component : Option Nat := some 0
deriving DecidableEq

/-- `LhatRtCache`. The top of the stack stands first, and a slot of `reach` is the answer that it
holds for two components. -/
structure LhatRtCache where
  nodes : HalfFull TypeRef LhatRtNode := {}
  stack : List TypeRef := []
  stackCapacity : Nat := 0
  nextIndex : Nat := 0
  components : List TypeRef := []
  componentCapacity : Nat := 0
  reach : HalfFull (Nat × Nat) Bool := {}
  broken : Bool := false
  memory : Memory

/-- `spread`. -/
def spread (key : UInt64) : Nat :=
  let key := key * 0x9E3779B97F4A7C15
  (key ^^^ (key >>> 29)).toNat

/-- Where the probe for two components begins. -/
def pairHome (pair : Nat × Nat) : Nat :=
  spread ((UInt64.ofNat pair.1 <<< 32) ^^^ UInt64.ofNat pair.2)

def pointerSize : Nat := 8

/-- The bytes of a `LhatRtNode`. -/
def nodeSize : Nat := 48

/-- The bytes of a `LhatRtReach`. -/
def reachSize : Nat := 24

/-- `LHAT_GROW`: whether there is room for one more, and the capacity. -/
def growCapacity (count capacity : Nat) (m : Memory) : Bool × Nat × Memory :=
  if count = capacity then
    let grown := if capacity = 0 then 64 else capacity * 2
    if m.granted (grown * pointerSize) then (true, grown, m.request (grown * pointerSize))
    else (false, capacity, m.request (grown * pointerSize))
  else (true, capacity, m)

section Nodes

-- where the types stand in memory
variable (address : TypeRef → UInt64)

/-- Where the probe for a type begins. -/
def typeHome (type : TypeRef) : Nat := spread (address type)

/-- `node_find`. -/
def nodeFind (cache : LhatRtCache) (type : TypeRef) : Option (Option LhatRtNode) :=
  cache.nodes.find (typeHome address) type

/-- A write through the node of a type. -/
def nodeWrite (cache : LhatRtCache) (type : TypeRef) (f : LhatRtNode → LhatRtNode) :
    Option LhatRtCache :=
  (cache.nodes.update (typeHome address) type f).map fun nodes => { cache with nodes := nodes }

/-- The end of `node_add`: the first slot without a type. -/
def nodeEnter (cache : LhatRtCache) (type : TypeRef) : Option (Bool × LhatRtCache) :=
  (cache.nodes.enter (typeHome address) (fun _ => some false) type {}).map fun nodes =>
    (true, { cache with nodes := nodes })

/-- `node_add`: whether there is a node then. -/
def nodeAdd (cache : LhatRtCache) (type : TypeRef) : Option (Bool × LhatRtCache) :=
  match nodeFind address cache type with
  | none => none
  | some (some _) => some (true, cache)
  | some none =>
    if cache.nodes.slots.length < (cache.nodes.count + 1) * 2 then
      let bytes := cache.nodes.wider 256 * nodeSize
      let memory := cache.memory.request bytes
      if cache.memory.granted bytes then
        match cache.nodes.widen (typeHome address) 256 with
        | none => none
        | some nodes => nodeEnter address { cache with nodes := nodes, memory := memory } type
      else some (false, { cache with broken := true, memory := memory })
    else nodeEnter address cache type

/-! ### The components -/

variable (arena : CheckedArena)

/-- The end of `tarjan_edge`: the low index of a node comes down. -/
def lowerNode (cache : LhatRtCache) (node : TypeRef) (low : Nat) : Option LhatRtCache :=
  match nodeFind address cache node with
  | none => none
  | some none => some cache
  | some (some found) =>
    if low < found.low then nodeWrite address cache node fun n => { n with low := low }
    else some cache

/-- `tarjan_edge`, where `connect` is `strongconnect`. -/
def tarjanEdge (connect : LhatRtCache → TypeRef → Option LhatRtCache) (node : TypeRef)
    (cache : LhatRtCache) (type : TypeRef) : Option LhatRtCache :=
  let descend :=
    match connect cache type with
    | none => none
    | some cache =>
      match nodeFind address cache type with
      | none => none
      | some none => some cache
      | some (some child) => lowerNode address cache node child.low
  match nodeFind address cache type with
  | none => none
  | some none => descend
  | some (some child) =>
    if child.index = 0 then descend
    else if child.component = none then lowerNode address cache node child.index
    else some cache

/-- The loop that takes a component off the stack. -/
def popComponent (type : TypeRef) (component : Nat) (cache : LhatRtCache) :
    List TypeRef → Option LhatRtCache
  | [] => none
  | member :: rest =>
    match nodeWrite address cache member fun m =>
        { m with component := some component
                 nextInComponent := cache.components.getD component 0 } with
    | none => none
    | some written =>
      let popped :=
        { written with stack := rest, components := written.components.set component member }
      if member = type then some popped else popComponent type component popped rest

/-- The end of `strongconnect`: a node that saw no lower index has its component above it. -/
def closeComponent (cache : LhatRtCache) (type : TypeRef) : Option LhatRtCache :=
  match nodeFind address cache type with
  | none => none
  | some none => some cache
  | some (some node) =>
    if cache.broken || node.low != node.index then some cache
    else
      match growCapacity cache.components.length cache.componentCapacity cache.memory with
      | (false, capacity, memory) =>
        some { cache with componentCapacity := capacity, memory := memory, broken := true }
      | (true, capacity, memory) =>
        let component := cache.components.length
        popComponent address type component
          { cache with
            componentCapacity := capacity
            memory := memory
            components := cache.components ++ [0] } cache.stack

/-- `strongconnect`. -/
def strongconnect : Nat → LhatRtCache → TypeRef → Option LhatRtCache
  | 0, _, _ => none
  | fuel + 1, cache, type =>
    match nodeAdd address cache type with
    | none => none
    | some (false, cache) => some cache
    | some (true, cache) =>
      let index := cache.nextIndex + 1
      match nodeWrite address { cache with nextIndex := index } type fun n =>
          { n with index := index, low := index, component := none } with
      | none => none
      | some cache =>
        match growCapacity cache.stack.length cache.stackCapacity cache.memory with
        | (false, capacity, memory) =>
          some { cache with stackCapacity := capacity, memory := memory, broken := true }
        | (true, capacity, memory) =>
          let entered :=
            { cache with
              stackCapacity := capacity, memory := memory, stack := type :: cache.stack }
          match (arena.eachChild type).foldlM
              (tarjanEdge address (strongconnect fuel) type) entered with
          | none => none
          | some cache => closeComponent address cache type

/-- `component_of`. No number is `SIZE_MAX`. -/
def componentOf (fuel : Nat) (cache : LhatRtCache) (type : TypeRef) :
    Option (LhatRtCache × Option Nat) :=
  let answer (cache : LhatRtCache) :=
    match nodeFind address cache type with
    | none => none
    | some none => some (cache, none)
    | some (some node) => some (cache, if cache.broken then none else node.component)
  match nodeFind address cache type with
  | none => none
  | some found =>
    if ∃ node ∈ found, node.index ≠ 0 then answer cache
    else
      match strongconnect address arena fuel cache type with
      | none => none
      | some cache => answer cache

/-! ### What a component reaches -/

/-- `reach_slot`: the place of the answer for two components, with room made for it first. -/
def reachSlot (cache : LhatRtCache) (pair : Nat × Nat) : Option (LhatRtCache × Option Nat) :=
  let slot (cache : LhatRtCache) :=
    (cache.reach.place pairHome pair).map fun i => (cache, some i)
  if cache.reach.slots.length < (cache.reach.count + 1) * 2 then
    let bytes := cache.reach.wider 64 * reachSize
    let memory := cache.memory.request bytes
    if cache.memory.granted bytes then
      match cache.reach.widen pairHome 64 with
      | none => none
      | some reach => slot { cache with reach := reach, memory := memory }
    else some ({ cache with broken := true, memory := memory }, none)
  else slot cache

/-- `reach_edge`, where `reaches` is `component_reaches`. -/
def reachEdge (reaches : LhatRtCache → Nat → Nat → Option (LhatRtCache × Bool)) (source target :
    Nat)
    (walk : LhatRtCache × Bool) (child : TypeRef) : Option (LhatRtCache × Bool) :=
  if walk.2 then some walk
  else
    match nodeFind address walk.1 child with
    | none => none
    | some none => some (walk.1, true)
    | some (some node) =>
      match node.component with
      | none => some (walk.1, true)
      | some component =>
        if component ≠ source then reaches walk.1 component target else some walk

/-- The loop over the members of a component, along so many of them. -/
def reachMembers (reaches : LhatRtCache → Nat → Nat → Option (LhatRtCache × Bool))
    (source target : Nat) : Nat → LhatRtCache → TypeRef → Option (LhatRtCache × Bool)
  | 0, _, _ => none
  | left + 1, cache, member =>
    if member = 0 then some (cache, false)
    else
      match (arena.eachChild member).foldlM (reachEdge address reaches source target)
          (cache, false) with
      | none => none
      | some (cache, true) => some (cache, true)
      | some (cache, false) =>
        match nodeFind address cache member with
        | some (some node) => reachMembers reaches source target left cache node.nextInComponent
        | _ => none

/-- `component_reaches`. -/
def componentReaches : Nat → LhatRtCache → Nat → Nat → Option (LhatRtCache × Bool)
  | 0, _, _, _ => none
  | fuel + 1, cache, source, target =>
    if source = target then some (cache, true)
    else
      match reachSlot cache (source, target) with
      | none => none
      | some (cache, none) => some (cache, true)
      | some (cache, some i) =>
        match cache.reach.slots.getD i none with
        | some (_, reaches) => some (cache, reaches)
        | none =>
          match reachMembers address arena (componentReaches fuel) source target
              (cache.nodes.count + 1) cache (cache.components.getD source 0) with
          | none => none
          | some (cache, found) =>
            match reachSlot cache (source, target) with
            | none => none
            | some (cache, none) => some (cache, true)
            | some (cache, some i) =>
              let count :=
                if (cache.reach.slots.getD i none).isNone then cache.reach.count + 1
                else cache.reach.count
              some ({ cache with
                reach := ⟨cache.reach.slots.set i (some ((source, target), found)), count⟩ }, found)

end Nodes

end Lhat.Descriptor

/-!
# The nodes as marks of a search

What the table of the nodes says of a type, and what each write does to it. The marks of a cache
are those of the search for components.
-/

namespace Lhat.Descriptor

open Check (TypeRef)
open Components (Marks)

section Marked

variable (address : TypeRef → UInt64)

/-- What is kept of a type. -/
def node (cache : LhatRtCache) : TypeRef → Option LhatRtNode :=
  HalfFull.get (typeHome address) cache.nodes

/-- The tables are in order. -/
structure Sound (cache : LhatRtCache) : Prop where
  nodes : HalfFull.Wf (typeHome address) cache.nodes
  reach : HalfFull.Wf pairHome cache.reach

def indexOf (found : Option LhatRtNode) : Nat := (found.map LhatRtNode.index).getD 0

def lowOf (found : Option LhatRtNode) : Nat := (found.map LhatRtNode.low).getD 0

/-- A type that was not visited has no component, whatever its node says. -/
def numberOf (found : Option LhatRtNode) : Option Nat :=
  found.bind fun node => if node.index = 0 then none else node.component

def nextOf (found : Option LhatRtNode) : TypeRef :=
  (found.map LhatRtNode.nextInComponent).getD 0

def runtimeOf (found : Option LhatRtNode) : Nat := (found.map LhatRtNode.runtime).getD 0

/-- What a cache has marked. -/
def marks (cache : LhatRtCache) : Marks TypeRef where
  index := indexOf ∘ node address cache
  low := lowOf ∘ node address cache
  component := numberOf ∘ node address cache
  stack := cache.stack
  last := cache.nextIndex
  count := cache.components.length

end Marked

variable {address : TypeRef → UInt64} {cache cache' : LhatRtCache} {type : TypeRef}

theorem nodeFind_eq (h : Sound address cache) (type : TypeRef) :
    nodeFind address cache type = some (node address cache type) :=
  h.nodes.find_eq type

theorem node_of_index (h : (marks address cache).index type ≠ 0) :
    ∃ found, node address cache type = some found ∧ found.index ≠ 0 := by
  have hindex : indexOf (node address cache type) ≠ 0 := h
  cases hnode : node address cache type with
  | none =>
    rw [hnode] at hindex
    exact absurd rfl hindex
  | some found =>
    rw [hnode] at hindex
    exact ⟨found, rfl, hindex⟩

theorem nodeWrite_spec (h : Sound address cache) {found : LhatRtNode}
    (hfound : node address cache type = some found) (f : LhatRtNode → LhatRtNode) :
    ∃ nodes, nodeWrite address cache type f = some { cache with nodes := nodes } ∧
      HalfFull.Wf (typeHome address) nodes ∧
      HalfFull.get (typeHome address) nodes =
        Function.update (node address cache) type (some (f found)) := by
  obtain ⟨nodes, hnodes, hwf, hget⟩ := h.nodes.update hfound f
  exact ⟨nodes, by rw [nodeWrite, hnodes]; rfl, hwf, hget⟩

theorem nodeAdd_spec (h : Sound address cache) (type : TypeRef) :
    ∃ ok nodes memory broken,
      nodeAdd address cache type =
        some (ok, { cache with nodes := nodes, memory := memory, broken := broken }) ∧
      HalfFull.Wf (typeHome address) nodes ∧
      (ok = true ∧ broken = cache.broken ∧
          HalfFull.get (typeHome address) nodes = Function.update (node address cache) type
            (some ((node address cache type).getD {})) ∨
        ok = false ∧ broken = true ∧
          HalfFull.get (typeHome address) nodes = node address cache) := by
  unfold nodeAdd
  rw [nodeFind_eq h]
  cases hnode : node address cache type with
  | some found =>
    refine ⟨true, cache.nodes, cache.memory, cache.broken, rfl, h.nodes, .inl ⟨rfl, rfl, ?_⟩⟩
    rw [Option.getD_some, ← hnode, Function.update_eq_self]
    rfl
  | none =>
    have henter : ∀ (nodes : HalfFull TypeRef LhatRtNode) (memory : Memory),
        HalfFull.Wf (typeHome address) nodes → nodes.slots ≠ [] →
        (nodes.count + 1) * 2 ≤ nodes.slots.length →
        HalfFull.get (typeHome address) nodes = node address cache →
        ∃ nodes', nodeEnter address { cache with nodes := nodes, memory := memory } type =
            some (true, { cache with nodes := nodes', memory := memory }) ∧
          HalfFull.Wf (typeHome address) nodes' ∧
          HalfFull.get (typeHome address) nodes' =
            Function.update (node address cache) type (some {}) := by
      intro nodes memory hwf hne hroom hsame
      obtain ⟨nodes', henter, hwf', hget⟩ := hwf.enter hne hroom
        (show HalfFull.get (typeHome address) nodes type = none by rw [hsame, hnode])
        (fun _ => some false) (fun _ _ _ _ _ => rfl) ({} : LhatRtNode)
      refine ⟨nodes', ?_, hwf', by rw [hget, hsame]⟩
      unfold nodeEnter
      rw [henter]
      rfl
    simp only
    split
    · split
      · have hfirst : ∃ e, 256 = 2 ^ (e + 1) := ⟨7, rfl⟩
        obtain ⟨nodes, hwiden, hwf, hget, hcount, hne, hroom⟩ := h.nodes.widen hfirst
        obtain ⟨nodes', henter, hwf', hget'⟩ := henter nodes
          (cache.memory.request (cache.nodes.wider 256 * nodeSize)) hwf hne
          (by rw [hcount]; exact hroom) hget
        rw [hwiden]
        exact ⟨true, nodes', _, cache.broken, henter, hwf', .inl ⟨rfl, rfl, hget'⟩⟩
      · exact ⟨false, cache.nodes, _, true, rfl, h.nodes, .inr ⟨rfl, rfl, rfl⟩⟩
    · rename_i hroom
      have hne : cache.nodes.slots ≠ [] := by
        intro hempty
        rw [hempty, List.length_nil] at hroom
        omega
      obtain ⟨nodes', henter, hwf', hget'⟩ := henter cache.nodes cache.memory h.nodes hne
        (Nat.not_lt.mp hroom) rfl
      exact ⟨true, nodes', cache.memory, cache.broken, henter, hwf', .inl ⟨rfl, rfl, hget'⟩⟩

end Lhat.Descriptor
