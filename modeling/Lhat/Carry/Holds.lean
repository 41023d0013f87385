import Lhat.Carry.Rebuild
import Mathlib.Data.Finset.Card
import Mathlib.Data.Set.Card

/-!
# The holds on shared host data

A type that counts is told of every hold that is taken on a pointer of its and of every
one given back. The carried form has one for each node that names the pointer, and each
value built from it has one for each wrapper. So once the carried form is freed there
are as many holds left as there are wrappers.
-/

namespace Lhat.Carry

variable {node : Node} {α β : Type} {index : Nat}
variable (p : Program) (tag : Address) (pointer : UInt64)

/-- The holds taken less those given back. -/
def balance (calls : List HoldCall) : Int :=
  calls.count ⟨true, tag, pointer⟩ - calls.count ⟨false, tag, pointer⟩

/-- A type that was declared shared with both callbacks. -/
def Counts : Prop := ∃ t, p.hostDataTag tag = some t ∧ t.retain = true ∧ t.letGo = true

variable {p tag pointer} {c c' c'' : Carrier} {b b' b'' : Builder}

@[simp] theorem balance_nil : balance tag pointer [] = 0 := rfl

@[simp] theorem balance_append (calls calls' : List HoldCall) :
    balance tag pointer (calls ++ calls') =
      balance tag pointer calls + balance tag pointer calls' := by
  unfold balance
  rw [List.count_append, List.count_append]
  omega

theorem balance_singleton (retained : Bool) (a : Address) (x : UInt64) :
    balance tag pointer [⟨retained, a, x⟩] =
      if (a, x) = (tag, pointer) then (if retained then 1 else -1) else 0 := by
  unfold balance
  rw [List.count_singleton, List.count_singleton]
  by_cases ha : a = tag <;> by_cases hx : x = pointer <;> cases retained <;> simp [ha, hx]

theorem balance_hold (hcounts : Counts p tag) (a : Address) (x : UInt64) :
    balance tag pointer (hold p a x) = if (a, x) = (tag, pointer) then 1 else 0 := by
  obtain ⟨t, ht, hretain, -⟩ := hcounts
  unfold hold
  split
  · split
    · rw [balance_singleton, if_pos rfl]
    · rename_i s hs hnot
      rw [if_neg]
      · rfl
      · intro hsame
        rw [(Prod.mk.inj hsame).1, ht] at hs
        exact hnot (Option.some.inj hs ▸ hretain)
  · rename_i hs
    rw [if_neg]
    · rfl
    · intro hsame
      rw [(Prod.mk.inj hsame).1, ht] at hs
      cases hs

theorem balance_letGo (hcounts : Counts p tag) (a : Address) (x : UInt64) :
    balance tag pointer (letGo p a x) = if (a, x) = (tag, pointer) then -1 else 0 := by
  obtain ⟨t, ht, -, hletGo⟩ := hcounts
  unfold letGo
  split
  · split
    · rw [balance_singleton]
      rfl
    · rename_i s hs hnot
      rw [if_neg]
      · rfl
      · intro hsame
        rw [(Prod.mk.inj hsame).1, ht] at hs
        exact hnot (Option.some.inj hs ▸ hletGo)
  · rename_i hs
    rw [if_neg]
    · rfl
    · intro hsame
      rw [(Prod.mk.inj hsame).1, ht] at hs
      cases hs

/-! ### Taking apart -/

/-- The pointer that a node holds. -/
def Node.held : Node → Option (Address × UInt64)
  | .hostdata tag pointer => some (tag, pointer)
  | _ => none

/-- How many nodes hold the pointer. -/
def holders (tag : Address) (pointer : UInt64) (nodes : List Node) : Nat :=
  (nodes.map Node.held).count (some (tag, pointer))

/-- Along a walk the nodes go on holding what they hold, and a hold is taken for each
new one that holds the pointer. -/
structure Holds (tag : Address) (pointer : UInt64) (c c' : Carrier) : Prop where
  held : c.nodes.map Node.held <+: c'.nodes.map Node.held
  balanced : balance tag pointer c'.calls - holders tag pointer c'.nodes =
    balance tag pointer c.calls - holders tag pointer c.nodes

theorem Holds.refl (c : Carrier) : Holds tag pointer c c := ⟨List.prefix_refl _, rfl⟩

theorem Holds.trans (c c' c'' : Carrier) (h : Holds tag pointer c c')
    (h' : Holds tag pointer c' c'') : Holds tag pointer c c'' :=
  ⟨h.held.trans h'.held, h'.balanced.trans h.balanced⟩

/-- The node at an index holds no pointer. -/
def Carrier.Unheld (c : Carrier) (index : Nat) : Prop :=
  (c.nodes.map Node.held)[index]? = some none

theorem Holds.unheld (h : Holds tag pointer c c') (hun : c.Unheld index) : c'.Unheld index := by
  unfold Carrier.Unheld at *
  obtain ⟨more, hmore⟩ := h.held
  have hlt := (List.getElem?_eq_some_iff.mp hun).1
  rw [← hmore, List.getElem?_append_left hlt]
  exact hun

theorem Holds.of_nodes (hnodes : c'.nodes = c.nodes) (hcalls : c'.calls = c.calls) :
    Holds tag pointer c c' := ⟨by rw [hnodes], by rw [hnodes, hcalls]⟩

theorem Holds.add (hnodes : c'.nodes = c.nodes ++ [node]) (hnode : node.held = none)
    (hcalls : c'.calls = c.calls) : Holds tag pointer c c' ∧ c'.Unheld c.nodes.length := by
  refine ⟨⟨?_, ?_⟩, ?_⟩
  · rw [hnodes, List.map_append]
    exact List.prefix_append _ _
  · rw [hcalls, hnodes, holders, holders, List.map_append, List.count_append]
    simp [hnode]
  · unfold Carrier.Unheld
    rw [hnodes]
    simp [hnode]

abbrev Held (tag : Address) (pointer : UInt64) {α : Type} (x : Fallible Carrier α) : Prop :=
  Fallible.Moves (Holds tag pointer) x

theorem Held.bind {x : Fallible Carrier α} {f : α → Fallible Carrier β}
    (hx : Held tag pointer x) (hf : ∀ a, Held tag pointer (f a)) : Held tag pointer (x >>= f) :=
  Fallible.Moves.bind hx Holds.trans hf

theorem Held.pure (a : α) : Held tag pointer (pure a : Fallible Carrier α) :=
  Fallible.Moves.pure Holds.refl a

theorem Held.each {f : α → Fallible Carrier β} {as : List α}
    (hf : ∀ a, Held tag pointer (f a)) : Held tag pointer (Fallible.each f as) :=
  Fallible.Moves.each Holds.refl Holds.trans hf

theorem held_refuse (why : String) :
    Held tag pointer (refuse why : Fallible Carrier α) := fun _ => Holds.of_nodes rfl rfl

theorem wp_allocate (bytes : Nat) (c : Carrier) :
    Fallible.wp (allocate bytes) (fun _ c' => c'.nodes = c.nodes ∧ c'.calls = c.calls)
      (fun c' => c'.nodes = c.nodes ∧ c'.calls = c.calls) True c := by
  unfold allocate
  split
  · exact ⟨rfl, rfl⟩
  · rw [Fallible.wp_bind, Fallible.wp_get, Fallible.wp_bind, Fallible.wp_modify]
    split
    · exact ⟨rfl, rfl⟩
    · exact ⟨rfl, rfl⟩

theorem held_allocate (bytes : Nat) : Held tag pointer (allocate bytes) := fun c =>
  Fallible.wp_mono (wp_allocate bytes c) (fun _ _ h => Holds.of_nodes h.1 h.2)
    (fun _ h => Holds.of_nodes h.1 h.2) id

theorem held_findMemo (key : Address) : Held tag pointer (findMemo key) := by
  intro c
  unfold Fallible.wp findMemo
  cases memoFind c.memo key with
  | none => trivial
  | some found => exact Holds.refl c

theorem held_putMemo (key : Address) (index : Nat) : Held tag pointer (putMemo key index) := by
  intro c
  unfold Fallible.wp putMemo
  cases memoPut c.memo c.memory key index with
  | none => trivial
  | some r => exact Holds.of_nodes rfl rfl

theorem wp_addNode (node : Node) (c : Carrier) :
    Fallible.wp (addNode node)
      (fun index c' => index = c.nodes.length ∧ c'.nodes = c.nodes ++ [node] ∧ c'.calls = c.calls)
      (fun c' => c'.nodes = c.nodes ∧ c'.calls = c.calls) True c := by
  unfold addNode
  rw [Fallible.wp_bind, Fallible.wp_get]
  split
  · rw [Fallible.wp_bind]
    refine Fallible.wp_mono (wp_allocate _ c) (fun _ c' h => ?_) (fun _ h => h) id
    rw [Fallible.wp_bind, Fallible.wp_modify, Fallible.wp_pure]
    exact ⟨rfl, by rw [h.1], h.2⟩
  · exact ⟨rfl, rfl, rfl⟩

theorem wp_addNode_unheld (hnode : node.held = none) (c : Carrier) :
    Fallible.wp (addNode node) (fun index c' => Holds tag pointer c c' ∧ c'.Unheld index)
      (Holds tag pointer c) True c := by
  refine Fallible.wp_mono (wp_addNode node c) ?_ (fun c' h => Holds.of_nodes h.1 h.2) id
  rintro index c' ⟨rfl, hnodes, hcalls⟩
  exact Holds.add hnodes hnode hcalls

theorem held_addNode (hnode : node.held = none) : Held tag pointer (addNode node) :=
  fun c => Fallible.wp_mono (wp_addNode_unheld hnode c) (fun _ _ h => h.1) (fun _ h => h) id

theorem wp_enter (hnode : node.held = none) (key : Address) (c : Carrier) :
    Fallible.wp (enter node key) (fun index c' => Holds tag pointer c c' ∧ c'.Unheld index)
      (Holds tag pointer c) True c := by
  unfold enter
  rw [Fallible.wp_bind]
  refine Fallible.wp_mono (wp_addNode_unheld hnode c) ?_ (fun _ h => h) id
  rintro index c' ⟨h, hun⟩
  rw [Fallible.wp_bind]
  refine Fallible.wp_mono (held_putMemo key index c') ?_ (fun c'' h' => h.trans _ _ _ h') id
  intro ok c'' h'
  split
  · exact ⟨h.trans _ _ _ h', h'.unheld hun⟩
  · have hrefuse : Held tag pointer (refuse "out of memory" : Fallible Carrier Nat) :=
      held_refuse _
    exact hrefuse.wp_from Holds.trans (h.trans _ _ _ h')

theorem Holds.setNode (hnode : node.held = none) (hun : c.Unheld index) :
    Holds tag pointer c { c with nodes := c.nodes.set index node } := by
  have hsame : (c.nodes.set index node).map Node.held = c.nodes.map Node.held := by
    obtain ⟨hlt, hget⟩ := List.getElem?_eq_some_iff.mp hun
    rw [List.map_set, hnode, ← hget, List.set_getElem_self]
  exact ⟨by rw [hsame], by simp only [holders, hsame]⟩

/-- A walk that fills a node where no pointer is held. -/
def Fills (tag : Address) (pointer : UInt64) (index : Nat) {α : Type} (y : Fallible Carrier α) :
    Prop :=
  ∀ c : Carrier, c.Unheld index →
    Fallible.wp y (fun _ => Holds tag pointer c) (Holds tag pointer c) True c

theorem Fills.bind {x : Fallible Carrier α} {f : α → Fallible Carrier β} (hx : Held tag pointer x)
    (hf : ∀ a, Fills tag pointer index (f a)) : Fills tag pointer index (x >>= f) := by
  intro c hun
  rw [Fallible.wp_bind]
  refine Fallible.wp_mono (hx c) (fun a c' h => ?_) (fun _ h => h) id
  exact Fallible.wp_mono (hf a c' (h.unheld hun)) (fun _ c'' h' => h.trans _ _ _ h')
    (fun c'' h' => h.trans _ _ _ h') id

theorem Fills.set (hnode : node.held = none) :
    Fills tag pointer index (do
      setNode index node
      return index) := fun _ hun => Holds.setNode hnode hun

theorem Held.fill {x : Fallible Carrier Nat} {f : Nat → Fallible Carrier Nat}
    (hx : ∀ c, Fallible.wp x (fun index c' => Holds tag pointer c c' ∧ c'.Unheld index)
      (Holds tag pointer c) True c)
    (hf : ∀ index, Fills tag pointer index (f index)) : Held tag pointer (x >>= f) := by
  intro c
  rw [Fallible.wp_bind]
  refine Fallible.wp_mono (hx c) ?_ (fun _ h => h) id
  rintro index c' ⟨h, hun⟩
  exact Fallible.wp_mono (hf index c' hun) (fun _ c'' h' => h.trans _ _ _ h')
    (fun c'' h' => h.trans _ _ _ h') id

section Walk

variable {carry : LhatValue → Fallible Carrier Nat} {m : LhatMachine}

section

variable (hcarry : ∀ v, Held tag pointer (carry v))
include hcarry

theorem held_carryTable (a : Address) :
    Held tag pointer (carryTable carry m a) := by
  unfold carryTable
  refine (held_findMemo a).bind fun found => ?_
  cases found with
  | some index => exact Held.pure index
  | none =>
    dsimp only
    split
    · exact held_refuse _
    split
    · exact held_refuse _
    have hposition : ∀ i, Held tag pointer (carryPosition carry (m.table a) i) := fun i =>
      (hcarry _).bind fun _ => (hcarry _).bind fun _ => Held.pure _
    have hentry : ∀ entry, Held tag pointer (carryEntry carry m entry) := by
      intro entry
      unfold carryEntry
      split
      · exact (hcarry _).bind fun _ => (hcarry _).bind fun _ => Held.pure _
      · exact held_refuse _
    exact Held.fill (wp_enter rfl a) fun index => Fills.bind (held_allocate _) fun _ =>
      Fills.bind (Held.each hposition) fun _ => Fills.bind (Held.each hentry) fun _ =>
        Fills.set rfl

theorem held_carryCell (place : Address) :
    Held tag pointer (carryCell carry m place) := by
  unfold carryCell
  refine (held_findMemo place).bind fun found => ?_
  cases found with
  | some cell => exact Held.pure cell
  | none =>
    exact Held.fill (wp_enter rfl place) fun cell => Fills.bind (hcarry _) fun _ => Fills.set rfl

theorem held_carryClosure (a : Address) :
    Held tag pointer (carryClosure p carry m a) := by
  unfold carryClosure
  refine (held_findMemo a).bind fun found => ?_
  cases found with
  | some index => exact Held.pure index
  | none =>
    dsimp only
    split
    · exact held_refuse _
    split
    · exact held_refuse _
    exact Held.fill (wp_enter rfl a) fun index => Fills.bind (held_allocate _) fun _ =>
      Fills.bind (Held.each (held_carryCell hcarry)) fun _ => Fills.set rfl

theorem held_carryCoroutine (a : Address) :
    Held tag pointer (carryCoroutine p carry m a) := by
  unfold carryCoroutine
  dsimp only
  split
  · refine (held_findMemo a).bind fun found => ?_
    cases found with
    | some index => exact Held.pure index
    | none =>
      refine Held.fill (wp_addNode_unheld rfl) fun index => Fills.bind (held_putMemo _ _) fun ok => ?_
      split
      · exact Fills.bind (held_carryClosure hcarry _) fun _ => Fills.bind (held_allocate _) fun _ =>
          Fills.bind (Held.each hcarry) fun _ => Fills.set rfl
      · exact fun c _ => Holds.refl c
  · exact held_refuse _

end

theorem held_carryHostdata (hcounts : Counts p tag) (data : LhatHostData) :
    Held tag pointer (carryHostdata p data) := by
  unfold carryHostdata
  split
  · split
    · intro c
      rw [Fallible.wp_bind]
      refine Fallible.wp_mono (wp_addNode _ c) ?_ (fun c' h => Holds.of_nodes h.1 h.2) id
      rintro index c' ⟨-, hnodes, hcalls⟩
      refine ⟨?_, ?_⟩
      · show _ <+: c'.nodes.map Node.held
        rw [hnodes, List.map_append]
        exact List.prefix_append _ _
      · show balance tag pointer (c'.calls ++ hold p data.tag data.pointer) -
          holders tag pointer c'.nodes = _
        rw [hnodes, hcalls, balance_append, balance_hold hcounts, holders, holders,
          List.map_append, List.count_append, List.map_cons, List.map_nil, List.count_singleton]
        by_cases hsame : (data.tag, data.pointer) = (tag, pointer)
        · rw [if_pos hsame, if_pos (by rw [Node.held, hsame, beq_self_eq_true])]
          omega
        · rw [if_neg hsame, if_neg (by simpa [Node.held] using hsame)]
          omega
    · exact held_refuse _
  · exact held_refuse _

theorem held_carryValue (hcounts : Counts p tag) (m : LhatMachine) :
    ∀ (fuel : Nat) (v : LhatValue), Held tag pointer (carryValue p m fuel v) := by
  intro fuel
  induction fuel with
  | zero => exact fun v => Fallible.Moves.halt
  | succ fuel ih =>
    intro v
    unfold carryValue
    cases v with
    | nil => exact held_addNode rfl
    | bool b => exact held_addNode rfl
    | integer i => exact held_addNode rfl
    | real d => exact held_addNode rfl
    | hostvalue tag => exact held_refuse _
    | cont bits => exact held_refuse _
    | run positions => exact held_refuse _
    | object a =>
      dsimp only
      unfold carryObject
      split
      · exact (held_allocate _).bind fun _ => held_addNode rfl
      · exact held_carryTable ih a
      · exact held_carryClosure ih a
      · exact held_carryCoroutine ih a
      · exact held_carryHostdata hcounts _
      · exact held_refuse _
      · exact held_refuse _
      · exact held_refuse _
      · exact held_refuse _

end Walk

theorem balance_lhatCarriedFree (hcounts : Counts p tag) (nodes : List Node) :
    balance tag pointer (lhatCarriedFree p nodes) = -holders tag pointer nodes := by
  induction nodes with
  | nil => rfl
  | cons node nodes ih =>
    have hnode : balance tag pointer (lhatCarriedFree p [node]) = -holders tag pointer [node] := by
      cases node with
      | hostdata a x =>
        rw [lhatCarriedFree, List.flatMap_singleton, balance_letGo hcounts, holders,
          List.map_singleton, List.count_singleton]
        by_cases hsame : (a, x) = (tag, pointer)
        · rw [if_pos hsame, if_pos (by rw [Node.held, hsame, beq_self_eq_true])]
          rfl
        · rw [if_neg hsame, if_neg (by simpa [Node.held] using hsame)]
          rfl
      | _ => rfl
    have hsplit : lhatCarriedFree p (node :: nodes) =
        lhatCarriedFree p [node] ++ lhatCarriedFree p nodes := by
      simp [lhatCarriedFree]
    have hcount : holders tag pointer (node :: nodes) =
        holders tag pointer [node] + holders tag pointer nodes := by
      unfold holders
      rw [List.map_cons, List.map_singleton, ← List.singleton_append, List.count_append]
    rw [hsplit, balance_append, hnode, ih, hcount]
    omega

theorem lhatCarry_balanced (hcounts : Counts p tag) {m : LhatMachine} {fuel : Nat}
    {memory : Memory} {value : LhatValue} {carriage : Carriage}
    (h : lhatCarry p m fuel memory value = some carriage) :
    balance tag pointer carriage.calls =
      match carriage.outcome with
      | .ok carried => holders tag pointer carried.nodes
      | .error _ => 0 := by
  unfold lhatCarry at h
  split at h
  · have hheld : Held tag pointer (carryValue p m fuel value) :=
      held_carryValue hcounts m fuel value
    have hcarry := hheld { memory := memory.request carriedSize }
    unfold Fallible.wp at hcarry
    split at h
    · cases h
    · rename_i hx
      rw [hx] at hcarry
      cases h
      have hbalance := hcarry.balanced
      simp only [balance_nil, holders, List.map_nil, List.count_nil] at hbalance
      simp only [holders]
      omega
    · rename_i hx
      rw [hx] at hcarry
      cases h
      have hbalance := hcarry.balanced
      simp only [balance_nil, holders, List.map_nil, List.count_nil] at hbalance
      simp only [balance_append, balance_lhatCarriedFree hcounts, holders]
      omega
  · cases h
    rfl

end Lhat.Carry
