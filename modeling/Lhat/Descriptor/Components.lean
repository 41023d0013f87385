import Lhat.Descriptor.Reach
import Mathlib.Data.Finset.Insert

/-!
# The components of the types

Types are asked for their components one after another, of a cache that was fresh at first. The
answers are the components of the graph that `each_child` gives, whatever was asked before.
-/

namespace Lhat.Descriptor

open Check (TypeRef)
open Components (Marks Mutual)
open Relation (ReflTransGen)

section Asked

variable (address : TypeRef → UInt64) (arena : CheckedArena)

/-- `component_of`, with fuel for all types of the arena. -/
def askComponent (cache : LhatRtCache) (type : TypeRef) : Option (LhatRtCache × Option Nat) :=
  componentOf address arena (arena.targets.length + 2) cache type

/-- `component_reaches`, with fuel for the components below. -/
def askReaches (cache : LhatRtCache) (source target : Nat) : Option (LhatRtCache × Bool) :=
  componentReaches address arena (source + 1) cache source target

/-- The members of a component along `next_in_component`. -/
def memberList (cache : LhatRtCache) : Nat → TypeRef → Option (List TypeRef)
  | 0, _ => none
  | left + 1, member =>
    if member = 0 then some []
    else
      match nodeFind address cache member with
      | some (some node) => (memberList cache left node.nextInComponent).map (member :: ·)
      | _ => none

/-- The members of a component. -/
def componentMembers (cache : LhatRtCache) (component : Nat) : Option (List TypeRef) :=
  memberList address cache (cache.nodes.count + 1) (cache.components.getD component 0)

/-- What can be asked of a cache that was fresh while memory does not run out, with the components
that were answered. -/
inductive Asked : LhatRtCache → List (TypeRef × Nat) → Prop
  | fresh (memory : Memory) : Asked { memory := memory } []
  | component {cache cache' : LhatRtCache} {given : List (TypeRef × Nat)} {type : TypeRef}
      {number : Nat} (h : Asked cache given) (hne : type ≠ 0)
      (hanswer : askComponent address arena cache type = some (cache', some number))
      (hwhole : cache'.broken = false) :
      Asked cache' ((type, number) :: given)
  | reaches {cache cache' : LhatRtCache} {given : List (TypeRef × Nat)} {source target : Nat}
      {found : Bool} (h : Asked cache given) (hsource : source < cache.components.length)
      (htarget : target < cache.components.length)
      (hanswer : askReaches address arena cache source target = some (cache', found))
      (hwhole : cache'.broken = false) :
      Asked cache' given

end Asked

section Components

variable {address : TypeRef → UInt64} {arena : CheckedArena} {cache cache' : LhatRtCache}
  {given : List (TypeRef × Nat)} {type : TypeRef}

theorem searched_fresh (memory : Memory) : Searched address arena { memory := memory } where
  sound := ⟨.empty, .empty⟩
  inv := ⟨fun _ => ⟨nofun, fun h => absurd rfl h.1⟩, .nil, nofun, nofun,
    fun _ _ h => absurd rfl h, nofun, nofun, nofun, fun _ => Nat.le_refl _⟩
  listed := ⟨fun _ h => absurd rfl h, nofun⟩

theorem remembers_fresh (memory : Memory) : Remembers address arena { memory := memory } := nofun

theorem component_of_kept (h : Searched address arena cache)
    (hkept : Components.Marks.Kept (marks address cache) (marks address cache'))
    (h' : Searched address arena cache') {b : TypeRef} {k : Nat} (hk : k < cache.components.length)
    : (marks address cache').component b = some k ↔ (marks address cache).component b = some k := by
  have hforward : ∀ {a l}, (marks address cache).component a = some l →
      (marks address cache').component a = some l := fun {a l} hl => by
    rw [hkept.component a (h.inv.entered a l hl).1, hl]
  refine ⟨fun hb => ?_, hforward⟩
  obtain ⟨a, ha⟩ := h.member hk
  have hmutual := (h'.inv.same a b k k (hforward ha) hb).mp rfl
  obtain ⟨l, -, hl⟩ := h.reached ha hmutual.1
  obtain rfl : l = k := Option.some.inj ((hforward hl).symm.trans hb)
  exact hl

theorem componentOf_spec (hsound : Sound address cache)
    (hcache : cache.broken = false → Searched address arena cache ∧ Remembers address arena cache)
    (hne : type ≠ 0) :
    ∃ cache' answer, askComponent address arena cache type = some (cache', answer) ∧
      Advances address cache cache' ∧ (cache'.broken = true → answer = none) ∧
      (cache'.broken = false → Searched address arena cache' ∧ Remembers address arena cache' ∧
        Components.Marks.Kept (marks address cache) (marks address cache') ∧
        ∃ k, answer = some k ∧ (marks address cache').component type = some k) := by
  have hanswer : ∀ {cache : LhatRtCache}, Searched address arena cache →
      (marks address cache).index type ≠ 0 → ∀ found, node address cache type = some found →
        ∃ k, found.component = some k ∧ (marks address cache).component type = some k := by
    intro cache h hindex found hfound
    obtain ⟨found', hfound', hne⟩ := node_of_index hindex
    obtain rfl : found = found' := Option.some.inj (hfound.symm.trans hfound')
    obtain ⟨k, hk⟩ := h.known hindex
    have hof : numberOf (node address cache type) = some k := hk
    rw [hfound] at hof
    exact ⟨k, (if_neg hne).symm.trans hof, hk⟩
  unfold askComponent componentOf
  simp only
  rw [nodeFind_eq hsound]
  by_cases hindex : (marks address cache).index type = 0
  · have hnot : ¬ ∃ found ∈ node address cache type, found.index ≠ 0 := by
      rintro ⟨found, hfound, hne⟩
      have hof : indexOf (node address cache type) = 0 := hindex
      rw [Option.mem_def.mp hfound] at hof
      exact hne hof
    simp only [if_neg hnot]
    have hclosed : ∀ a ∈ insert type arena.targets.toFinset, ∀ b, Child arena a b →
        b ∈ insert type arena.targets.toFinset := fun a _ b hab =>
      Finset.mem_insert_of_mem (List.mem_toFinset.mpr (arena.mem_targets hab))
    have hfuel : (unvisited address (insert type arena.targets.toFinset) cache).card <
        arena.targets.length + 2 := by
      have hle := Finset.card_filter_le (insert type arena.targets.toFinset)
        fun a => (marks address cache).index a = 0
      have hinsert := Finset.card_insert_le type arena.targets.toFinset
      have hlist := arena.targets.toFinset_card_le
      unfold unvisited
      omega
    obtain ⟨after, hcall, hadvance, hafter⟩ :=
      strongconnect_spec hclosed (arena.targets.length + 2) cache type [] hsound hne
        (Finset.mem_insert_self _ _) hindex hfuel fun hb => ⟨(hcache hb).1.inv,
          (hcache hb).1.listed⟩
    rw [hcall]
    simp only [nodeFind_eq hadvance.sound]
    have hsearched : after.broken = false → Searched address arena after := fun hb =>
      ⟨hadvance.sound, (hafter hb).1.inv, (hafter hb).2⟩
    have hrest : after.broken = false → Remembers address arena after := by
      intro hb f t r hr
      obtain ⟨h, hremembers⟩ := hcache (hadvance.whole hb)
      rw [hadvance.reach] at hr
      obtain ⟨hf, ht, hiff⟩ := hremembers f t r hr
      have hkept := (hafter hb).1.kept
      have hcount : cache.components.length ≤ after.components.length := by
        by_contra hlt
        have hlt : after.components.length < cache.components.length := Nat.lt_of_not_le hlt
        obtain ⟨a, ha⟩ := h.member hlt
        have ha' := (component_of_kept h hkept (hsearched hb) hlt).mpr ha
        exact absurd ((hsearched hb).inv.entered a _ ha').2 (Nat.lt_irrefl _)
      refine ⟨Nat.lt_of_lt_of_le hf hcount, Nat.lt_of_lt_of_le ht hcount, hiff.trans ?_⟩
      unfold Reaches
      simp only [component_of_kept h hkept (hsearched hb) hf,
        component_of_kept h hkept (hsearched hb) ht]
    cases hnode : node address after type with
    | none =>
      refine ⟨after, none, rfl, hadvance, fun _ => rfl, fun hb => ?_⟩
      obtain ⟨found, hfound, -⟩ := node_of_index (hafter hb).1.entered
      rw [hnode] at hfound
      cases hfound
    | some found =>
      refine ⟨after, _, rfl, hadvance, fun hb => if_pos hb, fun hb =>
        ⟨hsearched hb, hrest hb, (hafter hb).1.kept, ?_⟩⟩
      obtain ⟨k, hk, hnumber⟩ := hanswer (hsearched hb) (hafter hb).1.entered found hnode
      exact ⟨k, by rw [hb]; exact hk, hnumber⟩
  · obtain ⟨found, hfound, hne⟩ := node_of_index hindex
    have hsome : ∃ found ∈ node address cache type, found.index ≠ 0 := ⟨found, hfound, hne⟩
    simp only [if_pos hsome]
    rw [hfound]
    refine ⟨cache, _, rfl, .refl hsound, fun hb => if_pos hb, fun hb => ?_⟩
    obtain ⟨h, hremembers⟩ := hcache hb
    obtain ⟨k, hk, hnumber⟩ := hanswer h hindex found hfound
    refine ⟨h, hremembers, ⟨fun _ _ => rfl, fun _ _ => rfl, fun _ _ => rfl, Nat.le_refl _⟩, k, ?_,
      hnumber⟩
    rw [hb]
    exact hk

theorem Asked.searched (h : Asked address arena cache given) :
    Searched address arena cache ∧ Remembers address arena cache ∧
      ∀ p ∈ given, (marks address cache).component p.1 = some p.2 := by
  induction h with
  | fresh memory => exact ⟨searched_fresh memory, remembers_fresh memory, nofun⟩
  | @component cache cache' given type number h hne hanswer hwhole ih =>
    obtain ⟨hsearched, hremembers, hgiven⟩ := ih
    obtain ⟨after, answer, hask, -, -, hafter⟩ :=
      componentOf_spec hsearched.sound (fun _ => ⟨hsearched, hremembers⟩) hne
    obtain ⟨rfl, rfl⟩ := Prod.mk.inj (Option.some.inj (hask.symm.trans hanswer))
    obtain ⟨hsearched', hremembers', hkept, k, hk, hnumber⟩ := hafter hwhole
    obtain rfl := Option.some.inj hk
    refine ⟨hsearched', hremembers', fun p hp => ?_⟩
    obtain rfl | hp := List.mem_cons.mp hp
    · exact hnumber
    · have hold := hgiven p hp
      rw [hkept.component p.1 (hsearched.inv.entered p.1 p.2 hold).1, hold]
  | @reaches cache cache' given source target found h hsource htarget hanswer hwhole ih =>
    obtain ⟨hsearched, hremembers, hgiven⟩ := ih
    obtain ⟨after, answer, hask, hsame, hwf, hafter⟩ :=
      @componentReaches_spec address arena (source + 1) cache source target
        hsearched (Nat.lt_succ_self source) hsource htarget fun _ => hremembers
    obtain ⟨rfl, rfl⟩ := Prod.mk.inj (Option.some.inj (hask.symm.trans hanswer))
    refine ⟨hsame.searched hsearched hwf, (hafter hwhole).1, fun p hp => ?_⟩
    rw [hsame.marks_eq]
    exact hgiven p hp

theorem memberList_of_linked (h : Sound address cache) {list : List TypeRef}
    (hnodes : ∀ a ∈ list, ∃ found, node address cache a = some found) :
    ∀ {left : Nat} {member : TypeRef}, list.length < left →
      Linked (nextOf ∘ node address cache) member list →
      memberList address cache left member = some list := by
  induction list with
  | nil =>
    intro left member hleft hlinked
    obtain ⟨left, rfl⟩ : ∃ k, left = k + 1 := ⟨left - 1, by rw [List.length_nil] at hleft; omega⟩
    obtain rfl : member = 0 := hlinked
    rfl
  | cons a rest ih =>
    intro left member hleft hlinked
    obtain ⟨rfl, hne, hlinked⟩ := hlinked
    obtain ⟨left, rfl⟩ : ∃ k, left = k + 1 := ⟨left - 1, by omega⟩
    rw [List.length_cons] at hleft
    obtain ⟨found, hfound⟩ := hnodes member List.mem_cons_self
    have hnext : (nextOf ∘ node address cache) member = found.nextInComponent := by
      rw [Function.comp_apply, hfound]
      rfl
    rw [hnext] at hlinked
    have hrest := ih (fun b hb => hnodes b (List.mem_cons_of_mem _ hb))
      (Nat.lt_of_succ_lt_succ hleft) hlinked
    unfold memberList
    simp only [if_neg hne, nodeFind_eq h, hfound, hrest, Option.map_some]

theorem Searched.members (h : Searched address arena cache) {k : Nat}
    (hk : k < cache.components.length) :
    ∃ list, componentMembers address cache k = some list ∧ list.Nodup ∧
      ∀ a, a ∈ list ↔ (marks address cache).component a = some k := by
  obtain ⟨list, -, hnodup, hlinked, hmem⟩ := h.listed.lists k hk
  have hnodes : ∀ a ∈ list, ∃ found, node address cache a = some found := fun a ha =>
    (node_of_index (h.inv.entered a k ((hmem a).mp ha)).1).imp fun _ hfound => hfound.1
  have hlength := h.sound.nodes.length_le hnodup fun a ha =>
    Option.ne_none_iff_exists'.mpr (hnodes a ha)
  exact ⟨list, memberList_of_linked h.sound hnodes (Nat.lt_succ_of_le hlength) hlinked, hnodup,
    hmem⟩

/-- Two tables that name each other, and one that names the first. -/
def knotted : CheckedArena :=
  [{ kind := .table, variadic := 2 }, { kind := .table, variadic := 1 },
    { kind := .table, variadic := 1 }]

end Components

end Lhat.Descriptor
