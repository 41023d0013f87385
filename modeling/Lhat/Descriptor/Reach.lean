import Lhat.Descriptor.Search

/-!
# What the components reach

Between two searches every type that was visited has its component, and so has all that it reaches.
Whether one component reaches another is asked of what its members name, and remembered.
-/

namespace Lhat.Descriptor

open Check (TypeRef)
open Components (Marks Mutual closed_reach)
open Relation (ReflTransGen)

section Reaching

variable (address : TypeRef → UInt64) (arena : CheckedArena)

/-- Some member of one component reaches some member of another. -/
def Reaches (cache : LhatRtCache) (source target : Nat) : Prop :=
  ∃ a b, (marks address cache).component a = some source ∧
    (marks address cache).component b = some target ∧ ReflTransGen (Child arena) a b

/-- What holds of the nodes between two searches. -/
structure Searched (cache : LhatRtCache) : Prop where
  sound : Sound address cache
  inv : (marks address cache).Inv (Child arena) []
  listed : Listed address cache

/-- What is remembered of two components is right. -/
def Remembers (cache : LhatRtCache) : Prop :=
  ∀ source target reaches, HalfFull.get pairHome cache.reach (source, target) = some reaches →
    source < cache.components.length ∧ target < cache.components.length ∧
      (reaches = true ↔ Reaches address arena cache source target)

end Reaching

section Steps

variable {address : TypeRef → UInt64} {arena : CheckedArena} {cache cache' : LhatRtCache}
  {source target fuel : Nat} {type : TypeRef}

namespace Searched

section

variable (h : Searched address arena cache)
include h

theorem known {a : TypeRef}
    (ha : (marks address cache).index a ≠ 0) : ∃ k, (marks address cache).component a = some k := by
  cases hc : (marks address cache).component a with
  | some k => exact ⟨k, rfl⟩
  | none =>
    obtain ⟨g, hg, -⟩ := h.inv.climbs a ((h.inv.mem_stack a).mpr ⟨ha, hc⟩)
    cases hg

theorem reached {a b : TypeRef} {k : Nat}
    (ha : (marks address cache).component a = some k) (hab : ReflTransGen (Child arena) a b) :
    ∃ l ≤ k, (marks address cache).component b = some l :=
  closed_reach (P := fun c => ∃ l ≤ k, (marks address cache).component c = some l)
    (fun c d ⟨l, hle, hl⟩ hcd => by
      obtain ⟨l', hle', hl'⟩ := h.inv.closed c d l hl hcd
      exact ⟨l', Nat.le_trans hle' hle, hl'⟩) hab ⟨k, Nat.le_refl k, ha⟩

theorem member {k : Nat} (hk : k < cache.components.length) :
    ∃ a, (marks address cache).component a = some k := by
  obtain ⟨list, hne, -, -, hmem⟩ := h.listed.lists k hk
  obtain ⟨a, rest, rfl⟩ := List.exists_cons_of_ne_nil hne
  exact ⟨a, (hmem a).mp List.mem_cons_self⟩

theorem reaches_of {a b : TypeRef}
    (ha : (marks address cache).component a = some source)
    (hb : (marks address cache).component b = some target) :
    Reaches address arena cache source target ↔ ReflTransGen (Child arena) a b := by
  refine ⟨?_, fun hab => ⟨a, b, ha, hb, hab⟩⟩
  rintro ⟨a', b', ha', hb', hab'⟩
  exact (((h.inv.same a a' source source ha ha').mp rfl).1.trans hab').trans
    ((h.inv.same b' b target target hb' hb).mp rfl).1

theorem reaches_self (hk : source < cache.components.length) :
    Reaches address arena cache source source := by
  obtain ⟨a, ha⟩ := h.member hk
  exact ⟨a, a, ha, ha, .refl⟩

theorem reaches_iff (hne : source ≠ target) :
    Reaches address arena cache source target ↔
      ∃ a, (marks address cache).component a = some source ∧ ∃ c ∈ arena.eachChild a, ∃ l,
        (marks address cache).component c = some l ∧ l ≠ source ∧
          Reaches address arena cache l target := by
  constructor
  · rintro ⟨a, b, ha, hb, hab⟩
    induction hab using ReflTransGen.head_induction_on with
    | refl => exact absurd (Option.some.inj (ha.symm.trans hb)) hne
    | @head a c hac hcb ih =>
      obtain ⟨l, -, hl⟩ := h.inv.closed a c source ha hac
      by_cases hsame : l = source
      · exact ih (hsame ▸ hl)
      · exact ⟨a, ha, c, hac, l, hl, hsame, c, b, hl, hb, hcb⟩
  · rintro ⟨a, ha, c, hc, l, hl, -, c', b, hc', hb, hcb⟩
    have hcc' := (h.inv.same c c' l l hl hc').mp rfl
    exact ⟨a, b, ha, hb, .head hc (hcc'.1.trans hcb)⟩

end

end Searched

/-! ### The memo -/

/-- Nothing is changed but the memo. -/
structure SameNodes (cache cache' : LhatRtCache) : Prop where
  nodes : cache'.nodes = cache.nodes
  stack : cache'.stack = cache.stack
  nextIndex : cache'.nextIndex = cache.nextIndex
  components : cache'.components = cache.components
  broken : cache.broken = true → cache'.broken = true

namespace SameNodes

theorem refl (cache : LhatRtCache) : SameNodes cache cache := ⟨rfl, rfl, rfl, rfl, id⟩

section

variable (h : SameNodes cache cache')
include h

theorem trans {cache'' : LhatRtCache} (h' : SameNodes cache' cache'') :
    SameNodes cache cache'' :=
  ⟨h'.nodes.trans h.nodes, h'.stack.trans h.stack, h'.nextIndex.trans h.nextIndex,
    h'.components.trans h.components, fun hb => h'.broken (h.broken hb)⟩

theorem node_eq : node address cache' = node address cache := by
  unfold node
  rw [h.nodes]

theorem marks_eq : marks address cache' = marks address cache := by
  unfold marks
  rw [h.node_eq, h.stack, h.nextIndex, h.components]

theorem reaches_eq :
    Reaches address arena cache' = Reaches address arena cache := by
  unfold Reaches
  rw [h.marks_eq]

theorem searched (hcache : Searched address arena cache)
    (hreach : HalfFull.Wf pairHome cache'.reach) : Searched address arena cache' := by
  refine ⟨⟨h.nodes ▸ hcache.sound.nodes, hreach⟩, h.marks_eq ▸ hcache.inv, ?_⟩
  refine hcache.listed.congr ?_ ?_ ?_ h.components
  · rw [h.marks_eq]
  · rw [h.marks_eq]
  · rw [h.node_eq]

theorem whole (hbroken : cache'.broken = false) :
    cache.broken = false := by
  cases hb : cache.broken with
  | false => rfl
  | true =>
    rw [h.broken hb] at hbroken
    cases hbroken

end

end SameNodes

theorem reachSlot_spec (h : HalfFull.Wf pairHome cache.reach) (pair : Nat × Nat) :
    ∃ roomy slot, reachSlot cache pair = some (roomy, slot) ∧ SameNodes cache roomy ∧
      HalfFull.Wf pairHome roomy.reach ∧
      HalfFull.get pairHome roomy.reach = HalfFull.get pairHome cache.reach ∧
      (slot = none ∧ roomy.broken = true ∨
        ∃ i, slot = some i ∧ roomy.reach.place pairHome pair = some i ∧ roomy.reach.slots ≠ [] ∧
          (roomy.reach.count + 1) * 2 ≤ roomy.reach.slots.length) := by
  have hplace : ∀ (reach : HalfFull (Nat × Nat) Bool), HalfFull.Wf pairHome reach →
      reach.slots ≠ [] → ∃ i, reach.place pairHome pair = some i := by
    intro reach hwf hne
    obtain ⟨i, -, hi, -⟩ := hwf.place_spec hne pair
    exact ⟨i, hi⟩
  unfold reachSlot
  simp only
  split
  · split
    · have hfirst : ∃ e, 64 = 2 ^ (e + 1) := ⟨5, rfl⟩
      obtain ⟨reach, hwiden, hwf, hget, hcount, hne, hroom⟩ := h.widen hfirst
      obtain ⟨i, hi⟩ := hplace reach hwf hne
      rw [hwiden]
      simp only [hi, Option.map_some]
      exact ⟨_, _, rfl, ⟨rfl, rfl, rfl, rfl, id⟩, hwf, hget, .inr ⟨i, rfl, hi, hne,
        by rw [hcount]; exact hroom⟩⟩
    · exact ⟨_, _, rfl, ⟨rfl, rfl, rfl, rfl, fun _ => rfl⟩, h, rfl, .inl ⟨rfl, rfl⟩⟩
  · rename_i hroom
    have hne : cache.reach.slots ≠ [] := by
      intro hempty
      rw [hempty, List.length_nil] at hroom
      omega
    obtain ⟨i, hi⟩ := hplace cache.reach h hne
    simp only [hi, Option.map_some]
    exact ⟨_, _, rfl, .refl cache, h, rfl, .inr ⟨i, rfl, hi, hne, Nat.not_lt.mp hroom⟩⟩

theorem reach_write {reach : HalfFull (Nat × Nat) Bool} (h : HalfFull.Wf pairHome reach)
    (hne : reach.slots ≠ []) (hroom : (reach.count + 1) * 2 ≤ reach.slots.length)
    {pair : Nat × Nat} {i : Nat} (hplace : reach.place pairHome pair = some i) (found : Bool) :
    HalfFull.Wf pairHome ⟨reach.slots.set i (some (pair, found)),
      if (reach.slots.getD i none).isNone then reach.count + 1 else reach.count⟩ ∧
    HalfFull.get pairHome ⟨reach.slots.set i (some (pair, found)),
      if (reach.slots.getD i none).isNone then reach.count + 1 else reach.count⟩ =
        Function.update (HalfFull.get pairHome reach) pair (some found) := by
  obtain ⟨j, slot, hplace', hj, hcase⟩ := h.place_spec hne pair
  obtain rfl : i = j := Option.some.inj (hplace.symm.trans hplace')
  rw [List.getD_eq_getElem?_getD, hj, Option.getD_some]
  obtain ⟨held, rfl, hget⟩ | ⟨rfl, hget⟩ := hcase
  · obtain ⟨reach', hupdate, hwf, hget'⟩ := h.update hget fun _ => found
    unfold HalfFull.update at hupdate
    rw [hplace, Option.map_some, List.getD_eq_getElem?_getD, hj] at hupdate
    obtain rfl := Option.some.inj hupdate
    exact ⟨hwf, hget'⟩
  · obtain ⟨reach', henter, hwf, hget'⟩ := h.enter hne hroom hget
      (fun slot => some (decide (slot.map Prod.fst = some pair)))
      (HalfFull.answers reach.slots pair).tells found
    unfold HalfFull.enter at henter
    rw [show HalfFull.probe pairHome reach.slots
      (fun slot => some (decide (slot.map Prod.fst = some pair))) pair = some i from hplace,
      Option.map_some] at henter
    obtain rfl := Option.some.inj henter
    exact ⟨hwf, hget'⟩

/-! ### The walk over the members -/

/-- What is asked of `component_reaches`, of components below a bound. -/
def Decides (address : TypeRef → UInt64) (arena : CheckedArena) (bound : Nat)
    (reaches : LhatRtCache → Nat → Nat → Option (LhatRtCache × Bool)) : Prop :=
  ∀ (cache : LhatRtCache) (source target : Nat), Searched address arena cache →
    source < bound → source < cache.components.length → target < cache.components.length →
    (cache.broken = false → Remembers address arena cache) →
    ∃ cache' found, reaches cache source target = some (cache', found) ∧
      SameNodes cache cache' ∧ HalfFull.Wf pairHome cache'.reach ∧
      (cache'.broken = false → Remembers address arena cache' ∧
        (found = true ↔ Reaches address arena cache source target))

/-- A type with a component that reaches the target, other than the one it is asked of. -/
def Leads (address : TypeRef → UInt64) (arena : CheckedArena) (cache : LhatRtCache)
    (source target : Nat) (c : TypeRef) : Prop :=
  ∃ l, (marks address cache).component c = some l ∧ l ≠ source ∧
    Reaches address arena cache l target

variable {reaches : LhatRtCache → Nat → Nat → Option (LhatRtCache × Bool)}

theorem reachEdges_spec (hreaches : Decides address arena source reaches)
    (htarget : target < cache.components.length) (children : List TypeRef) :
    ∀ {walk : LhatRtCache × Bool}, Searched address arena walk.1 → SameNodes cache walk.1 →
      (∀ c ∈ children, ∃ l ≤ source, (marks address cache).component c = some l) →
      (walk.1.broken = false → Remembers address arena walk.1) →
      ∃ walk', children.foldlM (reachEdge address reaches source target) walk = some walk' ∧
        Searched address arena walk'.1 ∧ SameNodes walk.1 walk'.1 ∧
        (walk'.1.broken = false → Remembers address arena walk'.1 ∧
          (walk'.2 = true ↔ walk.2 = true ∨
            ∃ c ∈ children, Leads address arena cache source target c)) := by
  induction children with
  | nil =>
    intro walk h _ _ hremembers
    exact ⟨walk, rfl, h, .refl _, fun hbroken => ⟨hremembers hbroken, by simp⟩⟩
  | cons c children ih =>
    intro walk h hsame hknown hremembers
    obtain ⟨current, found⟩ := walk
    have hrest : ∀ d ∈ children, ∃ l ≤ source, (marks address cache).component d = some l :=
      fun d hd => hknown d (List.mem_cons_of_mem _ hd)
    rw [List.foldlM_cons]
    unfold reachEdge
    cases found with
    | true =>
      obtain ⟨walk', hfold, h', hsame', hafter⟩ := @ih (current, true) h hsame hrest hremembers
      refine ⟨walk', hfold, h', hsame', fun hbroken => ⟨(hafter hbroken).1, ?_⟩⟩
      rw [(hafter hbroken).2]
      simp
    | false =>
      obtain ⟨l, hle, hl⟩ := hknown c List.mem_cons_self
      have hl' : (marks address current).component c = some l := hsame.marks_eq ▸ hl
      obtain ⟨child, hchild, hindex⟩ := node_of_index (h.inv.entered c l hl').1
      have hnumber : child.component = some l := by
        have hof : numberOf (node address current c) = some l := hl'
        rw [hchild] at hof
        exact (if_neg hindex).symm.trans hof
      simp only [Bool.false_eq_true, if_false, nodeFind_eq h.sound, hchild, hnumber]
      by_cases hother : l ≠ source
      · rw [if_pos hother]
        have hlt : l < source := Nat.lt_of_le_of_ne hle hother
        have hsource : l < current.components.length := (h.inv.entered c l hl').2
        obtain ⟨after, found, hcall, hsame', hwf, hafter⟩ := hreaches current l target h hlt hsource
          (by rw [hsame.components]; exact htarget) hremembers
        obtain ⟨walk', hfold, h', hsame'', hafter'⟩ := @ih (after, found)
          (hsame'.searched h hwf) (hsame.trans hsame') hrest fun hbroken => (hafter hbroken).1
        rw [hcall]
        refine ⟨walk', hfold, h', hsame'.trans hsame'', fun hbroken => ⟨(hafter' hbroken).1, ?_⟩⟩
        obtain ⟨-, hfound⟩ := hafter (hsame''.whole hbroken)
        rw [(hafter' hbroken).2, hfound, hsame.reaches_eq]
        have hleads : Leads address arena cache source target c ↔
            Reaches address arena cache l target := by
          refine ⟨?_, fun hr => ⟨l, hl, hother, hr⟩⟩
          rintro ⟨k, hk, -, hr⟩
          obtain rfl : l = k := Option.some.inj (hl.symm.trans hk)
          exact hr
        simp [hleads]
      · rw [if_neg hother]
        obtain ⟨walk', hfold, h', hsame', hafter⟩ := @ih (current, false) h hsame hrest hremembers
        refine ⟨walk', hfold, h', hsame', fun hbroken => ⟨(hafter hbroken).1, ?_⟩⟩
        rw [(hafter hbroken).2]
        have hleads : ¬ Leads address arena cache source target c := by
          rintro ⟨k, hk, hne, -⟩
          rw [hl] at hk
          exact hother (Option.some.inj hk ▸ hne)
        simp [hleads]

theorem reachMembers_spec (hreaches : Decides address arena source reaches)
    (htarget : target < cache.components.length) (members : List TypeRef) :
    ∀ {current : LhatRtCache} {left : Nat} {member : TypeRef}, Searched address arena current →
      SameNodes cache current → members.length < left →
      Linked (nextOf ∘ node address cache) member members →
      (∀ a ∈ members, (marks address cache).component a = some source) →
      (current.broken = false → Remembers address arena current) →
      ∃ walk, reachMembers address arena reaches source target left current member = some walk ∧
        Searched address arena walk.1 ∧ SameNodes current walk.1 ∧
        (walk.1.broken = false → Remembers address arena walk.1 ∧
          (walk.2 = true ↔ ∃ a ∈ members, ∃ c ∈ arena.eachChild a,
            Leads address arena cache source target c)) := by
  induction members with
  | nil =>
    intro current left member h hsame hleft hlinked _ hremembers
    rw [List.length_nil] at hleft
    obtain ⟨left, rfl⟩ : ∃ k, left = k + 1 := ⟨left - 1, by omega⟩
    obtain rfl : member = 0 := hlinked
    unfold reachMembers
    rw [if_pos rfl]
    exact ⟨(current, false), rfl, h, .refl _, fun hbroken => ⟨hremembers hbroken, by simp⟩⟩
  | cons a members ih =>
    intro current left member h hsame hleft hlinked hall hremembers
    obtain ⟨rfl, hne, hlinked⟩ := hlinked
    obtain ⟨left, rfl⟩ : ∃ k, left = k + 1 := ⟨left - 1, by omega⟩
    rw [List.length_cons] at hleft
    have hmember := hall member List.mem_cons_self
    have hmember' : (marks address current).component member = some source :=
      hsame.marks_eq ▸ hmember
    obtain ⟨⟨after, found⟩, hfold, h', hsame', hafter⟩ :=
      @reachEdges_spec address arena cache source target reaches hreaches htarget
        (arena.eachChild member) (current, false) h hsame (fun c hc => by
          rw [← hsame.marks_eq]
          exact h.inv.closed member c source hmember' hc) hremembers
    have hmore : ∀ P : TypeRef → Prop, (∃ b ∈ member :: members, P b) ↔
        P member ∨ ∃ b ∈ members, P b := fun P => by simp
    unfold reachMembers
    rw [if_neg hne, hfold]
    cases found with
    | true =>
      refine ⟨(after, true), rfl, h', hsame', fun hbroken => ⟨(hafter hbroken).1, ?_⟩⟩
      rw [hmore]
      exact ⟨fun _ => .inl (((hafter hbroken).2.mp rfl).resolve_left nofun), fun _ => rfl⟩
    | false =>
      obtain ⟨found, hfound, -⟩ := node_of_index (h.inv.entered member source hmember').1
      have hfound' : node address after member = some found := by rw [hsame'.node_eq, hfound]
      have hnext : found.nextInComponent = (nextOf ∘ node address cache) member := by
        rw [← hsame.node_eq, Function.comp_apply, hfound]
        rfl
      simp only [nodeFind_eq h'.sound, hfound']
      obtain ⟨walk, hwalk, h'', hsame'', hafter'⟩ := @ih after left found.nextInComponent h'
        (hsame.trans hsame') (by omega) (by rw [hnext]; exact hlinked)
        (fun b hb => hall b (List.mem_cons_of_mem _ hb)) fun hbroken => (hafter hbroken).1
      refine ⟨walk, hwalk, h'', hsame'.trans hsame'', fun hbroken => ⟨(hafter' hbroken).1, ?_⟩⟩
      have hnot := (hafter (hsame''.whole hbroken)).2
      rw [(hafter' hbroken).2, hmore]
      simp only [Bool.false_eq_true, false_or, false_iff] at hnot
      exact ⟨.inr, fun hor => hor.resolve_left hnot⟩

theorem componentReaches_spec (bound : Nat) :
    Decides address arena bound (componentReaches address arena bound) := by
  induction bound with
  | zero => exact fun cache source target _ hlt => absurd hlt (Nat.not_lt_zero _)
  | succ bound ih =>
    intro cache source target h hbound hsource htarget hremembers
    unfold componentReaches
    by_cases heq : source = target
    · rw [if_pos heq]
      refine ⟨cache, true, rfl, .refl cache, h.sound.reach, fun hbroken => ⟨hremembers hbroken, ?_⟩⟩
      exact ⟨fun _ => heq ▸ h.reaches_self hsource, fun _ => rfl⟩
    rw [if_neg heq]
    obtain ⟨roomy, slot, hslot, hsame, hwf, hget, hcase⟩ :=
      reachSlot_spec h.sound.reach (source, target)
    have hremembers' : roomy.broken = false → Remembers address arena roomy := by
      intro hbroken f t r hr
      rw [hget] at hr
      rw [hsame.components, hsame.reaches_eq]
      exact hremembers (hsame.whole hbroken) f t r hr
    rw [hslot]
    obtain ⟨rfl, hbroken⟩ | ⟨i, rfl, hplace, hne, hroom⟩ := hcase
    · exact ⟨roomy, true, rfl, hsame, hwf, fun hfalse => by rw [hbroken] at hfalse; cases hfalse⟩
    obtain ⟨j, held, hplace', hj, hheld⟩ := hwf.place_spec hne (source, target)
    obtain rfl : i = j := Option.some.inj (hplace.symm.trans hplace')
    simp only
    rw [List.getD_eq_getElem?_getD, hj, Option.getD_some]
    obtain ⟨known, rfl, hknown⟩ | ⟨rfl, -⟩ := hheld
    · refine ⟨roomy, known, rfl, hsame, hwf, fun hbroken => ⟨hremembers' hbroken, ?_⟩⟩
      rw [← hsame.reaches_eq]
      exact (hremembers' hbroken source target known hknown).2.2
    -- it is not known yet
    have hroomy := hsame.searched h hwf
    obtain ⟨members, -, hnodup, hlinked, hmem⟩ := h.listed.lists source hsource
    have hlength : members.length < roomy.nodes.count + 1 := by
      refine Nat.lt_succ_of_le (hroomy.sound.nodes.length_le hnodup fun a ha => ?_)
      obtain ⟨found, hfound, -⟩ :=
        node_of_index (h.inv.entered a source ((hmem a).mp ha)).1
      have : node address roomy a = some found := by rw [hsame.node_eq, hfound]
      exact Option.ne_none_iff_exists'.mpr ⟨found, this⟩
    have hdecides : Decides address arena source (componentReaches address arena bound) :=
      fun cache' source' target' h' hlt => ih cache' source' target' h' (by omega)
    obtain ⟨⟨walked, found⟩, hwalk, hwalked, hsame', hafter⟩ :=
      @reachMembers_spec address arena cache source target _ hdecides htarget members roomy
        (roomy.nodes.count + 1) (cache.components.getD source 0) hroomy hsame hlength hlinked
        (fun a ha => (hmem a).mp ha) hremembers'
    have hright : walked.broken = false →
        (found = true ↔ Reaches address arena cache source target) := by
      intro hbroken
      rw [(hafter hbroken).2, h.reaches_iff heq]
      simp only [hmem]
      rfl
    rw [← hsame.components] at hwalk
    simp only [hwalk]
    obtain ⟨roomy', slot, hslot', hsame'', hwf', hget', hcase⟩ :=
      reachSlot_spec hwalked.sound.reach (source, target)
    rw [hslot']
    have hall := (hsame.trans hsame').trans hsame''
    obtain ⟨rfl, hbroken⟩ | ⟨k, rfl, hplace'', hne', hroom'⟩ := hcase
    · exact ⟨roomy', true, rfl, hall, hwf', fun hfalse => by rw [hbroken] at hfalse; cases hfalse⟩
    obtain ⟨hwritten, hwrite⟩ := reach_write hwf' hne' hroom' hplace'' found
    refine ⟨_, found, rfl, ⟨hall.nodes, hall.stack, hall.nextIndex, hall.components, hall.broken⟩,
      hwritten, fun hbroken => ?_⟩
    have hwhole := hsame''.whole hbroken
    refine ⟨fun f t r hr => ?_, hright hwhole⟩
    rw [hwrite, hget', Function.update_apply] at hr
    have hcomponents : walked.components = cache.components := (hsame.trans hsame').components
    have hreaches : Reaches address arena walked = Reaches address arena cache :=
      (hsame.trans hsame').reaches_eq
    show f < roomy'.components.length ∧ t < roomy'.components.length ∧
      (r = true ↔ Reaches address arena roomy' f t)
    rw [hall.components, hall.reaches_eq]
    split at hr
    · rename_i hpair
      obtain ⟨rfl, rfl⟩ := Prod.mk.inj hpair
      obtain rfl := Option.some.inj hr
      exact ⟨hsource, htarget, hright hwhole⟩
    · rw [← hcomponents, ← hreaches]
      exact (hafter hwhole).1 f t r hr

end Steps

end Lhat.Descriptor
