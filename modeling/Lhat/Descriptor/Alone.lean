import Lhat.Descriptor.Heap

/-!
# What is remembered of conversions

A conversion is remembered where nothing in view lies in its reach, which is asked of the
components. What was remembered of a type shows every error below it.
-/

namespace Lhat.Descriptor

open Check (TypeRef)
open Components (Mutual)
open Relation (ReflTransGen)

/-- The cache is in order, or broken. -/
structure InOrder (address : TypeRef → UInt64) (arena : CheckedArena) (cache : LhatRtCache) :
    Prop where
  sound : Sound address cache
  whole : cache.broken = false → Searched address arena cache ∧ Remembers address arena cache

/-- What asking for components does to a cache. -/
structure Asks (address : TypeRef → UInt64) (arena : CheckedArena) (cache cache' : LhatRtCache) :
    Prop where
  order : InOrder address arena cache'
  broken : cache.broken = true → cache'.broken = true
  runtime : runtimeOf ∘ node address cache' = runtimeOf ∘ node address cache
  component : cache'.broken = false → ∀ a k, (marks address cache).component a = some k →
    (marks address cache').component a = some k

section Alone

variable {address : TypeRef → UInt64} {arena : CheckedArena} {cache cache' cache'' : LhatRtCache}
  {type : TypeRef}

theorem Asks.refl (h : InOrder address arena cache) : Asks address arena cache cache :=
  ⟨h, id, rfl, fun _ _ _ => id⟩

theorem Asks.whole (h : Asks address arena cache cache') (hb : cache'.broken = false) :
    cache.broken = false := by
  cases hbroken : cache.broken with
  | false => rfl
  | true =>
    rw [h.broken hbroken] at hb
    cases hb

theorem Asks.trans (h : Asks address arena cache cache') (h' : Asks address arena cache' cache'') :
    Asks address arena cache cache'' :=
  ⟨h'.order, fun hb => h'.broken (h.broken hb), h'.runtime.trans h.runtime,
    fun hb a k hk => h'.component hb a k (h.component (h'.whole hb) a k hk)⟩

theorem askComponent_asks (h : InOrder address arena cache) (hne : type ≠ 0) :
    ∃ cache' answer, askComponent address arena cache type = some (cache', answer) ∧
      Asks address arena cache cache' ∧ (cache'.broken = true → answer = none) ∧
      (cache'.broken = false → ∃ k, answer = some k ∧
        (marks address cache').component type = some k) := by
  obtain ⟨cache', answer, hask, hadvance, hnone, hafter⟩ := componentOf_spec h.sound h.whole hne
  refine ⟨cache', answer, hask, ⟨⟨hadvance.sound, fun hb => ⟨(hafter hb).1, (hafter hb).2.1⟩⟩,
    hadvance.broken, hadvance.runtime, fun hb a k hk => ?_⟩, hnone, fun hb => (hafter hb).2.2.2⟩
  have hentered := (h.whole (hadvance.whole hb)).1.inv.entered a k hk
  rw [(hafter hb).2.2.1.component a hentered.1, hk]

theorem askReaches_asks (h : InOrder address arena cache) (hb : cache.broken = false)
    {a b : TypeRef} {source target : Nat} (ha : (marks address cache).component a = some source)
    (hb' : (marks address cache).component b = some target) :
    ∃ cache' found, askReaches address arena cache source target = some (cache', found) ∧
      Asks address arena cache cache' ∧
      (cache'.broken = false → (found = true ↔ ReflTransGen (Child arena) a b)) := by
  obtain ⟨hsearched, hremembers⟩ := h.whole hb
  obtain ⟨cache', found, hask, hsame, hwf, hafter⟩ :=
    @componentReaches_spec address arena (source + 1) cache source target hsearched
      (Nat.lt_succ_self source) (hsearched.inv.entered a source ha).2
      (hsearched.inv.entered b target hb').2 fun _ => hremembers
  have hsearched' := hsame.searched hsearched hwf
  refine ⟨cache', found, hask, ⟨⟨hsearched'.sound, fun hb => ⟨hsearched', (hafter hb).1⟩⟩,
    hsame.broken, by rw [hsame.node_eq], fun _ a k hk => hsame.marks_eq ▸ hk⟩, fun hb => ?_⟩
  exact (hafter hb).2.trans (hsearched.reaches_of ha hb')

/-- What in view is asked about: whether it lies in the reach, of what is lent, and else whether it
can be got back to. -/
def Apart (arena : CheckedArena) (type : TypeRef) (s : RtSeen) : Prop :=
  if s.lent then ¬ ReflTransGen (Child arena) type s.type
  else ¬ Mutual (Child arena) type s.type

theorem noneInReach_spec {own : Nat} (seen : List RtSeen) (hne : ∀ s ∈ seen, s.type ≠ 0) :
    ∀ {cache : LhatRtCache}, InOrder address arena cache →
      (cache.broken = false → (marks address cache).component type = some own) →
      ∃ cache' alone, noneInReach address arena own seen cache = some (cache', alone) ∧
        Asks address arena cache cache' ∧
        (cache'.broken = false → alone = true → ∀ s ∈ seen, Apart arena type s) := by
  induction seen with
  | nil => exact fun {cache} h _ => ⟨cache, true, rfl, .refl h, fun _ _ => nofun⟩
  | cons s outer ih =>
    intro cache h hown
    obtain ⟨asked, answer, hask, hasks, hnone, hafter⟩ :=
      askComponent_asks h (hne s List.mem_cons_self)
    have hown' : asked.broken = false → (marks address asked).component type = some own :=
      fun hb => hasks.component hb type own (hown (hasks.whole hb))
    unfold noneInReach
    rw [hask]
    cases answer with
    | none => exact ⟨asked, false, rfl, hasks, fun _ => nofun⟩
    | some other =>
      have hb : asked.broken = false := by
        by_contra hb
        exact nomatch hnone (by simpa using hb)
      obtain ⟨k, hk, hother⟩ := hafter hb
      obtain rfl := Option.some.inj hk
      have hrest := @ih fun s' hs' => hne s' (List.mem_cons_of_mem _ hs')
      simp only
      by_cases hlent : s.lent = true
      · rw [if_pos hlent]
        obtain ⟨walked, found, hreaches, hasks', hfound⟩ :=
          askReaches_asks hasks.order hb (hown' hb) hother
        rw [hreaches]
        cases found with
        | true => exact ⟨walked, false, rfl, hasks.trans hasks', fun _ => nofun⟩
        | false =>
          obtain ⟨cache', alone, hcall, hasks'', hall⟩ := hrest hasks'.order fun hb' =>
            hasks'.component hb' type own (hown' hb)
          refine ⟨cache', alone, hcall, (hasks.trans hasks').trans hasks'', fun hb' halone => ?_⟩
          refine List.forall_mem_cons.mpr ⟨?_, hall hb' halone⟩
          unfold Apart
          rw [if_pos hlent]
          exact fun hreach => nomatch (hfound (hasks''.whole hb')).mpr hreach
      · rw [if_neg hlent]
        by_cases hsame : other = own
        · rw [if_pos hsame]
          exact ⟨asked, false, rfl, hasks, fun _ => nofun⟩
        · rw [if_neg hsame]
          obtain ⟨cache', alone, hcall, hasks', hall⟩ := hrest hasks.order hown'
          refine ⟨cache', alone, hcall, hasks.trans hasks', fun hb' halone => ?_⟩
          refine List.forall_mem_cons.mpr ⟨?_, hall hb' halone⟩
          unfold Apart
          rw [if_neg hlent]
          intro hmutual
          exact hsame (((hasks.order.whole hb).1.inv.same type s.type own other (hown' hb)
            hother).mpr hmutual).symm

theorem convertsAlone_spec (h : InOrder address arena cache) (hne : type ≠ 0) {seen : List RtSeen}
    (hseen : ∀ s ∈ seen, s.type ≠ 0) :
    ∃ cache' alone, convertsAlone address arena cache type seen = some (cache', alone) ∧
      Asks address arena cache cache' ∧
      (alone = true → cache'.broken = false ∧ ∀ s ∈ seen, Apart arena type s) := by
  unfold convertsAlone
  cases seen with
  | nil => exact ⟨cache, !cache.broken, rfl, .refl h, fun hb => ⟨by simpa using hb, nofun⟩⟩
  | cons s outer =>
    rw [if_neg (by simp)]
    obtain ⟨asked, answer, hask, hasks, hnone, hafter⟩ := askComponent_asks h hne
    rw [hask]
    cases answer with
    | none => exact ⟨asked, false, rfl, hasks, nofun⟩
    | some own =>
      have hown : asked.broken = false → (marks address asked).component type = some own := by
        intro hb
        obtain ⟨k, hk, hown⟩ := hafter hb
        rw [hown, hk]
      obtain ⟨cache', alone, hcall, hasks', hall⟩ :=
        @noneInReach_spec address arena type own (s :: outer) hseen asked hasks.order hown
      simp only [hcall]
      refine ⟨cache', _, rfl, hasks.trans hasks', fun halone => ?_⟩
      obtain ⟨halone, hb⟩ := Bool.and_eq_true_iff.mp halone
      have hb : cache'.broken = false := by simpa using hb
      exact ⟨hb, hall hb halone⟩

end Alone

/-! ### Remembering -/

/-- A descriptor shows every error below the type that it is made out of. -/
structure Shows (arena : CheckedArena) (origin : RuntimeRef → TypeRef)
    (heap : List LhatRuntimeType) (type : TypeRef) (rt : RuntimeRef) : Prop where
  ne_zero : type ≠ 0
  origin : origin rt = type
  contains : ErrorBelow arena type → ContainsError heap rt

/-- What a cache remembers is so. -/
structure Cached (address : TypeRef → UInt64) (arena : CheckedArena) (origin : RuntimeRef → TypeRef)
    (heap : List LhatRuntimeType) (cache : LhatRtCache) : Prop where
  order : InOrder address arena cache
  known : ∀ type, runtimeOf (node address cache type) ≠ 0 →
    Shows arena origin heap type (runtimeOf (node address cache type))

/-- What holds between the steps of a conversion. -/
structure Good (address : TypeRef → UInt64) (arena : CheckedArena) (origin : RuntimeRef → TypeRef)
    (build : RtBuild) : Prop where
  traced : Traced arena origin build.heap
  cached : ∀ cache ∈ build.cache, Cached address arena origin build.heap cache

section Remember

variable {address : TypeRef → UInt64} {arena : CheckedArena} {origin origin' : RuntimeRef → TypeRef}
  {heap heap' : List LhatRuntimeType} {cache cache' : LhatRtCache} {build : RtBuild}
  {type : TypeRef} {rt : RuntimeRef}

theorem Shows.later (h : Shows arena origin heap type rt) (hgrows : Grows heap heap')
    (hkept : ∀ a, origin a ≠ 0 → origin' a = origin a) : Shows arena origin' heap' type rt :=
  ⟨h.ne_zero, (hkept rt (h.origin.trans_ne h.ne_zero)).trans h.origin,
    fun hbelow => hgrows.contains (h.contains hbelow)⟩

theorem Cached.later (h : Cached address arena origin heap cache) (hgrows : Grows heap heap')
    (hkept : ∀ a, origin a ≠ 0 → origin' a = origin a) : Cached address arena origin' heap' cache :=
  ⟨h.order, fun type hne => (h.known type hne).later hgrows hkept⟩

theorem Cached.asks (h : Cached address arena origin heap cache)
    (hasks : Asks address arena cache cache') : Cached address arena origin heap cache' := by
  refine ⟨hasks.order, fun type hne => ?_⟩
  have hsame : runtimeOf (node address cache' type) = runtimeOf (node address cache type) :=
    congrFun hasks.runtime type
  rw [hsame] at hne ⊢
  exact h.known type hne

theorem recall_spec (h : Good address arena origin build) {seen : List RtSeen}
    (hseen : ∀ s ∈ seen, s.type ≠ 0) :
    ∃ build' remembered known,
      recalled address arena build type seen = some (build', remembered, known) ∧
      build'.heap = build.heap ∧ build'.failed = build.failed ∧ Good address arena origin build' ∧
      (known ≠ 0 → Shows arena origin build.heap type known) ∧
      (remembered = true → type ≠ 0 ∧ ∀ s ∈ seen, Apart arena type s) := by
  unfold recalled
  cases hcache : build.cache with
  | none => exact ⟨build, false, 0, rfl, rfl, rfl, h, fun hne => absurd rfl hne, nofun⟩
  | some cache =>
    simp only
    by_cases hzero : type = 0
    · rw [if_pos hzero]
      exact ⟨build, false, 0, rfl, rfl, rfl, h, fun hne => absurd rfl hne, nofun⟩
    rw [if_neg hzero]
    have hcached := h.cached cache hcache
    obtain ⟨cache', alone, hask, hasks, halone⟩ := convertsAlone_spec hcached.order hzero hseen
    have hcached' := hcached.asks hasks
    have hgood : Good address arena origin { build with cache := some cache' } :=
      ⟨h.traced, fun c hc => Option.some.inj hc ▸ hcached'⟩
    rw [hask]
    cases alone with
    | false => exact ⟨_, false, 0, rfl, rfl, rfl, hgood, fun hne => absurd rfl hne, nofun⟩
    | true =>
      simp only [nodeFind_eq hasks.order.sound]
      exact ⟨_, true, _, rfl, rfl, rfl, hgood, hcached'.known type, fun _ =>
        ⟨hzero, (halone rfl).2⟩⟩

theorem InOrder.congr (h : InOrder address arena cache) {nodes : HalfFull TypeRef LhatRtNode}
    {memory : Memory} (hwf : HalfFull.Wf (typeHome address) nodes)
    (hsame : ∀ {β : Type} (f : Option LhatRtNode → β), f none = f (some {}) →
      (∀ n rt, f (some { n with runtime := rt }) = f (some n)) →
      f ∘ HalfFull.get (typeHome address) nodes = f ∘ node address cache) :
    InOrder address arena { cache with nodes := nodes, memory := memory } := by
  have hmarks : marks address { cache with nodes := nodes, memory := memory } =
      marks address cache := by
    unfold marks
    simp only [Components.Marks.mk.injEq]
    exact ⟨hsame indexOf rfl fun _ _ => rfl, hsame lowOf rfl fun _ _ => rfl,
      hsame numberOf rfl fun _ _ => rfl, trivial, trivial, trivial⟩
  refine ⟨⟨hwf, h.sound.reach⟩, fun hb => ?_⟩
  obtain ⟨hsearched, hremembers⟩ := h.whole hb
  refine ⟨⟨⟨hwf, h.sound.reach⟩, hmarks ▸ hsearched.inv, hsearched.listed.congr ?_ ?_
    (hsame nextOf rfl fun _ _ => rfl) rfl⟩, fun f t r hr => ?_⟩
  · rw [hmarks]
  · rw [hmarks]
  · obtain ⟨hf, ht, hiff⟩ := hremembers f t r hr
    refine ⟨hf, ht, hiff.trans ?_⟩
    unfold Reaches
    rw [hmarks]

theorem InOrder.of_broken (hsound : Sound address cache) (hb : cache.broken = true) :
    InOrder address arena cache :=
  ⟨hsound, fun hfalse => by rw [hb] at hfalse; cases hfalse⟩

theorem remember_spec (h : Good address arena origin build) (type : TypeRef)
    (hshows : rt ≠ 0 → Shows arena origin build.heap type rt) :
    ∃ build', remember address build type rt = some build' ∧ build'.heap = build.heap ∧
      build'.failed = build.failed ∧ Good address arena origin build' := by
  unfold remember
  cases hcache : build.cache with
  | none => exact ⟨build, rfl, rfl, rfl, h⟩
  | some cache =>
    have hcached := h.cached cache hcache
    have hgood : ∀ cache', Cached address arena origin build.heap cache' →
        Good address arena origin { build with cache := some cache' } := fun cache' hcached' =>
      ⟨h.traced, fun c hc => Option.some.inj hc ▸ hcached'⟩
    obtain ⟨ok, nodes, memory, broken, hadd, hwf, hcase⟩ := nodeAdd_spec hcached.order.sound type
    simp only [hadd]
    obtain ⟨rfl, rfl, hget⟩ | ⟨rfl, rfl, hget⟩ := hcase
    · have hfound : node address
          { cache with nodes := nodes, memory := memory, broken := cache.broken } type =
            some ((node address cache type).getD {}) := by
        show HalfFull.get (typeHome address) nodes type = _
        rw [hget, Function.update_self]
      have hsound : Sound address
          { cache with nodes := nodes, memory := memory, broken := cache.broken } :=
        ⟨hwf, hcached.order.sound.reach⟩
      obtain ⟨nodes', hwrite, hwf', hget'⟩ :=
        nodeWrite_spec hsound hfound fun n => { n with runtime := rt }
      have hafter : HalfFull.get (typeHome address) nodes' = Function.update (node address cache)
          type (some { (node address cache type).getD {} with runtime := rt }) := by
        rw [hget']
        show Function.update (HalfFull.get (typeHome address) nodes) type _ = _
        rw [hget, Function.update_idem]
      simp only [hwrite, Option.map_some]
      refine ⟨_, rfl, rfl, rfl, hgood _ ⟨?_, fun t hne => ?_⟩⟩
      · refine hcached.order.congr hwf' fun {β} f hnone hruntime => ?_
        rw [hafter, Function.comp_update, hruntime]
        have hold : f (some ((node address cache type).getD {})) = f (node address cache type) := by
          cases node address cache type with
          | none => exact hnone.symm
          | some found => rfl
        rw [hold]
        exact Function.update_eq_self type (f ∘ node address cache)
      · have hnode : node address { cache with nodes := nodes', memory := memory } t =
            Function.update (node address cache) type
              (some { (node address cache type).getD {} with runtime := rt }) t :=
          congrFun hafter t
        rw [hnode] at hne ⊢
        by_cases heq : t = type
        · subst heq
          rw [Function.update_self] at hne ⊢
          exact hshows hne
        · rw [Function.update_of_ne heq] at hne ⊢
          exact hcached.known t hne
    · refine ⟨_, rfl, rfl, rfl, hgood _ ⟨.of_broken ⟨hwf, hcached.order.sound.reach⟩ rfl,
        fun t hne => ?_⟩⟩
      have hnode : node address { cache with nodes := nodes, memory := memory, broken := true } t =
          node address cache t := congrFun hget t
      rw [hnode] at hne ⊢
      exact hcached.known t hne

end Remember

end Lhat.Descriptor
