import Lhat.Descriptor.Converted

/-!
# Where no error is mentioned

Types are converted one after another on one heap, with a cache or without, and other descriptors
stand on the heap beside theirs. A descriptor shows an error exactly where one stands among the
types that it is made out of, and `mentions_error` answers whether one stands among those that it
goes on to.
-/

namespace Lhat.Descriptor

open Check (TypeRef)
open Relation (ReflTransGen)

/-- What conversions on a heap can come to. -/
inductive Converting (address : TypeRef → UInt64) (arena : CheckedArena) : RtBuild → Prop
  | fresh (heap : List LhatRuntimeType) (memory : Memory) :
      Converting address arena { heap := heap, memory := memory }
  | remembering {build : RtBuild} (h : Converting address arena build) (memory : Memory) :
      Converting address arena { build with cache := some { memory := memory } }
  | forgetting {build : RtBuild} (h : Converting address arena build) :
      Converting address arena { build with cache := none }
  | allocating {build : RtBuild} (h : Converting address arena build)
      (others : List LhatRuntimeType) (memory : Memory) :
      Converting address arena { build with heap := build.heap ++ others, memory := memory }
  | converted {build build' : RtBuild} {type : TypeRef} {fuel : Nat} {rt : RuntimeRef}
      (h : Converting address arena build)
      (hconvert : lhatRtFromChecked address arena fuel build type = some (build', rt)) :
      Converting address arena build'

section Exact

variable {address : TypeRef → UInt64} {arena : CheckedArena} {build build' : RtBuild}
  {type : TypeRef} {fuel : Nat} {rt : RuntimeRef} {origin : RuntimeRef → TypeRef}

theorem Traced.others {heap : List LhatRuntimeType} (h : Traced arena origin heap)
    (others : List LhatRuntimeType) : Traced arena origin (heap ++ others) := by
  have hold : ∀ {a m}, origin a ≠ 0 → descriptorAt (heap ++ others) a = some m →
      descriptorAt heap a = some m := by
    intro a m ha hm
    obtain ⟨n, hn⟩ := h.inside a ha
    rw [descriptorAt_append_old others hn] at hm
    rw [hn, Option.some.inj hm]
  refine ⟨fun a ha => (h.inside a ha).imp fun m hm => descriptorAt_append_old others hm,
    fun a b ha hab => ?_, fun a m ha hm hmerror => h.error a m ha (hold ha hm) hmerror⟩
  obtain ⟨hb, m, hm, hmem⟩ := hab
  exact h.edge a b ha ⟨hb, m, hold ha hm, hmem⟩

theorem lhatRtFromChecked_spec (h : Good address arena origin build)
    (hconvert : lhatRtFromChecked address arena fuel build type = some (build', rt)) :
    ∃ origin', Good address arena origin' build' ∧
      (rt ≠ 0 → origin' rt = arena.unwrapped type ∧ arena.unwrapped type ≠ 0 ∧
        (ErrorBelow arena (arena.unwrapped type) → ContainsError build'.heap rt)) := by
  have hgood : Good address arena origin { build with failed := false } := h.congr rfl rfl
  obtain ⟨origin', hsteps, horigin, hshows⟩ :=
    rtFromChecked_spec fuel hgood (.none _) hconvert
  refine ⟨origin', hsteps.good, fun hrt => ?_⟩
  obtain ⟨hwhole, hne, heq⟩ := horigin hrt
  refine ⟨heq, hne, fun ⟨e, hreach, he⟩ => ?_⟩
  have hpath : AvoidingPaths.Path (Converts arena) (Seen []) (arena.unwrapped type) e :=
    .of_reach hreach fun x _ => not_seen_nil x
  exact (hshows hwhole e hpath he).2

theorem Converting.good (h : Converting address arena build) :
    ∃ origin, Good address arena origin build := by
  induction h with
  | fresh heap memory =>
    exact ⟨fun _ => 0, ⟨fun _ ha => absurd rfl ha, fun _ _ ha => absurd rfl ha,
      fun _ _ ha => absurd rfl ha⟩, nofun⟩
  | remembering h memory ih =>
    obtain ⟨origin, hgood⟩ := ih
    refine ⟨origin, hgood.traced, fun c hc => ?_⟩
    obtain rfl := Option.some.inj hc
    exact ⟨⟨⟨.empty, .empty⟩, fun _ => ⟨searched_fresh memory, remembers_fresh memory⟩⟩,
      fun _ hne => absurd rfl hne⟩
  | forgetting h ih =>
    obtain ⟨origin, hgood⟩ := ih
    exact ⟨origin, hgood.traced, nofun⟩
  | allocating h others memory ih =>
    obtain ⟨origin, hgood⟩ := ih
    exact ⟨origin, hgood.traced.others others, fun c hc =>
      (hgood.cached c hc).later (.append _ others) fun _ _ => rfl⟩
  | converted h hconvert ih =>
    obtain ⟨origin, hgood⟩ := ih
    obtain ⟨origin', hgood', -⟩ := lhatRtFromChecked_spec hgood hconvert
    exact ⟨origin', hgood'⟩

theorem containsError_iff (h : Converting address arena build)
    (hconvert : lhatRtFromChecked address arena fuel build type = some (build', rt))
    (hmade : rt ≠ 0) : ContainsError build'.heap rt ↔ ErrorBelow arena (arena.unwrapped type) := by
  obtain ⟨origin, hgood⟩ := h.good
  obtain ⟨origin', hgood', hrt⟩ := lhatRtFromChecked_spec hgood hconvert
  obtain ⟨heq, hne, hshows⟩ := hrt hmade
  refine ⟨fun hcontains => ?_, hshows⟩
  rw [← heq]
  exact hgood'.traced.errorBelow (heq ▸ hne) hcontains

/-- Where no error is mentioned none is shown, just where an error that the descriptor is made out
of can also be got to along what `mentions_error` goes on to. -/
theorem not_mentioned_iff (h : Converting address arena build) {fuel' : Nat} {mentions : Bool}
    (hconvert : lhatRtFromChecked address arena fuel build type = some (build', rt))
    (hmade : rt ≠ 0) (hmentions : arena.mentionsError fuel' type [] = some mentions) :
    (mentions = false → ¬ ContainsError build'.heap rt) ↔
      (ErrorBelow arena (arena.unwrapped type) →
        ∃ e, ReflTransGen arena.Mentions type e ∧ arena.ErrorAt e) := by
  rw [containsError_iff h hconvert hmade, ← mentionsError_iff hmentions]
  cases mentions <;> simp

end Exact

/-- A number, an error and a tuple of them. -/
def pairOf : CheckedArena :=
  [{ kind := .number }, { kind := .error }, { kind := .tuple, arms := [1, 2] }]

theorem pairOf_converted : ∃ build', lhatRtFromChecked (fun _ => 7) pairOf 5
      { memory := { grants := fun _ => true } } 3 = some (build', 1) ∧
    ContainsError build'.heap 1 := by
  refine ⟨_, rfl, 3, _, .single ⟨by decide, _, rfl, ?_⟩, rfl, .inl rfl⟩
  decide

theorem not_mentioned_iff_pairOf :
    ¬ (ErrorBelow pairOf (pairOf.unwrapped 3) →
      ∃ e, ReflTransGen pairOf.Mentions 3 e ∧ pairOf.ErrorAt e) := by
  obtain ⟨build', hconvert, hcontains⟩ := pairOf_converted
  exact fun hreach => (not_mentioned_iff (.fresh _ _) hconvert (by decide)
    (show pairOf.mentionsError 2 3 [] = some false by decide)).mpr hreach rfl hcontains

/-- A tuple with an error in it mentions none, and its descriptor shows it. -/
theorem mentions_error_forgets_tuples :
    ¬ ∀ (address : TypeRef → UInt64) (arena : CheckedArena) (build build' : RtBuild)
      (type : TypeRef) (fuel fuel' : Nat) (rt : RuntimeRef), Converting address arena build →
      arena.mentionsError fuel' type [] = some false →
      lhatRtFromChecked address arena fuel build type = some (build', rt) → rt ≠ 0 →
      ¬ ContainsError build'.heap rt := by
  obtain ⟨build', hconvert, hcontains⟩ := pairOf_converted
  exact fun hclaim => hclaim _ pairOf _ build' 3 5 2 1 (.fresh _ _) (by decide) hconvert (by decide)
    hcontains

end Lhat.Descriptor
