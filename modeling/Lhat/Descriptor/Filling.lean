import Lhat.Descriptor.Alone

/-!
# A descriptor while it is filled

What holds while the children of a type are converted and written to its descriptor. No descriptor
that was there before is changed, and each child that was written shows the errors that can be got
to from it without what is in view.
-/

namespace Lhat.Descriptor

open Check (TypeRef MemberPlace)
open AvoidingPaths (Path)
open Relation (ReflTransGen)

variable {f : LhatRuntimeType → LhatRuntimeType}

/-- What stands in view. -/
def Seen (seen : List RtSeen) (x : TypeRef) : Prop := ∃ s ∈ seen, s.type = x

/-- A descriptor shows the errors that a type gets to without what is in view. -/
def ShowsOff (arena : CheckedArena) (seen : List RtSeen) (heap : List LhatRuntimeType)
    (type : TypeRef) (rt : RuntimeRef) : Prop :=
  ∀ e, Path (Converts arena) (Seen seen) type e → arena.ErrorAt e → rt ≠ 0 ∧ ContainsError heap rt

/-- What is in view, from a type: what was on the way gets to it. -/
structure InView (arena : CheckedArena) (origin : RuntimeRef → TypeRef) (seen : List RtSeen)
    (type : TypeRef) : Prop where
  ne_zero : ∀ s ∈ seen, s.type ≠ 0
  runtime : ∀ s ∈ seen, s.runtime ≠ 0 → origin s.runtime = s.type
  above : ∀ s ∈ seen, s.lent = false → type ≠ 0 → ReflTransGen (Child arena) s.type type

/-- What the steps of a conversion leave: what was there stands as it was. -/
structure Steps (address : TypeRef → UInt64) (arena : CheckedArena) (origin : RuntimeRef → TypeRef)
    (build : RtBuild) (origin' : RuntimeRef → TypeRef) (build' : RtBuild) : Prop where
  good : Good address arena origin' build'
  kept : ∀ a, origin a ≠ 0 → origin' a = origin a
  frame : ∀ a n, descriptorAt build.heap a = some n → descriptorAt build'.heap a = some n
  whole : build'.failed = false → build.failed = false

/-- What is asked of a conversion. -/
def Conversion (address : TypeRef → UInt64) (arena : CheckedArena)
    (convert : RtBuild → TypeRef → List RtSeen → Option (RtBuild × RuntimeRef)) : Prop :=
  ∀ {origin : RuntimeRef → TypeRef} {build build' : RtBuild} {named : TypeRef} {seen : List RtSeen}
    {rt : RuntimeRef}, Good address arena origin build →
    InView arena origin seen (arena.unwrapped named) →
    convert build named seen = some (build', rt) →
    ∃ origin', Steps address arena origin build origin' build' ∧
      (rt ≠ 0 → build'.failed = false ∧ arena.unwrapped named ≠ 0 ∧
        origin' rt = arena.unwrapped named) ∧
      (build'.failed = false → ShowsOff arena seen build'.heap (arena.unwrapped named) rt)

/-- A child that was converted with so much in view is among what a descriptor points at. -/
def Carries (arena : CheckedArena) (heap : List LhatRuntimeType) (n : LhatRuntimeType)
    (child : TypeRef × List RtSeen) : Prop :=
  ∀ e, Path (Converts arena) (Seen child.2) (arena.unwrapped child.1) e → arena.ErrorAt e →
    ∃ p ∈ n.refs, p ≠ 0 ∧ ContainsError heap p

/-- The new descriptor of a type while the children in `done` are written to it. -/
structure Filling (address : TypeRef → UInt64) (arena : CheckedArena) (origin : RuntimeRef →
    TypeRef)
    (build : RtBuild) (origin' : RuntimeRef → TypeRef) (build' : RtBuild) (type : TypeRef)
    (rt : RuntimeRef) (n : LhatRuntimeType) (done : List (TypeRef × List RtSeen)) : Prop
    extends Steps address arena origin build origin' build' where
  fresh : descriptorAt build.heap rt = none
  holds : descriptorAt build'.heap rt = some n
  origin_eq : origin' rt = type
  type_ne : type ≠ 0
  carries : build'.failed = false → ∀ child ∈ done, Carries arena build'.heap n child

section Steps

variable {address : TypeRef → UInt64} {arena : CheckedArena}
  {origin origin' origin'' : RuntimeRef → TypeRef} {build build' build'' : RtBuild}
  {heap heap' : List LhatRuntimeType} {type named : TypeRef} {rt child : RuntimeRef}
  {n n' : LhatRuntimeType} {done : List (TypeRef × List RtSeen)} {seen : List RtSeen}

theorem InView.none (type : TypeRef) : InView arena origin [] type :=
  ⟨fun _ hs => (List.not_mem_nil hs).elim, fun _ hs => (List.not_mem_nil hs).elim,
    fun _ hs => (List.not_mem_nil hs).elim⟩

theorem not_seen_nil (x : TypeRef) : ¬ Seen [] x := by
  rintro ⟨s, hs, -⟩
  cases hs

theorem InView.kept (h : InView arena origin seen type)
    (hkept : ∀ a, origin a ≠ 0 → origin' a = origin a) : InView arena origin' seen type :=
  ⟨h.ne_zero, fun s hs hne => (hkept _ ((h.runtime s hs hne).trans_ne (h.ne_zero s hs))).trans
    (h.runtime s hs hne), h.above⟩

theorem InView.below (h : InView arena origin seen type) (htype : type ≠ 0) {b : TypeRef}
    (hedge : b ≠ 0 → Converts arena type b) : InView arena origin seen b :=
  ⟨h.ne_zero, h.runtime, fun s hs hlent hb => (h.above s hs hlent htype).tail (hedge hb).child⟩

theorem Good.congr (h : Good address arena origin build) (hheap : build'.heap = build.heap)
    (hcache : build'.cache = build.cache) : Good address arena origin build' :=
  ⟨hheap ▸ h.traced, fun c hc => hheap ▸ h.cached c (hcache ▸ hc)⟩

theorem Steps.refl (h : Good address arena origin build) :
    Steps address arena origin build origin build :=
  ⟨h, fun _ _ => rfl, fun _ _ => id, id⟩

section

variable (h : Steps address arena origin build origin' build')
include h

theorem Steps.trans
    (h' : Steps address arena origin' build' origin'' build'') :
    Steps address arena origin build origin'' build'' :=
  ⟨h'.good, fun a ha => (h'.kept a ((h.kept a ha).trans_ne ha)).trans (h.kept a ha),
    fun a n hn => h'.frame a n (h.frame a n hn), fun hb => h.whole (h'.whole hb)⟩

theorem Steps.grows :
    Grows build.heap build'.heap :=
  fun a n hn => ⟨n, h.frame a n hn, rfl, fun _ _ => id⟩

theorem Steps.memory (memory : Memory) :
    Steps address arena origin build origin' { build' with memory := memory } :=
  ⟨h.good.congr rfl rfl, h.kept, h.frame, h.whole⟩

end

theorem Carries.later {d : TypeRef × List RtSeen} (h : Carries arena heap n d)
    (hgrows : Grows heap heap') (hrefs : ∀ b ≠ 0, b ∈ n.refs → b ∈ n'.refs) :
    Carries arena heap' n' d := by
  intro e hpath he
  obtain ⟨p, hp, hne, hcontains⟩ := h e hpath he
  exact ⟨p, hrefs p hne hp, hne, hgrows.contains hcontains⟩

namespace Filling

section

variable (h : Filling address arena origin build origin' build' type rt n done)
include h

theorem ne_zero : rt ≠ 0 :=
  ne_zero_of_descriptorAt h.holds

theorem memory
    (memory : Memory) :
    Filling address arena origin build origin' { build' with memory := memory } type rt n done :=
  ⟨h.toSteps.memory memory, h.fresh, h.holds, h.origin_eq, h.type_ne, h.carries⟩

theorem step
    (h' : Steps address arena origin' build' origin'' build'') :
    Filling address arena origin build origin'' build'' type rt n done where
  toSteps := h.toSteps.trans h'
  fresh := h.fresh
  holds := h'.frame rt n h.holds
  origin_eq := (h'.kept rt (h.origin_eq.trans_ne h.type_ne)).trans h.origin_eq
  type_ne := h.type_ne
  carries hb d hd := (h.carries (h'.whole hb) d hd).later h'.grows fun _ _ => id

theorem write (hadds : Adds n (f n) child)
    (hchild : child ≠ 0 → Converts arena type (origin' child)) :
    Filling address arena origin build origin' (build'.write rt f) type rt (f n) done := by
  have hgrows : Grows build'.heap (build'.heap.modify (rt - 1) f) :=
    .modify h.holds hadds.1 fun b hb hmem => (hadds.2 b hb).mpr (.inr hmem)
  refine ⟨⟨⟨h.good.traced.modify h.holds hadds.1 fun b hb hmem => ?_, fun c hc =>
    (h.good.cached c hc).later hgrows fun _ _ => rfl⟩, h.kept, fun a m hm => ?_, h.whole⟩, h.fresh,
    ?_, h.origin_eq, h.type_ne, fun hb d hd => (h.carries hb d hd).later hgrows fun b hb hmem =>
      (hadds.2 b hb).mpr (.inr hmem)⟩
  · obtain rfl | hold := (hadds.2 b hb).mp hmem
    · exact .inr (h.origin_eq ▸ hchild hb)
    · exact .inl hold
  · show descriptorAt (build'.heap.modify (rt - 1) f) a = some m
    rw [descriptorAt_modify _ f h.ne_zero, if_neg, h.frame a m hm]
    rintro rfl
    rw [h.fresh] at hm
    cases hm
  · show descriptorAt (build'.heap.modify (rt - 1) f) rt = some (f n)
    rw [descriptorAt_modify _ f h.ne_zero, if_pos rfl, h.holds]
    rfl

theorem mark (hadds : Adds n (f n) 0) :
    Filling address arena origin build origin' (build'.write rt f) type rt (f n) done :=
  h.write hadds fun hne => absurd rfl hne

theorem add
    (hadds : Adds n (f n) child) (hchild : child ≠ 0 → Converts arena type (origin' child))
    (hshows : build'.failed = false → ShowsOff arena seen build'.heap (arena.unwrapped named) child)
    :
    Filling address arena origin build origin' (build'.write rt f) type rt (f n)
      ((named, seen) :: done) := by
  have hwritten := h.write hadds hchild
  have hgrows : Grows build'.heap (build'.heap.modify (rt - 1) f) :=
    .modify h.holds hadds.1 fun b hb hmem => (hadds.2 b hb).mpr (.inr hmem)
  refine ⟨hwritten.toSteps, hwritten.fresh, hwritten.holds, hwritten.origin_eq, hwritten.type_ne,
    fun hb => List.forall_mem_cons.mpr ⟨fun e hpath he => ?_, hwritten.carries hb⟩⟩
  obtain ⟨hne, hcontains⟩ := hshows hb e hpath he
  exact ⟨child, (hadds.2 child hne).mpr (.inl rfl), hne, hgrows.contains hcontains⟩

end

variable {convert : RtBuild → TypeRef → List RtSeen → Option (RtBuild × RuntimeRef)}

section

variable (h : Filling address arena origin build origin' build' type rt n done)
include h

theorem converted
    (hconvert : Conversion address arena convert) (hview : InView arena origin' seen type)
    (hedge : arena.unwrapped named ≠ 0 → Converts arena type (arena.unwrapped named))
    (hcall : convert build' named seen = some (build'', child)) :
    ∃ origin'', Filling address arena origin build origin'' build'' type rt n done ∧
      (∀ a, origin' a ≠ 0 → origin'' a = origin' a) ∧
      (child ≠ 0 → Converts arena type (origin'' child)) ∧
      (build''.failed = false →
        ShowsOff arena seen build''.heap (arena.unwrapped named) child) := by
  obtain ⟨origin'', hsteps, horigin, hshows⟩ :=
    hconvert h.good (hview.below h.type_ne hedge) hcall
  refine ⟨origin'', h.step hsteps, hsteps.kept, fun hne => ?_, hshows⟩
  obtain ⟨-, hne, heq⟩ := horigin hne
  rw [heq]
  exact hedge hne

theorem into
    (hconvert : Conversion address arena convert) (hview : InView arena origin' seen type)
    (hedge : arena.unwrapped named ≠ 0 → Converts arena type (arena.unwrapped named))
    {f : RuntimeRef → LhatRuntimeType → LhatRuntimeType} (hf : ∀ c, Adds n (f c n) c)
    (hcall : convertInto convert build' rt named seen f = some build'') :
    ∃ origin'' c, Filling address arena origin build origin'' build'' type rt (f c n)
        ((named, seen) :: done) ∧ ∀ a, origin' a ≠ 0 → origin'' a = origin' a := by
  unfold convertInto at hcall
  obtain ⟨⟨between, c⟩, hconverted, rfl⟩ := Option.map_eq_some_iff.mp hcall
  obtain ⟨origin'', hfilling, hkept, hchild, hshows⟩ :=
    h.converted hconvert hview hedge hconverted
  exact ⟨origin'', c, hfilling.add (hf c) hchild hshows, hkept⟩

theorem absent
    (hzero : arena.unwrapped named = 0) :
    Filling address arena origin build origin' build' type rt n ((named, seen) :: done) := by
  refine ⟨h.toSteps, h.fresh, h.holds, h.origin_eq, h.type_ne,
    fun hb => List.forall_mem_cons.mpr ⟨fun e hpath he => ?_, h.carries hb⟩⟩
  have hnone : arena.type (arena.unwrapped named) = none := by rw [hzero]; rfl
  obtain rfl | ⟨c, hc, -⟩ := hpath.onward
  · obtain ⟨t, ht, -⟩ := he
    exact nomatch hnone.symm.trans ht
  · obtain ⟨t, ht, -⟩ := CheckedArena.mem_convertedChildren.mp hc
    exact nomatch hnone.symm.trans ht

end

end Filling

end Steps

/-! ### The loops -/

section Loops

variable {address : TypeRef → UInt64} {arena : CheckedArena}
  {origin origin' : RuntimeRef → TypeRef} {build build' build'' : RtBuild}
  {type : TypeRef} {rt : RuntimeRef} {n : LhatRuntimeType} {done : List (TypeRef × List RtSeen)}
  {seen : List RtSeen}
  {convert : RtBuild → TypeRef → List RtSeen → Option (RtBuild × RuntimeRef)}

namespace Filling

theorem addPart_cases (build : RtBuild) (rt part : RuntimeRef) :
    ∃ memory, build.addPart rt part = (false, { build with memory := memory }) ∨
      build.addPart rt part = (true, RtBuild.write { build with memory := memory } rt fun n =>
        { n with parts := n.parts ++ [part] }) := by
  unfold RtBuild.addPart RtBuild.alloc
  simp only
  generalize build.memory.granted _ = granted
  cases granted with
  | false => exact ⟨_, .inl rfl⟩
  | true => exact ⟨_, .inr rfl⟩

theorem addMember_cases (build : RtBuild) (rt : RuntimeRef) (name : Lexing.Text)
    (member : RuntimeRef) :
    ∃ memory, build.addMember rt name member = (false, { build with memory := memory }) ∨
      build.addMember rt name member = (true, RtBuild.write { build with memory := memory } rt
        fun n => { n with members := n.members ++ [(name, member)] }) := by
  unfold RtBuild.addMember RtBuild.alloc
  simp only
  generalize build.memory.granted _ = granted
  cases granted with
  | false => exact ⟨_, .inl rfl⟩
  | true => exact ⟨_, .inr rfl⟩

theorem parts (hconvert : Conversion address arena convert) {strict : Bool} (list : List TypeRef) :
    ∀ {origin' : RuntimeRef → TypeRef} {build' : RtBuild} {n : LhatRuntimeType}
      {done : List (TypeRef × List RtSeen)} {ok : Bool},
      Filling address arena origin build origin' build' type rt n done →
      InView arena origin' seen type →
      (∀ c ∈ list, arena.unwrapped c ≠ 0 → Converts arena type (arena.unwrapped c)) →
      convertParts convert rt strict seen list build' = some (build'', ok) →
      ∃ origin'' parts done', (∀ a, origin' a ≠ 0 → origin'' a = origin' a) ∧
        Filling address arena origin build origin'' build'' type rt { n with parts := parts }
          done' ∧
        done ⊆ done' ∧ (ok = true → ∀ c ∈ list, (c, seen) ∈ done') := by
  induction list with
  | nil =>
    intro origin' build' n done ok h _ _ hcall
    obtain ⟨rfl, rfl⟩ := Prod.mk.inj (Option.some.inj hcall)
    exact ⟨origin', n.parts, done, fun _ _ => rfl, h, List.Subset.refl _, fun _ => nofun⟩
  | cons c list ih =>
    intro origin' build' n done ok h hview hedge hcall
    unfold convertParts at hcall
    split at hcall
    · cases hcall
    rename_i between part hconverted
    obtain ⟨origin'', hfilling, hkept, hchild, hshows⟩ :=
      h.converted hconvert hview (hedge c List.mem_cons_self) hconverted
    split at hcall
    · obtain ⟨rfl, rfl⟩ := Prod.mk.inj (Option.some.inj hcall)
      exact ⟨origin'', n.parts, done, hkept, hfilling, List.Subset.refl _, nofun⟩
    obtain ⟨memory, hadd | hadd⟩ := addPart_cases between rt part
    · rw [hadd] at hcall
      obtain ⟨rfl, rfl⟩ := Prod.mk.inj (Option.some.inj hcall)
      exact ⟨origin'', n.parts, done, hkept, hfilling.memory memory, List.Subset.refl _, nofun⟩
    · rw [hadd] at hcall
      have hfilling' : Filling address arena origin build origin''
          { between with memory := memory } type rt n done := hfilling.memory memory
      have hadded := hfilling'.add (f := fun n => { n with parts := n.parts ++ [part] })
        (.part n part) hchild hshows
      obtain ⟨last, parts, done', hkept', hlast, hsub, hall⟩ := ih hadded (hview.kept hkept)
        (fun d hd => hedge d (List.mem_cons_of_mem _ hd)) hcall
      refine ⟨last, parts, done', fun a ha => ?_, hlast, fun d hd => hsub
        (List.mem_cons_of_mem _ hd),
        fun hok => List.forall_mem_cons.mpr ⟨hsub List.mem_cons_self, hall hok⟩⟩
      rw [hkept' a ((hkept a ha).trans_ne ha), hkept a ha]

theorem members (hconvert : Conversion address arena convert) (list : List MemberPlace) :
    ∀ {origin' : RuntimeRef → TypeRef} {build' : RtBuild} {n : LhatRuntimeType}
      {done : List (TypeRef × List RtSeen)} {ok : Bool},
      Filling address arena origin build origin' build' type rt n done →
      InView arena origin' seen type →
      (∀ place ∈ list, arena.unwrapped place.member.type ≠ 0 →
        Converts arena type (arena.unwrapped place.member.type)) →
      convertMembers convert rt seen list build' = some (build'', ok) →
      ∃ origin'' members done', (∀ a, origin' a ≠ 0 → origin'' a = origin' a) ∧
        Filling address arena origin build origin'' build'' type rt { n with members := members }
          done' ∧
        done ⊆ done' ∧ (ok = true → ∀ place ∈ list, (place.member.type, seen) ∈ done') := by
  induction list with
  | nil =>
    intro origin' build' n done ok h _ _ hcall
    obtain ⟨rfl, rfl⟩ := Prod.mk.inj (Option.some.inj hcall)
    exact ⟨origin', n.members, done, fun _ _ => rfl, h, List.Subset.refl _, fun _ => nofun⟩
  | cons place list ih =>
    intro origin' build' n done ok h hview hedge hcall
    unfold convertMembers RtBuild.stringNew RtBuild.alloc at hcall
    generalize build'.memory.granted _ = granted at hcall
    have hnamed : ∀ memory, Filling address arena origin build origin'
        { build' with memory := memory } type rt n done := h.memory
    cases granted with
    | false =>
      obtain ⟨rfl, rfl⟩ := Prod.mk.inj (Option.some.inj hcall)
      exact ⟨origin', n.members, done, fun _ _ => rfl, hnamed _, List.Subset.refl _, nofun⟩
    | true =>
      simp only at hcall
      split at hcall
      · cases hcall
      rename_i between member hconverted
      obtain ⟨origin'', hfilling, hkept, hchild, hshows⟩ :=
        (hnamed _).converted hconvert hview (hedge place List.mem_cons_self) hconverted
      obtain ⟨memory, hadd | hadd⟩ := addMember_cases between rt place.member.name member
      · rw [hadd] at hcall
        obtain ⟨rfl, rfl⟩ := Prod.mk.inj (Option.some.inj hcall)
        exact ⟨origin'', n.members, done, hkept, hfilling.memory memory, List.Subset.refl _,
          nofun⟩
      · rw [hadd] at hcall
        have hfilling' : Filling address arena origin build origin''
            { between with memory := memory } type rt n done := hfilling.memory memory
        have hadded := hfilling'.add
          (f := fun n => { n with members := n.members ++ [(place.member.name, member)] })
          (.member n _ member) hchild hshows
        obtain ⟨last, members, done', hkept', hlast, hsub, hall⟩ := ih hadded (hview.kept hkept)
          (fun d hd => hedge d (List.mem_cons_of_mem _ hd)) hcall
        refine ⟨last, members, done', fun a ha => ?_, hlast,
          fun d hd => hsub (List.mem_cons_of_mem _ hd),
          fun hok => List.forall_mem_cons.mpr ⟨hsub List.mem_cons_self, hall hok⟩⟩
        rw [hkept' a ((hkept a ha).trans_ne ha), hkept a ha]

end Filling

theorem rtNew_spec (h : Good address arena origin build) {n : LhatRuntimeType}
    (hrefs : ∀ b ∈ n.refs, b = 0) (herror : n.IsError → arena.ErrorAt type) (hne : type ≠ 0) :
    ∃ origin' build' rt, build.rtNew n = (build', rt) ∧
      Steps address arena origin build origin' build' ∧
      (rt ≠ 0 → (∀ a, origin a ≠ 0 → origin' a = origin a) ∧
        Filling address arena origin build origin' build' type rt n []) := by
  unfold RtBuild.rtNew RtBuild.alloc
  generalize build.memory.granted _ = granted
  cases granted with
  | false =>
    exact ⟨origin, _, 0, rfl, (Steps.refl h).memory _, fun hne => absurd rfl hne⟩
  | true =>
    have htraced := h.traced.append hrefs herror
    have hfresh : descriptorAt build.heap (build.heap.length + 1) = none := by
      simp [descriptorAt]
    have hkept : ∀ a, origin a ≠ 0 →
        Function.update origin (build.heap.length + 1) type a = origin a := by
      intro a ha
      refine Function.update_of_ne ?_ _ _
      rintro rfl
      obtain ⟨m, hm⟩ := h.traced.inside _ ha
      cases hfresh.symm.trans hm
    have hsteps : Steps address arena origin build
        (Function.update origin (build.heap.length + 1) type)
        { build with
          heap := build.heap ++ [n], memory := build.memory.request RtBuild.runtimeTypeSize } :=
      ⟨⟨htraced, fun c hc => (h.cached c hc).later (.append _ _) hkept⟩, hkept,
        fun a m hm => descriptorAt_append_old _ hm, id⟩
    exact ⟨_, _, _, rfl, hsteps, fun _ => ⟨hkept, hsteps, hfresh, descriptorAt_new _ _,
      Function.update_self _ _ _, hne, fun _ _ h => absurd h List.not_mem_nil⟩⟩

end Loops

end Lhat.Descriptor
