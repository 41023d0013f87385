import Lhat.Descriptor.Filling

/-!
# What a conversion shows

The descriptor of a type shows the errors that can be got to from the type without what is in view.
A path to an error is cut where it last leaves the structure that is converted.
-/

namespace Lhat.Descriptor

open Check (TypeRef)
open Components (Mutual)
open AvoidingPaths (Path)
open Relation (ReflTransGen)

/-- What is asked of `build_rt`. -/
structure Built (address : TypeRef → UInt64) (arena : CheckedArena) (origin : RuntimeRef → TypeRef)
    (build : RtBuild) (origin' : RuntimeRef → TypeRef) (build' : RtBuild) (seen : List RtSeen)
    (type : TypeRef) (rt : RuntimeRef) : Prop where
  steps : Steps address arena origin build origin' build'
  origin_eq : rt ≠ 0 → type ≠ 0 ∧ origin' rt = type
  shows : build'.failed = false → rt ≠ 0 → ∀ e, Path (Converts arena) (Seen seen) type e →
    arena.ErrorAt e → ContainsError build'.heap rt

section Build

variable {address : TypeRef → UInt64} {arena : CheckedArena}
  {origin origin' : RuntimeRef → TypeRef} {build build' : RtBuild}
  {type : TypeRef} {t : CheckedType} {rt : RuntimeRef} {n : LhatRuntimeType}
  {done : List (TypeRef × List RtSeen)} {seen : List RtSeen}
  {convert : RtBuild → TypeRef → List RtSeen → Option (RtBuild × RuntimeRef)}

theorem Steps.built (h : Steps address arena origin build origin' build') :
    Built address arena origin build origin' build' seen type 0 :=
  ⟨h, fun hne => absurd rfl hne, fun _ hne => absurd rfl hne⟩

theorem Filling.built (h : Filling address arena origin build origin' build' type rt n done)
    (hcover : ∀ e, Path (Converts arena) (Seen seen) type e → arena.ErrorAt e →
      ∃ d ∈ done, Path (Converts arena) (Seen d.2) (arena.unwrapped d.1) e) :
    Built address arena origin build origin' build' seen type rt := by
  refine ⟨h.toSteps, fun _ => ⟨h.type_ne, h.origin_eq⟩, fun hb _ e hpath he => ?_⟩
  obtain ⟨d, hd, hrest⟩ := hcover e hpath he
  obtain ⟨p, hp, hne, hcontains⟩ := h.carries hb d hd e hrest he
  exact Holds.contains ⟨hne, n, h.holds, hp⟩ hcontains

theorem converts_of_named {c : TypeRef} (ht : arena.type type = some t)
    (hc : c ∈ arena.namedConverted type t) :
    arena.unwrapped c ≠ 0 → Converts arena type (arena.unwrapped c) :=
  fun hne => CheckedArena.mem_convertedChildren.mpr ⟨t, ht, hne, c, hc, rfl⟩

theorem cover_of_named (ht : arena.type type = some t) (herror : ¬ arena.ErrorAt type)
    (hdone : ∀ c ∈ arena.namedConverted type t, (c, seen) ∈ done) (e : TypeRef)
    (hpath : Path (Converts arena) (Seen seen) type e) (he : arena.ErrorAt e) :
    ∃ d ∈ done, Path (Converts arena) (Seen d.2) (arena.unwrapped d.1) e := by
  obtain rfl | ⟨b, hb, hrest⟩ := hpath.onward
  · exact absurd he herror
  · obtain ⟨t', ht', -, c, hc, rfl⟩ := CheckedArena.mem_convertedChildren.mp hb
    obtain rfl := Option.some.inj (ht.symm.trans ht')
    exact ⟨(c, seen), hdone c hc, hrest⟩

theorem not_errorAt (ht : arena.type type = some t) (h : t.isErrorType = false) :
    ¬ arena.ErrorAt type := by
  rintro ⟨s, hs, -, herror⟩
  obtain rfl := Option.some.inj (ht.symm.trans hs)
  exact nomatch h.symm.trans herror

section

variable (hconvert : Conversion address arena convert)
include hconvert

theorem buildArms_spec
    (h : Good address arena origin build) (hview : InView arena origin seen type)
    (ht : arena.type type = some t) (hplain : t.specializationBase = 0)
    (hkind : t.kind = .union ∨ t.kind = .intersect ∨ t.kind = .tuple) {kind : LhatRuntimeTypeKind}
    (herror : kind ≠ .error ∧ kind ≠ .errorKind)
    (hcall : buildArms convert kind build t.arms seen = some (build', rt)) :
    ∃ origin', Built address arena origin build origin' build' seen type rt := by
  have hnamed : arena.namedConverted type t = t.arms := by
    unfold CheckedArena.namedConverted
    rw [if_neg (not_not.mpr hplain)]
    obtain hkind | hkind | hkind := hkind <;> simp [hkind]
  have hnot : t.isErrorType = false := by
    obtain hkind | hkind | hkind := hkind <;> simp [Check.LhatType.isErrorType, hkind]
  obtain ⟨origin₁, build₁, rt₁, hnew, hsteps, hfill⟩ :=
    rtNew_spec (n := { kind := kind }) h (by simp [LhatRuntimeType.refs])
      (fun hk => (hk.elim herror.1 herror.2).elim) (CheckedArena.type_ne_zero ht)
  unfold buildArms at hcall
  rw [hnew] at hcall
  simp only at hcall
  split at hcall
  · obtain ⟨rfl, rfl⟩ := Prod.mk.inj (Option.some.inj hcall)
    exact ⟨origin₁, hsteps.built⟩
  rename_i hne
  obtain ⟨hkept, hfilling⟩ := hfill hne
  obtain ⟨⟨build₂, ok⟩, hparts, heq⟩ := Option.map_eq_some_iff.mp hcall
  obtain ⟨rfl, rfl⟩ := Prod.mk.inj heq
  obtain ⟨origin₂, parts, done, -, hdone, -, hall⟩ := hfilling.parts hconvert t.arms
    (hview.kept hkept) (fun c hc => converts_of_named ht (hnamed ▸ hc)) hparts
  cases ok with
  | false => exact ⟨origin₂, hdone.toSteps.built⟩
  | true =>
    exact ⟨origin₂, hdone.built (cover_of_named ht (not_errorAt ht hnot) fun c hc =>
      hall rfl c (hnamed ▸ hc))⟩

theorem buildApplied_spec
    (h : Good address arena origin build) (hview : InView arena origin seen type)
    (ht : arena.type type = some t) (hspecial : t.specializationBase ≠ 0)
    (hcall : buildApplied convert build t seen = some (build', rt)) :
    ∃ origin', Built address arena origin build origin' build' seen type rt := by
  have hnamed : arena.namedConverted type t =
      t.specializationBase :: t.specializationArguments := if_pos hspecial
  have hnot : ¬ arena.ErrorAt type := by
    rintro ⟨s, hs, hplain, -⟩
    obtain rfl := Option.some.inj (ht.symm.trans hs)
    exact hspecial hplain
  have hedge : ∀ c ∈ t.specializationBase :: t.specializationArguments,
      arena.unwrapped c ≠ 0 → Converts arena type (arena.unwrapped c) :=
    fun c hc => converts_of_named ht (hnamed ▸ hc)
  obtain ⟨origin₁, build₁, rt₁, hnew, hsteps, hfill⟩ :=
    rtNew_spec (n := { kind := .applied }) h (by simp [LhatRuntimeType.refs])
      (fun hk => by simp [LhatRuntimeType.IsError] at hk) (CheckedArena.type_ne_zero ht)
  unfold buildApplied at hcall
  rw [hnew] at hcall
  simp only at hcall
  split at hcall
  · obtain ⟨rfl, rfl⟩ := Prod.mk.inj (Option.some.inj hcall)
    exact ⟨origin₁, hsteps.built⟩
  rename_i hne
  obtain ⟨hkept, hfilling⟩ := hfill hne
  split at hcall
  · cases hcall
  rename_i build₂ base hbase
  obtain ⟨origin₂, hfilling₂, hkept₂, hchild, hshows⟩ :=
    hfilling.converted hconvert (hview.kept hkept) (hedge _ List.mem_cons_self) hbase
  have hwritten := hfilling₂.add (f := fun n => { n with result := base }) (.result rfl base) hchild
    hshows
  split at hcall
  · obtain ⟨rfl, rfl⟩ := Prod.mk.inj (Option.some.inj hcall)
    exact ⟨origin₂, hwritten.toSteps.built⟩
  obtain ⟨⟨build₃, ok⟩, hparts, heq⟩ := Option.map_eq_some_iff.mp hcall
  obtain ⟨rfl, rfl⟩ := Prod.mk.inj heq
  obtain ⟨origin₃, parts, done, -, hdone, hsub, hall⟩ :=
    hwritten.parts hconvert t.specializationArguments ((hview.kept hkept).kept hkept₂)
      (fun c hc => hedge c (List.mem_cons_of_mem _ hc)) hparts
  cases ok with
  | false => exact ⟨origin₃, hdone.toSteps.built⟩
  | true =>
    refine ⟨origin₃, hdone.built (cover_of_named ht hnot fun c hc => ?_)⟩
    rw [hnamed] at hc
    obtain rfl | hc := List.mem_cons.mp hc
    · exact hsub List.mem_cons_self
    · exact hall rfl c hc

theorem buildCoro_spec
    (h : Good address arena origin build) (hview : InView arena origin seen type)
    (ht : arena.type type = some t) (hplain : t.specializationBase = 0) (hkind : t.kind = .coro)
    (hcall : buildCoro convert build t seen = some (build', rt)) :
    ∃ origin', Built address arena origin build origin' build' seen type rt := by
  have hnamed : arena.namedConverted type t = [t.receive, t.produce, t.result] := by
    unfold CheckedArena.namedConverted
    rw [if_neg (not_not.mpr hplain)]
    simp [hkind]
  have hedge : ∀ c ∈ [t.receive, t.produce, t.result],
      arena.unwrapped c ≠ 0 → Converts arena type (arena.unwrapped c) :=
    fun c hc => converts_of_named ht (hnamed ▸ hc)
  obtain ⟨origin₁, build₁, rt₁, hnew, hsteps, hfill⟩ :=
    rtNew_spec (n := { kind := .coroutine }) h (by simp [LhatRuntimeType.refs])
      (fun hk => by simp [LhatRuntimeType.IsError] at hk) (CheckedArena.type_ne_zero ht)
  unfold buildCoro at hcall
  rw [hnew] at hcall
  simp only at hcall
  split at hcall
  · obtain ⟨rfl, rfl⟩ := Prod.mk.inj (Option.some.inj hcall)
    exact ⟨origin₁, hsteps.built⟩
  rename_i hne
  obtain ⟨hkept, hfilling⟩ := hfill hne
  obtain ⟨build₂, hreceive, hcall⟩ := Option.bind_eq_some_iff.mp hcall
  obtain ⟨build₃, hproduce, hcall⟩ := Option.bind_eq_some_iff.mp hcall
  obtain ⟨build₄, hresult, hcall⟩ := Option.bind_eq_some_iff.mp hcall
  obtain ⟨rfl, rfl⟩ := Prod.mk.inj (Option.some.inj hcall)
  have hview₁ := hview.kept hkept
  obtain ⟨origin₂, c₂, hfilling₂, hkept₂⟩ := hfilling.into hconvert hview₁ (hedge _ (by simp))
    (.receive rfl) hreceive
  have hview₂ := hview₁.kept hkept₂
  obtain ⟨origin₃, c₃, hfilling₃, hkept₃⟩ := hfilling₂.into hconvert hview₂ (hedge _ (by simp))
    (.produce rfl) hproduce
  obtain ⟨origin₄, c₄, hfilling₄, -⟩ :=
    hfilling₃.into hconvert (hview₂.kept hkept₃) (hedge _ (by simp))
      (.result rfl) hresult
  refine ⟨origin₄, (hfilling₄.mark (.of_same rfl fun b => Iff.rfl)).built (cover_of_named ht
    (not_errorAt ht (by simp [Check.LhatType.isErrorType, hkind])) fun c hc => ?_)⟩
  rw [hnamed] at hc
  simp only [List.mem_cons, List.not_mem_nil, or_false] at hc
  obtain rfl | rfl | rfl := hc <;> simp

end

theorem seen_cons {s : RtSeen} {x : TypeRef} (h : Seen (s :: seen) x) : Seen seen x ∨ x = s.type :=
    by
  obtain ⟨s', hs', rfl⟩ := h
  obtain rfl | hs' := List.mem_cons.mp hs'
  · exact .inr rfl
  · exact .inl ⟨s', hs', rfl⟩

theorem InView.enter (h : InView arena origin seen type) (hne : type ≠ 0)
    (hrt : rt ≠ 0 → origin rt = type) :
    InView arena origin ({ type := type, runtime := rt } :: seen) type :=
  ⟨List.forall_mem_cons.mpr ⟨hne, h.ne_zero⟩, List.forall_mem_cons.mpr ⟨hrt, h.runtime⟩,
    List.forall_mem_cons.mpr ⟨fun _ _ => .refl, h.above⟩⟩

theorem InView.lend (h : InView arena origin seen type) {lent : TypeRef} (hne : lent ≠ 0) :
    InView arena origin ({ type := lent, lent := true } :: seen) type :=
  ⟨List.forall_mem_cons.mpr ⟨hne, h.ne_zero⟩,
    List.forall_mem_cons.mpr ⟨fun hzero => absurd rfl hzero, h.runtime⟩,
    List.forall_mem_cons.mpr ⟨nofun, h.above⟩⟩

theorem leaves (ht : arena.type type = some t) (hnot : t.isErrorType = false) {e : TypeRef}
    (hpath : Path (Converts arena) (Seen seen) type e) (he : arena.ErrorAt e) {s : RtSeen}
    (hs : s.type = type) :
    ∃ c ∈ arena.namedConverted type t, arena.unwrapped c ≠ 0 ∧
      Path (Converts arena) (Seen (s :: seen)) (arena.unwrapped c) e := by
  obtain rfl | ⟨b, hb, hrest⟩ := hpath.leave
  · exact absurd he (not_errorAt ht hnot)
  · obtain ⟨t', ht', hne, c, hc, rfl⟩ := CheckedArena.mem_convertedChildren.mp hb
    obtain rfl := Option.some.inj (ht.symm.trans ht')
    exact ⟨c, hc, hne, hrest.mono (fun _ _ => id) fun x hx => hs ▸ seen_cons hx⟩

theorem Filling.intoIf {build'' : RtBuild} {named : TypeRef}
    (h : Filling address arena origin build origin' build' type rt n done)
    (hconvert : Conversion address arena convert) (hview : InView arena origin' seen type)
    (hedge : arena.unwrapped named ≠ 0 → Converts arena type (arena.unwrapped named))
    {f : RuntimeRef → LhatRuntimeType → LhatRuntimeType} (hzero : f 0 n = n)
    (hf : ∀ c, Adds n (f c n) c)
    (hcall : convertIntoIf convert build' rt named seen f = some build'') :
    ∃ origin'' c, Filling address arena origin build origin'' build'' type rt (f c n)
        ((named, seen) :: done) ∧ ∀ a, origin' a ≠ 0 → origin'' a = origin' a := by
  unfold convertIntoIf at hcall
  split at hcall
  · exact h.into hconvert hview hedge hf hcall
  · rename_i hnone
    obtain rfl := Option.some.inj hcall
    obtain rfl : named = 0 := not_not.mp hnone
    exact ⟨origin', 0, hzero.symm ▸ h.absent rfl, fun _ _ => rfl⟩

theorem buildFunc_spec (hconvert : Conversion address arena convert)
    (h : Good address arena origin build) (hview : InView arena origin seen type)
    (ht : arena.type type = some t) (hplain : t.specializationBase = 0) (hkind : t.kind = .func)
    (hcall : buildFunc convert build type t seen = some (build', rt)) :
    ∃ origin', Built address arena origin build origin' build' seen type rt := by
  have hnamed : arena.namedConverted type t =
      t.params ++ [t.variadic, CheckedArena.callAnswer t] := by
    unfold CheckedArena.namedConverted
    rw [if_neg (not_not.mpr hplain)]
    simp [hkind]
  have hedge : ∀ c ∈ t.params ++ [t.variadic, CheckedArena.callAnswer t],
      arena.unwrapped c ≠ 0 → Converts arena type (arena.unwrapped c) :=
    fun c hc => converts_of_named ht (hnamed ▸ hc)
  have hne := CheckedArena.type_ne_zero ht
  unfold buildFunc at hcall
  generalize hfresh : ({ kind := .subroutine, isFunction := t.isFunction, takesSelf := t.takesSelf
                         selfLast := t.selfLast, mutableSelf := t.mutableSelf
                         answersFresh := t.answersFresh } : LhatRuntimeType) = fresh at hcall
  have hrefs : ∀ b ∈ fresh.refs, b = 0 := hfresh ▸ by simp [LhatRuntimeType.refs]
  have herror : ¬ fresh.IsError := hfresh ▸ by simp [LhatRuntimeType.IsError]
  have hvariadic : fresh.variadic = 0 := hfresh ▸ rfl
  have hresult : fresh.result = 0 := hfresh ▸ rfl
  obtain ⟨origin₁, build₁, rt₁, hnew, hsteps, hfill⟩ :=
    rtNew_spec h hrefs (fun hk => absurd hk herror) hne
  rw [hnew] at hcall
  simp only at hcall
  split at hcall
  · obtain ⟨rfl, rfl⟩ := Prod.mk.inj (Option.some.inj hcall)
    exact ⟨origin₁, hsteps.built⟩
  rename_i hrt
  obtain ⟨hkept, hfilling⟩ := hfill hrt
  have hview₁ := (hview.kept hkept).enter hne fun _ => hfilling.origin_eq
  split at hcall
  · cases hcall
  · rename_i build₂ hparts
    obtain ⟨rfl, rfl⟩ := Prod.mk.inj (Option.some.inj hcall)
    obtain ⟨origin₂, parts, done, -, hdone, -⟩ := hfilling.parts hconvert t.params hview₁
      (fun c hc => hedge c (List.mem_append_left _ hc)) hparts
    exact ⟨origin₂, hdone.toSteps.built⟩
  rename_i build₂ hparts
  obtain ⟨origin₂, parts, done, hkept₂, hfilling₂, -, hall⟩ := hfilling.parts hconvert t.params
    hview₁ (fun c hc => hedge c (List.mem_append_left _ hc)) hparts
  obtain ⟨build₃, hvar, hcall⟩ := Option.bind_eq_some_iff.mp hcall
  obtain ⟨build₄, hanswer, hcall⟩ := Option.bind_eq_some_iff.mp hcall
  obtain ⟨rfl, rfl⟩ := Prod.mk.inj (Option.some.inj hcall)
  have hview₂ := hview₁.kept hkept₂
  obtain ⟨origin₃, c₃, hfilling₃, hkept₃⟩ := hfilling₂.intoIf hconvert hview₂
    (hedge _ (by simp)) (by rw [← hvariadic]) (by exact .variadic hvariadic) hvar
  obtain ⟨origin₄, c₄, hfilling₄, -⟩ :=
    hfilling₃.into hconvert (hview₂.kept hkept₃) (hedge _ (by simp))
      (by exact .result hresult) hanswer
  refine ⟨origin₄, hfilling₄.built fun e hpath he => ?_⟩
  obtain ⟨c, hc, -, hrest⟩ := leaves ht (by simp [Check.LhatType.isErrorType, hkind]) hpath he
    (s := { type := type, runtime := rt₁ }) rfl
  refine ⟨(c, _), ?_, hrest⟩
  rw [hnamed] at hc
  obtain hc | hc := List.mem_append.mp hc
  · exact List.mem_cons_of_mem _ (List.mem_cons_of_mem _ (hall rfl c hc))
  · simp only [List.mem_cons, List.not_mem_nil, or_false] at hc
    obtain rfl | rfl := hc <;> simp

theorem unwrapped_of_reach {a b : TypeRef} (h : arena.unwrapped a = a)
    (hreach : ReflTransGen (Converts arena) a b) : arena.unwrapped b = b := by
  cases hreach with
  | refl => exact h
  | tail _ hedge => exact CheckedArena.unwrapped_of_mem hedge

theorem rtNew_built (h : Good address arena origin build) {n : LhatRuntimeType}
    (hrefs : ∀ b ∈ n.refs, b = 0) (herror : ¬ n.IsError) (ht : arena.type type = some t)
    (hnot : ¬ arena.ErrorAt type) (hnamed : arena.namedConverted type t = [] ∨ Seen seen type)
    (hcall : build.rtNew n = (build', rt)) :
    ∃ origin', Built address arena origin build origin' build' seen type rt := by
  obtain ⟨origin₁, build₁, rt₁, hnew, hsteps, hfill⟩ :=
    rtNew_spec h hrefs (fun hk => absurd hk herror) (CheckedArena.type_ne_zero ht)
  obtain ⟨rfl, rfl⟩ := Prod.mk.inj (hnew.symm.trans hcall)
  by_cases hrt : rt₁ = 0
  · subst hrt
    exact ⟨origin₁, hsteps.built⟩
  refine ⟨origin₁, (hfill hrt).2.built fun e hpath he => ?_⟩
  obtain hnone | hseen := hnamed
  · exact cover_of_named ht hnot (fun c hc => by simp [hnone] at hc) e hpath he
  · exact absurd hseen hpath.off

theorem Filling.finish {build'' : RtBuild} {rt' : RuntimeRef}
    (h : Filling address arena origin build origin' build' type rt n done)
    (hconvert : Conversion address arena convert) (hview : InView arena origin' seen type)
    (hvariadic : n.variadic = 0) (hkey : n.indexKey = 0) (hvalue : n.indexValue = 0)
    (hedge : arena.unwrapped t.variadic ≠ 0 → Converts arena type (arena.unwrapped t.variadic))
    (hedges : t.indexKey ≠ 0 → ∀ c ∈ [t.indexKey, t.indexValue],
      arena.unwrapped c ≠ 0 → Converts arena type (arena.unwrapped c))
    (hcall : finishTable arena convert build' rt type t seen = some (build'', rt')) :
    rt' = rt ∧ ∃ origin'' n' done',
      Filling address arena origin build origin'' build'' type rt n' done' ∧ done ⊆ done' ∧
        (t.variadic, seen) ∈ done' ∧
        (t.indexKey ≠ 0 → ∀ c ∈ [t.indexKey, t.indexValue], (c, seen) ∈ done') := by
  unfold finishTable at hcall
  obtain ⟨n₁, hvariadic, hkey, hvalue, hfilling⟩ : ∃ n₁ : LhatRuntimeType, n₁.variadic = 0 ∧
      n₁.indexKey = 0 ∧ n₁.indexValue = 0 ∧
      Filling address arena origin build origin' (tagTable arena build' rt type) type rt n₁ done :=
        by
    unfold tagTable
    split
    · rename_i tag _
      exact ⟨{ n with hostdataTag := tag }, hvariadic, hkey, hvalue,
        h.mark (.of_same rfl fun b => Iff.rfl)⟩
    · exact ⟨n, hvariadic, hkey, hvalue, h⟩
  obtain ⟨build₂, hvar, hcall⟩ := Option.bind_eq_some_iff.mp hcall
  obtain ⟨build₃, hindex, hcall⟩ := Option.bind_eq_some_iff.mp hcall
  obtain ⟨rfl, rfl⟩ := Prod.mk.inj (Option.some.inj hcall)
  obtain ⟨origin₂, c₂, hfilling₂, hkept₂⟩ := hfilling.intoIf hconvert hview hedge
    (by rw [← hvariadic]) (by exact .variadic hvariadic) hvar
  have hview₂ := hview.kept hkept₂
  have hsort : ∀ {origin' : RuntimeRef → TypeRef} {build' : RtBuild} {n : LhatRuntimeType}
      {done : List (TypeRef × List RtSeen)},
      Filling address arena origin build origin' build' type rt n done →
      ∃ n', Filling address arena origin build origin' (build'.sortMembers rt) type rt n' done := by
    intro origin' build' n done h
    refine ⟨_, h.mark (.of_same rfl fun b => ?_)⟩
    have hperm := (List.mergeSort_perm n.members
      fun left right => decide (left.1 ≤ right.1)).map Prod.snd
    simp only [LhatRuntimeType.mem_refs, hperm.mem_iff]
  refine ⟨rfl, ?_⟩
  unfold convertIndex at hindex
  split at hindex
  · rename_i hsome
    obtain ⟨build₄, hkeys, hvalues⟩ := Option.bind_eq_some_iff.mp hindex
    obtain ⟨origin₄, c₄, hfilling₄, hkept₄⟩ := hfilling₂.into hconvert hview₂
      (hedges hsome _ (by simp)) (by exact .indexKey hkey) hkeys
    obtain ⟨origin₅, c₅, hfilling₅, -⟩ := hfilling₄.into hconvert (hview₂.kept hkept₄)
      (hedges hsome _ (by simp)) (by exact .indexValue hvalue) hvalues
    obtain ⟨n', hsorted⟩ := hsort hfilling₅
    exact ⟨origin₅, n', _, hsorted, fun d hd => by simp [hd], by simp, fun _ c hc => by
      simp only [List.mem_cons, List.not_mem_nil, or_false] at hc
      obtain rfl | rfl := hc <;> simp⟩
  · rename_i hnone
    obtain rfl := Option.some.inj hindex
    obtain ⟨n', hsorted⟩ := hsort hfilling₂
    exact ⟨origin₂, n', _, hsorted, fun d hd => by simp [hd], by simp,
      fun hsome => absurd hsome hnone⟩

theorem cover_of_lent (ht : arena.type type = some t) (hnot : t.isErrorType = false)
    {lent : List RtSeen} {s : RtSeen} (hs : s.type = type)
    (hlent : lent = if t.instanceType ≠ 0 then
      { type := t.instanceType, lent := true } :: s :: seen else s :: seen)
    (hinstance : (t.instanceType, s :: seen) ∈ done)
    (hdone : ∀ c ∈ arena.namedConverted type t, c = t.instanceType ∨ (c, lent) ∈ done) (e : TypeRef)
    (hpath : Path (Converts arena) (Seen seen) type e) (he : arena.ErrorAt e) :
    ∃ d ∈ done, Path (Converts arena) (Seen d.2) (arena.unwrapped d.1) e := by
  obtain ⟨c, hc, hne, hrest⟩ := leaves ht hnot hpath he hs
  obtain rfl | hmem := hdone c hc
  · exact ⟨_, hinstance, hrest⟩
  obtain hoff | ⟨hreach, hbehind⟩ := hrest.meets t.instanceType
  · refine ⟨_, hmem, hoff.mono (fun _ _ => id) fun x hx => ?_⟩
    rw [hlent] at hx
    split at hx
    · exact seen_cons hx
    · exact .inl hx
  · -- the path meets the instance, which no argument stands for
    refine ⟨_, hinstance, ?_⟩
    rwa [unwrapped_of_reach (CheckedArena.unwrapped_unwrapped c) hreach]

theorem buildTable_spec (hconvert : Conversion address arena convert)
    (h : Good address arena origin build) (hview : InView arena origin seen type)
    (ht : arena.type type = some t) (hplain : t.specializationBase = 0) (hkind : t.kind = .table)
    (hcall : buildTable arena convert build type t ({ type := type } :: seen) = some (build', rt)) :
    ∃ origin', Built address arena origin build origin' build' seen type rt := by
  have hne := CheckedArena.type_ne_zero ht
  have hnot : t.isErrorType = false := by simp [Check.LhatType.isErrorType, hkind]
  unfold buildTable at hcall
  by_cases hinfo : t.isTypeinfo = true
  · rw [if_pos hinfo] at hcall
    exact rtNew_built h (by simp [LhatRuntimeType.refs]) (by simp [LhatRuntimeType.IsError]) ht
      (not_errorAt ht hnot) (.inl (by simp [CheckedArena.namedConverted, hplain, hkind, hinfo]))
      (Option.some.inj hcall)
  rw [if_neg hinfo] at hcall
  by_cases htag : t.hostdataTag ≠ []
  · rw [if_pos htag] at hcall
    exact rtNew_built h (by simp [LhatRuntimeType.refs]) (by simp [LhatRuntimeType.IsError]) ht
      (not_errorAt ht hnot) (.inl (by simp [CheckedArena.namedConverted, hplain, hkind, htag]))
      (Option.some.inj hcall)
  rw [if_neg htag] at hcall
  have hnamed : arena.namedConverted type t =
      t.instanceType ::
          (arena.positions type ++ arena.shownMembers type).map (fun p => p.member.type) ++
        t.variadic :: if t.indexKey ≠ 0 then [t.indexKey, t.indexValue] else [] := by
    unfold CheckedArena.namedConverted
    rw [if_neg (not_not.mpr hplain)]
    simp only [hkind]
    rw [if_neg (by simp [hinfo, htag])]
  have hedge : ∀ c ∈ arena.namedConverted type t,
      arena.unwrapped c ≠ 0 → Converts arena type (arena.unwrapped c) :=
    fun c hc => converts_of_named ht hc
  have hedgeInstance := hedge t.instanceType (by simp [hnamed])
  have hedgePositions : ∀ c ∈ (arena.positions type).map fun place => place.member.type,
      arena.unwrapped c ≠ 0 → Converts arena type (arena.unwrapped c) := by
    intro c hc
    obtain ⟨place, hplace, rfl⟩ := List.mem_map.mp hc
    refine hedge _ (hnamed ▸ List.mem_append_left _ (List.mem_cons_of_mem _ ?_))
    exact List.mem_map.mpr ⟨place, List.mem_append_left _ hplace, rfl⟩
  have hedgeMembers : ∀ place ∈ arena.shownMembers type, arena.unwrapped place.member.type ≠ 0 →
      Converts arena type (arena.unwrapped place.member.type) := by
    intro place hplace
    refine hedge _ (hnamed ▸ List.mem_append_left _ (List.mem_cons_of_mem _ ?_))
    exact List.mem_map.mpr ⟨place, List.mem_append_right _ hplace, rfl⟩
  have hedgeVariadic := hedge t.variadic (by simp [hnamed])
  obtain ⟨origin₁, build₁, rt₁, hnew, hsteps, hfill⟩ :=
    rtNew_spec (n := { kind := .table }) h (by simp [LhatRuntimeType.refs])
      (fun hk => by simp [LhatRuntimeType.IsError] at hk) hne
  rw [hnew] at hcall
  simp only at hcall
  split at hcall
  · obtain ⟨rfl, rfl⟩ := Prod.mk.inj (Option.some.inj hcall)
    exact ⟨origin₁, hsteps.built⟩
  rename_i hrt
  obtain ⟨hkept, hfilling⟩ := hfill hrt
  have hview₁ : InView arena origin₁ ({ type := type } :: seen) type :=
    (hview.kept hkept).enter hne fun hzero => absurd rfl hzero
  -- the instance
  obtain ⟨build₂, hinstance, hcall⟩ := Option.bind_eq_some_iff.mp hcall
  obtain ⟨origin₂, c₂, hfilling₂, hkept₂⟩ := hfilling.intoIf hconvert hview₁ hedgeInstance rfl
    (.instanceType rfl) hinstance
  generalize hlent : (if t.instanceType ≠ 0 then
    { type := t.instanceType, lent := true } :: { type := type } :: seen
    else { type := type } :: seen) = lent at hcall
  have hview₂ : InView arena origin₂ lent type := by
    rw [← hlent]
    split
    · rename_i hsome
      exact (hview₁.kept hkept₂).lend hsome
    · exact hview₁.kept hkept₂
  -- the sequence half, then the members with a name
  obtain ⟨⟨build₃, ok⟩, hparts, hcall⟩ := Option.bind_eq_some_iff.mp hcall
  obtain ⟨origin₃, parts, done₃, hkept₃, hfilling₃, hsub₃, hall₃⟩ :=
    hfilling₂.parts hconvert _ hview₂ hedgePositions hparts
  cases ok with
  | false =>
    obtain ⟨rfl, rfl⟩ := Prod.mk.inj (Option.some.inj hcall)
    exact ⟨origin₃, hfilling₃.toSteps.built⟩
  | true =>
  obtain ⟨⟨build₄, ok⟩, hmembers, hcall⟩ := Option.bind_eq_some_iff.mp hcall
  have hview₃ := hview₂.kept hkept₃
  obtain ⟨origin₄, members, done₄, hkept₄, hfilling₄, hsub₄, hall₄⟩ :=
    hfilling₃.members hconvert _ hview₃ hedgeMembers hmembers
  cases ok with
  | false =>
    obtain ⟨rfl, rfl⟩ := Prod.mk.inj (Option.some.inj hcall)
    exact ⟨origin₄, hfilling₄.toSteps.built⟩
  | true =>
  obtain ⟨rfl, origin₅, n', done₅, hfilling₅, hsub₅, hvariadic, hindex⟩ :=
    hfilling₄.finish hconvert (hview₃.kept hkept₄) rfl rfl rfl hedgeVariadic
      (fun hsome c hc => hedge c (by
        rw [hnamed, if_pos hsome]
        exact List.mem_append_right _ (List.mem_cons_of_mem _ hc))) hcall
  refine ⟨origin₅, hfilling₅.built (cover_of_lent ht hnot rfl hlent.symm
    (hsub₅ (hsub₄ (hsub₃ List.mem_cons_self))) fun c hc => ?_)⟩
  rw [hnamed] at hc
  obtain hc | hc := List.mem_append.mp hc
  · obtain rfl | hc := List.mem_cons.mp hc
    · exact .inl rfl
    obtain ⟨place, hplace, rfl⟩ := List.mem_map.mp hc
    obtain hplace | hplace := List.mem_append.mp hplace
    · exact .inr (hsub₅ (hsub₄ (hall₃ rfl _ (List.mem_map.mpr ⟨place, hplace, rfl⟩))))
    · exact .inr (hsub₅ (hall₄ rfl place hplace))
  · obtain rfl | hc := List.mem_cons.mp hc
    · exact .inr hvariadic
    · split at hc
      · rename_i hsome
        exact .inr (hindex hsome c hc)
      · cases hc

theorem buildEnum_spec (h : Good address arena origin build) (ht : arena.type type = some t)
    (hplain : t.specializationBase = 0) (hkind : t.kind = .enum)
    (hcall : buildEnum build type t = (build', rt)) :
    ∃ origin', Built address arena origin build origin' build' seen type rt := by
  have hnot := not_errorAt ht (by simp [Check.LhatType.isErrorType, hkind])
  have hnamed : arena.namedConverted type t = [] := by
    simp [CheckedArena.namedConverted, hplain, hkind]
  obtain ⟨origin₁, build₁, rt₁, hnew, hsteps, hfill⟩ :=
    rtNew_spec (n := { kind := .enum, enumDecl := type }) h (by simp [LhatRuntimeType.refs])
      (fun hk => by simp [LhatRuntimeType.IsError] at hk) (CheckedArena.type_ne_zero ht)
  unfold buildEnum RtBuild.stringNew RtBuild.alloc at hcall
  rw [hnew] at hcall
  simp only at hcall
  split at hcall
  · obtain ⟨rfl, rfl⟩ := Prod.mk.inj hcall
    exact ⟨origin₁, hsteps.built⟩
  rename_i hrt
  generalize build₁.memory.granted _ = granted at hcall
  cases granted with
  | false =>
    obtain ⟨rfl, rfl⟩ := Prod.mk.inj hcall
    exact ⟨origin₁, (hsteps.memory _).built⟩
  | true =>
    obtain ⟨rfl, rfl⟩ := Prod.mk.inj hcall
    have hnameds := ((hfill hrt).2.memory
      (build₁.memory.request (RtBuild.stringSize + t.name.length + 1))).mark
        (f := fun n => { n with enumName := some t.name }) (.of_same rfl fun b => Iff.rfl)
    exact ⟨origin₁, hnameds.built (cover_of_named ht hnot fun c hc => by simp [hnamed] at hc)⟩

theorem buildEnumMember_spec (h : Good address arena origin build) (ht : arena.type type = some t)
    (hplain : t.specializationBase = 0) (hkind : t.kind = .enumMember)
    (hcall : buildEnumMember arena build type t = (build', rt)) :
    ∃ origin', Built address arena origin build origin' build' seen type rt := by
  have hnot := not_errorAt ht (by simp [Check.LhatType.isErrorType, hkind])
  have hnamed : arena.namedConverted type t = [] := by
    simp [CheckedArena.namedConverted, hplain, hkind]
  have hdone : ∀ {origin' : RuntimeRef → TypeRef} {build' : RtBuild} {rt : RuntimeRef}
      {n : LhatRuntimeType}, Filling address arena origin build origin' build' type rt n [] →
      Built address arena origin build origin' build' seen type rt := fun hfilling =>
    hfilling.built (cover_of_named ht hnot fun c hc => by simp [hnamed] at hc)
  obtain ⟨origin₁, build₁, rt₁, hnew, hsteps, hfill⟩ :=
    rtNew_spec (n := { kind := .enumMember, enumDecl := t.set }) h (by simp [LhatRuntimeType.refs])
      (fun hk => by simp [LhatRuntimeType.IsError] at hk) (CheckedArena.type_ne_zero ht)
  unfold buildEnumMember RtBuild.stringNew RtBuild.alloc at hcall
  rw [hnew] at hcall
  simp only at hcall
  split at hcall
  · obtain ⟨rfl, rfl⟩ := Prod.mk.inj hcall
    exact ⟨origin₁, hsteps.built⟩
  rename_i hrt
  generalize build₁.memory.granted _ = granted at hcall
  cases granted with
  | false =>
    obtain ⟨rfl, rfl⟩ := Prod.mk.inj hcall
    exact ⟨origin₁, (hsteps.memory _).built⟩
  | true =>
    simp only at hcall
    generalize build₁.memory.request _ = memory at hcall
    have hnameds := ((hfill hrt).2.memory memory).mark
      (f := fun n => { n with enumName := some t.name }) (.of_same rfl fun b => Iff.rfl)
    split at hcall
    · obtain ⟨rfl, rfl⟩ := Prod.mk.inj hcall
      exact ⟨origin₁, hdone hnameds⟩
    · rename_i set hset
      generalize Memory.granted _ _ = granted at hcall
      cases granted with
      | false =>
        obtain ⟨rfl, rfl⟩ := Prod.mk.inj hcall
        exact ⟨origin₁, (hnameds.toSteps.memory _).built⟩
      | true =>
        obtain ⟨rfl, rfl⟩ := Prod.mk.inj hcall
        have howned := (hnameds.memory (Memory.request memory
          (RtBuild.stringSize + set.name.length + 1))).mark
            (f := fun n =>
              { n with
                enumOwnerName := some set.name
                enumMemberIndex := ((set.kinds.idxOf? type).map (· + 1)).getD 0 })
            (.of_same rfl fun b => Iff.rfl)
        exact ⟨origin₁, hdone howned⟩

theorem leafOf_spec {n : LhatRuntimeType} (h : leafOf t = some n) :
    (∀ b ∈ n.refs, b = 0) ∧ (n.IsError ↔ t.isErrorType = true) := by
  unfold leafOf at h
  split at h
  case h_14 => cases h
  case h_10 | h_11 | h_12 | h_13 =>
    rename_i hkind
    obtain rfl := Option.some.inj h
    refine ⟨by simp [LhatRuntimeType.refs], ?_⟩
    by_cases hmade : t.runtimeKind = 0 <;>
      simp [LhatRuntimeType.IsError, Check.LhatType.isErrorType, hkind, hmade]
  all_goals
    rename_i hkind
    obtain rfl := Option.some.inj h
    simp [LhatRuntimeType.refs, LhatRuntimeType.IsError, Check.LhatType.isErrorType, hkind]

theorem buildLeaf_spec (h : Good address arena origin build) (ht : arena.type type = some t)
    (hplain : t.specializationBase = 0) (hleaf : leafOf t = some n)
    (hcall : build.rtNew n = (build', rt)) :
    ∃ origin', Built address arena origin build origin' build' seen type rt := by
  obtain ⟨hrefs, herror⟩ := leafOf_spec hleaf
  have hnamed : arena.namedConverted type t = [] := by
    unfold CheckedArena.namedConverted leafOf at *
    rw [if_neg (not_not.mpr hplain)]
    cases hkind : t.kind <;> simp [hkind] at hleaf ⊢
  obtain ⟨origin₁, build₁, rt₁, hnew, hsteps, hfill⟩ :=
    rtNew_spec h hrefs (fun hk => ⟨t, ht, hplain, herror.mp hk⟩) (CheckedArena.type_ne_zero ht)
  obtain ⟨rfl, rfl⟩ := Prod.mk.inj (hnew.symm.trans hcall)
  refine ⟨origin₁, hsteps, fun hrt => ⟨(hfill hrt).2.type_ne, (hfill hrt).2.origin_eq⟩,
    fun _ hrt e hpath he => ?_⟩
  obtain rfl | ⟨b, hb, -⟩ := hpath.onward
  · obtain ⟨s, hs, -, hserror⟩ := he
    obtain rfl := Option.some.inj (ht.symm.trans hs)
    exact ⟨rt₁, n, .refl, (hfill hrt).2.holds, herror.mpr hserror⟩
  · obtain ⟨s, hs, -, c, hc, -⟩ := CheckedArena.mem_convertedChildren.mp hb
    obtain rfl := Option.some.inj (ht.symm.trans hs)
    simp [hnamed] at hc

theorem seen_of_levelOf {level k : Nat} (h : levelOf arena type seen level = some k) :
    Seen seen type := by
  induction seen generalizing level with
  | nil => cases h
  | cons s outer ih =>
    unfold levelOf at h
    split at h
    · rename_i hs
      exact ⟨s, List.mem_cons_self, hs⟩
    · obtain ⟨s', hs', heq⟩ := ih h
      exact ⟨s', List.mem_cons_of_mem _ hs', heq⟩

theorem buildRt_spec (hconvert : Conversion address arena convert)
    (h : Good address arena origin build) (hview : InView arena origin seen type)
    (hunwrapped : arena.unwrapped type = type)
    (hcall : buildRt arena convert build type seen = some (build', rt)) :
    ∃ origin', Built address arena origin build origin' build' seen type rt := by
  unfold buildRt at hcall
  split at hcall
  · obtain ⟨rfl, rfl⟩ := Prod.mk.inj (Option.some.inj hcall)
    exact ⟨origin, (Steps.refl h).built⟩
  rename_i t ht
  split at hcall
  · -- a signature that is in view is pointed at
    rename_i s hs
    obtain ⟨rfl, rfl⟩ := Prod.mk.inj (Option.some.inj hcall)
    have hmem := List.mem_of_find?_eq_some hs
    obtain ⟨htype, hrt⟩ : s.type = type ∧ s.runtime ≠ 0 := by simpa using List.find?_some hs
    refine ⟨origin, .refl h, fun _ => ⟨CheckedArena.type_ne_zero ht,
      htype ▸ hview.runtime s hmem hrt⟩,
      fun _ _ e hpath _ => absurd ⟨s, hmem, htype⟩ hpath.off⟩
  split at hcall
  · rename_i hargument
    exact absurd hargument (CheckedArena.unwrapped_kind (hunwrapped.symm ▸ ht))
  split at hcall
  · rename_i hspecial
    exact buildApplied_spec hconvert h hview ht hspecial hcall
  rename_i hplain
  have hplain : t.specializationBase = 0 := not_not.mp hplain
  split at hcall
  · rename_i hkind
    have hnot := not_errorAt ht (by simp [Check.LhatType.isErrorType, hkind])
    split at hcall
    · rename_i level hlevel
      exact rtNew_built h (by simp [LhatRuntimeType.refs])
        (by simp [LhatRuntimeType.IsError]) ht hnot
        (.inr (seen_of_levelOf hlevel)) (Option.some.inj hcall)
    · exact buildTable_spec hconvert h hview ht hplain hkind hcall
  · exact buildFunc_spec hconvert h hview ht hplain ‹_› hcall
  · exact buildCoro_spec hconvert h hview ht hplain ‹_› hcall
  · exact buildArms_spec hconvert h hview ht hplain (.inl ‹_›) (by simp) hcall
  · exact buildArms_spec hconvert h hview ht hplain (.inr (.inl ‹_›)) (by simp) hcall
  · exact buildArms_spec hconvert h hview ht hplain (.inr (.inr ‹_›)) (by simp) hcall
  · exact buildEnum_spec h ht hplain ‹_› (Option.some.inj hcall)
  · exact buildEnumMember_spec h ht hplain ‹_› (Option.some.inj hcall)
  · split at hcall
    · rename_i n hleaf
      exact buildLeaf_spec h ht hplain hleaf (Option.some.inj hcall)
    · obtain ⟨rfl, rfl⟩ := Prod.mk.inj (Option.some.inj hcall)
      exact ⟨origin, (Steps.refl h).built⟩

/-! ### The whole conversion -/

theorem path_of_not_describes (h : ¬ describes arena type) {e : TypeRef}
    (hpath : Path (Converts arena) (Seen seen) type e) : ¬ arena.ErrorAt e := by
  intro he
  cases ht : arena.type type with
  | none =>
    obtain rfl | ⟨b, hb, -⟩ := hpath.onward
    · obtain ⟨t, ht', -⟩ := he
      exact nomatch ht.symm.trans ht'
    · obtain ⟨t, ht', -⟩ := CheckedArena.mem_convertedChildren.mp hb
      exact nomatch ht.symm.trans ht'
  | some t =>
    have hkind : t.kind = .none := by
      by_contra hkind
      exact h ⟨t, ht, hkind⟩
    have hplain : t.specializationBase = 0 := by
      by_contra hspecial
      obtain hk | hk := t.specialized hspecial <;> exact nomatch hkind.symm.trans hk
    obtain rfl | ⟨b, hb, -⟩ := hpath.onward
    · exact not_errorAt ht (by simp [Check.LhatType.isErrorType, hkind]) he
    · obtain ⟨s, hs, -, c, hc, -⟩ := CheckedArena.mem_convertedChildren.mp hb
      obtain rfl := Option.some.inj (ht.symm.trans hs)
      simp [CheckedArena.namedConverted, hplain, hkind] at hc

theorem path_of_apart (hview : InView arena origin seen type) (hne : type ≠ 0)
    (hapart : ∀ s ∈ seen, Apart arena type s) {e : TypeRef}
    (hreach : ReflTransGen (Converts arena) type e) : Path (Converts arena) (Seen seen) type e := by
  refine .of_reach hreach fun x hx => ?_
  rintro ⟨s, hs, rfl⟩
  have hx : ReflTransGen (Child arena) type s.type :=
    ReflTransGen.mono (fun _ _ => Converts.child) _ _ hx
  have hs' := hapart s hs
  unfold Apart at hs'
  cases hlent : s.lent with
  | true =>
    rw [if_pos hlent] at hs'
    exact hs' hx
  | false =>
    rw [if_neg (by simp [hlent])] at hs'
    exact hs' ⟨hx, hview.above s hs hlent hne⟩

/-- `rt_from_checked` shows the errors that can be got to without what is in view, whatever is
remembered. -/
theorem rtFromChecked_spec (fuel : Nat) :
    Conversion address arena (rtFromChecked address arena fuel) := by
  induction fuel with
  | zero => exact fun _ _ h => nomatch h
  | succ fuel ih =>
    intro origin build build' named seen rt h hview hcall
    unfold rtFromChecked at hcall
    split at hcall
    · rename_i hfailed
      obtain ⟨rfl, rfl⟩ := Prod.mk.inj (Option.some.inj hcall)
      exact ⟨origin, .refl h, fun hne => absurd rfl hne, fun hb => nomatch hb.symm.trans hfailed⟩
    rename_i hwhole₀
    generalize htype : arena.unwrapped named = type at *
    have hunwrapped : arena.unwrapped type = type := htype ▸ CheckedArena.unwrapped_unwrapped named
    obtain ⟨build₁, remembered, known, hrecall, hheap, hfailed, hgood, hknown, halone⟩ :=
      @recall_spec address arena origin build type h seen hview.ne_zero
    simp only [hrecall] at hcall
    have hsteps₁ : Steps address arena origin build origin build₁ :=
      ⟨hgood, fun _ _ => rfl, fun a n hn => hheap ▸ hn, fun hb => hfailed ▸ hb⟩
    split at hcall
    · rename_i hne
      obtain ⟨rfl, rfl⟩ := Prod.mk.inj (Option.some.inj hcall)
      have hshows := hknown hne
      refine ⟨origin, hsteps₁, fun _ => ⟨?_, hshows.ne_zero, hshows.origin⟩, fun _ e hpath he =>
        ⟨hne, hheap ▸ hshows.contains ⟨e, hpath.reach, he⟩⟩⟩
      rw [hfailed]
      simpa using hwhole₀
    split at hcall
    · cases hcall
    rename_i build₂ rt₂ hbuild
    obtain ⟨origin₂, hbuilt⟩ := buildRt_spec ih hgood hview hunwrapped hbuild
    have hsteps₂ := hsteps₁.trans hbuilt.steps
    by_cases hnone : rt₂ = 0 ∧ describes arena type
    · simp only [if_pos hnone, if_true] at hcall
      obtain ⟨rfl, rfl⟩ := Prod.mk.inj (Option.some.inj hcall)
      exact ⟨origin₂, ⟨hsteps₂.good.congr rfl rfl, hsteps₂.kept, hsteps₂.frame, nofun⟩,
        fun hne => absurd rfl hne, nofun⟩
    simp only [if_neg hnone] at hcall
    split at hcall
    · rename_i hfailed₂
      obtain ⟨rfl, rfl⟩ := Prod.mk.inj (Option.some.inj hcall)
      exact ⟨origin₂, hsteps₂, fun hne => absurd rfl hne, fun hb => nomatch hb.symm.trans hfailed₂⟩
    rename_i hwhole
    have hwhole : build₂.failed = false := by simpa using hwhole
    have hshows : ShowsOff arena seen build₂.heap type rt₂ := by
      intro e hpath he
      by_cases hrt : rt₂ = 0
      · exact absurd he (path_of_not_describes (fun hd => hnone ⟨hrt, hd⟩) hpath)
      · exact ⟨hrt, hbuilt.shows hwhole hrt e hpath he⟩
    split at hcall
    · rename_i hremembered
      obtain ⟨hne, hapart⟩ := halone hremembered
      obtain ⟨build₃, hremember, hheap₃, hfailed₃, hgood₃⟩ :=
        @remember_spec _ _ _ _ rt₂ hsteps₂.good type fun hrt =>
          ⟨hne, (hbuilt.origin_eq hrt).2, fun ⟨e, hreach, he⟩ =>
            (hshows e (path_of_apart hview hne hapart hreach) he).2⟩
      rw [hremember] at hcall
      obtain ⟨rfl, rfl⟩ := Prod.mk.inj (Option.some.inj hcall)
      exact ⟨origin₂, ⟨hgood₃, hsteps₂.kept, fun a n hn => hheap₃ ▸ hsteps₂.frame a n hn,
        fun hb => hsteps₂.whole (hfailed₃ ▸ hb)⟩,
        fun hrt => ⟨hfailed₃.trans hwhole, hbuilt.origin_eq hrt⟩, fun _ => hheap₃ ▸ hshows⟩
    · obtain ⟨rfl, rfl⟩ := Prod.mk.inj (Option.some.inj hcall)
      exact ⟨origin₂, hsteps₂, fun hrt => ⟨hwhole, hbuilt.origin_eq hrt⟩, fun _ => hshows⟩

end Build

end Lhat.Descriptor
