import Lhat.Descriptor.Convert
import Lhat.Descriptor.Types

/-!
# What descriptors hold

The descriptors that can be got to from one, and what a write adds to them. Each descriptor that a
conversion makes is made out of a type, and what it holds out of the children of that type.
-/

namespace Lhat.Descriptor

open Check (TypeRef)
open Relation (ReflTransGen)

variable {n : LhatRuntimeType}

/-- The descriptors that one points at. -/
def LhatRuntimeType.refs (n : LhatRuntimeType) : List RuntimeRef :=
  n.parts ++ n.members.map Prod.snd ++
    [n.instanceType, n.variadic, n.indexKey, n.indexValue, n.result, n.receive, n.produce]

theorem LhatRuntimeType.mem_refs {b : RuntimeRef} :
    b ∈ n.refs ↔ b ∈ n.parts ∨ b ∈ n.members.map Prod.snd ∨ b = n.instanceType ∨ b = n.variadic ∨
      b = n.indexKey ∨ b = n.indexValue ∨ b = n.result ∨ b = n.receive ∨ b = n.produce := by
  simp only [refs, List.mem_append, List.mem_cons, List.not_mem_nil, or_false, or_assoc]

/-- A descriptor points at one more than before. -/
def Adds (n n' : LhatRuntimeType) (c : RuntimeRef) : Prop :=
  n'.kind = n.kind ∧ ∀ b ≠ 0, b ∈ n'.refs ↔ b = c ∨ b ∈ n.refs

namespace Adds

variable {n n' : LhatRuntimeType} {c : RuntimeRef}

theorem of_same (hkind : n'.kind = n.kind) (hrefs : ∀ b, b ∈ n'.refs ↔ b ∈ n.refs) : Adds n n' 0 :=
  ⟨hkind, fun b hb => (hrefs b).trans ⟨.inr, fun hor => hor.resolve_left hb⟩⟩

theorem part (n : LhatRuntimeType) (c : RuntimeRef) :
    Adds n { n with parts := n.parts ++ [c] } c := by
  refine ⟨rfl, fun b _ => ?_⟩
  simp only [LhatRuntimeType.mem_refs, List.mem_append, List.mem_singleton]
  grind

theorem member (n : LhatRuntimeType) (name : Lexing.Text) (c : RuntimeRef) :
    Adds n { n with members := n.members ++ [(name, c)] } c := by
  refine ⟨rfl, fun b _ => ?_⟩
  simp only [LhatRuntimeType.mem_refs, List.map_append, List.map_cons, List.map_nil,
    List.mem_append, List.mem_singleton]
  grind

/-! A place that was `NULL` is written. -/

theorem instanceType (h : n.instanceType = 0) (c : RuntimeRef) :
    Adds n { n with instanceType := c } c := by
  refine ⟨rfl, fun b hb => ?_⟩
  simp only [LhatRuntimeType.mem_refs, h, hb, false_or]
  grind

theorem variadic (h : n.variadic = 0) (c : RuntimeRef) : Adds n { n with variadic := c } c := by
  refine ⟨rfl, fun b hb => ?_⟩
  simp only [LhatRuntimeType.mem_refs, h, hb, false_or]
  grind

theorem indexKey (h : n.indexKey = 0) (c : RuntimeRef) : Adds n { n with indexKey := c } c := by
  refine ⟨rfl, fun b hb => ?_⟩
  simp only [LhatRuntimeType.mem_refs, h, hb, false_or]
  grind

theorem indexValue (h : n.indexValue = 0) (c : RuntimeRef) :
    Adds n { n with indexValue := c } c := by
  refine ⟨rfl, fun b hb => ?_⟩
  simp only [LhatRuntimeType.mem_refs, h, hb, false_or]
  grind

theorem result (h : n.result = 0) (c : RuntimeRef) : Adds n { n with result := c } c := by
  refine ⟨rfl, fun b hb => ?_⟩
  simp only [LhatRuntimeType.mem_refs, h, hb, false_or]
  grind

theorem receive (h : n.receive = 0) (c : RuntimeRef) : Adds n { n with receive := c } c := by
  refine ⟨rfl, fun b hb => ?_⟩
  simp only [LhatRuntimeType.mem_refs, h, hb, false_or]
  grind

theorem produce (h : n.produce = 0) (c : RuntimeRef) : Adds n { n with produce := c } c := by
  refine ⟨rfl, fun b hb => ?_⟩
  simp only [LhatRuntimeType.mem_refs, h, hb, or_false]
  grind

end Adds

/-- An `ERROR` or an `ERROR_KIND`. -/
def LhatRuntimeType.IsError (n : LhatRuntimeType) : Prop := n.kind = .error ∨ n.kind = .errorKind

/-- One descriptor points at another. -/
def Holds (heap : List LhatRuntimeType) (a b : RuntimeRef) : Prop :=
  b ≠ 0 ∧ ∃ n, descriptorAt heap a = some n ∧ b ∈ n.refs

/-- An error can be got to from a descriptor. -/
def ContainsError (heap : List LhatRuntimeType) (rt : RuntimeRef) : Prop :=
  ∃ e n, ReflTransGen (Holds heap) rt e ∧ descriptorAt heap e = some n ∧ n.IsError

/-- Descriptors are added, and what there is points at no less. -/
def Grows (heap heap' : List LhatRuntimeType) : Prop :=
  ∀ a n, descriptorAt heap a = some n →
    ∃ n', descriptorAt heap' a = some n' ∧ n'.kind = n.kind ∧ ∀ b ≠ 0, b ∈ n.refs → b ∈ n'.refs

section Grow

variable {heap heap' heap'' : List LhatRuntimeType} {a b rt : Nat}

theorem descriptorAt_append_old (extra : List LhatRuntimeType)
    (h : descriptorAt heap a = some n) : descriptorAt (heap ++ extra) a = some n := by
  unfold descriptorAt at h ⊢
  split at h
  · cases h
  · rename_i hne
    rw [if_neg hne, List.getElem?_append_left (List.getElem?_eq_some_iff.mp h).1, h]

theorem descriptorAt_new (heap : List LhatRuntimeType) (n : LhatRuntimeType) :
    descriptorAt (heap ++ [n]) (heap.length + 1) = some n := by
  simp [descriptorAt]

theorem descriptorAt_append_cases {m : LhatRuntimeType} (h : descriptorAt (heap ++ [m]) a = some n)
    : descriptorAt heap a = some n ∨ a = heap.length + 1 ∧ n = m := by
  unfold descriptorAt at h ⊢
  split at h
  · cases h
  rename_i hne
  rw [if_neg hne]
  by_cases hlt : a - 1 < heap.length
  · rw [List.getElem?_append_left hlt] at h
    exact .inl h
  · rw [List.getElem?_append_right (Nat.not_lt.mp hlt), List.getElem?_singleton] at h
    split at h
    · rename_i hzero
      refine .inr ⟨?_, (Option.some.inj h).symm⟩
      change a ≠ 0 at hne
      omega
    · cases h

theorem ne_zero_of_descriptorAt (h : descriptorAt heap a = some n) : a ≠ 0 := by
  rintro rfl
  cases h

theorem descriptorAt_modify (heap : List LhatRuntimeType) (f : LhatRuntimeType → LhatRuntimeType)
    (hne : rt ≠ 0) :
    descriptorAt (heap.modify (rt - 1) f) a =
      if a = rt then (descriptorAt heap a).map f else descriptorAt heap a := by
  unfold descriptorAt
  by_cases hzero : a = 0
  · rw [if_pos hzero, if_pos hzero, if_neg fun heq : a = rt => hne (heq ▸ hzero)]
  · rw [if_neg hzero, if_neg hzero, List.getElem?_modify]
    by_cases heq : a = rt
    · simp [heq]
    · rw [if_neg heq]
      simp [show ¬ rt - 1 = a - 1 by omega]

theorem Grows.append (heap extra : List LhatRuntimeType) : Grows heap (heap ++ extra) :=
  fun _ n h => ⟨n, descriptorAt_append_old extra h, rfl, fun _ _ => id⟩

theorem Grows.modify (hn : descriptorAt heap rt = some n) {f : LhatRuntimeType → LhatRuntimeType}
    (hkind : (f n).kind = n.kind) (hrefs : ∀ b ≠ 0, b ∈ n.refs → b ∈ (f n).refs) :
    Grows heap (heap.modify (rt - 1) f) := by
  intro a m hm
  rw [descriptorAt_modify heap f (ne_zero_of_descriptorAt hn)]
  by_cases heq : a = rt
  · subst heq
    obtain rfl := Option.some.inj (hn.symm.trans hm)
    exact ⟨f n, by rw [if_pos rfl, hn]; rfl, hkind, hrefs⟩
  · exact ⟨m, by rw [if_neg heq, hm], rfl, fun _ _ => id⟩

theorem Grows.holds (h : Grows heap heap') (hab : Holds heap a b) : Holds heap' a b := by
  obtain ⟨hne, n, hn, hmem⟩ := hab
  obtain ⟨n', hn', -, hrefs⟩ := h a n hn
  exact ⟨hne, n', hn', hrefs b hne hmem⟩

theorem Grows.contains (h : Grows heap heap') (ha : ContainsError heap a) :
    ContainsError heap' a := by
  obtain ⟨e, n, hreach, hn, herror⟩ := ha
  obtain ⟨n', hn', hkind, -⟩ := h e n hn
  refine ⟨e, n', ReflTransGen.mono (fun _ _ => h.holds) _ _ hreach, hn', ?_⟩
  rwa [LhatRuntimeType.IsError, hkind]

theorem Holds.contains (hab : Holds heap a b) (h : ContainsError heap b) : ContainsError heap a :=
    by
  obtain ⟨e, n, hreach, hn, herror⟩ := h
  exact ⟨e, n, .head hab hreach, hn, herror⟩

end Grow

/-! ### Where descriptors come from -/

/-- An edge that `build_rt` follows. -/
def Converts (arena : CheckedArena) (a b : TypeRef) : Prop := b ∈ arena.convertedChildren a

/-- An error stands among the types that a descriptor is made out of. -/
def ErrorBelow (arena : CheckedArena) (type : TypeRef) : Prop :=
  ∃ e, ReflTransGen (Converts arena) type e ∧ arena.ErrorAt e

/-- The descriptors that have an origin are made out of it. Others are not the conversion's. -/
structure Traced (arena : CheckedArena) (origin : RuntimeRef → TypeRef)
    (heap : List LhatRuntimeType) : Prop where
  inside : ∀ a, origin a ≠ 0 → ∃ n, descriptorAt heap a = some n
  edge : ∀ a b, origin a ≠ 0 → Holds heap a b → Converts arena (origin a) (origin b)
  error : ∀ a n, origin a ≠ 0 → descriptorAt heap a = some n → n.IsError → arena.ErrorAt (origin a)

section Traced

variable {arena : CheckedArena} {origin : RuntimeRef → TypeRef} {heap : List LhatRuntimeType}
  {a b rt : RuntimeRef} {type : TypeRef}

theorem Converts.ne_zero {a b : TypeRef} (h : Converts arena a b) : b ≠ 0 := by
  obtain ⟨-, -, hne, -⟩ := CheckedArena.mem_convertedChildren.mp h
  exact hne

theorem Converts.child {a b : TypeRef} (h : Converts arena a b) : Child arena a b :=
  CheckedArena.mem_eachChild_of_converted h

theorem Traced.errorBelow (h : Traced arena origin heap) (ha : origin a ≠ 0)
    (hcontains : ContainsError heap a) : ErrorBelow arena (origin a) := by
  obtain ⟨e, n, hreach, hn, herror⟩ := hcontains
  induction hreach using ReflTransGen.head_induction_on with
  | refl => exact ⟨origin e, .refl, h.error e n ha hn herror⟩
  | head hab _ ih =>
    have hedge := h.edge _ _ ha hab
    obtain ⟨x, hx, hxerror⟩ := ih hedge.ne_zero
    exact ⟨x, .head hedge hx, hxerror⟩

theorem Traced.append (h : Traced arena origin heap) (hrefs : ∀ b ∈ n.refs, b = 0)
    (herror : n.IsError → arena.ErrorAt type) :
    Traced arena (Function.update origin (heap.length + 1) type) (heap ++ [n]) := by
  have hnew : ∀ a m, descriptorAt heap a = some m → a ≠ heap.length + 1 := by
    rintro a m hm rfl
    simp [descriptorAt] at hm
  have hold : origin (heap.length + 1) = 0 := by
    by_contra hne
    obtain ⟨m, hm⟩ := h.inside _ hne
    exact hnew _ m hm rfl
  refine ⟨fun a ha => ?_, fun a b ha hab => ?_, fun a m ha hm hmerror => ?_⟩
  · rw [Function.update_apply] at ha
    split at ha
    · rename_i heq
      exact ⟨n, heq ▸ descriptorAt_new heap n⟩
    · exact (h.inside a ha).imp fun m hm => descriptorAt_append_old _ hm
  · obtain ⟨hb, m, hm, hmem⟩ := hab
    obtain hm | ⟨-, rfl⟩ := descriptorAt_append_cases hm
    · rw [Function.update_of_ne (hnew a m hm)] at ha ⊢
      have hedge := h.edge a b ha ⟨hb, m, hm, hmem⟩
      rwa [Function.update_of_ne]
      rintro rfl
      exact hedge.ne_zero hold
    · exact absurd (hrefs b hmem) hb
  · obtain hm | ⟨rfl, rfl⟩ := descriptorAt_append_cases hm
    · rw [Function.update_of_ne (hnew a m hm)] at ha ⊢
      exact h.error a m ha hm hmerror
    · rw [Function.update_self]
      exact herror hmerror

theorem Traced.modify (h : Traced arena origin heap) (hn : descriptorAt heap rt = some n)
    {f : LhatRuntimeType → LhatRuntimeType} (hkind : (f n).kind = n.kind)
    (hrefs : ∀ b ≠ 0, b ∈ (f n).refs → b ∈ n.refs ∨ Converts arena (origin rt) (origin b)) :
    Traced arena origin (heap.modify (rt - 1) f) := by
  have hafter : ∀ a m, descriptorAt (heap.modify (rt - 1) f) a = some m →
      a = rt ∧ m = f n ∨ descriptorAt heap a = some m := by
    intro a m hm
    rw [descriptorAt_modify heap f (ne_zero_of_descriptorAt hn)] at hm
    split at hm
    · rename_i heq
      subst heq
      rw [hn] at hm
      exact .inl ⟨rfl, (Option.some.inj hm).symm⟩
    · exact .inr hm
  refine ⟨fun a ha => ?_, fun a b ha hab => ?_, fun a m ha hm hmerror => ?_⟩
  · obtain ⟨m, hm⟩ := h.inside a ha
    rw [descriptorAt_modify heap f (ne_zero_of_descriptorAt hn), hm]
    split
    · exact ⟨f m, rfl⟩
    · exact ⟨m, rfl⟩
  · obtain ⟨hb, m, hm, hmem⟩ := hab
    obtain ⟨rfl, rfl⟩ | hm := hafter a m hm
    · exact (hrefs b hb hmem).elim (fun hold => h.edge a b ha ⟨hb, n, hn, hold⟩) id
    · exact h.edge a b ha ⟨hb, m, hm, hmem⟩
  · obtain ⟨rfl, rfl⟩ | hm := hafter a m hm
    · exact h.error a n ha hn (by rwa [LhatRuntimeType.IsError, hkind] at hmerror)
    · exact h.error a m ha hm hmerror

end Traced

end Lhat.Descriptor
