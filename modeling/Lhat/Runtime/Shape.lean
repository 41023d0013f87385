import Lhat.Runtime.Value
import Mathlib.Data.Multiset.MapFold

/-!
# What the equality of runtime types compares

`lhatRuntimeTypeEqual` walks two descriptors side by side. Where its walk ends,
what it answers is whether two values are equal: the `shape` of a descriptor,
unfolded as deep as the stack is. An arm of a union may be matched by any arm of
the other, so the arms are read as a multiset; a union whose scratch array is
refused is equal to nothing but itself.

Being the equality of a function of one side, it is an equivalence.
-/

namespace Lhat

/-- What a descriptor says without the descriptors it holds. -/
structure Head where
  kind : LhatRuntimeTypeKind
  identity : Address := 0
  count : Nat := 0
  flags : List Bool := []
  names : List (List UInt8) := []
deriving DecidableEq

namespace LhatRuntimeType

def head (t : LhatRuntimeType) : Head :=
  match t.kind with
  | .applied | .union | .intersect | .tuple => { kind := t.kind, count := t.parts.length }
  | .any | .nil | .bool | .number | .string | .costate | .unknown | .typeinfo => { kind := t.kind }
  | .error => { kind := t.kind, flags := [t.errorLocal] }
  | .coroutine =>
    { kind := t.kind
      flags :=
        if t.coroutineTop then [true]
        else [false, t.receiveAny, t.produceAny, t.resultAny, t.kindAny, t.endless,
          t.receive.isNone, t.result.isNone, t.isFunction] }
  | .errorKind => { kind := t.kind, identity := t.errorKind }
  | .hostdata => { kind := t.kind, identity := t.hostdataTag }
  | .hostvalue | .hostvalueBox => { kind := t.kind, identity := t.hostvalueTag }
  | .subroutine =>
    { kind := t.kind
      count := t.parts.length
      flags := [t.isFunction, t.takesSelf, t.selfLast, t.mutableSelf, t.answersFresh,
        t.variadic.isNone, t.result.isNone] }
  | .table =>
    { kind := t.kind
      identity := t.hostdataTag
      count := t.parts.length
      flags := [t.variadic.isNone, t.indexKey.isNone]
      names := t.members.map Prod.fst }
  | .self => { kind := t.kind, count := t.levels }
  | .enum => { kind := t.kind, identity := t.enumDecl }
  | .enumMember => { kind := t.kind, identity := t.enumDecl, count := t.enumMemberIndex }

/-- The descriptors compared one by one. -/
def kids (t : LhatRuntimeType) : List (Option Address) :=
  match t.kind with
  | .applied => t.result :: t.parts
  | .coroutine => if t.coroutineTop then [] else [t.receive, t.produce, t.result]
  | .tuple => t.parts
  | .subroutine => t.variadic :: t.result :: t.parts
  | .table =>
    t.variadic :: t.indexKey :: t.indexValue :: t.instanceType ::
      (t.parts ++ t.members.map Prod.snd)
  | _ => []

/-- The descriptors whose order does not count. -/
def arms (t : LhatRuntimeType) : List (Option Address) :=
  match t.kind with
  | .union | .intersect => t.parts
  | _ => []

/-- Whether the arms are matched over a scratch array. -/
def hasArms (t : LhatRuntimeType) : Bool :=
  match t.kind with
  | .union | .intersect => true
  | _ => false

end LhatRuntimeType

/-- A descriptor unfolded so many levels. On the left, what is equal to itself
alone. -/
def Shape : Nat → Type
  | 0 => Unit
  | depth + 1 => Option Address ⊕ Head × List (Shape depth) × Multiset (Shape depth)

namespace Shape

variable {depth : Nat}

def own (a : Option Address) : Shape (depth + 1) := Sum.inl a

def node (head : Head) (kids : List (Shape depth)) (arms : Multiset (Shape depth)) :
    Shape (depth + 1) :=
  Sum.inr (head, kids, arms)

theorem own_inj {a b : Option Address} (heq : (own a : Shape (depth + 1)) = own b) : a = b :=
  Sum.inl.inj heq

theorem node_inj {head head' : Head} {kids kids' : List (Shape depth)}
    {arms arms' : Multiset (Shape depth)} (heq : node head kids arms = node head' kids' arms') :
    head = head' ∧ kids = kids' ∧ arms = arms' := by
  simpa using Sum.inr.inj heq

theorem own_ne_node {a : Option Address} {head : Head} {kids : List (Shape depth)}
    {arms : Multiset (Shape depth)} : own a ≠ node head kids arms :=
  Sum.inl_ne_inr

end Shape

/-- The shape of a descriptor. -/
def shape (h : Heap) : (depth : Nat) → Option Address → Shape depth
  | 0, _ => ()
  | depth + 1, a =>
    match h.descriptor a with
    | none => Shape.own a
    | some t =>
      if t.hasArms && !h.scratch t.parts.length then Shape.own a
      else Shape.node t.head (t.kids.map (shape h depth)) (t.arms.map (shape h depth) : List _)

/-- Where it answers at all, it answers whether `P`. -/
def Decides (x : Option Bool) (P : Prop) : Prop := ∀ r, x = some r → (r = true ↔ P)

namespace Decides

variable {x go : Option Bool} {P Q : Prop}

theorem congr (hx : Decides x P) (hiff : P ↔ Q) : Decides x Q :=
  fun r hr => (hx r hr).trans hiff

theorem answer (b : Bool) : Decides (some b) (b = true) := by
  intro r hr
  rw [Option.some.inj hr]

theorem guard {c : Prop} [Decidable c] (hgo : ¬c → Decides go P) :
    Decides (if c then some false else go) (¬c ∧ P) := by
  intro r hr
  by_cases hc : c
  · obtain rfl : false = r := by simpa [hc] using hr
    simp [hc]
  · rw [hgo hc r (by simpa [hc] using hr)]
    simp [hc]

theorem andThen (hx : Decides x Q) (hgo : Q → Decides go P) :
    Decides (do if !(← x) then return false else go) (Q ∧ P) := by
  intro r hr
  simp only [Option.bind_eq_bind, Option.bind_eq_some_iff] at hr
  obtain ⟨r', hx', hrest⟩ := hr
  have hiff := hx r' hx'
  cases r' with
  | true =>
    rw [hgo (hiff.1 rfl) r (by simpa using hrest)]
    simp [hiff.1 rfl]
  | false =>
    have hne : ¬Q := fun hq => absurd (hiff.2 hq) Bool.false_ne_true
    obtain rfl : false = r := by simpa using hrest
    simp [hne]

theorem orElse (hx : Decides x Q) (hgo : Q → Decides go P) :
    Decides (do if ← x then go else some false) (Q ∧ P) := by
  intro r hr
  refine andThen hx hgo r ?_
  rw [← hr]
  cases x with
  | none => rfl
  | some b => cases b <;> rfl

end Decides

section Compared

variable {F : Type} {equal : Option Address → Option Address → Option Bool} {f : Option Address → F}
  (hequal : ∀ a b, Decides (equal a b) (f a = f b))

include hequal

theorem pairsEqual_decides {as bs : List (Option Address)} (hlen : as.length = bs.length) :
    Decides (pairsEqual equal as bs) (as.map f = bs.map f) := by
  induction as generalizing bs with
  | nil =>
    obtain rfl : bs = [] := List.eq_nil_of_length_eq_zero hlen.symm
    exact (Decides.answer true).congr (by simp)
  | cons a as ih =>
    cases bs with
    | nil => simp at hlen
    | cons b bs =>
      have hlen' : as.length = bs.length := by simpa using hlen
      exact ((hequal a b).orElse fun _ => ih hlen').congr (by simp)

theorem takeMatch_some {a : Option Address} {bs rest : List (Option Address)}
    (htake : takeMatch equal a bs = some (some rest)) : ∃ b, f a = f b ∧ bs.Perm (b :: rest) := by
  induction bs generalizing rest with
  | nil => simp [takeMatch] at htake
  | cons b bs ih =>
    simp only [takeMatch, Option.bind_eq_bind, Option.bind_eq_some_iff] at htake
    obtain ⟨r, hab, hrest⟩ := htake
    cases r with
    | true =>
      simp only [if_true, Option.some.injEq] at hrest
      exact ⟨b, (hequal a b true hab).1 rfl, by rw [hrest]⟩
    | false =>
      simp only [Bool.false_eq_true, if_false, Option.pure_def, Option.bind_eq_some_iff,
        Option.some.injEq, Option.map_eq_some_iff] at hrest
      obtain ⟨_, htake, rest', rfl, rfl⟩ := hrest
      obtain ⟨b', hb', hperm⟩ := ih htake
      exact ⟨b', hb', (hperm.cons b).trans (List.Perm.swap b' b rest')⟩

theorem takeMatch_none {a : Option Address} {bs : List (Option Address)}
    (htake : takeMatch equal a bs = some none) : ∀ b ∈ bs, f a ≠ f b := by
  induction bs with
  | nil => simp
  | cons b bs ih =>
    simp only [takeMatch, Option.bind_eq_bind, Option.bind_eq_some_iff] at htake
    obtain ⟨r, hab, hrest⟩ := htake
    cases r with
    | true => simp at hrest
    | false =>
      simp only [Bool.false_eq_true, if_false, Option.pure_def, Option.bind_eq_some_iff,
        Option.some.injEq, Option.map_eq_none_iff] at hrest
      obtain ⟨_, htake, rfl⟩ := hrest
      intro b' hb'
      rcases List.mem_cons.1 hb' with rfl | hb'
      · exact fun hfab => absurd ((hequal a b' false hab).2 hfab) Bool.false_ne_true
      · exact ih htake b' hb'

theorem armsEqual_decides {as bs : List (Option Address)} (hlen : as.length = bs.length) :
    Decides (armsEqual equal as bs) ((as.map f : Multiset F) = (bs.map f : List F)) := by
  induction as generalizing bs with
  | nil =>
    obtain rfl : bs = [] := List.eq_nil_of_length_eq_zero hlen.symm
    exact (Decides.answer true).congr (by simp)
  | cons a as ih =>
    intro r hr
    simp only [armsEqual, Option.bind_eq_bind, Option.bind_eq_some_iff] at hr
    obtain ⟨taken, htake, hrest⟩ := hr
    cases taken with
    | none =>
      simp only [Option.some.injEq] at hrest
      simp only [← hrest, Bool.false_eq_true, false_iff]
      intro heq
      have hmem : f a ∈ (bs.map f : Multiset F) := by
        rw [← heq]
        simp
      obtain ⟨b, hb, hfb⟩ := List.mem_map.1 (Multiset.mem_coe.1 hmem)
      exact takeMatch_none hequal htake b hb hfb.symm
    | some rest =>
      obtain ⟨b, hfab, hperm⟩ := takeMatch_some hequal htake
      have hlen' : as.length = rest.length := by
        have := hperm.length_eq
        simp only [List.length_cons] at this hlen
        omega
      rw [ih hlen' r hrest, Multiset.coe_eq_coe.2 (hperm.map f), List.map_cons, List.map_cons,
        ← Multiset.cons_coe, ← Multiset.cons_coe, hfab, Multiset.cons_inj_right]

theorem membersEqual_decides {as bs : List (List UInt8 × Option Address)}
    (hlen : as.length = bs.length) :
    Decides (membersEqual equal as bs) (as.map Prod.fst = bs.map Prod.fst ∧
      (as.map Prod.snd).map f = (bs.map Prod.snd).map f) := by
  induction as generalizing bs with
  | nil =>
    obtain rfl : bs = [] := List.eq_nil_of_length_eq_zero hlen.symm
    exact (Decides.answer true).congr (by simp)
  | cons a as ih =>
    cases bs with
    | nil => simp at hlen
    | cons b bs =>
      have hlen' : as.length = bs.length := by simpa using hlen
      refine (Decides.guard (c := a.1 ≠ b.1) fun _ =>
        (hequal a.2 b.2).orElse fun _ => ih hlen').congr ?_
      simp only [ne_eq, not_not, List.map_cons, List.cons.injEq]
      grind

variable (scratch : Nat → Bool) (s t : LhatRuntimeType)

/-- What two descriptors of one kind agree on when they are equal. -/
def Agree (f : Option Address → F) : Prop :=
  (s.hasArms = true → scratch t.parts.length = true) ∧ s.head = t.head ∧
    s.kids.map f = t.kids.map f ∧ (s.arms.map f : Multiset F) = (t.arms.map f : List F)

theorem applied_decides (hs : s.kind = .applied) (ht : t.kind = .applied) :
    Decides (descriptorsEqual equal scratch s t) (Agree scratch s t f) := by
  simp only [descriptorsEqual, hs]
  refine (Decides.guard fun hlen => (hequal s.result t.result).andThen fun _ =>
    pairsEqual_decides hequal (not_not.1 hlen)).congr ?_
  simp [Agree, LhatRuntimeType.hasArms, LhatRuntimeType.head, LhatRuntimeType.kids,
    LhatRuntimeType.arms, hs, ht]

theorem arms_decides (hs : s.hasArms = true) (hkind : s.kind = t.kind) :
    Decides (descriptorsEqual equal scratch s t) (Agree scratch s t f) := by
  have harms : Decides (if s.parts.length ≠ t.parts.length then some false
      else if !scratch t.parts.length then some false else armsEqual equal s.parts t.parts)
      (Agree scratch s t f) := by
    refine (Decides.guard fun hlen => Decides.guard fun _ =>
      armsEqual_decides hequal (not_not.1 hlen)).congr ?_
    unfold LhatRuntimeType.hasArms at hs
    unfold Agree LhatRuntimeType.hasArms LhatRuntimeType.head LhatRuntimeType.kids
      LhatRuntimeType.arms
    rw [← hkind]
    cases hk : s.kind <;> simp [hk] at hs ⊢
    · grind
    · grind
  unfold LhatRuntimeType.hasArms at hs
  cases hk : s.kind <;> simp only [hk, Bool.false_eq_true] at hs
  all_goals simpa only [descriptorsEqual, hk] using harms

theorem tuple_decides (hs : s.kind = .tuple) (ht : t.kind = .tuple) :
    Decides (descriptorsEqual equal scratch s t) (Agree scratch s t f) := by
  simp only [descriptorsEqual, hs]
  refine (Decides.guard fun hlen => pairsEqual_decides hequal (not_not.1 hlen)).congr ?_
  simp [Agree, LhatRuntimeType.hasArms, LhatRuntimeType.head, LhatRuntimeType.kids,
    LhatRuntimeType.arms, hs, ht]

theorem coroutine_decides (hs : s.kind = .coroutine) (ht : t.kind = .coroutine) :
    Decides (descriptorsEqual equal scratch s t) (Agree scratch s t f) := by
  simp only [descriptorsEqual, hs]
  by_cases htop : (s.coroutineTop || t.coroutineTop) = true
  · rw [if_pos htop]
    refine (Decides.answer _).congr ?_
    cases hst : s.coroutineTop <;> cases htt : t.coroutineTop <;>
      simp [Agree, LhatRuntimeType.hasArms, LhatRuntimeType.head, LhatRuntimeType.kids,
        LhatRuntimeType.arms, hs, ht, hst, htt] at htop ⊢
  · rw [if_neg htop]
    refine (Decides.guard fun _ => Decides.guard fun _ => Decides.guard fun _ =>
      (hequal s.receive t.receive).andThen fun _ => (hequal s.produce t.produce).andThen fun _ =>
        hequal s.result t.result).congr ?_
    simp only [Bool.or_eq_true, not_or, Bool.not_eq_true] at htop
    simp [Agree, LhatRuntimeType.hasArms, LhatRuntimeType.head, LhatRuntimeType.kids,
      LhatRuntimeType.arms, hs, ht, htop]
    grind

theorem subroutine_decides (hs : s.kind = .subroutine) (ht : t.kind = .subroutine) :
    Decides (descriptorsEqual equal scratch s t) (Agree scratch s t f) := by
  have hvariadic : ∀ {go : Option Bool} {P : Prop}, Decides go P →
      (s.variadic.isNone = t.variadic.isNone) →
      Decides (do
        if s.variadic.isSome then
          if !(← equal s.variadic t.variadic) then return false
        go) (f s.variadic = f t.variadic ∧ P) := by
    intro go P hgo hnone
    cases hv : s.variadic with
    | none =>
      rw [hv] at hnone
      obtain hv' : t.variadic = none := by simpa using hnone.symm
      simpa [hv'] using hgo
    | some v => simpa using (hequal _ _).andThen fun _ => hgo
  simp only [descriptorsEqual, hs]
  refine (Decides.guard fun hshape => (pairsEqual_decides hequal ?_).andThen fun _ =>
    Decides.guard fun hnone => hvariadic (Decides.guard fun _ => hequal _ _) ?_).congr ?_
  · simp at hshape
    exact hshape.2
  · simpa using hnone
  · simp [Agree, LhatRuntimeType.hasArms, LhatRuntimeType.head, LhatRuntimeType.kids,
      LhatRuntimeType.arms, hs, ht]
    grind

theorem table_decides (hs : s.kind = .table) (ht : t.kind = .table) :
    Decides (descriptorsEqual equal scratch s t) (Agree scratch s t f) := by
  simp only [descriptorsEqual, hs]
  refine (Decides.guard fun hshape => (hequal s.variadic t.variadic).andThen fun _ =>
    Decides.guard fun _ => (hequal s.indexKey t.indexKey).andThen fun _ =>
      (hequal s.indexValue t.indexValue).andThen fun _ =>
        (pairsEqual_decides hequal ?_).andThen fun _ =>
          (membersEqual_decides hequal ?_).andThen fun _ => hequal _ _).congr ?_
  · simp at hshape
    exact hshape.1.1.1
  · simp at hshape
    exact hshape.1.1.2
  · simp [Agree, LhatRuntimeType.hasArms, LhatRuntimeType.head, LhatRuntimeType.kids,
      LhatRuntimeType.arms, hs, ht]
    constructor
    · rintro ⟨⟨⟨⟨hparts, -⟩, htag⟩, hvariadic⟩, hv, hindex, hk, hvalue, hps, ⟨hnames, hms⟩, hi⟩
      exact ⟨⟨htag, hparts, ⟨hvariadic, hindex⟩, hnames⟩, hv, hk, hvalue, hi, by rw [hps, hms]⟩
    · rintro ⟨⟨htag, hparts, ⟨hvariadic, hindex⟩, hnames⟩, hv, hk, hvalue, hi, hall⟩
      have hmembers : s.members.length = t.members.length := by
        simpa using congrArg List.length hnames
      obtain ⟨hps, hms⟩ := List.append_inj hall (by simpa using hparts)
      exact ⟨⟨⟨⟨hparts, hmembers⟩, htag⟩, hvariadic⟩, hv, hindex, hk, hvalue, hps,
        ⟨hnames, hms⟩, hi⟩

theorem descriptorsEqual_decides (hkind : s.kind = t.kind) :
    Decides (descriptorsEqual equal scratch s t) (Agree scratch s t f) := by
  have ht : t.kind = s.kind := hkind.symm
  cases hs : s.kind <;> rw [hs] at ht
  case applied => exact applied_decides hequal scratch s t hs ht
  case coroutine => exact coroutine_decides hequal scratch s t hs ht
  case tuple => exact tuple_decides hequal scratch s t hs ht
  case subroutine => exact subroutine_decides hequal scratch s t hs ht
  case table => exact table_decides hequal scratch s t hs ht
  case union => exact arms_decides hequal scratch s t (by simp [LhatRuntimeType.hasArms, hs]) hkind
  case intersect =>
    exact arms_decides hequal scratch s t (by simp [LhatRuntimeType.hasArms, hs]) hkind
  -- The kinds that hold no descriptor.
  all_goals
    simp only [descriptorsEqual, hs]
    refine (Decides.answer _).congr ?_
    simp [Agree, LhatRuntimeType.hasArms, LhatRuntimeType.head, LhatRuntimeType.kids,
      LhatRuntimeType.arms, hs, ht]

end Compared

@[simp] theorem head_kind (t : LhatRuntimeType) : t.head.kind = t.kind := by
  unfold LhatRuntimeType.head
  split <;> rfl

theorem head_count {t : LhatRuntimeType} (harms : t.hasArms = true) :
    t.head.count = t.parts.length := by
  unfold LhatRuntimeType.hasArms at harms
  unfold LhatRuntimeType.head
  cases hk : t.kind <;> simp [hk] at harms ⊢

theorem hasArms_congr {s t : LhatRuntimeType} (hkind : s.kind = t.kind) :
    s.hasArms = t.hasArms := by
  unfold LhatRuntimeType.hasArms
  rw [hkind]

theorem shape_eq_iff {h : Heap} {depth : Nat} {a b : Option Address} {s t : LhatRuntimeType}
    (hne : a ≠ b) (ha : h.descriptor a = some s) (hb : h.descriptor b = some t) :
    s.kind = t.kind ∧ Agree h.scratch s t (shape h depth) ↔
      shape h (depth + 1) a = shape h (depth + 1) b := by
  simp only [shape, ha, hb]
  constructor
  · rintro ⟨hkind, hscratch, hhead, hkids, harms⟩
    have ht : (t.hasArms && !h.scratch t.parts.length) = false := by
      rw [← hasArms_congr hkind]
      cases hs : s.hasArms with
      | false => rfl
      | true => simp [hscratch hs]
    have hs : (s.hasArms && !h.scratch s.parts.length) = false := by
      cases hs : s.hasArms with
      | false => rfl
      | true =>
        rw [hasArms_congr hkind] at hs
        rw [← head_count ((hasArms_congr hkind).trans hs), hhead, head_count hs]
        simpa [hs] using ht
    rw [if_neg (by simp [hs]), if_neg (by simp [ht]), hhead, hkids, harms]
  · intro heq
    split at heq
    · split at heq
      · exact absurd (Shape.own_inj heq) hne
      · exact absurd heq Shape.own_ne_node
    · split at heq
      · exact absurd heq.symm Shape.own_ne_node
      · next ht =>
          obtain ⟨hhead, hkids, harms⟩ := Shape.node_inj heq
          have hkind : s.kind = t.kind := by rw [← head_kind s, hhead, head_kind]
          refine ⟨hkind, fun hs => ?_, hhead, hkids, harms⟩
          rw [hasArms_congr hkind] at hs
          simpa [hs] using ht

theorem lhatRuntimeTypeEqual_decides (h : Heap) (depth : Nat) (a b : Option Address) :
    Decides (lhatRuntimeTypeEqual h depth a b) (shape h depth a = shape h depth b) := by
  induction depth generalizing a b with
  | zero =>
    intro r hr
    unfold lhatRuntimeTypeEqual at hr
    split at hr
    · exact ⟨fun _ => rfl, fun _ => (Option.some.inj hr).symm⟩
    · cases hr
  | succ depth ih =>
    intro r hr
    unfold lhatRuntimeTypeEqual at hr
    split at hr
    · next heq => simp [← Option.some.inj hr, heq]
    · next hne =>
        cases ha : h.descriptor a with
        | none => simp [ha] at hr
        | some s =>
          cases hb : h.descriptor b with
          | none => simp [ha, hb] at hr
          | some t =>
            simp only [ha, hb] at hr
            rw [← shape_eq_iff hne ha hb, ← not_not (a := s.kind = t.kind)]
            exact Decides.guard (fun hkind => descriptorsEqual_decides ih h.scratch s t
              (not_not.1 hkind)) r hr

end Lhat
