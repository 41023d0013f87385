import Lhat.Foundation.SequenceMap
import Lhat.Lton.Order
import Lhat.Table.Invariant

/-!
# What a table holds, and its text

A datum is a scalar, or a table by what it holds: a sequence, and values under keys. `Holds` says
which datum a value is, whatever the layout of its tables. A text that `stringify` answers is the
one of the datum.
-/

namespace Lhat.Lton

open Lexing (Text ascii)

variable {scalar : Scalar} {t : LhatTable} {o : Address} {key value : LhatValue} {α : Type}
  {n : Nat} {text : Text}

/-- Data that goes so many tables deep. -/
def Datum : Nat → Type
  | 0 => Scalar
  | n + 1 => Scalar ⊕ SequenceMap Scalar (Datum n)

section Holds

variable (h : Heap) (store : Store)

/-- A table holds this, of the entries that are looked at, where its values hold what `holds`
says. -/
structure Contains {α : Type} (shown : LhatTableEntry → Bool) (holds : LhatValue → α → Prop)
    (t : LhatTable) (s : SequenceMap Scalar α) : Prop where
  seq : List.Forall₂ holds t.array s.seq
  rest : ∃ pairs, pairs.Perm s.rest.entries ∧
    List.Forall₂ (fun entry pair => scalarOf h entry.key = some pair.1 ∧ holds entry.value pair.2)
      (t.entries.filter shown) pairs

/-- The datum that a value is. -/
def Holds (shown : LhatTableEntry → Bool) : (n : Nat) → LhatValue → Datum n → Prop
  | 0, value, d => scalarOf h value = some d
  | _ + 1, value, .inl d => scalarOf h value = some d
  | n + 1, value, .inr s => ∃ o t, value = .object o ∧ h.object o = some .table ∧
      store.table o = some t ∧ Contains h shown (Holds shown n) t s

end Holds

/-- What the walkers show of a table, a declared seat with its `nil^`. -/
def isWalked (entry : LhatTableEntry) : Bool := !entry.key.isNil

/-- What is read of a table. -/
def isValued (entry : LhatTableEntry) : Bool := !entry.key.isNil && !entry.value.isNil

/-! ### Texts -/

section Texts

variable {α : Type}

/-- The entries beside the sequence, in order. -/
def sortedRest (s : SequenceMap Scalar α) : List (Scalar × α) :=
  (s.rest.entries.map fun pair => (pair.1, pair.2)).mergeSort keyLe

/-- The lines of a table. -/
def textLines (c : Printing) (value : α → Text) (depth : Nat) (s : SequenceMap Scalar α) : Text :=
  (s.seq.map fun element => line depth (value element)).flatten ++
    ((sortedRest s).map fun entry => line depth (textKey c entry.1 ++ value entry.2)).flatten

end Texts

def textDatum (c : Printing) : (n depth : Nat) → Datum n → Text
  | 0, _, d => textScalar c d
  | _ + 1, _, .inl d => textScalar c d
  | n + 1, depth, .inr s => braced depth (textLines c (textDatum c n (depth + 1)) depth s)

/-! ### Keys -/

section Keys

variable {h : Heap}

theorem scalarOf_real {d : Binary64} (hscalar : scalarOf h (.real d) = some scalar) :
    ∃ hd, scalar = .real ⟨d, hd⟩ := by
  have hscalar' : (if hd : d.isFinite = true then some (Scalar.real ⟨d, hd⟩) else none) =
      some scalar := hscalar
  split at hscalar'
  · rename_i hd
    exact ⟨hd, (Option.some.inj hscalar').symm⟩
  · cases hscalar'

theorem scalarOf_object (hscalar : scalarOf h (.object o) = some scalar) :
    ∃ s, h.object o = some (.string s) ∧ scalar = .string s.text := by
  unfold scalarOf at hscalar
  dsimp only at hscalar
  split at hscalar
  · rename_i s hs
    exact ⟨s, hs, (Option.some.inj hscalar).symm⟩
  · cases hscalar

/-- What a scalar is looked for by. -/
def Scalar.place : Scalar → KeyForm × UInt32
  | .bool b => (.bool b, if b then 1 else 0)
  | .integer i => (.integer i, fold64 i.toUInt64)
  | .real d => (.real d.1, fold64 d.1.bits)
  | .string bytes => (.bytes bytes, lhatStringHash bytes)
  | .nil => (.bool false, 0)

theorem placeForm_of_scalar (hkey : key ≠ .nil)
    (hscalar : scalarOf h key = some scalar) : placeForm h key = some scalar.place := by
  cases key with
  | nil => exact absurd rfl hkey
  | bool b =>
    cases hscalar
    rfl
  | integer i =>
    cases hscalar
    rfl
  | real d =>
    obtain ⟨hfinite, rfl⟩ := scalarOf_real hscalar
    show Option.map _ (if d.isNan then none else some (KeyForm.real d)) = _
    rw [if_neg (by rw [Binary64.isNan_of_isFinite hfinite]; decide)]
    rfl
  | object o =>
    obtain ⟨s, hs, rfl⟩ := scalarOf_object hscalar
    show some (objectForm h o, hashObject h o) = _
    unfold objectForm hashObject
    rw [hs]
    exact congrArg (fun hash => some (KeyForm.bytes s.text, hash)) s.hashed
  | hostvalue tag => cases hscalar
  | cont bits => cases hscalar
  | run positions => cases hscalar

theorem normal_of_scalar (hkey : NormalKey key)
    (hscalar : scalarOf h key = some scalar) : scalar.Normal := by
  cases key with
  | real d =>
    obtain ⟨hfinite, rfl⟩ := scalarOf_real hscalar
    intro hzero
    have hwhole := asWhole_of_scaled_zero (Binary64.isNan_of_isFinite hfinite) hzero
    rw [asWhole_of_normal hkey] at hwhole
    cases hwhole
  | object o =>
    obtain ⟨s, hs, rfl⟩ := scalarOf_object hscalar
    trivial
  | nil =>
    cases hscalar
    trivial
  | bool b =>
    cases hscalar
    trivial
  | integer i =>
    cases hscalar
    trivial
  | hostvalue tag => cases hscalar
  | cont bits => cases hscalar
  | run positions => cases hscalar

theorem keyOf_ok (hkey : keyOf h key = .ok scalar) : scalarOf h key = some scalar := by
  unfold keyOf at hkey
  split at hkey
  · cases hkey
  · split at hkey
    · cases hkey
    · cases hkey
    · rename_i hscalar
      cases hkey
      exact hscalar

theorem keyed_shown (hw : t.Wf h) (shown : LhatTableEntry → Bool)
    (hshown : ∀ entry, shown entry = true → entry.key ≠ .nil) {pairs : List (Scalar × α)}
    (hpairs : List.Forall₂ (fun entry pair => scalarOf h entry.key = some pair.1)
      (t.entries.filter shown) pairs) : Keyed pairs := by
  have hwalked : ∀ entry ∈ t.entries.filter shown, entry ∈ t.entries ∧ entry.key ≠ .nil := by
    intro entry hentry
    rw [List.mem_filter] at hentry
    exact ⟨hentry.1, hshown entry hentry.2⟩
  have hapart : (t.entries.filter shown).Pairwise fun a b => ∀ place,
      (entryView h).canonKey a = some place → (entryView h).canonKey b ≠ some place := by
    refine List.Pairwise.filter _ ?_
    by_cases hnil : t.entries = []
    · rw [hnil]
      exact .nil
    · exact (hw.placed hnil).apart
  constructor
  · rw [List.Nodup, List.pairwise_map]
    refine List.pairwise_iff_getElem.mpr fun i j hi hj hij heq => ?_
    have hlength := hpairs.length_eq
    have hone := hpairs.get (by omega : i < (t.entries.filter shown).length) hi
    have htwo := hpairs.get (by omega : j < (t.entries.filter shown).length) hj
    have hplace := List.pairwise_iff_getElem.mp hapart i j (by omega) (by omega) hij
    have hi' := hwalked _ (List.getElem_mem (by omega : i < (t.entries.filter shown).length))
    have hj' := hwalked _ (List.getElem_mem (by omega : j < (t.entries.filter shown).length))
    refine hplace (pairs[i].1.place) ?_ ?_
    · exact (OpenAddressing.SlotView.canonKey_eq_some).mpr
        ⟨_, entryKey_eq_some.mpr ⟨rfl, hi'.2⟩, placeForm_of_scalar hi'.2 hone⟩
    · rw [heq]
      exact (OpenAddressing.SlotView.canonKey_eq_some).mpr
        ⟨_, entryKey_eq_some.mpr ⟨rfl, hj'.2⟩, placeForm_of_scalar hj'.2 htwo⟩
  · intro pair hpair
    obtain ⟨i, hi, rfl⟩ := List.mem_iff_getElem.mp hpair
    have hlength := hpairs.length_eq
    have hone := hpairs.get (by omega : i < (t.entries.filter shown).length) hi
    have hi' := hwalked _ (List.getElem_mem (by omega : i < (t.entries.filter shown).length))
    have hstorable := hw.storable _ (LhatTable.mem_keys.mpr ⟨hi'.2, _, hi'.1, rfl⟩)
    exact normal_of_scalar hstorable.normal hone

theorem keyed_entries (hw : t.Wf h) {pairs : List (Scalar × α)}
    (hpairs : List.Forall₂ (fun entry pair => scalarOf h entry.key = some pair.1)
      (t.entries.filter isWalked) pairs) : Keyed pairs :=
  keyed_shown hw isWalked (fun entry hentry => by
    unfold isWalked at hentry
    simpa using hentry) hpairs

end Keys

/-! ### The text of a table -/

section Lists

variable {α β γ : Type*} {R : α → β → Prop} {S : α → γ → Prop}

theorem eq_map_of_forall₂ {xs : List α} {ys : List β} {zs : List γ} {f : γ → β}
    (h : List.Forall₂ R xs ys) (h' : List.Forall₂ S xs zs)
    (hf : ∀ x y z, R x y → S x z → y = f z) : ys = zs.map f := by
  induction h generalizing zs with
  | nil =>
    cases h'
    rfl
  | cons hone _ ih =>
    cases h' with
    | cons hone' hrest => rw [List.map_cons, hf _ _ _ hone hone', ih hrest]

theorem forall₂_both {xs : List α} {ys : List β} {zs : List γ}
    (h : List.Forall₂ R xs ys) (h' : List.Forall₂ S xs zs) :
    List.Forall₂ (fun y z => ∃ x, R x y ∧ S x z) ys zs := by
  induction h generalizing zs with
  | nil =>
    cases h'
    exact .nil
  | cons hone _ ih =>
    cases h' with
    | cons hone' hrest => exact .cons ⟨_, hone, hone'⟩ (ih hrest)

theorem exists_forall₂ {xs : List α} (h : ∀ x ∈ xs, ∃ y, R x y) : ∃ ys, List.Forall₂ R xs ys := by
  induction xs with
  | nil => exact ⟨[], .nil⟩
  | cons x xs ih =>
    obtain ⟨y, hy⟩ := h x List.mem_cons_self
    obtain ⟨ys, hys⟩ := ih fun z hz => h z (List.mem_cons_of_mem x hz)
    exact ⟨y :: ys, .cons hy hys⟩

theorem exists_of_forall₂ {xs : List α} {ys : List β} (h : List.Forall₂ R xs ys) :
    ∀ x ∈ xs, ∃ y, R x y := by
  induction h with
  | nil => exact fun _ hx => (nomatch hx)
  | cons hone _ ih =>
    intro x hx
    obtain rfl | hx := List.mem_cons.mp hx
    · exact ⟨_, hone⟩
    · exact ih x hx

end Lists

section Written

variable {c : Printing} {h : Heap} {store : Store}

/-- What is written for a value is the text of the datum that it is, and it is one. -/
def Written (c : Printing) (h : Heap) (store : Store) (n depth : Nat)
    (write : LhatValue → Except Refusal Text) : Prop :=
  ∀ value text, write value = .ok text →
    (∀ d : Datum n, Holds h store isWalked n value d → text = textDatum c n depth d) ∧
    ∃ d : Datum n, Holds h store isWalked n value d

theorem sorted_pairs {holds : LhatValue → α → Prop} (hw : t.Wf h)
    {s : SequenceMap Scalar α} {keyed : List (Scalar × LhatValue)}
    (hkeyed : List.Forall₂ (fun entry pair => scalarOf h entry.key = some pair.1 ∧
      pair.2 = entry.value) (t.entries.filter isWalked) keyed)
    (hs : Contains h isWalked holds t s) :
    List.Forall₂ (fun entry pair => entry.1 = pair.1 ∧ holds entry.2 pair.2)
      (keyed.mergeSort keyLe) (sortedRest s) := by
  obtain ⟨pairs, hperm, hpairs⟩ := hs.rest
  have hmatch : List.Forall₂ (fun (entry : Scalar × LhatValue) (pair : Scalar × α) =>
      entry.1 = pair.1 ∧ holds entry.2 pair.2) keyed (pairs.map fun pair => (pair.1, pair.2)) := by
    rw [List.forall₂_map_right_iff]
    refine (forall₂_both hkeyed hpairs).imp ?_
    rintro entry pair ⟨held, ⟨hkey, hvalue⟩, hkey', hholds⟩
    refine ⟨Option.some.inj (hkey.symm.trans hkey'), ?_⟩
    rw [hvalue]
    exact hholds
  obtain ⟨sorted, hsorted, hperm'⟩ :=
    List.perm_comp_forall₂ (List.mergeSort_perm keyed keyLe) hmatch
  have hpairsKeyed : Keyed (pairs.map fun pair => (pair.1, pair.2)) := by
    refine keyed_entries hw ?_
    rw [List.forall₂_map_right_iff]
    exact hpairs.imp fun _ _ hpair => hpair.1
  have hkeys : (keyed.mergeSort keyLe).map Prod.fst = sorted.map Prod.fst := by
    refine eq_map_of_forall₂ (f := Prod.fst) (R := fun (x : Scalar × LhatValue) y => x.1 = y)
      (S := fun x y => x.1 = y.1) ?_ (hsorted.imp fun _ _ hpair => hpair.1)
      fun x y z hxy hxz => hxy.symm.trans hxz
    rw [List.forall₂_map_right_iff]
    exact List.forall₂_same.mpr fun _ _ => rfl
  have hinOrder : sorted.Pairwise (keyLe · ·) := by
    have hpairwise := pairwise_sorted keyed
    have hall : ∀ {β : Type} (xs : List (Scalar × β)), xs.Pairwise (keyLe · ·) ↔
        (xs.map Prod.fst).Pairwise fun x y => (compareKeys x y).isLE := by
      intro β xs
      rw [List.pairwise_map]
      rfl
    rw [hall] at hpairwise ⊢
    rwa [← hkeys]
  have hsame : sorted = sortedRest s := by
    have hrest : (s.rest.entries.map fun pair => (pair.1, pair.2)).Perm sorted :=
      ((hperm'.trans (hperm.map _))).symm
    refine Keyed.eq_of_perm ⟨?_, fun pair hpair => ?_⟩
      (hrest.symm.trans (List.mergeSort_perm _ keyLe).symm) hinOrder (pairwise_sorted _)
    · exact ((hperm'.map Prod.fst).nodup_iff).mpr hpairsKeyed.nodup
    · exact hpairsKeyed.normal pair (hperm'.mem_iff.mp hpair)
  rw [← hsame]
  exact hsorted

theorem written_table {ancestors : List Address} (hw : t.Wf h) (ht : store.table o = some t)
    (hbelow : Written c h store n (ancestors.length + 1)
      (textValue c h (textTable c h store n (o :: ancestors)) (ancestors.length + 1)))
    (hok : textTable c h store (n + 1) ancestors o = .ok text) :
    (∀ s, Contains h isWalked (Holds h store isWalked n) t s →
      text = textLines c (textDatum c n (ancestors.length + 1)) ancestors.length s) ∧
    ∃ s, Contains h isWalked (Holds h store isWalked n) t s := by
  unfold textTable at hok
  rw [ht] at hok
  split at hok
  · cases hok
  dsimp only at hok
  split at hok
  · cases hok
  obtain ⟨keyed, hkeyed, hok⟩ := Answers.of_bind hok
  obtain ⟨elements, helements, hok⟩ := Answers.of_bind hok
  obtain ⟨entries, hentries, hok⟩ := Answers.of_bind hok
  cases hok
  have hkeyed : List.Forall₂ (fun entry pair => scalarOf h entry.key = some pair.1 ∧
      pair.2 = entry.value) (t.entries.filter isWalked) keyed := by
    refine (Answers.of_mapM hkeyed).imp fun entry pair hpair => ?_
    obtain ⟨key, hkey, hpair⟩ := Answers.of_bind hpair
    cases hpair
    exact ⟨keyOf_ok hkey, rfl⟩
  have helements := Answers.of_mapM helements
  have hentries := Answers.of_mapM hentries
  constructor
  · intro s hs
    unfold textLines
    congr 2
    · refine eq_map_of_forall₂ helements hs.seq fun element written d hwrite hholds => ?_
      obtain ⟨value, hvalue, hwrite⟩ := Answers.of_bind hwrite
      cases hwrite
      rw [(hbelow element value hvalue).1 d hholds]
    · refine eq_map_of_forall₂ hentries (sorted_pairs hw hkeyed hs)
        fun entry written pair hwrite hpair => ?_
      obtain ⟨value, hvalue, hwrite⟩ := Answers.of_bind hwrite
      cases hwrite
      rw [(hbelow entry.2 value hvalue).1 pair.2 hpair.2, hpair.1]
  · have hseq : ∀ element ∈ t.array, ∃ d : Datum n, Holds h store isWalked n element d := by
      intro element helement
      obtain ⟨written, hwrite⟩ := exists_of_forall₂ helements element helement
      obtain ⟨value, hvalue, -⟩ := Answers.of_bind hwrite
      exact (hbelow element value hvalue).2
    have hrest : ∀ entry ∈ t.entries.filter isWalked, ∃ pair : (_ : Scalar) × Datum n,
        scalarOf h entry.key = some pair.1 ∧ Holds h store isWalked n entry.value pair.2 := by
      intro entry hentry
      obtain ⟨i, hi, rfl⟩ := List.mem_iff_getElem.mp hentry
      have hlength := hkeyed.length_eq
      have hone := hkeyed.get hi (by omega)
      have hmem : keyed[i] ∈ keyed.mergeSort keyLe :=
        List.mem_mergeSort.mpr (List.getElem_mem (by omega))
      obtain ⟨written, hwrite⟩ := exists_of_forall₂ hentries _ hmem
      obtain ⟨value, hvalue, -⟩ := Answers.of_bind hwrite
      obtain ⟨d, hd⟩ := (hbelow _ value hvalue).2
      have hvalue' : keyed[i].2 = (t.entries.filter isWalked)[i].value := hone.2
      exact ⟨⟨_, d⟩, hone.1, hvalue' ▸ hd⟩
    obtain ⟨seq, hseq⟩ := exists_forall₂ hseq
    obtain ⟨pairs, hpairs⟩ := exists_forall₂ hrest
    have hnodup : pairs.NodupKeys := by
      have hkeyed : Keyed (pairs.map fun pair => (pair.1, pair.2)) := by
        refine keyed_entries hw ?_
        rw [List.forall₂_map_right_iff]
        exact hpairs.imp fun _ _ hpair => hpair.1
      have hkeys := hkeyed.nodup
      rw [List.map_map] at hkeys
      exact hkeys
    exact ⟨⟨seq, ⟨pairs, hnodup⟩⟩, hseq, pairs, .refl _, hpairs⟩

theorem scalar_of_holds (hscalar : scalarOf h value = some scalar) {depth : Nat} {d : Datum n}
    (hd : Holds h store isWalked n value d) : textDatum c n depth d = textScalar c scalar := by
  have hsame : ∀ {other : Scalar}, scalarOf h value = some other → other = scalar := fun hother =>
    Option.some.inj (hother.symm.trans hscalar)
  match n, d, hd with
  | 0, d, hd => exact congrArg (textScalar c) (hsame hd)
  | _ + 1, .inl d, hd => exact congrArg (textScalar c) (hsame hd)
  | _ + 1, .inr s, hd =>
    obtain ⟨o, t, rfl, hobject, -⟩ := hd
    obtain ⟨s, hs, -⟩ := scalarOf_object hscalar
    rw [hobject] at hs
    cases hs

theorem holds_scalar (hscalar : scalarOf h value = some scalar) :
    ∃ d : Datum n, Holds h store isWalked n value d := by
  match n with
  | 0 => exact ⟨scalar, hscalar⟩
  | n + 1 => exact ⟨.inl scalar, hscalar⟩

theorem textValue_cases {write : Address → Except Refusal Text} {depth : Nat} (hok : textValue c h write depth value = .ok text) :
    (∃ scalar, scalarOf h value = some scalar ∧ text = textScalar c scalar) ∨
    ∃ o lines, value = .object o ∧ h.object o = some .table ∧ write o = .ok lines ∧
      text = braced depth lines := by
  unfold textValue at hok
  split at hok
  · rename_i scalar hscalar
    cases hok
    exact .inl ⟨scalar, hscalar, rfl⟩
  · split at hok
    · cases hok
    · cases value with
      | object o =>
        dsimp only at hok
        split at hok
        · rename_i hobject
          obtain ⟨lines, hlines, hok⟩ := Answers.of_map hok
          exact .inr ⟨o, lines, rfl, hobject, hlines, hok.symm⟩
        · cases hok
      | _ => cases hok

theorem table_of_ok {left : Nat} {ancestors : List Address}
    (hok : textTable c h store left ancestors o = .ok text) :
    ∃ n t, left = n + 1 ∧ store.table o = some t := by
  cases left with
  | zero => cases hok
  | succ n =>
    unfold textTable at hok
    split at hok
    · cases hok
    · split at hok
      · cases hok
      · rename_i t ht
        exact ⟨n, t, rfl, ht⟩

theorem written_value (hwf : ∀ o t, store.table o = some t → t.Wf h) (n : Nat) :
    ∀ ancestors : List Address, Written c h store n ancestors.length
      (textValue c h (textTable c h store n ancestors) ancestors.length) := by
  induction n with
  | zero =>
    intro ancestors value text hok
    obtain ⟨scalar, hscalar, rfl⟩ | ⟨o, lines, -, -, hlines, -⟩ := textValue_cases hok
    · exact ⟨fun d hd => (scalar_of_holds hscalar hd).symm, holds_scalar hscalar⟩
    · cases hlines
  | succ n ih =>
    intro ancestors value text hok
    obtain ⟨scalar, hscalar, rfl⟩ | ⟨o, lines, rfl, hobject, hlines, rfl⟩ := textValue_cases hok
    · exact ⟨fun d hd => (scalar_of_holds hscalar hd).symm, holds_scalar hscalar⟩
    · obtain ⟨_, t, -, ht⟩ := table_of_ok hlines
      obtain ⟨hlines', s, hs⟩ := written_table (hwf o t ht) ht (ih (o :: ancestors)) hlines
      refine ⟨fun d hd => ?_, .inr s, o, t, rfl, hobject, ht, hs⟩
      match d, hd with
      | .inl d, hd =>
        obtain ⟨s, hs, -⟩ := scalarOf_object hd
        rw [hobject] at hs
        cases hs
      | .inr s, hd =>
        obtain ⟨_, t', heq, -, ht', hs⟩ := hd
        cases heq
        obtain rfl : t = t' := Option.some.inj (ht.symm.trans ht')
        exact congrArg (braced ancestors.length) (hlines' s hs)

end Written

end Lhat.Lton
