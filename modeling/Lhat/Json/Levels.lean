import Lhat.Json.Written

/-!
# How deep a text goes

A tree goes as deep as the tables it mirrors, and the levels that it does not go down to are
not asked for.
-/

namespace Lhat.Json

open Lexing (Text)
open Lton (scalarOf isWalked)

variable {s : Text} {tree : Parsed} {α β : Type} {levels : Nat}

/-- No more than so many levels. -/
def Within : Nat → Parsed → Prop
  | 0, _ => False
  | levels + 1, .array elements => ∀ element ∈ elements, Within levels element
  | levels + 1, .object members => ∀ pair ∈ members, Within levels pair.2
  | _ + 1, _ => True

section Within

variable {α : Type} {item item' : Text → α → Prop}

theorem Joined.mono_mem {all : List α} (hjoined : Joined (Padded item) s all)
    (h : ∀ s, ∀ held ∈ all, item s held → item' s held) : Joined (Padded item') s all := by
  induction hjoined with
  | one hitem =>
    obtain ⟨before, core, behind, hbefore, hbehind, hcore, rfl⟩ := hitem
    exact .one ⟨before, core, behind, hbefore, hbehind, h _ _ (by simp) hcore, rfl⟩
  | cons hitem _ ih =>
    obtain ⟨before, core, behind, hbefore, hbehind, hcore, rfl⟩ := hitem
    refine .cons ⟨before, core, behind, hbefore, hbehind, h _ _ (by simp) hcore, rfl⟩ ?_
    exact ih fun s held hheld => h s held (by simp [hheld])

theorem Bracketed.mono_mem {close : UInt8} {all : List α} (hbracketed : Bracketed item close s all)
    (h : ∀ s, ∀ held ∈ all, item s held → item' s held) : Bracketed item' close s all := by
  obtain ⟨body, rfl, hnone | hsome⟩ := hbracketed
  · exact ⟨body, rfl, .inl hnone⟩
  · exact ⟨body, rfl, .inr (hsome.mono_mem h)⟩

theorem Joined.exists_text {all : List α} (hjoined : Joined (Padded item) s all) :
    ∀ held ∈ all, ∃ core, item core held := by
  induction hjoined with
  | one hitem =>
    obtain ⟨before, core, behind, -, -, hcore, -⟩ := hitem
    intro held hheld
    obtain rfl := List.mem_singleton.1 hheld
    exact ⟨core, hcore⟩
  | cons hitem _ ih =>
    obtain ⟨before, core, behind, -, -, hcore, -⟩ := hitem
    intro held hheld
    rcases List.mem_cons.1 hheld with rfl | hheld
    · exact ⟨core, hcore⟩
    · exact ih held hheld

theorem Bracketed.exists_text {close : UInt8} {all : List α}
    (hbracketed : Bracketed item close s all) : ∀ held ∈ all, ∃ core, item core held := by
  obtain ⟨body, rfl, ⟨-, rfl⟩ | hsome⟩ := hbracketed
  · exact fun _ hheld => (nomatch hheld)
  · exact hsome.exists_text

variable {c : Numerals} {number : Text → Prop}

theorem Value.within (h : Value c number levels s tree) : Within levels tree := by
  induction levels generalizing s tree with
  | zero => exact h
  | succ levels ih =>
    cases h with
    | @word word hword =>
      rw [words_eq] at hword
      simp only [List.mem_cons, List.not_mem_nil, or_false] at hword
      rcases hword with rfl | rfl | rfl <;> exact trivial
    | number =>
      unfold numberValue
      split <;> exact trivial
    | string => exact trivial
    | array hinner =>
      intro element helement
      obtain ⟨core, hcore⟩ := hinner.exists_text element helement
      exact ih hcore
    | object hinner =>
      intro pair hpair
      obtain ⟨core, name, blank, blank', value, -, -, -, hvalue, -⟩ :=
        hinner.exists_text pair hpair
      exact ih hvalue

theorem Value.of_within {fewer : Nat} (h : Value c number levels s tree)
    (hwithin : Within fewer tree) : Value c number fewer s tree := by
  induction levels generalizing fewer s tree with
  | zero => exact h.elim
  | succ levels ih =>
    cases fewer with
    | zero => exact hwithin.elim
    | succ fewer =>
      cases h with
      | word hword => exact .word hword
      | number hnumber => exact .number hnumber
      | string hquoted => exact .string hquoted
      | array hinner =>
        refine .array (hinner.mono_mem fun s element helement hvalue => ?_)
        exact ih hvalue (hwithin element helement)
      | object hinner =>
        refine .object (hinner.mono_mem fun s pair hpair hmember => ?_)
        obtain ⟨name, blank, blank', core, hname, hblank, hblank', hvalue, rfl⟩ := hmember
        exact ⟨name, blank, blank', core, hname, hblank, hblank',
          ih hvalue (hwithin pair hpair), rfl⟩

end Within

section Reaches

variable (h : Heap) (store : Store)

/-- Something stands so many tables down. -/
def Reaches : Nat → LhatValue → Prop
  | 0, _ => True
  | levels + 1, value => ∃ o t, value = .object o ∧ h.object o = some .table ∧
      store.table o = some t ∧ ∃ member ∈ members h t, Reaches levels member.value

end Reaches

section Depth

variable {h : Heap} {store : Store}

theorem ScalarMirrors.within {value : LhatValue} (hmirrors : ScalarMirrors h value tree)
    (levels : Nat) : Within (levels + 1) tree := by
  obtain ⟨scalar, back, -, hback, -⟩ := hmirrors
  cases tree with
  | array => cases hback
  | object => cases hback
  | _ => exact trivial

theorem ScalarMirrors.not_table {o : Address}
    (hmirrors : ScalarMirrors h (.object o) tree) : h.object o ≠ some .table := by
  obtain ⟨scalar, back, hscalar, -, -⟩ := hmirrors
  obtain ⟨s, hs, -⟩ := Lton.scalarOf_object hscalar
  rw [hs]
  exact nofun

theorem filter_isWalked_eq_nil {t : LhatTable} (hw : t.Wf h) (hcount : t.entryCount = 0) :
    t.entries.filter isWalked = [] := by
  refine List.filter_eq_nil_iff.2 fun entry hentry hwalked => ?_
  have hnone := List.countP_eq_zero.1 (hw.counted.symm.trans hcount) entry hentry
  have hkey : entry.key ≠ .nil := by
    unfold isWalked at hwalked
    simpa using hwalked
  rw [entryKey_eq_some.2 ⟨rfl, hkey⟩] at hnone
  exact hnone rfl

theorem members_values (t : LhatTable) :
    (members h t).map Member.value = t.array ++ (t.entries.filter isWalked).map (·.value) := by
  have hseq : (t.array.zipIdx.map fun p =>
      (nameKey h (.integer (Int64.ofNat p.2)) p.1).value) = t.array := by
    exact List.zipIdx_map_fst 0 t.array
  rw [members, List.map_append, List.map_map, List.map_map]
  exact congrArg₂ (· ++ ·) hseq rfl

theorem reaches_table {deep : Nat} {o : Address} {t : LhatTable} (hobject : h.object o = some .table)
    (ht : store.table o = some t) :
    Reaches h store (deep + 1) (.object o) ↔ ∃ member ∈ members h t, Reaches h store deep member.value
    := by
  constructor
  · rintro ⟨o', t', ho, -, ht', hmember⟩
    cases ho
    obtain rfl : t = t' := Option.some.inj (ht.symm.trans ht')
    exact hmember
  · exact fun hmember => ⟨o, t, rfl, hobject, ht, hmember⟩

theorem forall₂_imp_mem {R S : α → β → Prop} {xs : List α} {ys : List β}
    (hall : List.Forall₂ R xs ys) (h : ∀ x ∈ xs, ∀ y ∈ ys, R x y → S x y) : List.Forall₂ S xs ys := by
  induction hall with
  | nil => exact .nil
  | cons hone _ ih =>
    exact .cons (h _ (by simp) _ (by simp) hone)
      (ih fun x hx y hy => h x (by simp [hx]) y (by simp [hy]))

theorem forall₂_conj {R S : α → β → Prop} {xs : List α} {ys : List β}
    (hone : List.Forall₂ R xs ys) (hother : List.Forall₂ S xs ys) :
    List.Forall₂ (fun x y => R x y ∧ S x y) xs ys := by
  induction hone with
  | nil => exact .nil
  | cons hx _ ih =>
    cases hother with
    | cons hy hrest => exact .cons ⟨hx, hy⟩ (ih hrest)

theorem forall₂_iff_forall {R S : α → β → Prop} {p : α → Prop} {xs : List α}
    {ys : List β} (hall : List.Forall₂ R xs ys) (h : ∀ x ∈ xs, ∀ y, R x y → (S x y ↔ p x)) :
    List.Forall₂ S xs ys ↔ ∀ x ∈ xs, p x := by
  induction hall with
  | nil => simp
  | @cons x y xs ys hone _ ih =>
    rw [List.forall₂_cons, List.forall_mem_cons, h x (by simp) y hone,
      ih fun x hx => h x (by simp [hx])]

theorem forall₂_none {R : α → β → Prop} {p : β → Prop} {q : α → Prop} {xs : List α}
    {ys : List β} (hall : List.Forall₂ R xs ys) (h : ∀ x y, R x y → (p y ↔ ¬q x)) :
    (∀ y ∈ ys, p y) ↔ ¬∃ x ∈ xs, q x := by
  induction hall with
  | nil => simp
  | @cons x y xs ys hone _ ih => simp [h x y hone, ih]

theorem Mirrors.within_iff (hwf : ∀ o t, store.table o = some t → t.Wf h) :
    ∀ {value : LhatValue} {tree : Parsed}, Mirrors h store levels value tree →
      ∀ deep, Within deep tree ↔ ¬Reaches h store deep value := by
  have hscalar {value : LhatValue} {tree : Parsed} (hmirrors : ScalarMirrors h value tree)
      (deep : Nat) : Within (deep + 1) tree ↔ ¬Reaches h store (deep + 1) value := by
    refine ⟨fun _ => ?_, fun _ => hmirrors.within deep⟩
    rintro ⟨o, t, rfl, hobject, -⟩
    exact hmirrors.not_table hobject
  have hzero (value : LhatValue) (tree : Parsed) :
      Within 0 tree ↔ ¬Reaches h store 0 value := by simp [Within, Reaches]
  induction levels with
  | zero =>
    intro value tree hmirrors deep
    cases deep with
    | zero => exact hzero value tree
    | succ deep => exact hscalar hmirrors deep
  | succ levels ih =>
    intro value tree hmirrors deep
    cases deep with
    | zero => exact hzero value tree
    | succ deep =>
      obtain hmirrors | ⟨o, t, rfl, hobject, ht, htable⟩ := hmirrors
      · exact hscalar hmirrors deep
      · rw [reaches_table hobject ht]
        cases htable with
        | array hcount _ helements =>
          have hvalues := members_values (h := h) t
          rw [filter_isWalked_eq_nil (hwf o t ht) hcount, List.map_nil, List.append_nil]
            at hvalues
          have hsame : (∃ member ∈ members h t, Reaches h store deep member.value) ↔
              ∃ value ∈ t.array, Reaches h store deep value := by
            rw [← hvalues]
            simp
          rw [hsame]
          exact forall₂_none helements fun value element hone => ih hone deep
        | @object sorted read _ hperm hread =>
          have hsame : (∃ member ∈ members h t, Reaches h store deep member.value) ↔
              ∃ member ∈ sorted, Reaches h store deep member.value :=
            exists_congr fun member => and_congr_left fun _ => hperm.mem_iff.symm
          rw [hsame]
          exact forall₂_none hread fun member pair hone => ih hone.2.2 deep

end Depth

end Lhat.Json
