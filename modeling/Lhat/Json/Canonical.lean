import Lhat.Json.RoundTrip
import Lhat.Table.Runs

/-!
# Two tables, one text

Two tables that hold the same are written the same wherever the names of a table's members
are apart: then their order is the only one that `by_key` allows. Two members of one name
are written in the order that `qsort` leaves them in.
-/

namespace Lhat.Json

open Lexing (Text)
open Lton (isWalked isValued)

variable {t t' : LhatTable} {inner : LhatValue → LhatValue → Prop} {text : Text} {o : Address}

/-- What `qsort` leaves: the members, in order. -/
structure Sorts (qsort : List Member → List Member) : Prop where
  perm : ∀ members, (qsort members).Perm members
  sorted : ∀ members, (qsort members).Pairwise fun a b => (byKey a b).isLE = true

/-! ## The same contents -/

section Same

variable (h : Heap) (store : Store)

/-- Two tables hold the same, of the entries that are looked at. -/
structure SameContents (shown : LhatTableEntry → Bool) (inner : LhatValue → LhatValue → Prop)
    (t t' : LhatTable) : Prop where
  seq : List.Forall₂ inner t.array t'.array
  rest : ∃ entries, entries.Perm (t'.entries.filter shown) ∧
    List.Forall₂ (fun entry entry' => lhatValueEqual h entry.key entry'.key = some true ∧
      inner entry.value entry'.value) (t.entries.filter shown) entries

def IsTable (value : LhatValue) : Prop := ∃ o, value = .object o ∧ h.object o = some .table

/-- Two values are the same so many tables down: equal, and `alike`, or tables that hold the
same. -/
def Same (shown : LhatTableEntry → Bool) (alike : LhatValue → LhatValue → Prop) :
    Nat → LhatValue → LhatValue → Prop
  | 0, value, value' => value = .nil ↔ value' = .nil
  | n + 1, value, value' =>
    (¬IsTable h value ∧ ¬IsTable h value' ∧ lhatValueEqual h value value' = some true ∧
      alike value value') ∨
    ∃ o o' t t', value = .object o ∧ value' = .object o' ∧ h.object o = some .table ∧
      h.object o' = some .table ∧ store.table o = some t ∧ store.table o' = some t' ∧
      SameContents h shown (Same shown alike n) t t'

/-- What a number is spelled as. -/
def spelling (c : Numerals) : LhatValue → Option (Except Failure Text)
  | .integer i => some (.ok (writeInteger i))
  | .real d => some (writeReal c d)
  | _ => none

/-- Numbers that are spelled alike. -/
def SpelledAlike (c : Numerals) (value value' : LhatValue) : Prop :=
  spelling c value = spelling c value'

/-- No two members of a table go by one name. -/
def NamesApart (t : LhatTable) : Prop := ((members h t).map Member.text).Nodup

end Same

section Equal

variable {c : Numerals} {h : Heap} {store : Store}

theorem nil_iff_of_equal {value value' : LhatValue}
    (hequal : lhatValueEqual h value value' = some true) : value = .nil ↔ value' = .nil := by
  cases value with
  | nil =>
    have : value'.isNil = true := by simpa [lhatValueEqual] using hequal
    cases value' <;> simp_all [LhatValue.isNil]
  | _ =>
    refine ⟨by rintro ⟨⟩, ?_⟩
    rintro rfl
    simp [lhatValueEqual] at hequal

theorem objects_of_equal {p : Address} (hequal : objectEqual h o p = some true) :
    (∃ s t, h.object o = some (.string s) ∧ h.object p = some (.string t) ∧ s.text = t.text) ∨
      (∀ s, h.object o ≠ some (.string s)) ∧ ∀ s, h.object p ≠ some (.string s) := by
  unfold objectEqual at hequal
  split at hequal
  · next s t hs ht =>
      refine .inl ⟨s, t, hs, ht, ?_⟩
      simp only [Option.some.injEq, Bool.or_eq_true, beq_iff_eq, lhatStringEqual_iff] at hequal
      rcases hequal with rfl | htext
      · rw [hs] at ht
        cases ht
        rfl
      · exact htext
  · next hs ht => exact .inr ⟨by simp [hs], by simp [ht]⟩
  · next hs ht => exact .inr ⟨by simp [hs], by simp [ht]⟩
  · next hs ht => exact .inr ⟨by simp [hs], by simp [ht]⟩
  · next hstring _ _ _ =>
      obtain rfl : o = p := by simpa using hequal
      have hnone : ∀ s, h.object o ≠ some (.string s) := fun s hs => hstring s s hs hs
      exact .inr ⟨hnone, hnone⟩

theorem key_of_object (o : Address) (value : LhatValue) :
    (∃ s, h.object o = some (.string s) ∧ (nameKey h (.object o) value).text = s.text ∧
        writeKey h (.object o) = writeString s.text) ∨
      (∀ s, h.object o ≠ some (.string s)) ∧ (nameKey h (.object o) value).text = [] ∧
        writeKey h (.object o) = reject .unsupported "a key that is not a string or an integer" :=
          by
  unfold nameKey writeKey
  cases hobject : h.object o with
  | none => exact .inr ⟨nofun, by simp [hobject], by simp [hobject]⟩
  | some object =>
    cases object with
    | string s => exact .inl ⟨s, rfl, by simp [hobject], by simp [hobject]⟩
    | _ => exact .inr ⟨nofun, by simp [hobject], by simp [hobject]⟩

theorem key_of_equal {key key' : LhatValue} (value value' : LhatValue) (hkey : NormalKey key)
    (hkey' : NormalKey key') (hequal : lhatValueEqual h key key' = some true) :
    (nameKey h key value).text = (nameKey h key' value').text ∧ writeKey h key = writeKey h key' :=
    by
  cases key with
  | nil =>
    obtain rfl := (nil_iff_of_equal hequal).1 rfl
    exact ⟨rfl, rfl⟩
  | bool b =>
    cases key' <;> simp [lhatValueEqual] at hequal
    exact ⟨rfl, rfl⟩
  | integer i =>
    cases key' with
    | integer j =>
      obtain rfl : i = j := by simpa [lhatValueEqual] using hequal
      exact ⟨rfl, rfl⟩
    | real d => simp [lhatValueEqual, integerEqualsReal_normal hkey'] at hequal
    | _ => simp [lhatValueEqual] at hequal
  | real d =>
    cases key' with
    | integer j => simp [lhatValueEqual, integerEqualsReal_normal hkey] at hequal
    | real e => exact ⟨rfl, rfl⟩
    | _ => simp [lhatValueEqual] at hequal
  | object o =>
    cases key' with
    | object p =>
      obtain ⟨s, t, hs, ht, htext⟩ | ⟨hnone, hnone'⟩ :=
        objects_of_equal (show objectEqual h o p = some true from hequal)
      · unfold nameKey writeKey
        simp only [hs, ht, htext, and_self]
      · obtain ⟨s, hs, -⟩ | ⟨-, hname, hwrite⟩ := key_of_object (h := h) o value
        · exact absurd hs (hnone s)
        · obtain ⟨t, ht, -⟩ | ⟨-, hname', hwrite'⟩ := key_of_object (h := h) p value'
          · exact absurd ht (hnone' t)
          · exact ⟨hname.trans hname'.symm, hwrite.trans hwrite'.symm⟩
    | _ => simp [lhatValueEqual] at hequal
  | hostvalue tag => simp [lhatValueEqual] at hequal
  | cont bits => simp [lhatValueEqual] at hequal
  | run positions => simp [lhatValueEqual] at hequal

theorem writeValue_object (htable : ¬IsTable h (.object o))
    (write : Address → Except Failure Text) :
    (∃ s, h.object o = some (.string s) ∧ writeValue c h write (.object o) = writeString s.text) ∨
      (∀ s, h.object o ≠ some (.string s)) ∧
        writeValue c h write (.object o) = reject .unsupported "a value JSON cannot carry" := by
  unfold writeValue
  cases hobject : h.object o with
  | none => exact .inr ⟨nofun, by simp only [hobject]⟩
  | some object =>
    cases object with
    | string s => exact .inl ⟨s, rfl, by simp only [hobject]⟩
    | table => exact absurd ⟨o, rfl, hobject⟩ htable
    | _ => exact .inr ⟨nofun, by simp only [hobject]⟩

theorem writeValue_of_equal {write write' : Address → Except Failure Text}
    {value value' : LhatValue} (htable : ¬IsTable h value) (htable' : ¬IsTable h value')
    (hequal : lhatValueEqual h value value' = some true) (halike : SpelledAlike c value value') :
    writeValue c h write value = writeValue c h write' value' := by
  cases value with
  | nil =>
    obtain rfl := (nil_iff_of_equal hequal).1 rfl
    rfl
  | bool b =>
    cases value' <;> simp [lhatValueEqual] at hequal
    subst hequal
    rfl
  | integer i =>
    cases value' <;> simp [lhatValueEqual] at hequal
    · exact Option.some.inj halike
    · exact Option.some.inj halike
  | real d =>
    cases value' <;> simp [lhatValueEqual] at hequal
    · exact Option.some.inj halike
    · exact Option.some.inj halike
  | object o =>
    cases value' with
    | object p =>
      obtain ⟨s, t, hs, ht, htext⟩ | ⟨hnone, hnone'⟩ :=
        objects_of_equal (show objectEqual h o p = some true from hequal)
      · simp only [writeValue, hs, ht, htext]
      · obtain ⟨s, hs, -⟩ | ⟨-, hwrite⟩ := writeValue_object (c := c) htable write
        · exact absurd hs (hnone s)
        · obtain ⟨t, ht, -⟩ | ⟨-, hwrite'⟩ := writeValue_object (c := c) htable' write'
          · exact absurd ht (hnone' t)
          · exact hwrite.trans hwrite'.symm
    | _ => simp [lhatValueEqual] at hequal
  | hostvalue tag => simp [lhatValueEqual] at hequal
  | cont bits => simp [lhatValueEqual] at hequal
  | run positions => simp [lhatValueEqual] at hequal

end Equal

/-! ## Own contents -/

section Own

variable {h : Heap} {store : Store} {alike : LhatValue → LhatValue → Prop}

theorem Same.nil_iff {shown : LhatTableEntry → Bool} {n : Nat} {value value' : LhatValue}
    (hsame : Same h store shown alike n value value') : value = .nil ↔ value' = .nil := by
  cases n with
  | zero => exact hsame
  | succ n =>
    obtain ⟨-, -, hequal, -⟩ | ⟨o, o', t, t', rfl, rfl, -⟩ := hsame
    · exact nil_iff_of_equal hequal
    · exact iff_of_false nofun nofun

theorem SameContents.own {inner' : LhatValue → LhatValue → Prop}
    (hsame : SameContents h isWalked inner t t')
    (hinner : ∀ value value', inner value value' → inner' value value')
    (hnil : ∀ value value', inner value value' → (value = .nil ↔ value' = .nil)) :
    SameContents h isValued inner' t t' where
  seq := hsame.seq.imp hinner
  rest := by
    obtain ⟨entries, hperm, hentries⟩ := hsame.rest
    have hvalued (t : LhatTable) : t.entries.filter isValued =
        (t.entries.filter isWalked).filter fun entry => !entry.value.isNil := by
      rw [List.filter_filter]
      exact List.filter_congr fun entry _ => Bool.and_comm _ _
    refine ⟨entries.filter fun entry => !entry.value.isNil, ?_, ?_⟩
    · rw [hvalued]
      exact hperm.filter _
    · rw [hvalued]
      refine (List.rel_filter (fun entry entry' hone => ?_) hentries).imp
        fun entry entry' hone => ⟨hone.1, hinner _ _ hone.2⟩
      simpa using not_congr (hnil _ _ hone.2)

theorem Same.own {n : Nat} : ∀ {value value' : LhatValue},
    Same h store isWalked alike n value value' →
    Same h store isValued (fun _ _ => True) n value value' := by
  induction n with
  | zero => exact fun hsame => hsame
  | succ n ih =>
    rintro value value' (⟨hnot, hnot', hequal, -⟩ |
      ⟨o, o', t, t', ho, ho', hobject, hobject', ht, ht', hcontents⟩)
    · exact .inl ⟨hnot, hnot', hequal, trivial⟩
    · exact .inr ⟨o, o', t, t', ho, ho', hobject, hobject', ht, ht',
        hcontents.own (fun _ _ hone => ih hone) fun _ _ hone => hone.nil_iff⟩

end Own

/-! ## One order -/

theorem sorted_unique {xs ys : List Member} (hperm : xs.Perm ys)
    (hnames : (xs.map Member.text).Nodup)
    (hxs : xs.Pairwise fun a b => (byKey a b).isLE = true)
    (hys : ys.Pairwise fun a b => (byKey a b).isLE = true) : xs = ys := by
  refine List.Perm.eq_of_pairwise (fun a b ha hb hab hba => ?_) hxs hys hperm
  have htext : a.text = b.text := by
    unfold byKey at hab hba
    rw [Lton.compareString_eq] at hab hba
    exact Std.LawfulEqCmp.eq_of_compare (Std.OrientedCmp.isLE_antisymm hab hba)
  exact List.inj_on_of_nodup_map hnames ha (hperm.mem_iff.2 hb) htext

theorem mapM_congr {α α' β : Type} {f : α → Except Failure β} {g : α' → Except Failure β}
    {xs : List α} {ys : List α'} (h : List.Forall₂ (fun x y => f x = g y) xs ys) :
    xs.mapM f = ys.mapM g := by
  induction h with
  | nil => rfl
  | cons hone _ ih => rw [List.mapM_cons, List.mapM_cons, hone, ih]

theorem forall₂_zipIdx {α β : Type} {R : α → β → Prop} {xs : List α} {ys : List β}
    (h : List.Forall₂ R xs ys) (start : Nat) :
    List.Forall₂ (fun x y => R x.1 y.1 ∧ x.2 = y.2) (xs.zipIdx start) (ys.zipIdx start) := by
  induction h generalizing start with
  | nil => exact .nil
  | cons hone _ ih => exact .cons ⟨hone, rfl⟩ (ih (start + 1))

section Sorted

variable {h : Heap} {qsort qsort' : List Member → List Member}

theorem sortedMembers_sorted (hq : Sorts qsort) (t : LhatTable) :
    (sortedMembers qsort h t).Pairwise fun a b => (byKey a b).isLE = true := by
  unfold sortedMembers
  split
  · exact hq.sorted _
  · next hfew =>
      rcases hmembers : members h t with _ | ⟨member, _ | ⟨other, more⟩⟩
      · exact .nil
      · exact List.pairwise_singleton _ _
      · rw [hmembers] at hfew
        simp at hfew

theorem sortedMembers_alike (hq : Sorts qsort) (hq' : Sorts qsort')
    {alike : Member → Member → Prop} (hnames : NamesApart h t)
    (htext : ∀ member member', alike member member' → member.text = member'.text)
    {others : List Member} (hperm : others.Perm (members h t'))
    (hall : List.Forall₂ alike (members h t) others) :
    List.Forall₂ alike (sortedMembers qsort h t) (sortedMembers qsort' h t') := by
  obtain ⟨others', hothers, hsorted⟩ := Lton.forall₂_reorder hall.flip
    (sortedMembers_perm hq.perm t)
  have htexts : (sortedMembers qsort h t).map Member.text = others'.map Member.text :=
    List.forall₂_eq_eq_eq ▸ List.forall₂_map_left_iff.2
      (List.forall₂_map_right_iff.2 (hsorted.flip.imp fun _ _ hone => htext _ _ hone))
  have hnodup : (others'.map Member.text).Nodup := by
    rw [← htexts]
    exact ((sortedMembers_perm hq.perm t).map _).nodup_iff.2 hnames
  have hpairwise : others'.Pairwise fun a b => (byKey a b).isLE = true := by
    have := (List.pairwise_map (f := Member.text)
      (R := fun a b => (Lton.compareString a b).isLE = true)).2 (sortedMembers_sorted (h := h) hq t)
    rw [htexts] at this
    exact List.pairwise_map.1 this
  obtain rfl := sorted_unique
    (hothers.trans (hperm.trans (sortedMembers_perm hq'.perm t').symm)) hnodup hpairwise
    (sortedMembers_sorted hq' t')
  exact hsorted.flip

end Sorted

/-! ## One text -/

section Tables

variable {c : Numerals} {qsort qsort' : List Member → List Member} {h : Heap} {store : Store}

theorem normal_of_walked (hw : t.Wf h) {entry : LhatTableEntry}
    (hentry : entry ∈ t.entries.filter isWalked) : NormalKey entry.key := by
  obtain ⟨hmem, hwalked⟩ := List.mem_filter.1 hentry
  refine (hw.storable _ (LhatTable.mem_keys.2 ⟨?_, entry, hmem, rfl⟩)).normal
  intro hnil
  rw [isWalked, hnil] at hwalked
  cases hwalked

theorem members_of_same (hw : t.Wf h)
    (hw' : t'.Wf h) (hsame : SameContents h isWalked inner t t') :
    ∃ others, others.Perm (members h t') ∧
      List.Forall₂ (fun member member' => member.text = member'.text ∧
        writeKey h member.key = writeKey h member'.key ∧ inner member.value member'.value)
        (members h t) others := by
  obtain ⟨entries, hperm, hentries⟩ := hsame.rest
  refine ⟨(t'.array.zipIdx.map fun p => nameKey h (.integer (Int64.ofNat p.2)) p.1) ++
    entries.map fun entry => nameKey h entry.key entry.value, ?_, ?_⟩
  · exact (List.Perm.refl _).append (hperm.map _)
  · refine List.rel_append ?_ ?_
    · rw [List.forall₂_map_left_iff, List.forall₂_map_right_iff]
      refine (forall₂_zipIdx hsame.seq 0).imp ?_
      rintro ⟨value, i⟩ ⟨value', j⟩ ⟨hinner, rfl⟩
      exact ⟨rfl, rfl, hinner⟩
    · rw [List.forall₂_map_left_iff, List.forall₂_map_right_iff]
      refine forall₂_imp_mem hentries fun entry hentry entry' hentry' hone => ?_
      obtain ⟨htext, hkey⟩ := key_of_equal entry.value entry'.value
        (normal_of_walked hw hentry) (normal_of_walked hw' (hperm.mem_iff.1 hentry')) hone.1
      exact ⟨htext, hkey, hone.2⟩

theorem entryCount_eq_length (hw : t.Wf h) : t.entryCount = (t.entries.filter isWalked).length := by
  rw [hw.counted, List.countP_eq_length_filter]
  refine congrArg List.length (List.filter_congr fun entry _ => ?_)
  unfold entryKey isWalked
  cases entry.key.isNil <;> rfl

theorem entryCount_of_same (hw : t.Wf h)
    (hw' : t'.Wf h) (hsame : SameContents h isWalked inner t t') : t.entryCount = t'.entryCount :=
    by
  obtain ⟨entries, hperm, hentries⟩ := hsame.rest
  rw [entryCount_eq_length hw, entryCount_eq_length hw', hentries.length_eq, hperm.length_eq]

theorem writeTable_of_same {left : Nat} {o' : Address} (hq : Sorts qsort) (hq' : Sorts qsort')
    (ht : store.table o = some t) (ht' : store.table o' = some t') (hw : t.Wf h) (hw' : t'.Wf h)
    (hsame : SameContents h isWalked inner t t') (hnames : NamesApart h t)
    (hinner : ∀ member ∈ members h t, ∀ value', inner member.value value' →
      writeValue c h (writeTable c qsort h store left) member.value =
        writeValue c h (writeTable c qsort' h store left) value') :
    writeTable c qsort h store (left + 1) o = writeTable c qsort' h store (left + 1) o' := by
  simp only [writeTable, ht, ht', entryCount_of_same hw hw' hsame, hsame.seq.length_eq]
  split
  · rw [mapM_congr (forall₂_imp_mem hsame.seq fun value hvalue value' _ hone => ?_)]
    obtain ⟨member, hmember, rfl⟩ := member_of_element (h := h) hvalue
    exact hinner member hmember value' hone
  · obtain ⟨others, hperm, hall⟩ := members_of_same hw hw' hsame
    have hsorted := sortedMembers_alike hq hq' hnames (fun _ _ hone => hone.1) hperm hall
    rw [mapM_congr (forall₂_imp_mem hsorted fun member hmember member' _ hone => ?_)]
    rw [writeMember, writeMember, hone.2.1,
      hinner member ((sortedMembers_perm hq.perm t).mem_iff.1 hmember) _ hone.2.2]

theorem writeValue_of_same (hq : Sorts qsort) (hq' : Sorts qsort')
    (hwf : ∀ o t, store.table o = some t → t.Wf h) (left : Nat) :
    ∀ value value', Same h store isWalked (SpelledAlike c) (left + 1) value value' →
      AllTables h store (NamesApart h) (left + 1) value →
      writeValue c h (writeTable c qsort h store left) value =
        writeValue c h (writeTable c qsort' h store left) value' := by
  induction left with
  | zero =>
    rintro value value' hsame -
    obtain ⟨hnot, hnot', hequal, halike⟩ | ⟨o, o', t, t', rfl, rfl, hobject, hobject', -⟩ := hsame
    · exact writeValue_of_equal hnot hnot' hequal halike
    · simp only [writeValue, hobject, hobject', writeTable]
  | succ left ih =>
    intro value value' hsame hnames
    obtain ⟨hnot, hnot', hequal, halike⟩ |
      ⟨o, o', t, t', rfl, rfl, hobject, hobject', ht, ht', hcontents⟩ := hsame
    · exact writeValue_of_equal hnot hnot' hequal halike
    · obtain ⟨hapart, hmembers⟩ := hnames o t rfl hobject ht
      simp only [writeValue, hobject, hobject']
      exact writeTable_of_same hq hq' ht ht' (hwf o t ht) (hwf o' t' ht') hcontents hapart
        fun member hmember value' hone => ih _ _ hone (hmembers member hmember)

end Tables

/-! ### Two orders -/

section Sample

/-- A stable sort. -/
def stable (members : List Member) : List Member :=
  members.insertionSort fun a b => (byKey a b).isLE = true

theorem stable_sorts : Sorts stable where
  perm members := List.perm_insertionSort _ _
  sorted members := by
    have htrans : IsTrans Member fun a b => (byKey a b).isLE = true := ⟨fun a b c hab hbc => by
      unfold byKey at hab hbc ⊢
      rw [Lton.compareString_eq] at hab hbc ⊢
      exact Std.TransCmp.isLE_trans hab hbc⟩
    have htotal : Std.Total fun a b : Member => (byKey a b).isLE = true := ⟨fun a b => by
      unfold byKey
      rw [Lton.compareString_eq, Lton.compareString_eq,
        (Std.OrientedOrd.eq_swap : compare b.text a.text = (compare a.text b.text).swap)]
      cases compare a.text b.text with
      | lt => exact .inl rfl
      | eq => exact .inl rfl
      | gt => exact .inr rfl⟩
    exact List.pairwise_insertionSort _ members

/-- Two tables and a string. -/
def named (text : Text) : Heap where
  object o :=
    if o = 1 ∨ o = 2 then some .table
    else if o = 3 then some (.string (lhatStringNew text)) else none
  depth := 0
  scratch _ := true
  object_null := rfl

/-- A table of two entries. -/
def setBoth (h : Heap) (first second : LhatValue × LhatValue) : Option LhatTable := do
  let one ← lhatTableSet h { grants := fun _ => true } lhatTableNew first.1 first.2
  let both ← lhatTableSet h one.memory one.table second.1 second.2
  return both.table

/-- An integer and a string, and a string and an integer. -/
def bothOrders (text : Text) : Store :=
  [(1, (setBoth (named text) (.integer 13, .bool true) (.object 3, .bool false)).getD {}),
    (2, (setBoth (named text) (.object 3, .bool false) (.integer 13, .bool true)).getD {})]

theorem setBoth_wf {h : Heap} {first second : LhatValue × LhatValue}
    (hfirst : Storable first.1) (hsecond : Storable second.1)
    (hopen : refusedKey h first.1 = false) (hopen' : refusedKey h second.1 = false)
    (htold : KeysTold h first.1 second.1) : ((setBoth h first second).getD {}).Wf h := by
  obtain ⟨one, hone, -, hw, hkeys, -⟩ := (wf_new h).set { grants := fun _ => true } hopen
    (hfirst.normal.symm ▸ ⟨hfirst, nofun⟩) first.2
  obtain ⟨both, hboth, -, hw', -⟩ := hw.set one.memory hopen'
    (hsecond.normal.symm ▸ ⟨hsecond, fun held hheld => by
      obtain hnone | rfl := hkeys held hheld
      · cases hnone
      · rw [hfirst.normal]
        exact htold⟩) second.2
  have hset : setBoth h first second = some both.table := by
    unfold setBoth
    rw [hone, Option.bind_eq_bind, Option.bind_some, hboth]
    rfl
  rw [hset]
  exact hw'

theorem bothOrders_wf (text : Text) : ∀ o t, (bothOrders text).table o = some t →
    t.Wf (named text) := by
  have hstring : Storable (.object 3) := ⟨rfl, rfl⟩
  have hnumber : Storable (.integer 13) := storable_integer 13
  have htold : KeysTold (named text) (.integer 13) (.object 3) := .integer hstring 13
  have hone := @setBoth_wf (named text) (.integer 13, .bool true) (.object 3, .bool false) hnumber
    hstring rfl rfl htold
  have htwo := @setBoth_wf (named text) (.object 3, .bool false) (.integer 13, .bool true) hstring
    hnumber rfl rfl htold.symm
  intro o t ht
  unfold bothOrders Store.table at ht
  rw [List.lookup_cons, List.lookup_cons] at ht
  split at ht
  · exact Option.some.inj ht ▸ hone
  · split at ht
    · exact Option.some.inj ht ▸ htwo
    · cases ht

/-- A table that holds the integer first, and one that holds the string first. -/
structure BothWays (text : Text) (t t' : LhatTable) : Prop where
  table : (bothOrders text).table 1 = some t
  table' : (bothOrders text).table 2 = some t'
  array : t.array = []
  array' : t'.array = []
  entries : t.entries.filter isWalked = [⟨.integer 13, .bool true⟩, ⟨.object 3, .bool false⟩]
  entries' : t'.entries.filter isWalked = [⟨.object 3, .bool false⟩, ⟨.integer 13, .bool true⟩]

theorem same_bool (h : Heap) (store : Store) {alike : LhatValue → LhatValue → Prop}
    {b : Bool} (hrefl : alike (.bool b) (.bool b)) (n : Nat) :
    Same h store isWalked alike n (.bool b) (.bool b) := by
  cases n with
  | zero => exact Iff.rfl
  | succ n => exact .inl ⟨nofun, nofun, by simp [lhatValueEqual], hrefl⟩

theorem BothWays.same (hboth : BothWays text t t')
    {alike : LhatValue → LhatValue → Prop} (hrefl : ∀ b, alike (.bool b) (.bool b)) (n : Nat) :
    Same (named text) (bothOrders text) isWalked alike n (.object 1) (.object 2) := by
  cases n with
  | zero => exact iff_of_false nofun nofun
  | succ n =>
    refine .inr ⟨1, 2, t, t', rfl, rfl, rfl, rfl, hboth.table, hboth.table', ?_, ?_⟩
    · rw [hboth.array, hboth.array']
      exact .nil
    · rw [hboth.entries, hboth.entries']
      have hequal : lhatValueEqual (named text) (.object 3) (.object 3) = some true := by
        simp [lhatValueEqual, objectEqual, named]
      exact ⟨_, .swap _ _ _, .cons ⟨rfl, same_bool _ _ (hrefl true) n⟩
        (.cons ⟨hequal, same_bool _ _ (hrefl false) n⟩ .nil)⟩

theorem exists_bothWays
    (hone : ((bothOrders text).table 1).map (fun t => (t.array, t.entries.filter isWalked)) =
      some ([], [⟨.integer 13, .bool true⟩, ⟨.object 3, .bool false⟩]))
    (htwo : ((bothOrders text).table 2).map (fun t => (t.array, t.entries.filter isWalked)) =
      some ([], [⟨.object 3, .bool false⟩, ⟨.integer 13, .bool true⟩])) :
    ∃ t t', BothWays text t t' := by
  obtain ⟨t, ht, hheld⟩ := Option.map_eq_some_iff.1 hone
  obtain ⟨t', ht', hheld'⟩ := Option.map_eq_some_iff.1 htwo
  exact ⟨t, t', ht, ht', congrArg Prod.fst hheld, congrArg Prod.fst hheld', congrArg Prod.snd hheld,
    congrArg Prod.snd hheld'⟩

theorem BothWays.apart (hboth : BothWays text t t')
    (htext : writeInteger 13 ≠ text) : NamesApart (named text) t := by
  have hmembers : (members (named text) t).map Member.text = [writeInteger 13, text] := by
    unfold members
    rw [hboth.array, show (t.entries.filter fun entry => !entry.key.isNil) = _ from hboth.entries]
    rfl
  rw [NamesApart, hmembers]
  simpa using htext

theorem BothWays.allApart (hboth : BothWays text t t') (htext : writeInteger 13 ≠ text) (n : Nat) :
    AllTables (named text) (bothOrders text) (NamesApart (named text)) n (.object 1) := by
  cases n with
  | zero => trivial
  | succ n =>
    rintro o s ⟨⟩ - hs
    obtain rfl : t = s := Option.some.inj (hboth.table.symm.trans hs)
    refine ⟨hboth.apart htext, fun member hmember => ?_⟩
    have hvalue := List.mem_map_of_mem (f := Member.value) hmember
    rw [members_values, hboth.array, hboth.entries] at hvalue
    simp only [List.nil_append, List.map_cons, List.map_nil, List.mem_cons, List.not_mem_nil,
      or_false] at hvalue
    rcases hvalue with hvalue | hvalue <;> rw [hvalue] <;> exact allTables_scalar rfl n

end Sample

end Lhat.Json
