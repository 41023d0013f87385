import Lhat.Lton.RoundTrip

/-!
# The table that a text makes

The elements come back as the sequence. A keyed entry comes back under its key, unless the key is
one that is put into the sequence, and an entry with `nil^` leaves nothing.
-/

namespace Lhat.Lton

variable {k : Scalar} {t : LhatTable}

/-- No key, put where keys are put, is a position of its table or the one right past it. -/
def Apart : (n : Nat) → Datum n → Prop
  | 0, _ => True
  | _ + 1, .inl _ => True
  | n + 1, .inr s =>
    (∀ k ∈ s.rest.keys, ∀ i ≤ s.seq.length, placeOf s.seq.length k ≠ position i) ∧
      (∀ d ∈ s.seq, Apart n d) ∧ ∀ entry ∈ s.rest.entries, Apart n entry.2

/-! ### Putting -/

section Building

variable {α : Type} [DecidableEq α] {nil : α}

theorem position_inj {i j : Nat} (hi : i < 2 ^ 63) (hj : j < 2 ^ 63) (h : position i = position j) :
    i = j := by
  have htoInt := congrArg Int64.toInt (Scalar.integer.inj h)
  rw [Int64.toInt_ofNat_of_lt hi, Int64.toInt_ofNat_of_lt hj] at htoInt
  exact Int.ofNat.inj htoInt

omit [DecidableEq α] in
theorem index_fresh {s : SequenceMap Scalar α}
    (hfresh : ∀ i ≤ s.seq.length, k ≠ position i) : s.index position k = none :=
  SequenceMap.index_eq_none.mpr fun i hi => Ne.symm (hfresh i (Nat.le_of_lt hi))

theorem put_element {seq : List α} {value : α} (hlength : seq.length < 2 ^ 63) :
    put nil ⟨seq, ∅⟩ (position seq.length) value = ⟨seq ++ [value], ∅⟩ := by
  have hindex : SequenceMap.index position ⟨seq, ∅⟩ (position seq.length) = none := by
    refine SequenceMap.index_eq_none.mpr fun i hi heq => ?_
    have hi : i < seq.length := hi
    exact Nat.ne_of_lt hi (position_inj (Nat.lt_trans hi hlength) hlength heq)
  have hplace : placeOf seq.length (position seq.length) = position seq.length := rfl
  unfold put SequenceMap.set
  rw [hplace, hindex]
  dsimp only
  rw [if_pos rfl]
  exact SequenceMap.absorb_of_none (AList.lookup_eq_none.mpr (AList.notMem_empty _))

theorem build_elements {elements : List α} {entries : List (Option Scalar × α)} :
    ∀ {seq : List α}, seq.length + elements.length < 2 ^ 63 →
      build nil seq.length ⟨seq, ∅⟩ (elements.map (fun element => (none, element)) ++ entries) =
        build nil (seq ++ elements).length ⟨seq ++ elements, ∅⟩ entries := by
  induction elements with
  | nil =>
    intro seq _
    rw [List.append_nil]
    rfl
  | cons element elements ih =>
    intro seq hlength
    rw [List.length_cons] at hlength
    rw [List.map_cons, List.cons_append, build, put_element (by omega)]
    have hrest := @ih (seq ++ [element]) (by
      rw [List.length_append, List.length_singleton]
      omega)
    have hnext : (seq ++ [element]).length = seq.length + 1 := by
      rw [List.length_append, List.length_singleton]
    rw [List.append_assoc, List.singleton_append, hnext] at hrest
    exact hrest

theorem put_entry {s : SequenceMap Scalar α} {value : α}
    (hplace : placeOf s.seq.length k = k) (hfresh : ∀ i ≤ s.seq.length, k ≠ position i)
    (hmem : k ∉ s.rest) :
    (put nil s k value).seq = s.seq ∧ (put nil s k value).rest.entries =
      if value = nil then s.rest.entries else ⟨k, value⟩ :: s.rest.entries := by
  unfold put SequenceMap.set
  rw [hplace, index_fresh hfresh]
  dsimp only
  rw [if_neg (Ne.symm (hfresh _ (Nat.le_refl _)))]
  split
  · refine ⟨rfl, ?_⟩
    show List.kerase k s.rest.entries = _
    exact List.kerase_of_notMem_keys fun h => hmem (AList.mem_keys.mpr h)
  · exact ⟨rfl, AList.entries_insert_of_notMem hmem⟩

theorem build_entries {entries : List (Scalar × α)} :
    ∀ {next : Nat} {s : SequenceMap Scalar α}, (entries.map Prod.fst).Nodup →
      (∀ entry ∈ entries, entry.1 ≠ .nil ∧ placeOf s.seq.length entry.1 = entry.1 ∧
        (∀ i ≤ s.seq.length, entry.1 ≠ position i) ∧ entry.1 ∉ s.rest) →
      ∃ s', build nil next s (entries.map fun entry => (some entry.1, entry.2)) = some s' ∧
        s'.seq = s.seq ∧ s'.rest.entries.Perm
          ((entries.filter fun entry => entry.2 ≠ nil).map (fun entry => ⟨entry.1, entry.2⟩) ++
            s.rest.entries) := by
  induction entries with
  | nil => exact fun _ _ => ⟨_, rfl, rfl, .refl _⟩
  | cons entry entries ih =>
    intro next s hnodup hentries
    rw [List.map_cons, List.nodup_cons] at hnodup
    obtain ⟨hnil, hplace, hfresh, hmem⟩ := hentries entry List.mem_cons_self
    obtain ⟨hseq, hrest⟩ := @put_entry entry.1 α _ nil s entry.2 hplace hfresh hmem
    obtain ⟨s', hbuild, hseq', hperm⟩ := @ih next (put nil s entry.1 entry.2) hnodup.2 (by
      intro other hother
      obtain ⟨hnil', hplace', hfresh', hmem'⟩ := hentries other (List.mem_cons_of_mem _ hother)
      rw [hseq]
      refine ⟨hnil', hplace', hfresh', fun h => ?_⟩
      have hkeys : other.1 ∈ (put nil s entry.1 entry.2).rest.entries.keys := h
      rw [hrest] at hkeys
      split at hkeys
      · exact hmem' hkeys
      · rw [List.keys_cons] at hkeys
        obtain heq | hkeys := List.mem_cons.mp hkeys
        · exact hnodup.1 (List.mem_map.mpr ⟨other, hother, heq⟩)
        · exact hmem' hkeys)
    refine ⟨s', ?_, hseq'.trans hseq, hperm.trans ?_⟩
    · rw [List.map_cons, build, if_neg hnil]
      exact hbuild
    · rw [hrest, List.filter_cons]
      by_cases hvalue : entry.2 = nil
      · rw [if_pos hvalue, if_neg (by simpa using hvalue)]
      · rw [if_neg hvalue, if_pos (by simpa using hvalue)]
        exact List.perm_middle

end Building

/-! ### Denoting -/

section Lists

variable {α β γ : Type*} {R : α → β → Prop} {S : β → γ → Prop} {T : α → γ → Prop}

theorem mapM_of_forall₂ {f : α → Option β} {xs : List α} {ys : List β}
    (h : List.Forall₂ (fun x y => f x = some y) xs ys) : xs.mapM f = some ys := by
  induction h with
  | nil => rfl
  | cons hone _ ih =>
    rw [List.mapM_cons, hone, ih]
    rfl

theorem exists_beside {xs : List α} {ys : List β} (h : List.Forall₂ R xs ys)
    (hbeside : ∀ x ∈ xs, ∀ y ∈ ys, R x y → ∃ z, S y z ∧ T x z) :
    ∃ zs, List.Forall₂ S ys zs ∧ List.Forall₂ T xs zs := by
  induction h with
  | nil => exact ⟨[], .nil, .nil⟩
  | cons hone _ ih =>
    obtain ⟨z, hS, hT⟩ := hbeside _ List.mem_cons_self _ List.mem_cons_self hone
    obtain ⟨zs, hSs, hTs⟩ := ih fun x hx y hy =>
      hbeside x (List.mem_cons_of_mem _ hx) y (List.mem_cons_of_mem _ hy)
    exact ⟨z :: zs, .cons hS hSs, .cons hT hTs⟩

theorem mem_beside {xs : List α} {ys : List β} (h : List.Forall₂ R xs ys) {y : β} (hy : y ∈ ys) :
    ∃ x ∈ xs, R x y := by
  induction h with
  | nil => cases hy
  | cons hone _ ih =>
    obtain rfl | hy := List.mem_cons.mp hy
    · exact ⟨_, List.mem_cons_self, hone⟩
    · obtain ⟨x, hx, hxy⟩ := ih hy
      exact ⟨x, List.mem_cons_of_mem _ hx, hxy⟩

theorem forall₂_reorder {xs : List α} {ys ys' : List β} (h : List.Forall₂ R xs ys)
    (hperm : ys'.Perm ys) : ∃ xs', xs'.Perm xs ∧ List.Forall₂ R xs' ys' := by
  obtain ⟨xs', hforall, hperm'⟩ := List.perm_comp_forall₂ hperm h.flip
  exact ⟨xs', hperm', hforall.flip⟩

end Lists

section Denoting

variable {h : Heap} {store : Store}

theorem scalarOf_nil {value : LhatValue} : scalarOf h value = some .nil ↔ value = .nil := by
  constructor
  · intro hnil
    cases value with
    | nil => rfl
    | real d =>
      obtain ⟨_, hreal⟩ := scalarOf_real hnil
      cases hreal
    | object o =>
      obtain ⟨s, -, hstring⟩ := scalarOf_object hnil
      cases hstring
    | bool b => cases hnil
    | integer i => cases hnil
    | hostvalue tag => cases hnil
    | cont bits => cases hnil
    | run positions => cases hnil
  · rintro rfl
    rfl

theorem placeOf_of_apart {key : LhatValue} {count : Nat} (hkey : NormalKey key)
    (hscalar : scalarOf h key = some k) (hapart : ∀ i ≤ count, placeOf count k ≠ position i) :
    placeOf count k = k := by
  cases k with
  | real d =>
    have hwhole : lhatNumberAsWhole (.real d.1) = none := by
      cases key with
      | real e =>
        obtain ⟨_, heq⟩ := scalarOf_real hscalar
        rw [Scalar.real.inj heq]
        exact asWhole_of_normal hkey
      | object o =>
        obtain ⟨s, -, heq⟩ := scalarOf_object hscalar
        cases heq
      | nil => cases hscalar
      | bool b => cases hscalar
      | integer i => cases hscalar
      | hostvalue tag => cases hscalar
      | cont bits => cases hscalar
      | run positions => cases hscalar
    unfold placeOf at hapart ⊢
    dsimp only at hapart ⊢
    rw [hwhole] at hapart ⊢
    dsimp only at hapart ⊢
    split
    · rename_i hinside
      rw [if_pos hinside] at hapart
      exact absurd rfl (hapart d.1.floorAddHalf.toNat (by omega))
    · rfl
  | nil => rfl
  | bool b => rfl
  | integer i => rfl
  | string bytes => rfl

theorem walked_key (hw : t.Wf h) {entry : LhatTableEntry}
    (hentry : entry ∈ t.entries.filter isWalked)
    (hscalar : scalarOf h entry.key = some k) : NormalKey entry.key ∧ k ≠ .nil := by
  rw [List.mem_filter] at hentry
  have hkey : entry.key ≠ .nil := by
    have := hentry.2
    unfold isWalked at this
    simpa using this
  refine ⟨(hw.storable _ (LhatTable.mem_keys.mpr ⟨hkey, _, hentry.1, rfl⟩)).normal, ?_⟩
  rintro rfl
  exact hkey (scalarOf_nil.mp hscalar)

/-- A value is read back from the literal that its datum is written as. -/
structure Denotes (h : Heap) (store : Store) (n : Nat) (value : LhatValue) (d d' : Datum n) :
    Prop where
  denote : denote n d.literal = some d'
  holds : Holds h store isValued n value d'
  nil : d' = Datum.nil n ↔ value = .nil

/-- The entries that are walked in some order, and what is read of each where it is written in its
turn. -/
structure Made (h : Heap) (store : Store) (n : Nat) (t : LhatTable)
    (s : SequenceMap Scalar (Datum n)) (walked : List LhatTableEntry)
    (made : List (Scalar × Datum n)) : Prop where
  perm : walked.Perm (t.entries.filter isWalked)
  written : List.Forall₂ (fun entry pair => entry.1 = pair.1 ∧
    denote n entry.2.literal = some pair.2) (sortedRest s) made
  read : List.Forall₂ (fun entry pair => scalarOf h entry.key = some pair.1 ∧
    Holds h store isValued n entry.value pair.2 ∧
      (pair.2 = Datum.nil n ↔ entry.value = .nil)) walked made

theorem exists_made {n : Nat} {s : SequenceMap Scalar (Datum n)}
    (hs : Contains h isWalked (Holds h store isWalked n) t s)
    (hbelow : ∀ value, ∀ entry ∈ s.rest.entries, Holds h store isWalked n value entry.2 →
      ∃ d', Denotes h store n value entry.2 d') :
    ∃ walked made, Made h store n t s walked made := by
  obtain ⟨pairs, hperm, hpairs⟩ := hs.rest
  have hpairs' : List.Forall₂ (fun (entry : LhatTableEntry) (pair : Scalar × Datum n) =>
      scalarOf h entry.key = some pair.1 ∧ Holds h store isWalked n entry.value pair.2)
      (t.entries.filter isWalked) (pairs.map fun pair => (pair.1, pair.2)) := by
    rw [List.forall₂_map_right_iff]
    exact hpairs
  have hsorted : (sortedRest s).Perm (pairs.map fun pair => (pair.1, pair.2)) :=
    (List.mergeSort_perm _ keyLe).trans (hperm.symm.map _)
  obtain ⟨walked, hwalked, hforall⟩ := forall₂_reorder hpairs' hsorted
  have hbeside : ∀ entry ∈ walked, ∀ pair ∈ sortedRest s,
      scalarOf h entry.key = some pair.1 ∧ Holds h store isWalked n entry.value pair.2 →
      ∃ made : Scalar × Datum n, (pair.1 = made.1 ∧ denote n pair.2.literal = some made.2) ∧
        scalarOf h entry.key = some made.1 ∧ Holds h store isValued n entry.value made.2 ∧
          (made.2 = Datum.nil n ↔ entry.value = .nil) := by
    rintro entry - pair hpair ⟨hkey, hheld⟩
    have hmem : (⟨pair.1, pair.2⟩ : (_ : Scalar) × Datum n) ∈ s.rest.entries := by
      obtain ⟨_, hmem, rfl⟩ := List.mem_map.mp (hsorted.mem_iff.mp hpair)
      exact hperm.mem_iff.mp hmem
    obtain ⟨d', hd'⟩ := hbelow entry.value _ hmem hheld
    exact ⟨(pair.1, d'), ⟨rfl, hd'.denote⟩, hkey, hd'.holds, hd'.nil⟩
  obtain ⟨made, hwritten, hread⟩ := exists_beside hforall hbeside
  exact ⟨walked, made, hwalked, hwritten, hread⟩

theorem mem_keys_of_sortedRest {α : Type} {s : SequenceMap Scalar α} {entry : Scalar × α}
    (hentry : entry ∈ sortedRest s) : entry.1 ∈ s.rest.keys := by
  obtain ⟨pair, hpair, rfl⟩ :=
    List.mem_map.mp ((List.mergeSort_perm _ keyLe).mem_iff.mp hentry)
  exact List.mem_map.mpr ⟨pair, hpair, rfl⟩

theorem nodup_sortedRest {α : Type} (s : SequenceMap Scalar α) :
    ((sortedRest s).map Prod.fst).Nodup := by
  have hperm : ((sortedRest s).map Prod.fst).Perm s.rest.keys := by
    have := (List.mergeSort_perm (s.rest.entries.map fun pair => (pair.1, pair.2)) keyLe).map
      Prod.fst
    rw [List.map_map] at this
    exact this
  exact hperm.nodup_iff.mpr s.rest.nodupKeys

namespace Made

variable {n : Nat} {t : LhatTable} {s : SequenceMap Scalar (Datum n)}
  {walked : List LhatTableEntry} {made : List (Scalar × Datum n)}

theorem keys (hmade : Made h store n t s walked made) :
    made.map Prod.fst = (sortedRest s).map Prod.fst := by
  have hsame : List.Forall₂ (fun (x : Scalar × Datum n) y => x.1 = y) (sortedRest s)
      ((sortedRest s).map Prod.fst) := by
    rw [List.forall₂_map_right_iff]
    exact List.forall₂_same.mpr fun _ _ => rfl
  exact (eq_map_of_forall₂ hsame hmade.written fun _ _ _ hxy hxz => hxy.symm.trans hxz.1).symm

theorem fresh (hmade : Made h store n t s walked made) (hw : t.Wf h)
    (hkeys : ∀ k ∈ s.rest.keys, ∀ i ≤ s.seq.length, placeOf s.seq.length k ≠ position i) :
    ∀ entry ∈ made, entry.1 ≠ .nil ∧ placeOf s.seq.length entry.1 = entry.1 ∧
      (∀ i ≤ s.seq.length, entry.1 ≠ position i) ∧
      entry.1 ∉ (∅ : AList fun _ : Scalar => Datum n) := by
  intro entry hentry
  obtain ⟨held, hheld, hscalar, -⟩ := mem_beside hmade.read hentry
  obtain ⟨written, hwritten, hkey, -⟩ := mem_beside hmade.written hentry
  have hmem : entry.1 ∈ s.rest.keys := hkey ▸ mem_keys_of_sortedRest hwritten
  obtain ⟨hnormal, hnil⟩ := walked_key hw (hmade.perm.mem_iff.mp hheld) hscalar
  have hplace := placeOf_of_apart hnormal hscalar (hkeys _ hmem)
  refine ⟨hnil, hplace, fun i hi => ?_, AList.notMem_empty _⟩
  rw [← hplace]
  exact hkeys _ hmem i hi

theorem holds (hmade : Made h store n t s walked made) :
    ∃ pairs, pairs.Perm ((made.filter fun entry => entry.2 ≠ Datum.nil n).map
        fun entry => (⟨entry.1, entry.2⟩ : (_ : Scalar) × Datum n)) ∧
      List.Forall₂ (fun entry pair => scalarOf h entry.key = some pair.1 ∧
        Holds h store isValued n entry.value pair.2) (t.entries.filter isValued) pairs := by
  have hvalued : (t.entries.filter isValued).Perm
      (walked.filter fun entry => !entry.value.isNil) := by
    have := (hmade.perm.filter fun entry => !entry.value.isNil).symm
    rw [List.filter_filter] at this
    refine (List.Perm.of_eq (List.filter_congr fun entry _ => ?_)).trans this
    exact Bool.and_comm _ _
  have hfilter := List.rel_filter (p := fun entry : LhatTableEntry => !entry.value.isNil)
    (q := fun pair : Scalar × Datum n => pair.2 ≠ Datum.nil n) (fun entry pair hpair => by
      simpa using not_congr hpair.2.2.symm) hmade.read
  obtain ⟨pairs, hpairs, hperm⟩ := List.perm_comp_forall₂ hvalued hfilter
  refine ⟨pairs.map fun entry => ⟨entry.1, entry.2⟩, hperm.map _, ?_⟩
  rw [List.forall₂_map_right_iff]
  exact hpairs.imp fun _ _ hpair => ⟨hpair.1, hpair.2.1⟩

end Made

theorem exists_table {n : Nat} {s : SequenceMap Scalar (Datum n)} (hw : t.Wf h)
    (hs : Contains h isWalked (Holds h store isWalked n) t s) (hapart : Apart (n + 1) (.inr s))
    (hbelow : ∀ value (d : Datum n), Holds h store isWalked n value d → Apart n d →
      ∃ d', Denotes h store n value d d') :
    ∃ s', denote (n + 1) (Datum.literal (n + 1) (.inr s)) = some (.inr s') ∧
      Contains h isValued (Holds h store isValued n) t s' := by
  obtain ⟨hkeys, hseq, hrest⟩ := hapart
  have hbeside : ∀ value ∈ t.array, ∀ d ∈ s.seq, Holds h store isWalked n value d →
      ∃ d', denote n d.literal = some d' ∧ Holds h store isValued n value d' := by
    intro value _ d hd hheld
    obtain ⟨d', hd'⟩ := hbelow value d hheld (hseq d hd)
    exact ⟨d', hd'.denote, hd'.holds⟩
  obtain ⟨elements, helements, helements'⟩ := exists_beside hs.seq hbeside
  obtain ⟨walked, made, hmade⟩ :=
    exists_made hs fun value entry hentry hheld => hbelow value entry.2 hheld (hrest entry hentry)
  have hread : (literalEntries (Datum.literal n) s).mapM
      (fun entry => do return (entry.1, ← denote n entry.2)) =
      some (elements.map (fun element => (none, element)) ++
        made.map fun entry => (some entry.1, entry.2)) := by
    refine mapM_of_forall₂ (List.rel_append ?_ ?_)
    · rw [List.forall₂_map_left_iff, List.forall₂_map_right_iff]
      refine helements.imp fun d d' hd => ?_
      dsimp only
      rw [hd]
      rfl
    · rw [List.forall₂_map_left_iff, List.forall₂_map_right_iff]
      refine hmade.written.imp fun entry pair hpair => ?_
      dsimp only
      rw [hpair.1, hpair.2]
      rfl
  have hlength : s.seq.length = elements.length := helements.length_eq
  have hbound : elements.length < 2 ^ 63 := by
    have := hw.bounded
    have := hw.dense
    rw [← helements'.length_eq]
    omega
  have hfresh := hmade.fresh hw hkeys
  rw [hlength] at hfresh
  obtain ⟨s', hbuild, hseq', hperm⟩ := @build_entries _ _ (Datum.nil n) made elements.length
    ⟨elements, ∅⟩ (hmade.keys ▸ nodup_sortedRest s) hfresh
  have hall : build (Datum.nil n) 0 SequenceMap.empty
      (elements.map (fun element => (none, element)) ++
        made.map fun entry : Scalar × Datum n => (some entry.1, entry.2)) = some s' := by
    have := @build_elements _ _ (Datum.nil n) elements
      (made.map fun entry : Scalar × Datum n => (some entry.1, entry.2)) [] (by simpa using hbound)
    rw [List.nil_append] at this
    exact this.trans hbuild
  refine ⟨s', ?_, ⟨hseq' ▸ helements', ?_⟩⟩
  · rw [Datum.literal, denote, hread, Option.bind_eq_bind, Option.bind_some, hall]
    rfl
  · rw [AList.empty_entries, List.append_nil] at hperm
    obtain ⟨pairs, hpairs, hholds⟩ := hmade.holds
    exact ⟨pairs, hpairs.trans hperm.symm, hholds⟩

theorem exists_denotes (hwf : ∀ o t, store.table o = some t → t.Wf h) (n : Nat) :
    ∀ value (d : Datum n), Holds h store isWalked n value d → Apart n d →
      ∃ d', Denotes h store n value d d' := by
  induction n with
  | zero =>
    intro value d hd _
    have hd' : scalarOf h value = some d := hd
    refine ⟨d, rfl, hd, ?_⟩
    rw [← scalarOf_nil, hd']
    exact (Option.some_injective Scalar).eq_iff.symm
  | succ n ih =>
    rintro value (d | s) hd hapart
    · have hd' : scalarOf h value = some d := hd
      refine ⟨.inl d, rfl, hd, ?_⟩
      rw [← scalarOf_nil, hd', Option.some.injEq]
      exact Sum.inl_injective.eq_iff
    · obtain ⟨o, t, rfl, hobject, ht, hs⟩ := hd
      obtain ⟨s', hdenote, hs'⟩ := exists_table (hwf o t ht) hs hapart ih
      exact ⟨.inr s', hdenote, ⟨o, t, rfl, hobject, ht, hs'⟩, nofun, nofun⟩

end Denoting

end Lhat.Lton
