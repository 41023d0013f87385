import Lhat.Json.Levels

/-!
# What the tables hold

What is read makes tables, each element put at its position and each member under its key.
What is made of a text holds what was written, but for a table with a declared seat beside
its sequence, which is written as an object.
-/

namespace Lhat.Json

open Lexing (Text)
open Lton (Scalar Datum scalarOf Contains isWalked isValued position)

variable {n : Nat} {t : LhatTable} {value : LhatValue} {sorted : List Member}
  {walked : List LhatTableEntry}

section Made

variable {α : Type} [DecidableEq α]

/-- What is kept of what is read: a `null` is not put. -/
def kept (nil : α) (entries : List (Scalar × α)) : List (Option Scalar × α) :=
  (entries.filter fun entry => entry.2 ≠ nil).map fun entry => (some entry.1, entry.2)

end Made

/-- The table that a tree makes of what `inner` makes: each element is put at its position,
and each member under its key. -/
def denoteTable (n : Nat) (inner : Parsed → Option (Datum n)) : Parsed → Option (Datum (n + 1))
  | .array elements =>
    (elements.mapM inner).bind fun made =>
      (Lton.build (Datum.nil n) 0 SequenceMap.empty
        (kept (Datum.nil n) (made.zipIdx.map fun indexed => (position indexed.2, indexed.1)))).map
          .inr
  | .object pairs =>
    (pairs.mapM fun pair => (inner pair.2).map fun datum => (Scalar.string pair.1, datum)).bind
      fun made => (Lton.build (Datum.nil n) 0 SequenceMap.empty (kept (Datum.nil n) made)).map .inr
  | tree => tree.scalar.map .inl

/-- What a tree makes. -/
def Parsed.denote : (n : Nat) → Parsed → Option (Datum n)
  | 0 => Parsed.scalar
  | n + 1 => denoteTable n (Parsed.denote n)

section Contents

variable (h : Heap) (store : Store)

/-- A value holds this, numbers as `lhat_value_equal` has them. -/
def ReadsBack : (n : Nat) → LhatValue → Datum n → Prop
  | 0, value, d => ∃ scalar, scalarOf h value = some scalar ∧ equalScalar scalar d
  | _ + 1, value, .inl d => ∃ scalar, scalarOf h value = some scalar ∧ equalScalar scalar d
  | n + 1, value, .inr s => ∃ o t, value = .object o ∧ h.object o = some .table ∧
      store.table o = some t ∧ Contains h isValued (ReadsBack n) t s

/-- Nothing but values under strings, or a sequence without a hole. -/
def PlainTable (t : LhatTable) : Prop :=
  (t.array ≠ [] ∧ (∀ value ∈ t.array, value ≠ .nil) ∧ t.entries.filter isValued = []) ∨
    (t.array = [] ∧ ∀ entry ∈ t.entries.filter isValued,
      ∃ o s, entry.key = .object o ∧ h.object o = some (.string s))

/-- Each table, so many tables down. -/
def AllTables (p : LhatTable → Prop) : Nat → LhatValue → Prop
  | 0, _ => True
  | n + 1, value => ∀ o t, value = .object o → h.object o = some .table → store.table o = some t →
      p t ∧ ∀ member ∈ members h t, AllTables p n member.value

/-- No declared seat stands beside a sequence. -/
def Seatless (t : LhatTable) : Prop := t.array ≠ [] → t.entryCount = 0

end Contents

section Building

variable {α : Type} [DecidableEq α] {nil : α}

theorem build_isSome {entries : List (Option Scalar × α)}
    (hentries : ∀ entry ∈ entries, ∃ key, entry.1 = some key ∧ key ≠ .nil) :
    ∀ {next : Nat} {s : SequenceMap Scalar α}, ∃ s', Lton.build nil next s entries = some s' := by
  induction entries with
  | nil => exact ⟨_, rfl⟩
  | cons entry entries ih =>
    intro next s
    obtain ⟨key, hkey, hnil⟩ := hentries entry (by simp)
    obtain ⟨name, value⟩ := entry
    obtain rfl : name = some key := hkey
    rw [Lton.build, if_neg hnil]
    exact ih fun other hother => hentries other (by simp [hother])

theorem build_positions {made : List α} :
    ∀ {next : Nat} {seq : List α}, seq.length + made.length < 2 ^ 63 →
      Lton.build nil next ⟨seq, ∅⟩
        ((made.zipIdx seq.length).map fun indexed => (some (position indexed.2), indexed.1)) =
        some ⟨seq ++ made, ∅⟩ := by
  induction made with
  | nil =>
    intro next seq _
    rw [List.append_nil]
    rfl
  | cons datum made ih =>
    intro next seq hlength
    rw [List.length_cons] at hlength
    rw [List.zipIdx_cons, List.map_cons, Lton.build, if_neg (by rintro ⟨⟩), Lton.put_element (by omega)]
    have hmore := @ih next (seq ++ [datum]) (by simp; omega)
    rwa [List.length_append, List.length_singleton, List.append_assoc, List.singleton_append]
      at hmore

theorem build_strings_seq {entries : List (Option Scalar × α)}
    (hentries : ∀ entry ∈ entries, ∃ bytes, entry.1 = some (.string bytes)) :
    ∀ {next : Nat} {s s' : SequenceMap Scalar α}, Lton.build nil next s entries = some s' →
      s'.seq = s.seq := by
  induction entries with
  | nil =>
    intro next s s' hbuild
    cases hbuild
    rfl
  | cons entry entries ih =>
    intro next s s' hbuild
    obtain ⟨bytes, hkey⟩ := hentries entry (by simp)
    obtain ⟨name, value⟩ := entry
    obtain rfl : name = some (.string bytes) := hkey
    rw [Lton.build, if_neg (by rintro ⟨⟩)] at hbuild
    rw [ih (fun other hother => hentries other (by simp [hother])) hbuild]
    have hindex : s.index position (.string bytes) = none := Lton.index_fresh (by rintro _ _ ⟨⟩)
    unfold Lton.put SequenceMap.set
    have hplace : Lton.placeOf s.seq.length (.string bytes) = .string bytes := rfl
    rw [hplace, hindex]
    simp only
    rw [if_neg (by rintro ⟨⟩)]
    split <;> rfl

end Building

section Denotes

variable {h : Heap} {store : Store}

variable (h store) in
/-- What the tree makes that mirrors a value. -/
def Denotes (n : Nat) (value : LhatValue) (d : Datum n) : Prop :=
  ∃ tree, Mirrors h store n value tree ∧ tree.denote n = some d

theorem equalScalar_nil {x y : Scalar} (hxy : equalScalar x y) : x = .nil ↔ y = .nil := by
  cases x <;> cases y <;> simp_all [equalScalar]

theorem denote_scalar {tree : Parsed} {back : Scalar} (hback : tree.scalar = some back) (n : Nat) :
    tree.denote (n + 1) = some (.inl back) := by
  cases tree with
  | array => cases hback
  | object => cases hback
  | _ => exact congrArg (Option.map Sum.inl) hback

/-- A table that a tree makes. -/
inductive MadeTable (h : Heap) (store : Store) (n : Nat) (t : LhatTable)
    (s : SequenceMap Scalar (Datum n)) : Prop
  | array {made : List (Datum n)} : t.entryCount = 0 → t.array ≠ [] →
      List.Forall₂ (Denotes h store n) t.array made →
      Lton.build (Datum.nil n) 0 SequenceMap.empty
        (kept (Datum.nil n) (made.zipIdx.map fun indexed => (position indexed.2, indexed.1))) = some s →
      MadeTable h store n t s
  | object {sorted : List Member} {made : List (Scalar × Datum n)} :
      ¬(t.entryCount = 0 ∧ 0 < t.array.length) → sorted.Perm (members h t) →
      List.Forall₂ (fun member pair => Named h member ∧ pair.1 = .string member.text ∧
        Denotes h store n member.value pair.2) sorted made →
      Lton.build (Datum.nil n) 0 SequenceMap.empty (kept (Datum.nil n) made) = some s →
      MadeTable h store n t s

theorem denoteTable_array {inner : Parsed → Option (Datum n)} {elements : List Parsed}
    {made : List (Datum n)} {s : SequenceMap Scalar (Datum n)} (hmade : elements.mapM inner = some made)
    (hbuild : Lton.build (Datum.nil n) 0 SequenceMap.empty
      (kept (Datum.nil n) (made.zipIdx.map fun indexed => (position indexed.2, indexed.1))) = some s) :
    denoteTable n inner (.array elements) = some (.inr s) := by
  show (elements.mapM inner).bind _ = _
  rw [hmade, Option.bind_some, hbuild]
  rfl

theorem denoteTable_object {inner : Parsed → Option (Datum n)}
    {pairs : List (Text × Parsed)} {made : List (Scalar × Datum n)}
    {s : SequenceMap Scalar (Datum n)}
    (hmade : (pairs.mapM fun pair => (inner pair.2).map fun datum => (Scalar.string pair.1, datum)) =
      some made)
    (hbuild : Lton.build (Datum.nil n) 0 SequenceMap.empty (kept (Datum.nil n) made) = some s) :
    denoteTable n inner (.object pairs) = some (.inr s) := by
  show Option.bind (pairs.mapM _) _ = _
  rw [hmade, Option.bind_some, hbuild]
  rfl

theorem exists_madeTable {tree : Parsed}
    (hinner : ∀ value tree, Mirrors h store n value tree → ∃ d, tree.denote n = some d)
    (hmirrors : TableMirrors h (Mirrors h store n) t tree) :
    ∃ s, tree.denote (n + 1) = some (.inr s) ∧ MadeTable h store n t s := by
  cases hmirrors with
  | @array elements hcount hsome helements =>
    have hbeside : ∀ value ∈ t.array, ∀ tree ∈ elements, Mirrors h store n value tree →
        ∃ d, tree.denote n = some d ∧ Denotes h store n value d := by
      intro value _ tree _ hone
      obtain ⟨d, hd⟩ := hinner value tree hone
      exact ⟨d, hd, tree, hone, hd⟩
    obtain ⟨made, hmade, hdenotes⟩ := Lton.exists_beside helements hbeside
    obtain ⟨s, hbuild⟩ := @build_isSome _ _ (Datum.nil n)
      (kept (Datum.nil n) (made.zipIdx.map fun indexed => (position indexed.2, indexed.1))) (by
        intro entry hentry
        obtain ⟨pair, hpair, rfl⟩ := List.mem_map.1 hentry
        obtain ⟨indexed, -, rfl⟩ := List.mem_map.1 (List.mem_filter.1 hpair).1
        exact ⟨_, rfl, nofun⟩) 0 SequenceMap.empty
    exact ⟨s, denoteTable_array (Lton.mapM_of_forall₂ hmade) hbuild,
      .array hcount hsome hdenotes hbuild⟩
  | @object sorted read hnot hperm hread =>
    have hbeside : ∀ member ∈ sorted, ∀ pair ∈ read, (Named h member ∧ member.text = pair.1 ∧
        Mirrors h store n member.value pair.2) → ∃ made : Scalar × Datum n,
          (pair.2.denote n).map (fun datum => (Scalar.string pair.1, datum)) = some made ∧
          (Named h member ∧ made.1 = .string member.text ∧
            Denotes h store n member.value made.2) := by
      rintro member - pair - ⟨hnamed, htext, hone⟩
      obtain ⟨d, hd⟩ := hinner _ _ hone
      refine ⟨(.string pair.1, d), ?_, hnamed, by rw [htext], pair.2, hone, hd⟩
      rw [hd]
      rfl
    obtain ⟨made, hmade, hdenotes⟩ := Lton.exists_beside hread hbeside
    obtain ⟨s, hbuild⟩ := @build_isSome _ _ (Datum.nil n) (kept (Datum.nil n) made) (by
        intro entry hentry
        obtain ⟨pair, hpair, rfl⟩ := List.mem_map.1 hentry
        obtain ⟨member, -, -, hkey, -⟩ :=
          Lton.mem_beside hdenotes (List.mem_filter.1 hpair).1
        exact ⟨_, rfl, by rw [hkey]; exact nofun⟩) 0 SequenceMap.empty
    exact ⟨s, denoteTable_object (Lton.mapM_of_forall₂ hmade) hbuild,
      .object hnot hperm hdenotes hbuild⟩

theorem Mirrors.exists_denote : ∀ value tree, Mirrors h store n value tree →
    ∃ d, tree.denote n = some d := by
  induction n with
  | zero =>
    rintro value tree ⟨scalar, back, -, hback, -⟩
    exact ⟨back, hback⟩
  | succ n ih =>
    rintro value tree (⟨scalar, back, -, hback, -⟩ | ⟨o, t, -, -, -, hmirrors⟩)
    · exact ⟨.inl back, denote_scalar hback n⟩
    · obtain ⟨s, hs, -⟩ := exists_madeTable ih hmirrors
      exact ⟨.inr s, hs⟩

theorem Denotes.cases {d : Datum (n + 1)} (hd : Denotes h store (n + 1) value d) :
    (∃ scalar back, scalarOf h value = some scalar ∧ equalScalar scalar back ∧ d = .inl back) ∨
      ∃ o t s, value = .object o ∧ h.object o = some .table ∧ store.table o = some t ∧
        d = .inr s ∧ MadeTable h store n t s := by
  obtain ⟨tree, ⟨scalar, back, hscalar, hback, hequal⟩ | ⟨o, t, rfl, hobject, ht, hmirrors⟩, hd⟩ := hd
  · rw [denote_scalar hback n] at hd
    exact .inl ⟨scalar, back, hscalar, hequal, (Option.some.inj hd).symm⟩
  · obtain ⟨s, hs, hmade⟩ := exists_madeTable Mirrors.exists_denote hmirrors
    rw [hs] at hd
    exact .inr ⟨o, t, s, rfl, hobject, ht, (Option.some.inj hd).symm, hmade⟩

theorem Denotes.nil_iff {d : Datum n} (hd : Denotes h store n value d) :
    d = Datum.nil n ↔ value = .nil := by
  cases n with
  | zero =>
    obtain ⟨tree, ⟨scalar, back, hscalar, hback, hequal⟩, hmade⟩ := hd
    obtain rfl : back = d := Option.some.inj (hback.symm.trans hmade)
    rw [← Lton.scalarOf_nil (h := h), hscalar, Option.some.injEq]
    exact (equalScalar_nil hequal).symm
  | succ n =>
    obtain ⟨scalar, back, hscalar, hequal, rfl⟩ | ⟨o, t, s, rfl, -, -, rfl, -⟩ := hd.cases
    · rw [← Lton.scalarOf_nil (h := h), hscalar, Option.some.injEq]
      exact Sum.inl_injective.eq_iff.trans (equalScalar_nil hequal).symm
    · exact ⟨nofun, nofun⟩

/-! ### Both ways -/

theorem allTables_table {p : LhatTable → Prop} {o : Address}
    (hobject : h.object o = some .table) (ht : store.table o = some t) :
    AllTables h store p (n + 1) (.object o) ↔
      p t ∧ ∀ member ∈ members h t, AllTables h store p n member.value := by
  constructor
  · exact fun hall => hall o t rfl hobject ht
  · intro hall o' t' ho _ ht'
    cases ho
    obtain rfl : t = t' := Option.some.inj (ht.symm.trans ht')
    exact hall

theorem allTables_scalar {p : LhatTable → Prop} {scalar : Scalar}
    (hscalar : scalarOf h value = some scalar) (n : Nat) : AllTables h store p n value := by
  cases n with
  | zero => trivial
  | succ n =>
    rintro o t rfl hobject -
    obtain ⟨s, hs, -⟩ := Lton.scalarOf_object hscalar
    rw [hs] at hobject
    cases hobject

theorem filter_isValued_eq_nil (hw : t.Wf h) (hcount : t.entryCount = 0) :
    t.entries.filter isValued = [] := by
  have hwalked := List.filter_eq_nil_iff.1 (filter_isWalked_eq_nil hw hcount)
  refine List.filter_eq_nil_iff.2 fun entry hentry hvalued => hwalked entry hentry ?_
  unfold isValued at hvalued
  unfold isWalked
  exact (Bool.and_eq_true_iff.1 hvalued).1

theorem kept_of_forall {α : Type} [DecidableEq α] {nil : α} {entries : List (Scalar × α)}
    (hentries : ∀ entry ∈ entries, entry.2 ≠ nil) :
    kept nil entries = entries.map fun entry => (some entry.1, entry.2) := by
  rw [kept, List.filter_eq_self.2 (by simpa using hentries)]

section Iff

variable {n : Nat} {t : LhatTable} {s : SequenceMap Scalar (Datum n)}

theorem contains_array_iff (hw : t.Wf h) {made : List (Datum n)} (hcount : t.entryCount = 0)
    (hholes : ∀ value ∈ t.array, value ≠ .nil)
    (hmade : List.Forall₂ (Denotes h store n) t.array made)
    (hbuild : Lton.build (Datum.nil n) 0 SequenceMap.empty
      (kept (Datum.nil n) (made.zipIdx.map fun indexed => (position indexed.2, indexed.1))) = some s) :
    Contains h isValued (ReadsBack h store n) t s ↔
      List.Forall₂ (ReadsBack h store n) t.array made := by
  have hsome : ∀ entry ∈ made.zipIdx.map fun indexed => (position indexed.2, indexed.1),
      entry.2 ≠ Datum.nil n := by
    intro entry hentry
    obtain ⟨indexed, hindexed, rfl⟩ := List.mem_map.1 hentry
    obtain ⟨value, hvalue, hdenotes⟩ := Lton.mem_beside hmade (List.fst_mem_of_mem_zipIdx hindexed)
    exact fun hnil => hholes value hvalue (hdenotes.nil_iff.1 hnil)
  have hlength : made.length < 2 ^ 63 := by
    have := hw.bounded
    have := hw.dense
    rw [← hmade.length_eq]
    omega
  rw [kept_of_forall hsome, List.map_map] at hbuild
  have hall := @build_positions _ _ (Datum.nil n) made 0 [] (by simpa using hlength)
  obtain rfl : (⟨[] ++ made, ∅⟩ : SequenceMap Scalar (Datum n)) = s :=
    Option.some.inj (hall.symm.trans hbuild)
  constructor
  · exact fun hcontains => hcontains.seq
  · refine fun hseq => ⟨hseq, [], .refl _, ?_⟩
    rw [filter_isValued_eq_nil hw hcount]
    exact .nil

/-- An entry and what is read under its name. -/
structure Beside (h : Heap) (store : Store) (n : Nat) (entry : LhatTableEntry)
    (pair : Scalar × Datum n) : Prop where
  named : Named h (nameKey h entry.key entry.value)
  key : pair.1 = .string (nameKey h entry.key entry.value).text
  denotes : Denotes h store n entry.value pair.2

theorem exists_walked (harray : t.array = []) {made : List (Scalar × Datum n)}
    (hperm : sorted.Perm (members h t))
    (hmade : List.Forall₂ (fun member pair => Named h member ∧ pair.1 = .string member.text ∧
      Denotes h store n member.value pair.2) sorted made) :
    ∃ walked, walked.Perm (t.entries.filter isWalked) ∧
      List.Forall₂ (Beside h store n) walked made := by
  have hmembers : members h t =
      (t.entries.filter isWalked).map fun entry => nameKey h entry.key entry.value := by
    rw [members, harray]
    rfl
  rw [hmembers] at hperm
  have hsame : List.Forall₂ (fun entry member => member = nameKey h entry.key entry.value)
      (t.entries.filter isWalked)
      ((t.entries.filter isWalked).map fun entry => nameKey h entry.key entry.value) := by
    rw [List.forall₂_map_right_iff]
    exact List.forall₂_same.2 fun _ _ => rfl
  obtain ⟨walked, hwalked, hnames⟩ := Lton.forall₂_reorder hsame hperm
  refine ⟨walked, hwalked, (Lton.forall₂_both hnames.flip hmade).imp ?_⟩
  rintro entry pair ⟨member, rfl, hnamed, hkey, hdenotes⟩
  exact ⟨hnamed, hkey, hdenotes⟩

theorem exists_valued (also : LhatTableEntry → Scalar × Datum n → Prop)
    (hkeys : ∀ entry ∈ t.entries.filter isValued,
      ∃ o s, entry.key = .object o ∧ h.object o = some (.string s)) {made : List (Scalar × Datum n)}
    (hperm : walked.Perm (t.entries.filter isWalked))
    (hmade : List.Forall₂ (fun entry pair => Beside h store n entry pair ∧ also entry pair)
      walked made) :
    ∃ pairs, pairs.Perm (made.filter fun pair => pair.2 ≠ Datum.nil n) ∧
      List.Forall₂ (fun entry pair => scalarOf h entry.key = some pair.1 ∧ entry.value ≠ .nil ∧
        also entry pair) (t.entries.filter isValued) pairs := by
  have hvalued : (t.entries.filter isValued).Perm
      (walked.filter fun entry => !entry.value.isNil) := by
    have := (hperm.filter fun entry => !entry.value.isNil).symm
    rw [List.filter_filter] at this
    refine (List.Perm.of_eq (List.filter_congr fun entry _ => ?_)).trans this
    exact Bool.and_comm _ _
  have hfilter := List.rel_filter (p := fun entry : LhatTableEntry => !entry.value.isNil)
    (q := fun pair : Scalar × Datum n => pair.2 ≠ Datum.nil n) (fun entry pair hpair => by
      simpa using not_congr hpair.1.denotes.nil_iff.symm) hmade
  obtain ⟨pairs, hpairs, hperm'⟩ := List.perm_comp_forall₂ hvalued hfilter
  refine ⟨pairs, hperm', forall₂_imp_mem hpairs ?_⟩
  rintro entry hentry pair - ⟨hbeside, halso⟩
  obtain ⟨o, s, hkey, hobject⟩ := hkeys entry hentry
  have hvalue : entry.value ≠ .nil := by
    have := (List.mem_filter.1 hentry).2
    unfold isValued at this
    simp only [Bool.and_eq_true, Bool.not_eq_true'] at this
    intro hnil
    rw [hnil] at this
    cases this.2
  refine ⟨?_, hvalue, halso⟩
  rw [hbeside.key, hkey]
  simp [scalarOf, nameKey, hobject]

theorem build_members (hw : t.Wf h) (hkeys : ∀ entry ∈ t.entries.filter isValued,
      ∃ o s, entry.key = .object o ∧ h.object o = some (.string s)) {made : List (Scalar × Datum n)}
    (hperm : walked.Perm (t.entries.filter isWalked))
    (hmade : List.Forall₂ (Beside h store n) walked made)
    (hbuild : Lton.build (Datum.nil n) 0 SequenceMap.empty (kept (Datum.nil n) made) = some s) :
    s.seq = [] ∧ s.rest.entries.Perm ((made.filter fun pair => pair.2 ≠ Datum.nil n).map
      fun pair => (⟨pair.1, pair.2⟩ : (_ : Scalar) × Datum n)) := by
  obtain ⟨pairs, hpairs, hvalued⟩ := exists_valued (fun _ _ => True) hkeys hperm
    (hmade.imp fun _ _ hone => ⟨hone, trivial⟩)
  have hkeyed : Lton.Keyed pairs := Lton.keyed_shown hw isValued (fun entry hentry => by
    unfold isValued at hentry
    simp only [Bool.and_eq_true, Bool.not_eq_true'] at hentry
    intro hnil
    rw [hnil] at hentry
    cases hentry.1) (hvalued.imp fun _ _ hone => hone.1)
  have hnodup : ((made.filter fun pair => pair.2 ≠ Datum.nil n).map Prod.fst).Nodup :=
    (hpairs.map Prod.fst).nodup_iff.1 hkeyed.nodup
  obtain ⟨s', hs', hseq, hrest⟩ := @Lton.build_entries _ _ (Datum.nil n)
    (made.filter fun pair => pair.2 ≠ Datum.nil n) 0 SequenceMap.empty hnodup (by
      intro pair hpair
      obtain ⟨entry, -, hbeside⟩ := Lton.mem_beside hmade (List.mem_filter.1 hpair).1
      rw [hbeside.key]
      exact ⟨nofun, rfl, fun _ _ => nofun, AList.notMem_empty _⟩)
  obtain rfl : s' = s := Option.some.inj (hs'.symm.trans hbuild)
  refine ⟨hseq, hrest.trans ?_⟩
  rw [List.filter_filter]
  simp only [Bool.and_self]
  rw [show (SequenceMap.empty : SequenceMap Scalar (Datum n)).rest.entries = [] from rfl,
    List.append_nil]

theorem contains_object_iff (hw : t.Wf h) (harray : t.array = [])
    (hkeys : ∀ entry ∈ t.entries.filter isValued,
      ∃ o s, entry.key = .object o ∧ h.object o = some (.string s)) {made : List (Scalar × Datum n)}
    (hperm : walked.Perm (t.entries.filter isWalked))
    (hmade : List.Forall₂ (Beside h store n) walked made)
    (hbuild : Lton.build (Datum.nil n) 0 SequenceMap.empty (kept (Datum.nil n) made) = some s) :
    Contains h isValued (ReadsBack h store n) t s ↔
      List.Forall₂ (fun entry pair => entry.value ≠ .nil → ReadsBack h store n entry.value pair.2)
        walked made := by
  obtain ⟨hseq, hrest⟩ := build_members hw hkeys hperm hmade hbuild
  constructor
  · rintro ⟨-, pairs, hpairs, hvalued⟩
    refine forall₂_imp_mem hmade fun entry hentry pair hpair hbeside hvalue => ?_
    have hmem : entry ∈ t.entries.filter isValued := by
      have hwalked := List.mem_filter.1 (hperm.mem_iff.1 hentry)
      refine List.mem_filter.2 ⟨hwalked.1, ?_⟩
      unfold isValued
      rw [Bool.and_eq_true]
      refine ⟨hwalked.2, ?_⟩
      cases hnil : entry.value <;> simp_all
    obtain ⟨held, hheld, hkey, hreads⟩ := Lton.mem_beside hvalued.flip hmem
    obtain ⟨o, string, hname, hobject⟩ := hkeys entry hmem
    have hpair' : (⟨pair.1, pair.2⟩ : (_ : Scalar) × Datum n) ∈ s.rest.entries := by
      refine hrest.mem_iff.2 (List.mem_map.2 ⟨pair, List.mem_filter.2 ⟨hpair, ?_⟩, rfl⟩)
      simpa using fun hnil => hvalue (hbeside.denotes.nil_iff.1 hnil)
    have hsame : held.1 = pair.1 := by
      rw [hbeside.key, hname]
      rw [hname] at hkey
      simpa [scalarOf, nameKey, hobject] using hkey.symm
    have := s.rest.nodupKeys.eq_of_fst_eq (hpairs.mem_iff.1 hheld) hpair' hsame
    rw [this] at hreads
    exact hreads
  · intro hread
    obtain ⟨pairs, hpairs, hvalued⟩ := exists_valued
      (fun entry pair => entry.value ≠ .nil → ReadsBack h store n entry.value pair.2) hkeys hperm
      (forall₂_conj hmade hread)
    refine ⟨?_, pairs.map fun pair => ⟨pair.1, pair.2⟩, (hpairs.map _).trans hrest.symm, ?_⟩
    · rw [harray, hseq]
      exact .nil
    · rw [List.forall₂_map_right_iff]
      exact hvalued.imp fun _ _ hone => ⟨hone.1, hone.2.2 hone.2.1⟩

end Iff

theorem readsBack_table {o : Address} {s : SequenceMap Scalar (Datum n)}
    (hobject : h.object o = some .table) (ht : store.table o = some t) :
    ReadsBack h store (n + 1) (.object o) (.inr s) ↔
      Contains h isValued (ReadsBack h store n) t s := by
  constructor
  · rintro ⟨o', t', ho, -, ht', hcontains⟩
    cases ho
    obtain rfl : t = t' := Option.some.inj (ht.symm.trans ht')
    exact hcontains
  · exact fun hcontains => ⟨o, t, rfl, hobject, ht, hcontains⟩

section Inner

variable {n : Nat}

/-- What is made of a value is read back where no seat is in the way. -/
def ReadsWhole (h : Heap) (store : Store) (n : Nat) : Prop :=
  ∀ value (d : Datum n), Denotes h store n value d → AllTables h store (PlainTable h) n value →
    (ReadsBack h store n value d ↔ AllTables h store Seatless n value)

theorem member_of_element (hvalue : value ∈ t.array) :
    ∃ member ∈ members h t, member.value = value := by
  have hmem : value ∈ (members h t).map Member.value := by
    rw [members_values]
    exact List.mem_append_left _ hvalue
  simpa using hmem

theorem readsWhole_array (hinner : ReadsWhole h store n) (hw : t.Wf h)
    {made : List (Datum n)} {s : SequenceMap Scalar (Datum n)} (hcount : t.entryCount = 0)
    (hholes : ∀ value ∈ t.array, value ≠ .nil)
    (hplain : ∀ member ∈ members h t, AllTables h store (PlainTable h) n member.value)
    (hmade : List.Forall₂ (Denotes h store n) t.array made)
    (hbuild : Lton.build (Datum.nil n) 0 SequenceMap.empty
      (kept (Datum.nil n) (made.zipIdx.map fun indexed => (position indexed.2, indexed.1))) = some s) :
    Contains h isValued (ReadsBack h store n) t s ↔
      Seatless t ∧ ∀ member ∈ members h t, AllTables h store Seatless n member.value := by
  have hvalues : (members h t).map Member.value = t.array := by
    rw [members_values, filter_isWalked_eq_nil hw hcount, List.map_nil, List.append_nil]
  rw [contains_array_iff hw hcount hholes hmade hbuild,
    forall₂_iff_forall (p := AllTables h store Seatless n) hmade fun value hvalue d hone => by
      obtain ⟨member, hmember, rfl⟩ := member_of_element (h := h) hvalue
      exact hinner _ _ hone (hplain member hmember)]
  constructor
  · intro hall
    refine ⟨fun _ => hcount, fun member hmember => hall _ ?_⟩
    rw [← hvalues]
    exact List.mem_map_of_mem hmember
  · rintro ⟨-, hall⟩ value hvalue
    obtain ⟨member, hmember, rfl⟩ := member_of_element (h := h) hvalue
    exact hall member hmember

theorem readsWhole_object (hinner : ReadsWhole h store n) (hw : t.Wf h) {made : List (Scalar × Datum n)} {s : SequenceMap Scalar (Datum n)}
    (harray : t.array = [])
    (hkeys : ∀ entry ∈ t.entries.filter isValued,
      ∃ o s, entry.key = .object o ∧ h.object o = some (.string s))
    (hplain : ∀ member ∈ members h t, AllTables h store (PlainTable h) n member.value)
    (hperm : sorted.Perm (members h t))
    (hmade : List.Forall₂ (fun member pair => Named h member ∧ pair.1 = .string member.text ∧
      Denotes h store n member.value pair.2) sorted made)
    (hbuild : Lton.build (Datum.nil n) 0 SequenceMap.empty (kept (Datum.nil n) made) = some s) :
    Contains h isValued (ReadsBack h store n) t s ↔
      Seatless t ∧ ∀ member ∈ members h t, AllTables h store Seatless n member.value := by
  obtain ⟨walked, hwalked, hbeside⟩ := exists_walked harray hperm hmade
  have hmembers : members h t =
      (t.entries.filter isWalked).map fun entry => nameKey h entry.key entry.value := by
    rw [members, harray]
    rfl
  have hmem {entry : LhatTableEntry} (hentry : entry ∈ walked) :
      nameKey h entry.key entry.value ∈ members h t := by
    rw [hmembers]
    exact List.mem_map_of_mem (hwalked.mem_iff.1 hentry)
  rw [contains_object_iff hw harray hkeys hwalked hbeside hbuild,
    forall₂_iff_forall (p := fun entry => AllTables h store Seatless n entry.value) hbeside
      fun entry hentry pair hone => by
        have hiff := hinner _ _ hone.denotes (hplain _ (hmem hentry))
        refine ⟨fun hread => ?_, fun hall _ => hiff.2 hall⟩
        by_cases hnil : entry.value = .nil
        · rw [hnil]
          exact allTables_scalar rfl n
        · exact hiff.1 (hread hnil)]
  constructor
  · refine fun hall => ⟨fun hsome => absurd harray hsome, fun member hmember => ?_⟩
    rw [hmembers] at hmember
    obtain ⟨entry, hentry, rfl⟩ := List.mem_map.1 hmember
    exact hall entry (hwalked.mem_iff.2 hentry)
  · rintro ⟨-, hall⟩ entry hentry
    exact hall _ (hmem hentry)

theorem not_contains_of_seat {made : List (Scalar × Datum n)}
    {s : SequenceMap Scalar (Datum n)} (harray : t.array ≠ [])
    (hmade : List.Forall₂ (fun member pair => Named h member ∧ pair.1 = .string member.text ∧
      Denotes h store n member.value pair.2) sorted made)
    (hbuild : Lton.build (Datum.nil n) 0 SequenceMap.empty (kept (Datum.nil n) made) = some s) :
    ¬Contains h isValued (ReadsBack h store n) t s := by
  intro hcontains
  have hseq : s.seq = [] := build_strings_seq (by
    intro entry hentry
    obtain ⟨pair, hpair, rfl⟩ := List.mem_map.1 hentry
    obtain ⟨member, -, -, hkey, -⟩ := Lton.mem_beside hmade (List.mem_filter.1 hpair).1
    exact ⟨_, congrArg some hkey⟩) hbuild
  have hlength := hcontains.seq.length_eq
  rw [hseq] at hlength
  exact harray (List.eq_nil_of_length_eq_zero hlength)

end Inner

theorem readsBack_iff (hwf : ∀ o t, store.table o = some t → t.Wf h) (n : Nat) :
    ReadsWhole h store n := by
  induction n with
  | zero =>
    rintro value d ⟨tree, ⟨scalar, back, hscalar, hback, hequal⟩, hmade⟩ -
    obtain rfl : back = d := Option.some.inj (hback.symm.trans hmade)
    exact ⟨fun _ => trivial, fun _ => ⟨scalar, hscalar, hequal⟩⟩
  | succ n ih =>
    intro value d hd hplain
    obtain ⟨scalar, back, hscalar, hequal, rfl⟩ | ⟨o, t, s, rfl, hobject, ht, rfl, hmade⟩ := hd.cases
    · exact ⟨fun _ => allTables_scalar hscalar _, fun _ => ⟨scalar, hscalar, hequal⟩⟩
    · obtain ⟨htable, hmembers⟩ := (allTables_table hobject ht).1 hplain
      rw [readsBack_table hobject ht, allTables_table hobject ht]
      cases hmade with
      | array hcount hsome hall hbuild =>
        obtain ⟨-, hholes, -⟩ | ⟨hnone, -⟩ := htable
        · exact readsWhole_array ih (hwf o t ht) hcount hholes hmembers hall hbuild
        · exact absurd hnone hsome
      | object hnot hperm hall hbuild =>
        obtain ⟨hsome, -, -⟩ | ⟨hnone, hkeys⟩ := htable
        · refine iff_of_false (not_contains_of_seat hsome hall hbuild) ?_
          rintro ⟨hseatless, -⟩
          exact hnot ⟨hseatless hsome, List.length_pos_iff.2 hsome⟩
        · exact readsWhole_object ih (hwf o t ht) hnone hkeys hmembers hperm hall hbuild

end Denotes

end Lhat.Json
