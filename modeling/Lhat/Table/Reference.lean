import Lhat.Foundation.SequenceMap
import Lhat.Table.Lookup
import Mathlib

/-!
# A table is a map with a sequence in it

What a table is for, over the keys that are what they look like: a `SequenceMap`
whose keys are the forms of keys and whose positions are the whole numbers from
zero. `table_refines` runs the two side by side. They part in one way. A write
right past the end of the sequence leaves a seat that stands under that very key
where it is, and the seat comes back as an element once the sequence is cut
there; so the runs are those without such a write.
-/

namespace Lhat

open scoped Classical

/-! ### Runs of operations -/

/-- The calls that change a table. -/
inductive TableOp where
  | set (key value : LhatValue)
  | resize (length : Nat) (fill : LhatValue)
  | reserve (key : LhatValue)
  | vacate (key : LhatValue)

def TableOp.run (h : Heap) (m : Memory) (t : LhatTable) : TableOp → Option Outcome
  | .set key value => lhatTableSet h m t key value
  | .resize length fill => lhatTableResize h m t length fill
  | .reserve key => lhatTableReserve h m t key
  | .vacate key => (lhatTableVacate h t key).map fun t => { ok := true, table := t, memory := m }

def runOps (h : Heap) : Memory → LhatTable → List TableOp → Option (LhatTable × Memory)
  | m, t, [] => some (t, m)
  | m, t, op :: ops =>
    match op.run h m t with
    | none => none
    | some made => runOps h made.memory made.table ops

/-! ### The reference -/

/-- A number that is whole. -/
def Whole (d : Binary64) : Prop := ∃ n : Int, d.scaled = n * 2 ^ 1074

/-- The keys the reference is about: a bool, a whole number, and an object that is
neither a runtime type nor a box still open. -/
def Named (h : Heap) : LhatValue → Prop
  | .bool _ => True
  | .integer _ => True
  | .real d => d.isNan = false ∧ Whole d
  | .object o => ¬IsType h (.object o) ∧ isOpenBox h (.object o) = false
  | _ => False

def TableOp.Named (h : Heap) : TableOp → Prop
  | .set key _ => Lhat.Named h key
  | .resize _ _ => True
  | .reserve key => Lhat.Named h key
  | .vacate key => Lhat.Named h key

/-- The form of a key as it is written. -/
def nameOf (h : Heap) (key : LhatValue) : KeyForm :=
  (keyForm h (normaliseKey key)).getD (.bool false)

/-- The form of a position. -/
def positionForm (n : Nat) : KeyForm := .integer (Int64.ofNat n)

abbrev Reference := SequenceMap KeyForm LhatValue

noncomputable def TableOp.reference (h : Heap) (s : Reference) : TableOp → Reference
  | .set key value => s.set positionForm .nil (nameOf h key) value
  | .resize length fill => s.resize positionForm length fill
  | .reserve key => s.reserve positionForm .nil (nameOf h key)
  | .vacate key => s.vacate .nil (nameOf h key)

noncomputable def runReference (h : Heap) (ops : List TableOp) : Reference :=
  ops.foldl (fun s op => op.reference h s) SequenceMap.empty

/-! ### The runs that meet it -/

/-- No seat stands under the key of a write right past the end. -/
def TableOp.Clear (h : Heap) (t : LhatTable) : TableOp → Prop
  | .set key _ => ¬(namesNext t (normaliseKey key) = true ∧ lhatTableReserved h t key = some true)
  | _ => True

/-- Every step of the run is clear where it is made. -/
def ClearRun (h : Heap) : Memory → LhatTable → List TableOp → Prop
  | _, _, [] => True
  | m, t, op :: ops =>
    op.Clear h t ∧ ∀ made, op.run h m t = some made → ClearRun h made.memory made.table ops

/-! ### Refinement -/

/-- A form that is looked for by itself. -/
def Plain (c : KeyForm) : Prop := ∀ depth s, c ≠ .type depth s

/-- A sequence and a map of a table, read as the reference is. -/
structure Matches (h : Heap) (seq : List LhatValue) (g : KeyForm × UInt32 → Option LhatValue)
    (s : Reference) : Prop where
  seq : seq = s.seq
  rest : ∀ c, Plain c → g (c, formHash h c) = s.rest.lookup c

section Matches

variable {h : Heap} {seq : List LhatValue} {g : KeyForm × UInt32 → Option LhatValue} {s : Reference}

theorem plain_position (n : Nat) : Plain (positionForm n) := by
  intro depth s heq
  cases heq

theorem position_eq (h : Heap) (n : Nat) :
    position n = (positionForm n, formHash h (positionForm n)) := rfl

theorem Matches.at_next (hm : Matches h seq g s) :
    g (position seq.length) = s.rest.lookup (positionForm s.seq.length) := by
  rw [hm.seq, position_eq h]
  exact hm.rest _ (plain_position _)

theorem Matches.without (hm : Matches h seq g s) (c : KeyForm) {seq' : List LhatValue}
    {s' : List LhatValue} (hseq : seq' = s') :
    Matches h seq' (without g (c, formHash h c)) ⟨s', s.rest.erase c⟩ := by
  refine ⟨hseq, fun c' hc' => ?_⟩
  unfold Lhat.without
  by_cases heq : c = c'
  · subst heq
    simp
  · have hne : (c, formHash h c) ≠ (c', formHash h c') := fun h' => heq (congrArg Prod.fst h')
    rw [if_neg hne, AList.lookup_erase_ne fun h' => heq h'.symm]
    exact hm.rest c' hc'

theorem Matches.absorb {seq' : List LhatValue} {g' : KeyForm × UInt32 → Option LhatValue}
    (hm : Matches h seq g s) (habsorbs : Absorbs seq g seq' g') :
    Matches h seq' g' (s.absorb positionForm) := by
  induction habsorbs generalizing s with
  | done hnone =>
    rw [hm.at_next] at hnone
    rwa [SequenceMap.absorb_of_none hnone]
  | take hsome hrest ih =>
    rename_i seq g seq' g' value
    rw [hm.at_next] at hsome
    rw [SequenceMap.absorb_of_some hsome]
    refine ih ?_
    have := hm.without (positionForm seq.length)
      (show seq ++ [value] = s.seq ++ [value] by rw [hm.seq])
    rwa [hm.seq] at this ⊢

theorem Matches.lengthen (fill : LhatValue) (missing : Nat) (hm : Matches h seq g s) :
    Matches h (lengthened fill missing seq g).1 (lengthened fill missing seq g).2
      (s.lengthen positionForm fill missing) := by
  induction missing generalizing seq g s with
  | zero => exact hm
  | succ missing ih =>
    refine ih ?_
    have := hm.without (positionForm seq.length)
      (show seq ++ [(g (position seq.length)).getD fill] =
        s.seq ++ [(s.rest.lookup (positionForm s.seq.length)).getD fill] by
          rw [hm.at_next, hm.seq])
    rwa [hm.seq] at this ⊢

end Matches

/-! ### What a table is linked to is left alone -/

/-- What a table is besides what it holds: its links and its marks. -/
def LhatTable.links (t : LhatTable) : Address × LhatValue × Bool × Bool × Bool × Bool :=
  (t.definition, t.delegateKey, t.delegateFromSelf, t.isDefinition, t.isSealed, t.shared)

section Links

variable {h : Heap} {m m' : Memory} {t t' : LhatTable} {made : Outcome}

theorem makeEntryRoom_links (hmade : makeEntryRoom h m t = some made) :
    made.table.links = t.links := by
  unfold makeEntryRoom growEntries at hmade
  simp only at hmade
  split at hmade
  · split at hmade
    · split at hmade
      · cases hmade
      · obtain rfl := Option.some.inj hmade
        rfl
    · obtain rfl := Option.some.inj hmade
      rfl
  · obtain rfl := Option.some.inj hmade
    rfl

theorem drain_links {fuel : Nat} (hdrain : drain h fuel m t = some (t', m')) :
    t'.links = t.links := by
  induction fuel generalizing m t with
  | zero => cases hdrain
  | succ fuel ih =>
    obtain ⟨capacity, htable⟩ := makeRoom_table m t
    unfold drain at hdrain
    simp only [htable] at hdrain
    split at hdrain
    · cases hdrain
    · cases hdrain
      rfl
    · split at hdrain
      · have hrest := ih hdrain
        exact hrest
      · cases hdrain
        rfl

theorem lengthen_links {fill : LhatValue} {missing : Nat}
    (hmade : lengthen h fill missing m t = some made) : made.table.links = t.links := by
  induction missing generalizing m t with
  | zero =>
    cases hmade
    rfl
  | succ missing ih =>
    obtain ⟨capacity, htable⟩ := makeRoom_table m t
    unfold lengthen at hmade
    simp only [htable] at hmade
    split at hmade
    · split at hmade
      · cases hmade
      · have hrest := ih hmade
        exact hrest
      · have hrest := ih hmade
        exact hrest
    · cases hmade
      rw [htable]
      rfl

theorem TableOp.run_links (op : TableOp) (hmade : op.run h m t = some made) :
    made.table.links = t.links := by
  cases op with
  | set key value =>
    unfold TableOp.run lhatTableSet at hmade
    simp only at hmade
    split at hmade
    · cases hmade
      rfl
    split at hmade
    · cases hmade
      rfl
    split at hmade
    · obtain ⟨capacity, htable⟩ := makeRoom_table m t
      simp only [htable] at hmade
      split at hmade
      · obtain ⟨⟨t', m'⟩, hdrain, rfl⟩ := Option.map_eq_some_iff.1 hmade
        have hrest := drain_links hdrain
        exact hrest
      · cases hmade
        rw [htable]
        rfl
    · unfold setEntry at hmade
      split at hmade
      · split at hmade
        · cases hmade
          rfl
        · obtain ⟨i, -, rfl⟩ := Option.map_eq_some_iff.1 hmade
          simp only
          split <;> rfl
      · obtain ⟨room, hroom, hmade⟩ := Option.bind_eq_some_iff.1 hmade
        rw [← makeEntryRoom_links hroom]
        split at hmade
        · obtain ⟨i, -, hmade⟩ := Option.bind_eq_some_iff.1 hmade
          cases hmade
          simp only
          split <;> rfl
        · cases hmade
          rfl
  | resize length fill =>
    unfold TableOp.run lhatTableResize at hmade
    simp only at hmade
    split at hmade
    · cases hmade
    · next lengthy hlengthy =>
        have hsame := lengthen_links hlengthy
        split at hmade
        · split at hmade
          · cases hmade
          · next t' m' hdrain =>
              cases hmade
              exact (drain_links hdrain).trans hsame
        · cases hmade
          exact hsame
  | reserve key =>
    unfold TableOp.run lhatTableReserve at hmade
    simp only at hmade
    split at hmade
    · cases hmade
      rfl
    split at hmade
    · cases hmade
      rfl
    have hlay : ∀ made, (do
        let room ← makeEntryRoom h m t
        if room.ok then
          let i ← probe h room.table.entries (normaliseKey key) (hashKey h (normaliseKey key))
          return { room with table := room.table.put i (normaliseKey key) .nil }
        else return room) = some made → made.table.links = t.links := by
      intro made hmade
      obtain ⟨room, hroom, hmade⟩ := Option.bind_eq_some_iff.1 hmade
      rw [← makeEntryRoom_links hroom]
      split at hmade
      · obtain ⟨i, -, hmade⟩ := Option.bind_eq_some_iff.1 hmade
        cases hmade
        rfl
      · cases hmade
        rfl
    split at hmade
    · exact hlay made hmade
    · obtain ⟨held, -, hmade⟩ := Option.bind_eq_some_iff.1 hmade
      split at hmade
      · cases hmade
        rfl
      · exact hlay made hmade
  | vacate key =>
    obtain ⟨t', hvacate, rfl⟩ := Option.map_eq_some_iff.1 hmade
    unfold lhatTableVacate at hvacate
    split at hvacate
    · cases hvacate
      rfl
    · obtain ⟨i, -, rfl⟩ := Option.map_eq_some_iff.1 hvacate
      split <;> rfl

theorem TableOp.run_definition (op : TableOp) (hmade : op.run h m t = some made) :
    made.table.definition = t.definition :=
  congrArg Prod.fst (op.run_links hmade)

end Links

/-! ### Named keys -/

section NamedKeys

variable {h : Heap} {t : LhatTable} {key : LhatValue}

theorem positionForm_injOn {n : Nat} (hn : n < 2 ^ 63) : Set.InjOn positionForm (Set.Iic n) := by
  intro i hi j hj heq
  rw [Set.mem_Iic] at hi hj
  exact int64_ofNat_inj (by omega) (by omega) (KeyForm.integer.inj heq)

section

variable (hn : Named h key)
include hn

theorem Named.usable : usableKey key = true := by
  cases key with
  | real d => simp [usableKey, Binary64.eq, hn.1]
  | bool | integer | object => rfl
  | nil | hostvalue | cont | run => exact hn.elim

theorem Named.not_refused : refusedKey h key = false := by
  rw [refusedKey, hn.usable]
  cases key with
  | object o => simpa using hn.2
  | _ => rfl

theorem Named.not_type : ¬IsType h (normaliseKey key) := by
  rintro ⟨o, s, heq, ho⟩
  cases key with
  | object p =>
    cases heq
    exact hn.1 ⟨o, s, rfl, ho⟩
  | real d =>
    simp only [normaliseKey] at heq
    split at heq <;> cases heq
  | bool | integer => cases heq
  | nil | hostvalue | cont | run => exact hn.elim

theorem Named.form : keyForm h (normaliseKey key) = some (nameOf h key) := by
  have hsome : ∃ c, keyForm h (normaliseKey key) = some c := by
    cases key with
    | real d =>
      simp only [normaliseKey]
      split
      · exact ⟨_, rfl⟩
      · exact ⟨.real d, by simp [keyForm, hn.1]⟩
    | bool | integer | object => exact ⟨_, rfl⟩
    | nil | hostvalue | cont | run => exact hn.elim
  obtain ⟨c, hc⟩ := hsome
  rw [nameOf, hc, Option.getD_some]

theorem Named.plain : Plain (nameOf h key) := by
  intro depth s heq
  have hform := hn.form
  rw [heq] at hform
  refine hn.not_type ?_
  cases hk : normaliseKey key with
  | object o =>
    rw [hk] at hform
    have ho : objectForm h o = .type depth s := by simpa [keyForm] using hform
    unfold objectForm at ho
    split at ho
    · cases ho
    · next t ht => exact ⟨o, t, rfl, ht⟩
    · split at ho <;> cases ho
    · split at ho <;> cases ho
    · cases ho
  | real d => simp [hk, keyForm] at hform
  | bool | integer | nil | hostvalue | cont | run => simp [hk, keyForm] at hform

theorem Named.place :
    placeForm h (normaliseKey key) = some (nameOf h key, formHash h (nameOf h key)) :=
  placeForm_eq_some.2 ⟨hn.form, hashKey_eq_formHash hn.not_type hn.form⟩

theorem Named.storable : Storable (normaliseKey key) :=
  storable_normaliseKey hn.usable

theorem Named.fits (hw : t.Wf h) : KeyFits h t (normaliseKey key) :=
  hw.keyFits_of_not_type hn.storable hn.not_type

end

theorem scaled_ofInt_positions :
    (Binary64.ofInt 9000000000000000).scaled = 9000000000000000 * 2 ^ 1074 ∧
      (Binary64.ofInt (-9000000000000000)).scaled = -9000000000000000 * 2 ^ 1074 := by
  decide +kernel

theorem arrayIndex_real {d : Binary64} (hnan : d.isNan = false) (hwhole : Whole d)
    (hreal : lhatNumberAsWhole (.real d) = none) : arrayIndex t (.real d) = none := by
  obtain ⟨n, hn⟩ := hwhole
  unfold arrayIndex
  simp only
  split
  · next hrange =>
      simp only [Binary64.lt, Bool.and_eq_true, decide_eq_true_eq, scaled_ofInt_positions.1,
        scaled_ofInt_positions.2, hn] at hrange
      have hpos : (0 : Int) < 2 ^ 1074 := by positivity
      have hlo := lt_of_mul_lt_mul_right hrange.1.2 hpos.le
      have hhi := lt_of_mul_lt_mul_right hrange.2.2 hpos.le
      rw [asWhole_of_whole hnan hn (by omega) (by omega)] at hreal
      cases hreal
  · rfl

theorem Named.index (hn : Named h key) {s : Reference} (hseq : t.array = s.seq)
    (hlen : t.array.length < 2 ^ 60) :
    arrayIndex t (normaliseKey key) = s.index positionForm (nameOf h key) := by
  have hnone : (∀ i, normaliseKey key ≠ .integer i) → s.index positionForm (nameOf h key) = none := by
    intro hne
    refine SequenceMap.index_eq_none.2 fun i _ heq => ?_
    have hform := hn.form
    rw [← heq] at hform
    cases hk : normaliseKey key with
    | integer j => exact hne j hk
    | real d => simp [hk, keyForm, positionForm] at hform
    | object o => simp [hk, keyForm, positionForm] at hform
    | bool | nil | hostvalue | cont | run => simp [hk, keyForm, positionForm] at hform
  cases hk : normaliseKey key with
  | integer j =>
    have hname : nameOf h key = .integer j := by simp [nameOf, hk, keyForm]
    rw [hname]
    by_cases hin : 0 ≤ j.toInt ∧ j.toInt < t.array.length
    · have hpos : positionForm j.toInt.toNat = .integer j := by
        rw [positionForm, ← Int64.ofInt_eq_ofNat, Int.toNat_of_nonneg hin.1, Int64.ofInt_toInt]
      rw [← hpos, SequenceMap.index_pos (positionForm_injOn (n := 2 ^ 60) (by norm_num))
        (by rw [← hseq]; omega) (by rw [← hseq]; omega)]
      simp only [arrayIndex]
      rw [if_neg (by omega)]
    · have : arrayIndex t (.integer j) = none := by
        simp only [arrayIndex]
        rw [if_pos (by omega)]
      rw [this]
      symm
      refine SequenceMap.index_eq_none.2 fun i hi heq => hin ?_
      rw [← hseq] at hi
      rw [← KeyForm.integer.inj heq, Int64.toInt_ofNat_of_lt (by omega)]
      omega
  | real d =>
    rw [hnone (by simp [hk])]
    cases key with
    | real d' =>
      simp only [normaliseKey] at hk
      split at hk
      · cases hk
      · next hreal =>
          cases hk
          exact arrayIndex_real hn.1 hn.2 hreal
    | bool | integer | object => cases hk
    | nil | hostvalue | cont | run => exact hn.elim
  | object | bool | nil | hostvalue | cont | run =>
    rw [hnone (by simp [hk])]
    rfl

theorem Named.next (hn : Named h key) {s : Reference} (hseq : t.array = s.seq) :
    namesNext t (normaliseKey key) = true ↔ positionForm s.seq.length = nameOf h key := by
  rw [namesNext_iff, hseq]
  constructor
  · intro heq
    simp [nameOf, heq, keyForm, positionForm]
  · intro heq
    have hform := hn.form
    rw [← heq] at hform
    cases hk : normaliseKey key with
    | integer j =>
      simp only [hk, keyForm, positionForm, Option.some.injEq, KeyForm.integer.injEq] at hform
      rw [hform]
    | real d => simp [hk, keyForm, positionForm] at hform
    | object o => simp [hk, keyForm, positionForm] at hform
    | bool | nil | hostvalue | cont | run => simp [hk, keyForm, positionForm] at hform

end NamedKeys

/-! ### The refinement -/

section Refinement

variable {h : Heap} {m : Memory} {t : LhatTable} {s : Reference}

/-- What a table keeps along a run, whether or not memory runs out. -/
structure Kept (h : Heap) (t : LhatTable) : Prop where
  wf : t.Wf h
  named : ∀ key ∈ t.keys, ¬IsType h key
  definition : t.definition = 0

/-- The table holds what the reference does; past the end of the sequence stands
a seat at most. -/
structure Refines (h : Heap) (t : LhatTable) (s : Reference) : Prop where
  content : Matches h t.array (t.find h) s
  next : ∀ value, s.rest.lookup (positionForm s.seq.length) = some value → value = .nil

theorem Kept.step (hk : Kept h t) (m : Memory) (op : TableOp) (hop : op.Named h) :
    ∃ made, op.run h m t = some made ∧ Kept h made.table ∧
      (made.memory.refused = false → m.refused = false) := by
  have hkeys : ∀ {t' : LhatTable} {key : LhatValue}, Named h key →
      (∀ held ∈ t'.keys, held ∈ t.keys ∨ held = normaliseKey key) →
      ∀ held ∈ t'.keys, ¬IsType h held := by
    intro t' key hn hsub held hmem
    rcases hsub held hmem with hin | rfl
    · exact hk.named held hin
    · exact hn.not_type
  cases op with
  | set key value =>
    have hn : Named h key := hop
    obtain ⟨made, hmade, -, hw, hsub, hsaid⟩ := hk.wf.set m hn.not_refused (hn.fits hk.wf) value
    refine ⟨made, hmade, ⟨hw, hkeys hn hsub, ?_⟩, fun hr => (hsaid hr).2.1⟩
    rw [TableOp.run_definition (.set key value) hmade, hk.definition]
  | resize length fill =>
    obtain ⟨made, hmade, -, hw, hsub, hsaid⟩ := hk.wf.resize m length fill
    refine ⟨made, hmade, ⟨hw, fun held hmem => hk.named held (hsub held hmem), ?_⟩,
      fun hr => (hsaid hr).2.1⟩
    rw [TableOp.run_definition (.resize length fill) hmade, hk.definition]
  | reserve key =>
    have hn : Named h key := hop
    cases hindex : arrayIndex t (normaliseKey key) with
    | some index =>
      refine ⟨{ ok := true, table := t, memory := m }, ?_, hk, fun hr => hr⟩
      simp [TableOp.run, lhatTableReserve, hn.usable, hindex]
    | none =>
      obtain ⟨made, hmade, -, href, hwritten⟩ := hk.wf.reserve m hn.usable hindex (hn.fits hk.wf)
      have hdef := TableOp.run_definition (.reserve key) hmade
      refine ⟨made, hmade, ?_, fun hr => (href hr).2⟩
      rcases hwritten with ⟨-, htable⟩ | ⟨-, hwritten⟩
      · rwa [htable]
      · exact ⟨hwritten.wf, hkeys hn hwritten.keys, by rw [hdef, hk.definition]⟩
  | vacate key =>
    have hn : Named h key := hop
    obtain ⟨left, hleft, hwritten⟩ := hk.wf.vacate hn.usable (hn.fits hk.wf)
    have hmade : TableOp.run h m t (.vacate key) =
        some { ok := true, table := left, memory := m } := by
      simp [TableOp.run, hleft]
    exact ⟨_, hmade, ⟨hwritten.wf, hkeys hn hwritten.keys,
      by rw [TableOp.run_definition _ hmade, hk.definition]⟩, fun hr => hr⟩

theorem pair_eq_iff {c c' : KeyForm} : (c, formHash h c) = (c', formHash h c') ↔ c = c' := by
  constructor
  · intro heq
    exact congrArg Prod.fst heq
  · rintro rfl
    rfl

theorem LhatTable.Wf.reserved (hw : t.Wf h) {key : LhatValue} (hu : usableKey key = true)
    (hfit : KeyFits h t (normaliseKey key)) {c : KeyForm × UInt32}
    (hc : placeForm h (normaliseKey key) = some c) :
    lhatTableReserved h t key = some (decide (t.find h c = some .nil)) := by
  unfold lhatTableReserved
  by_cases he : t.entries = []
  · simp [he, LhatTable.find_of_empty he]
  · obtain ⟨i, hi, hprobe, hprobed⟩ := hw.probe_spec he hfit
    rw [if_neg (by simp [hu, he])]
    simp only [hprobe, Option.map_some, Option.some.injEq]
    by_cases hkey : (t.entryAt i).key = .nil
    · rw [hprobed.find_absent hw hkey hc]
      simp [hkey]
    · obtain ⟨c', -, hkc, hfind⟩ := hprobed.find_held hw hi hkey
      obtain rfl : c' = c := Option.some.inj (hkc.symm.trans hc)
      rw [hfind]
      simp only [LhatValue.isNil_eq_false_iff.2 hkey, Bool.not_false, Bool.true_and,
        Option.some.injEq]
      rw [Bool.eq_iff_iff, LhatValue.isNil_iff, decide_eq_true_iff]

theorem absorb_next (s : Reference) :
    (s.absorb positionForm).rest.lookup
      (positionForm (s.absorb positionForm).seq.length) = none := by
  induction s using SequenceMap.absorb.induct positionForm with
  | case1 s hnone => rwa [SequenceMap.absorb_of_none hnone]
  | case2 s v hsome ih =>
    rw [SequenceMap.absorb_of_some hsome]
    exact ih

theorem Refines.step (hr : Refines h t s) (hk : Kept h t) (op : TableOp) (hop : op.Named h)
    (hclear : op.Clear h t) {made : Outcome} (hmade : op.run h m t = some made)
    (hrefused : made.memory.refused = false) : Refines h made.table (op.reference h s) := by
  have hseq := hr.content.seq
  have hlen := hk.wf.length_lt
  cases op with
  | set key value =>
    have hn : Named h key := hop
    have hfit := hn.fits hk.wf
    obtain ⟨made', hmade', -, -, -, hsaid⟩ := hk.wf.set m hn.not_refused hfit value
    obtain rfl : made = made' := Option.some.inj (hmade.symm.trans hmade')
    obtain ⟨-, -, hset⟩ := hsaid hrefused
    unfold SetTo at hset
    rw [hn.index hseq hlen] at hset
    show Refines h made.table (s.set positionForm .nil (nameOf h key) value)
    unfold SequenceMap.set
    cases hindex : s.index positionForm (nameOf h key) with
    | some index =>
      simp only [hindex] at hset ⊢
      refine ⟨⟨by rw [hset.1, hseq], fun c hc => ?_⟩, fun held hheld => ?_⟩
      · rw [hset.2]
        exact hr.content.rest c hc
      · have hlength : (s.seq.set index value).length = s.seq.length := List.length_set
        rw [hlength] at hheld
        exact hr.next held hheld
    | none =>
      simp only [hindex] at hset ⊢
      by_cases hnext : positionForm s.seq.length = nameOf h key
      · rw [if_pos ((hn.next hseq).2 hnext)] at hset
        rw [if_pos hnext]
        have hnone : s.rest.lookup (nameOf h key) = none := by
          cases hlook : s.rest.lookup (nameOf h key) with
          | none => rfl
          | some held =>
            rw [← hnext] at hlook
            obtain rfl := hr.next held hlook
            refine absurd ⟨(hn.next hseq).2 hnext, ?_⟩ hclear
            rw [hk.wf.reserved hn.usable hfit hn.place, hr.content.rest _ hn.plain, ← hnext,
              hlook]
            simp
        have hcontent : Matches h (t.array ++ [value]) (t.find h)
            ⟨s.seq ++ [value], s.rest.erase (nameOf h key)⟩ := by
          refine ⟨by rw [hseq], fun c hc => ?_⟩
          rw [hr.content.rest c hc]
          by_cases heq : c = nameOf h key
          · rw [heq, hnone, AList.lookup_erase]
          · rw [AList.lookup_erase_ne heq]
        refine ⟨hcontent.absorb hset, fun held hheld => ?_⟩
        rw [absorb_next] at hheld
        cases hheld
      · rw [if_neg fun hnx => hnext ((hn.next hseq).1 hnx)] at hset
        rw [if_neg hnext]
        have hfound : ∀ c, Plain c → made.table.find h (c, formHash h c) =
            if nameOf h key = c then if value.isNil then none else some value
            else s.rest.lookup c := by
          intro c hc
          rw [hset.2, setFound, hn.place, hr.content.rest c hc]
          simp only [Option.some.injEq, pair_eq_iff]
        by_cases hv : value = .nil
        · rw [if_pos hv]
          refine ⟨⟨by rw [hset.1, hseq], fun c hc => ?_⟩, fun held hheld => ?_⟩
          · rw [hfound c hc]
            by_cases heq : nameOf h key = c
            · simp [heq, hv]
            · rw [if_neg heq, AList.lookup_erase_ne fun h' => heq h'.symm]
          · rw [AList.lookup_erase_ne hnext] at hheld
            exact hr.next held hheld
        · rw [if_neg hv]
          refine ⟨⟨by rw [hset.1, hseq], fun c hc => ?_⟩, fun held hheld => ?_⟩
          · rw [hfound c hc]
            by_cases heq : nameOf h key = c
            · rw [← heq]
              simp [hv]
            · rw [if_neg heq, AList.lookup_insert_ne fun h' => heq h'.symm]
          · rw [AList.lookup_insert_ne hnext] at hheld
            exact hr.next held hheld
  | resize length fill =>
    obtain ⟨made', hmade', -, -, -, hsaid⟩ := hk.wf.resize m length fill
    obtain rfl : made = made' := Option.some.inj (hmade.symm.trans hmade')
    obtain ⟨-, -, seq, g, hlengthened, habsorbs⟩ := hsaid hrefused
    have hcut : Matches h (t.array.take length) (t.find h) ⟨s.seq.take length, s.rest⟩ :=
      ⟨by rw [hseq], hr.content.rest⟩
    have hfilled := hcut.lengthen fill (length - (t.array.take length).length)
    rw [hlengthened] at hfilled
    have hdone := hfilled.absorb habsorbs
    rw [hseq] at hdone
    refine ⟨hdone, fun held hheld => ?_⟩
    have hnone := absorb_next (SequenceMap.lengthen positionForm fill
      (length - (s.seq.take length).length) ⟨s.seq.take length, s.rest⟩)
    rw [show TableOp.reference h s (.resize length fill) = SequenceMap.absorb positionForm
      (SequenceMap.lengthen positionForm fill (length - (s.seq.take length).length)
        ⟨s.seq.take length, s.rest⟩) from rfl, hnone] at hheld
    cases hheld
  | reserve key =>
    have hn : Named h key := hop
    show Refines h made.table (s.reserve positionForm .nil (nameOf h key))
    have hindex := hn.index hseq hlen
    unfold SequenceMap.reserve
    cases hi : s.index positionForm (nameOf h key) with
    | some index =>
      obtain rfl : made = { ok := true, table := t, memory := m } := by
        rw [hi] at hindex
        simpa [TableOp.run, lhatTableReserve, hn.usable, hindex] using hmade.symm
      exact hr
    | none =>
      rw [hi] at hindex
      obtain ⟨made', hmade', -, href, hwritten⟩ :=
        hk.wf.reserve m hn.usable hindex (hn.fits hk.wf)
      obtain rfl : made = made' := Option.some.inj (hmade.symm.trans hmade')
      rcases hwritten with ⟨hok, -⟩ | ⟨-, hwritten⟩
      · rw [hok] at href
        exact absurd (href hrefused).1 Bool.false_ne_true
      refine ⟨⟨by rw [hwritten.array, hseq], fun c hc => ?_⟩, fun held hheld => ?_⟩
      · rw [hwritten.find, reserveFound, hn.place, hr.content.rest c hc]
        simp only [Option.some.injEq, pair_eq_iff]
        by_cases heq : nameOf h key = c
        · rw [if_pos heq, ← heq, AList.lookup_insert]
        · rw [if_neg heq, AList.lookup_insert_ne fun h' => heq h'.symm]
      · by_cases heq : positionForm s.seq.length = nameOf h key
        · rw [heq, AList.lookup_insert] at hheld
          obtain rfl := Option.some.inj hheld
          cases hlook : s.rest.lookup (nameOf h key) with
          | none => rfl
          | some value => exact hr.next value (by rw [heq, hlook])
        · rw [AList.lookup_insert_ne heq] at hheld
          exact hr.next held hheld
  | vacate key =>
    have hn : Named h key := hop
    obtain ⟨left, hleft, hwritten⟩ := hk.wf.vacate hn.usable (hn.fits hk.wf)
    obtain rfl : made = { ok := true, table := left, memory := m } := by
      simpa [TableOp.run, hleft] using hmade.symm
    show Refines h left (s.vacate .nil (nameOf h key))
    have hfound : ∀ c, Plain c → left.find h (c, formHash h c) =
        if nameOf h key = c then (s.rest.lookup c).map fun _ => .nil else s.rest.lookup c := by
      intro c hc
      rw [hwritten.find, vacateFound, hn.place, hr.content.rest c hc]
      simp only [Option.some.injEq, pair_eq_iff]
    unfold SequenceMap.vacate
    cases hlook : s.rest.lookup (nameOf h key) with
    | none =>
      refine ⟨⟨by rw [hwritten.array, hseq], fun c hc => ?_⟩, hr.next⟩
      rw [hfound c hc]
      by_cases heq : nameOf h key = c
      · rw [if_pos heq, ← heq, hlook]
        rfl
      · rw [if_neg heq]
    | some value =>
      refine ⟨⟨by rw [hwritten.array, hseq], fun c hc => ?_⟩, fun held hheld => ?_⟩
      · rw [hfound c hc]
        by_cases heq : nameOf h key = c
        · rw [if_pos heq, ← heq, hlook, AList.lookup_insert]
          rfl
        · rw [if_neg heq, AList.lookup_insert_ne fun h' => heq h'.symm]
      · by_cases heq : positionForm s.seq.length = nameOf h key
        · rw [heq, AList.lookup_insert] at hheld
          exact (Option.some.inj hheld).symm
        · rw [AList.lookup_insert_ne heq] at hheld
          exact hr.next held hheld

theorem Refines.get (hr : Refines h t s) (hk : Kept h t) {store : Store} {node : Address}
    (hobject : h.object node = some .table) (htable : store.table node = some t)
    {key : LhatValue} (hn : Named h key) :
    lhatTableGet h store node key = some (s.get positionForm .nil (nameOf h key)) := by
  have hseq := hr.content.seq
  have hindex := hn.index hseq hk.wf.length_lt
  have hfit := hn.fits hk.wf
  unfold SequenceMap.get
  cases hi : s.index positionForm (nameOf h key) with
  | some index =>
    rw [hi] at hindex
    refine lhatTableGet_of_ownRead none hobject htable hn.usable ?_
    simp [ownRead, hindex, hseq]
  | none =>
    rw [hi] at hindex
    have hrest := hr.content.rest _ hn.plain
    by_cases he : t.entries = []
    · rw [LhatTable.find_of_empty he] at hrest
      rw [← hrest]
      refine lhatTableGet_plain hobject htable hk.definition hn.usable ?_
      simp [ownRead, hindex, he]
    · obtain ⟨i, hi, hprobe, hprobed⟩ := hk.wf.probe_spec he hfit
      unfold probe at hprobe
      by_cases hkey : (t.entryAt i).key = .nil
      · rw [hprobed.find_absent hk.wf hkey hn.place] at hrest
        rw [← hrest]
        refine lhatTableGet_plain hobject htable hk.definition hn.usable ?_
        simp [ownRead, hindex, he, hprobe, hkey]
      · obtain ⟨c, -, hkc, hfind⟩ := hprobed.find_held hk.wf hi hkey
        obtain rfl := Option.some.inj (hn.place.symm.trans hkc)
        rw [hfind] at hrest
        rw [← hrest, Option.getD_some]
        by_cases hv : (t.entryAt i).value = .nil
        · rw [hv]
          refine lhatTableGet_plain hobject htable hk.definition hn.usable ?_
          simp [ownRead, hindex, he, hprobe, hv]
        · refine lhatTableGet_of_ownRead (some i) hobject htable hn.usable ?_
          simp [ownRead, hindex, he, hprobe, hv, hkey]

theorem Fresh.kept {t : LhatTable} (hfresh : Fresh t) : Kept h t := by
  refine ⟨hfresh.wf h, fun key hmem => ?_, ?_⟩
  · obtain ⟨n, rfl, -⟩ := hfresh.entries
    obtain ⟨hne, entry, hin, rfl⟩ := LhatTable.mem_keys.1 hmem
    rw [List.eq_of_mem_replicate hin] at hne
    exact absurd rfl hne
  · obtain ⟨n, rfl, -⟩ := hfresh.entries
    rfl

theorem Fresh.refines {t : LhatTable} (hfresh : Fresh t) : Refines h t SequenceMap.empty := by
  have hw := hfresh.wf h
  obtain ⟨n, ht, -⟩ := hfresh.entries
  refine ⟨⟨by rw [ht]; rfl, fun c _ => ?_⟩, fun held hheld => ?_⟩
  · rw [LhatTable.find_of_blank hw (by rw [ht])]
    rfl
  · cases hheld

theorem run_refines {ops : List TableOp} (hops : ∀ op ∈ ops, op.Named h) (hk : Kept h t) :
    ∃ t' m', runOps h m t ops = some (t', m') ∧ Kept h t' ∧
      (m'.refused = false → m.refused = false) ∧
      (Refines h t s → ClearRun h m t ops → m'.refused = false →
        Refines h t' (ops.foldl (fun s op => op.reference h s) s)) := by
  induction ops generalizing m t s with
  | nil => exact ⟨t, m, rfl, hk, id, fun hr _ _ => hr⟩
  | cons op ops ih =>
    obtain ⟨made, hmade, hkept, href⟩ := hk.step m op (hops op List.mem_cons_self)
    obtain ⟨t', m', hrun, hk', href', hrefines⟩ :=
      ih (m := made.memory) (s := op.reference h s)
        (fun op' hmem => hops op' (List.mem_cons_of_mem op hmem)) hkept
    refine ⟨t', m', by simp only [runOps, hmade, hrun], hk', fun hr => href (href' hr),
      fun hr hclear hrefused => ?_⟩
    have hstep := hr.step hk op (hops op List.mem_cons_self) hclear.1 hmade (href' hrefused)
    exact hrefines hstep (hclear.2 made hmade) hrefused

end Refinement

/-- A run ends, and unless memory runs out the table it leaves is the reference's:
its sequence, its answers, and that a further write changes the answer under no
other key. -/
def MeetsReference (h : Heap) (m : Memory) (t₀ : LhatTable) (ops : List TableOp) : Prop :=
  ∃ t m', runOps h m t₀ ops = some (t, m') ∧ (m'.refused = false →
    t.array = (runReference h ops).seq ∧
    (∀ key store node, Named h key → h.object node = some .table → store.table node = some t →
      lhatTableGet h store node key =
        some ((runReference h ops).get positionForm .nil (nameOf h key))) ∧
    ∀ key value other made before after node, Named h key → Named h other →
      nameOf h key ≠ nameOf h other → (TableOp.set key value).Clear h t →
      lhatTableSet h m' t key value = some made → made.memory.refused = false →
      h.object node = some .table → before.table node = some t →
      after.table node = some made.table →
      lhatTableGet h after node other = lhatTableGet h before node other)

/-- Every clear run over named keys meets the reference. -/
theorem table_refines {h : Heap} {t₀ : LhatTable} (hfresh : Fresh t₀) (m : Memory)
    (ops : List TableOp) (hnamed : ∀ op ∈ ops, op.Named h) (hclear : ClearRun h m t₀ ops) :
    MeetsReference h m t₀ ops := by
  obtain ⟨t, m', hrun, hk, -, hrefines⟩ :=
    run_refines (m := m) (s := SequenceMap.empty) hnamed hfresh.kept
  refine ⟨t, m', hrun, fun hrefused => ?_⟩
  have hr : Refines h t (runReference h ops) := hrefines hfresh.refines hclear hrefused
  refine ⟨hr.content.seq, fun key store node hn hobject htable => hr.get hk hobject htable hn, ?_⟩
  intro key value other made before after node hn hother hne hstep hmade hgranted hobject
    hbefore hafter
  obtain ⟨made', hmade', hk', -⟩ := hk.step m' (.set key value) hn
  obtain rfl : made = made' := Option.some.inj (hmade.symm.trans hmade')
  have hr' := hr.step hk (.set key value) hn hstep hmade hgranted
  have hlen := hk'.wf.length_lt
  rw [hr'.content.seq] at hlen
  rw [hr'.get hk' hobject hafter hother, hr.get hk hobject hbefore hother]
  rw [show TableOp.reference h (runReference h ops) (.set key value) =
    (runReference h ops).set positionForm .nil (nameOf h key) value from rfl]
  rw [SequenceMap.get_set (positionForm_injOn (n := 2 ^ 60) (by norm_num)) hlen.le, if_neg hne]

/-- A heap that holds one table. -/
def oneTable : Heap where
  object a := if a = 16 then some .table else none
  depth := 0
  scratch _ := true
  object_null := rfl

/-- A key past the end and the end itself, in that order. -/
theorem table_refines_backwards :
    MeetsReference oneTable { grants := fun _ => true } lhatTableNew
      [.set (.integer 1) (.bool true), .set (.integer 0) (.bool false)] :=
  table_refines .new _ _
    (fun op hop => by
      simp only [List.mem_cons, List.not_mem_nil, or_false] at hop
      rcases hop with rfl | rfl <;> trivial)
    ⟨fun hand => absurd hand.1 (by decide), fun made hmade => ⟨fun hand => by
      obtain rfl := Option.some.inj (hmade.symm.trans rfl)
      exact absurd hand.2 (by decide_cbv), fun _ _ => trivial⟩⟩

/-- The seat laid under `0` outlives the write of position `0`, and is an element
once the sequence is cut to nothing. -/
theorem table_refines_seat :
    (∀ op ∈ [TableOp.reserve (.integer 0), .set (.integer 0) (.bool true), .resize 0 .nil],
      op.Named oneTable) ∧
      ¬MeetsReference oneTable { grants := fun _ => true } lhatTableNew
        [.reserve (.integer 0), .set (.integer 0) (.bool true), .resize 0 .nil] := by
  refine ⟨fun op hop => ?_, ?_⟩
  · simp only [List.mem_cons, List.not_mem_nil, or_false] at hop
    rcases hop with rfl | rfl | rfl <;> trivial
  · rintro ⟨t, m', hrun, hmeets⟩
    have hleft : (runOps oneTable { grants := fun _ => true } lhatTableNew
        [.reserve (.integer 0), .set (.integer 0) (.bool true), .resize 0 .nil]).map
          (fun left => (left.1.array, left.2.refused)) = some ([.nil], false) := by
      decide_cbv
    rw [hrun] at hleft
    simp only [Option.map_some, Option.some.injEq, Prod.mk.injEq] at hleft
    have hseq := (hmeets hleft.2).1
    rw [hleft.1] at hseq
    have hname : nameOf oneTable (.integer 0) = positionForm 0 := rfl
    have hreserve : TableOp.reference oneTable SequenceMap.empty (.reserve (.integer 0)) =
        ⟨[], (∅ : AList fun _ : KeyForm => LhatValue).insert (positionForm 0) .nil⟩ := rfl
    have hset : TableOp.reference oneTable
        ⟨[], (∅ : AList fun _ : KeyForm => LhatValue).insert (positionForm 0) .nil⟩
          (.set (.integer 0) (.bool true)) =
        SequenceMap.absorb positionForm ⟨[.bool true], ((∅ : AList fun _ : KeyForm =>
          LhatValue).insert (positionForm 0) .nil).erase (positionForm 0)⟩ := by
      simp [TableOp.reference, SequenceMap.set, SequenceMap.index, hname]
    have hone : positionForm 1 ≠ positionForm 0 := fun heq =>
      absurd (int64_ofNat_inj (by norm_num) (by norm_num) (KeyForm.integer.inj heq)) one_ne_zero
    rw [SequenceMap.absorb_of_none
      ((AList.lookup_erase_ne hone).trans (AList.lookup_insert_ne hone))] at hset
    have hresize : TableOp.reference oneTable ⟨[.bool true], ((∅ : AList fun _ : KeyForm =>
        LhatValue).insert (positionForm 0) .nil).erase (positionForm 0)⟩ (.resize 0 .nil) =
        SequenceMap.absorb positionForm ⟨[], ((∅ : AList fun _ : KeyForm =>
          LhatValue).insert (positionForm 0) .nil).erase (positionForm 0)⟩ := rfl
    rw [SequenceMap.absorb_of_none (AList.lookup_erase _ _)] at hresize
    simp only [runReference, List.foldl_cons, List.foldl_nil, hreserve, hset, hresize] at hseq
    cases hseq

end Lhat
