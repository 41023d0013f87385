import Lhat.Table.Alike
import Lhat.Table.Soundness
import Mathlib

/-!
# Moving a block

`table_blockmove` writes one position after the other, in the direction in which no
element is written over before it was read. Each write leaves every other integer key
alone, whatever it makes the sequence take in (`Stored`), so the block arrives and
nothing else moves. An element that is `nil` and comes to stand past the end of the
sequence is not held there: what such a key reads is what the definition answers.
-/

namespace Lhat

open scoped Classical

theorem int64_add_toInt {i : Int64} {k : Nat} (hnonneg : 0 ≤ i.toInt)
    (hfits : i.toInt + k < 2 ^ 63) : (i + Int64.ofNat k).toInt = i.toInt + k := by
  rw [Int64.toInt_add, Int64.toInt_ofNat_of_lt (by omega),
    Int.bmod_eq_of_le (by omega) (by omega)]

theorem int64_sub_toInt {i j : Int64} (hnonneg : 0 ≤ i.toInt) (hle : i.toInt ≤ j.toInt) :
    (j - i).toInt = j.toInt - i.toInt := by
  have := j.toInt_lt
  rw [Int64.toInt_sub, Int.bmod_eq_of_le (by omega) (by omega)]

/-- A loop on the way that writes integer keys of one table: those of some turns hold
what they should, and nothing else is read otherwise than before. -/
structure Laying (h : Heap) (base : Store) (table : Address) (t : LhatTable) (key : Nat → Int64)
    (value : Nat → LhatValue) (through : List Nat) (s : Store) : Prop where
  orderly : s.Orderly h
  names : s.LendsByName h
  others : ∀ a, a ≠ table → s.table a = base.table a
  laid : ∃ t', s.table table = some t' ∧ t'.links = t.links ∧ t.array.length ≤ t'.array.length ∧
    (∀ k ∈ through, t'.own h (.integer (key k)) = some (value k) ∨
      value k = .nil ∧ t'.own h (.integer (key k)) = none) ∧
    ∀ j, (∀ k ∈ through, j ≠ key k) → t'.own h (.integer j) = t.own h (.integer j)
  reads : ∀ a j, (∀ k ∈ through, j ≠ key k) →
    lhatTableGet h s a (.integer j) = lhatTableGet h base a (.integer j)

section Laying

variable {h : Heap} {mc : Machine} {base : Store} {table : Address} {t : LhatTable}
  {key : Nat → Int64} {value : Nat → LhatValue} {through : List Nat} {st : TableState}

theorem Laying.start (ho : base.Orderly h) (hnames : base.LendsByName h)
    (htable : base.table table = some t) : Laying h base table t key value [] base where
  orderly := ho
  names := hnames
  others _ _ := rfl
  laid := ⟨t, htable, rfl, Nat.le_refl _, nofun, fun _ _ => rfl⟩
  reads _ _ _ := rfl

theorem Laying.turn (hl : Laying h base table t key value through st.store)
    (hopen : t.shared = false) {k : Nat} (hapart : ∀ k' ∈ through, key k' ≠ key k) {wrote : Wrote}
    (hwrote : vmSetKey h mc st table (.integer (key k)) (value k) = some wrote)
    (hok : wrote.ok = true) : Laying h base table t key value (k :: through) wrote.state.store := by
  obtain ⟨t', htable, hlinks, hlonger, hheld, hrest⟩ := hl.laid
  obtain ⟨hw, hu⟩ := hl.orderly _ _ htable
  have hopen' : t'.shared = false :=
    (congrArg (fun l : Address × LhatValue × Bool × Bool × Bool × Bool => l.2.2.2.2.2) hlinks).trans
      hopen
  obtain ⟨t'', hstore, hstored⟩ := vmSetKey_integer hl.orderly htable hopen' hwrote hok
  have hwritten : wrote.state.store.table table = some t'' := by
    rw [hstore]
    exact Store.table_write_self (by rw [htable]; rfl)
  refine ⟨?_, ?_, fun a ha => ?_, ⟨t'', hwritten, hstored.links.trans hlinks,
    hlonger.trans hstored.longer, fun k' hk' => ?_, fun j hj => ?_⟩, fun a j hj => ?_⟩
  · rw [hstore]
    exact hl.orderly.write hstored.wf hstored.unseated
  · rw [hstore]
    exact hl.names.write htable hstored.links
  · rw [hstore, Store.table_write_other ha]
    exact hl.others a ha
  · rcases List.mem_cons.1 hk' with rfl | hmem
    · exact hstored.here
    · rw [hstored.elsewhere _ (hapart k' hmem)]
      exact hheld k' hmem
  · rw [hstored.elsewhere j (hj k List.mem_cons_self)]
    exact hrest j fun k' hk' => hj k' (List.mem_cons_of_mem k hk')
  · rw [hstore, lhatTableGet_integer_write hl.names htable hw hstored.wf hstored.links
      hstored.beside (hstored.elsewhere j (hj k List.mem_cons_self)) a]
    exact hl.reads a j fun k' hk' => hj k' (List.mem_cons_of_mem k hk')

theorem Laying.writeEach {turn : TableState → Nat → Option (Option (LhatValue × LhatValue))}
    (hopen : t.shared = false) {turns : List Nat} (hnodup : (turns.map key).Nodup)
    (hl : Laying h base table t key value through st.store)
    (hfresh : ∀ k ∈ turns, ∀ k' ∈ through, key k' ≠ key k)
    (hturn : ∀ before k after, turns = before ++ k :: after → ∀ st',
      Laying h base table t key value (before.reverse ++ through) st'.store →
        ∀ written, turn st' k = some written → written = some (.integer (key k), value k))
    {st' : TableState} (hran : writeEach h mc table turn turns st = some (true, st')) :
    Laying h base table t key value (turns.reverse ++ through) st'.store := by
  induction turns generalizing through st with
  | nil =>
    cases hran
    exact hl
  | cons k rest ih =>
    rw [List.map_cons, List.nodup_cons] at hnodup
    unfold Lhat.writeEach at hran
    cases hsaid : turn st k with
    | none => simp [hsaid] at hran
    | some written =>
      rw [hturn [] k rest rfl st (by simpa using hl) written hsaid] at hsaid
      simp only [hsaid] at hran
      split at hran
      · cases hran
      · next wrote hwrote =>
          split at hran
          · next hok =>
              have hl' := hl.turn hopen (hfresh k List.mem_cons_self) hwrote hok
              have hrest := ih hnodup.2 hl' (fun k₁ hk₁ k₂ hk₂ => ?_)
                (fun before k₁ after hsplit st₁ hl₁ => ?_) hran
              · simpa using hrest
              · rcases List.mem_cons.1 hk₂ with rfl | hmem
                · intro heq
                  exact hnodup.1 (heq ▸ List.mem_map_of_mem hk₁)
                · exact hfresh k₁ (List.mem_cons_of_mem k hk₁) k₂ hmem
              · refine hturn (k :: before) k₁ after (by rw [hsplit]; rfl) st₁ ?_
                simpa using hl₁
          · cases hran

end Laying

section Blocks

variable {h : Heap} {mc : Machine} {st st' : TableState} {src dst : Address}
  {source t : LhatTable} {start last dest : Int64}

theorem before_of_split {n : Nat} {down : Bool} {before after : List Nat} {k : Nat}
    (hsplit : (if down then (List.range n).reverse else List.range n) = before ++ k :: after) :
    k < n ∧ ∀ k' ∈ before, k' < n ∧ if down then k < k' else k' < k := by
  have hmem : ∀ k' ∈ before ++ k :: after, k' < n := by
    intro k' hk'
    rw [← hsplit] at hk'
    cases down <;> simpa using hk'
  refine ⟨hmem k (by simp), fun k' hk' => ⟨hmem k' (List.mem_append_left _ hk'), ?_⟩⟩
  cases down with
  | false =>
    have hsorted := List.pairwise_lt_range (n := n)
    rw [show List.range n = before ++ k :: after from hsplit] at hsorted
    exact (List.pairwise_append.1 hsorted).2.2 k' hk' k List.mem_cons_self
  | true =>
    have hsorted := List.pairwise_reverse.2 (List.pairwise_lt_range (n := n))
    rw [show (List.range n).reverse = before ++ k :: after from hsplit] at hsorted
    exact (List.pairwise_append.1 hsorted).2.2 k' hk' k List.mem_cons_self

theorem blockKey_toInt (hnonneg : 0 ≤ dest.toInt) {span : Nat} (hfits : dest.toInt + span < 2 ^ 63)
    {k : Nat} (hk : k ≤ span) : (dest + Int64.ofNat k).toInt = dest.toInt + k :=
  int64_add_toInt hnonneg (by omega)

theorem blockKey_inj (hnonneg : 0 ≤ dest.toInt) {span : Nat} (hfits : dest.toInt + span < 2 ^ 63)
    {k k' : Nat} (hk : k ≤ span) (hk' : k' ≤ span)
    (heq : dest + Int64.ofNat k = dest + Int64.ofNat k') : k = k' := by
  have hint := congrArg Int64.toInt heq
  rw [blockKey_toInt hnonneg hfits hk, blockKey_toInt hnonneg hfits hk'] at hint
  omega

/-- The run of `table_blockmove` writes every element of the block, as the source held it
before. -/
theorem tableBlockmove_lays (ho : st.store.Orderly h) (hnames : st.store.LendsByName h)
    (hsrc : h.object src = some .table) (hsource : st.store.table src = some source)
    (htable : st.store.table dst = some t) (hopen : t.shared = false) (hstart : 0 ≤ start.toInt)
    (hle : start.toInt ≤ last.toInt) (hlast : last.toInt < source.array.length)
    (hdest : 0 ≤ dest.toInt) (hfits : dest.toInt + (last.toInt - start.toInt) < 2 ^ 63)
    (hran : tableBlockmove h mc st dst src start last dest = some (.ok, st')) :
    ∃ turns : List Nat, (∀ k : Nat, k ∈ turns ↔ (k : Int) ≤ last.toInt - start.toInt) ∧
      Laying h st.store dst t (fun k => dest + Int64.ofNat k)
        (fun k => source.slot (start.toInt.toNat + k)) turns st'.store := by
  have hsub := int64_sub_toInt hstart hle
  have hlt : ¬last < start := by
    rw [Int64.lt_iff_toInt_lt]
    omega
  set span := (last.toInt - start.toInt).toNat with hspan
  have hclamp : (last - start).toNatClampNeg + 1 = span + 1 := by
    rw [← Int64.toNat_toInt, hsub]
  have hfits' : dest.toInt + span < 2 ^ 63 := by omega
  obtain ⟨down, hdown⟩ : ∃ down, down = decide (dst = src ∧ start < dest) := ⟨_, rfl⟩
  unfold tableBlockmove at hran
  rw [if_neg hlt, hclamp] at hran
  obtain ⟨⟨done, st₁⟩, hloop, hleft⟩ := Option.map_eq_some_iff.1 hran
  obtain ⟨hstatus, rfl⟩ := Prod.mk.inj hleft
  have hdone : done = true := by
    cases done with
    | true => rfl
    | false => cases hstatus
  rw [hdone] at hloop
  have hturns : (if dst = src ∧ start < dest then (List.range (span + 1)).reverse
      else List.range (span + 1)) =
        if down then (List.range (span + 1)).reverse else List.range (span + 1) := by
    rw [hdown]
    by_cases hand : dst = src ∧ start < dest <;> simp [hand]
  rw [hturns] at hloop
  set turns := if down then (List.range (span + 1)).reverse else List.range (span + 1) with hset
  have hmem : ∀ k : Nat, k ∈ turns ↔ k ≤ span := by
    intro k
    rw [hset]
    cases down <;> simp [Nat.lt_succ_iff]
  have hdistinct : turns.Nodup := by
    rw [hset]
    cases down
    · exact List.nodup_range
    · exact List.nodup_reverse.2 List.nodup_range
  have hkeys : (turns.map fun k => dest + Int64.ofNat k).Nodup := by
    refine List.Nodup.map_on (fun k hk k' hk' heq => ?_) hdistinct
    exact blockKey_inj hdest hfits' ((hmem k).1 hk) ((hmem k').1 hk') heq
  refine ⟨turns.reverse, fun k => ?_, ?_⟩
  · rw [List.mem_reverse, hmem]
    omega
  have hnothing : Laying h st.store dst t (fun k => dest + Int64.ofNat k)
      (fun k => source.slot (start.toInt.toNat + k)) [] st.store := Laying.start ho hnames htable
  have hlaid := hnothing.writeEach hopen hkeys
    (by simp) (fun before k after hsplit st₂ hl written hturn => ?_) hloop
  · simpa using hlaid
  -- What is read is what the source held: its position was not written yet.
  obtain ⟨hk, hbefore⟩ := before_of_split hsplit
  have hkey : (start + Int64.ofNat k).toInt = start.toInt + k :=
    int64_add_toInt hstart (by have := last.toInt_lt; omega)
  have hinside : source.own h (.integer (start + Int64.ofNat k)) =
      some (source.slot (start.toInt.toNat + k)) := by
    rw [LhatTable.own_inside (by omega) (by omega), hkey]
    congr 2
    omega
  have hread : lhatTableGet h st₂.store src (.integer (start + Int64.ofNat k)) =
      some (source.slot (start.toInt.toNat + k)) := by
    by_cases hsame : src = dst
    · subst hsame
      obtain ⟨t', htable', -, -, -, hrest⟩ := hl.laid
      obtain rfl : t = source := Option.some.inj (htable.symm.trans hsource)
      refine lhatTableGet_of_own hsrc htable' (hl.orderly _ _ htable').1 ?_
      rw [hrest _ fun k' hk' heq => ?_, hinside]
      rw [List.append_nil, List.mem_reverse] at hk'
      obtain ⟨hk'', horder⟩ := hbefore k' hk'
      have hint := congrArg Int64.toInt heq
      rw [hkey, blockKey_toInt hdest hfits' (by omega)] at hint
      cases hup : down with
      | false =>
        rw [hup] at hdown horder
        have hnot : ¬start < dest := by simpa using hdown.symm
        rw [Int64.lt_iff_toInt_lt] at hnot
        simp only [Bool.false_eq_true, if_false] at horder
        omega
      | true =>
        rw [hup] at hdown horder
        have hdir : start < dest := by simpa using hdown.symm
        rw [Int64.lt_iff_toInt_lt] at hdir
        simp only [if_true] at horder
        omega
    · refine lhatTableGet_of_own hsrc ?_ (ho _ _ hsource).1 hinside
      rw [hl.others src hsame]
      exact hsource
  rw [hread] at hturn
  exact (Option.some.inj hturn).symm

/-- The arguments of `move^` that ask for a block, with or without the table it comes
from. A block of one needs no second ordinal there. -/
inductive BlockArgs (h : Heap) (src dst : Address) (start last dest : Int64) :
    List LhatValue → Prop
  | own {a b c : LhatValue} (hsame : src = dst) (hstart : vmOrdinalOf a = some start)
      (hlast : vmOrdinalOf b = some last) (hdest : vmOrdinalOf c = some dest) :
      BlockArgs h src dst start last dest [a, b, c]
  | other {a b c : LhatValue} (hsrc : h.object src = some .table)
      (hstart : vmOrdinalOf a = some start) (hlast : vmOrdinalOf b = some last)
      (hdest : vmOrdinalOf c = some dest) :
      BlockArgs h src dst start last dest [.object src, a, b, c]
  | single {a c : LhatValue} (hsrc : h.object src = some .table)
      (hstart : vmOrdinalOf a = some start) (hone : last = start)
      (hdest : vmOrdinalOf c = some dest) :
      BlockArgs h src dst start last dest [.object src, a, c]

theorem move_eq_blockmove {args : List LhatValue} (hargs : BlockArgs h src dst start last dest args)
    (htable : st.store.table dst = some t) (hsource : st.store.table src = some source)
    (hlen : source.array.length < 2 ^ 63) {answered : Answered}
    (hran : vmTableNative h mc st .move dst args = some answered) (hok : answered.status = .ok)
    (hle : start ≤ last) :
    t.isSealed = false ∧ 0 ≤ start.toInt ∧ last.toInt < source.array.length ∧ 0 ≤ dest.toInt ∧
      tableBlockmove h mc st dst src start last dest = some (.ok, answered.state) := by
  have hmoved : t.isSealed = false ∧ ∃ cross block, cross.getD dst = src ∧ block.getD start = last ∧
      ¬(cross.isNone ∧ block.isNone) ∧ moveOrdinals h mc st dst t cross start block dest =
        some (answered.status, answered.state) := by
    unfold vmTableNative at hran
    simp only [htable, Option.bind_eq_bind, Option.bind_some] at hran
    split at hran
    · obtain rfl := Option.some.inj hran
      cases hok
    · next hopen =>
        refine ⟨by simpa using hopen, ?_⟩
        obtain ⟨ran, hmove, rfl⟩ := Option.map_eq_some_iff.1 hran
        cases hargs with
        | @own a b c hsame hstart hlast hdest =>
          refine ⟨none, some last, hsame.symm, rfl, by simp, ?_⟩
          cases a with
          | object o => cases hstart
          | _ => simpa [tableMove, hstart, hlast, hdest] using hmove
        | other hsrc hstart hlast hdest =>
          refine ⟨some src, some last, rfl, rfl, by simp, ?_⟩
          simpa [tableMove, hsrc, hstart, hlast, hdest] using hmove
        | single hsrc hstart hone hdest =>
          refine ⟨some src, none, rfl, hone.symm, by simp, ?_⟩
          simpa [tableMove, hsrc, hstart, hdest] using hmove
  obtain ⟨hopen, cross, block, hcross, hblock, hform, hmove⟩ := hmoved
  unfold moveOrdinals at hmove
  simp only [hblock, if_neg hform, hcross, hsource, Option.bind_eq_bind, Option.bind_some] at hmove
  split at hmove
  · obtain ⟨hstatus, -⟩ := Prod.mk.inj (Option.some.inj hmove)
    rw [← hstatus] at hok
    cases hok
  · next hinside =>
      rw [hok] at hmove
      have hzero : (0 : Int64).toInt = 0 := rfl
      simp only [not_and, not_or, Int64.lt_iff_toInt_lt, Int64.le_iff_toInt_le, hzero,
        Int64.toInt_ofNat_of_lt hlen] at hinside
      rw [Int64.le_iff_toInt_le] at hle
      have hbounds := hinside hle
      exact ⟨hopen, by omega, by omega, by omega, hmove⟩

/-- The block arrives, and no other integer key reads otherwise than before. An element
that is `nil` and comes to stand past the end of the sequence is not held. -/
theorem move_block (ho : st.store.Orderly h) (hnames : st.store.LendsByName h)
    (hdst : h.object dst = some .table) (hsrc : h.object src = some .table)
    (htable : st.store.table dst = some t) (hshared : t.shared = true → t.isSealed = true)
    (hsource : st.store.table src = some source) {args : List LhatValue}
    (hargs : BlockArgs h src dst start last dest args) (hle : start ≤ last)
    (hfits : dest.toInt + (last.toInt - start.toInt) < 2 ^ 63) {answered : Answered}
    (hran : vmTableNative h mc st .move dst args = some answered) (hok : answered.status = .ok) :
    ∃ t', answered.state.store.table dst = some t' ∧
      (∀ k : Nat, (k : Int) ≤ last.toInt - start.toInt →
        if lhatTableGet h st.store src (.integer (start + Int64.ofNat k)) = some .nil ∧
            t'.array.length ≤ dest.toInt + k then
          t'.own h (.integer (dest + Int64.ofNat k)) = none
        else lhatTableGet h answered.state.store dst (.integer (dest + Int64.ofNat k)) =
          lhatTableGet h st.store src (.integer (start + Int64.ofNat k))) ∧
      ∀ i : Int64, ¬(dest ≤ i ∧ i.toInt ≤ dest.toInt + (last.toInt - start.toInt)) →
        lhatTableGet h answered.state.store dst (.integer i) =
          lhatTableGet h st.store dst (.integer i) := by
  have hlen := (ho _ _ hsource).1.length_lt
  obtain ⟨hseal, hstart, hlast, hdest, hmove⟩ :=
    move_eq_blockmove hargs htable hsource (by omega) hran hok hle
  have hopen : t.shared = false := by
    cases hs : t.shared with
    | false => rfl
    | true =>
      rw [hshared hs] at hseal
      cases hseal
  rw [Int64.le_iff_toInt_le] at hle
  obtain ⟨turns, hturns, hlaid⟩ := tableBlockmove_lays ho hnames hsrc hsource htable hopen hstart hle
    hlast hdest hfits hmove
  obtain ⟨t', htable', -, -, hheld, -⟩ := hlaid.laid
  have hw' := (hlaid.orderly _ _ htable').1
  refine ⟨t', htable', fun k hk => ?_, fun i hi => hlaid.reads dst i fun k hk heq => hi ?_⟩
  · have hkey := blockKey_toInt hdest
      (show dest.toInt + (last.toInt - start.toInt).toNat < 2 ^ 63 by omega)
      (show k ≤ _ by omega)
    have hfrom : (start + Int64.ofNat k).toInt = start.toInt + k :=
      int64_add_toInt hstart (by have := last.toInt_lt; omega)
    have hread : lhatTableGet h st.store src (.integer (start + Int64.ofNat k)) =
        some (source.slot (start.toInt.toNat + k)) := by
      refine lhatTableGet_of_own hsrc hsource (ho _ _ hsource).1 ?_
      rw [LhatTable.own_inside (by omega) (by omega), hfrom]
      congr 2
      omega
    rw [hread]
    rcases hheld k ((hturns k).2 hk) with hown | ⟨hnil, hown⟩
    · split
      · next hpast =>
          -- A key past the end holds a value that is not `nil`, or nothing.
          have hslot := Option.some.inj hpast.1
          rw [LhatTable.own_outside (by omega), hslot] at hown
          have hlive := (Option.filter_eq_some_iff.1 hown).2
          cases hlive
      · exact lhatTableGet_of_own hdst htable' hw' hown
    · rw [if_pos]
      · exact hown
      · refine ⟨congrArg some hnil, not_lt.1 fun hlt => ?_⟩
        rw [LhatTable.own_inside (by omega) (by omega)] at hown
        cases hown
  · have hkey := blockKey_toInt hdest
      (show dest.toInt + (last.toInt - start.toInt).toNat < 2 ^ 63 by omega)
      (show k ≤ _ by have := (hturns k).1 hk; omega)
    have := (hturns k).1 hk
    rw [Int64.le_iff_toInt_le, heq, hkey]
    omega

end Blocks

/-! ### Two moves -/

/-- Three tables and a method. -/
def methodHeap : Heap where
  object a := if a = 16 ∨ a = 32 ∨ a = 48 then some .table else
    if a = 64 then some (.subroutine true) else none
  depth := 8
  scratch _ := true
  object_null := rfl

/-- Three numbers and nothing beside them. -/
def threeNumbers : LhatTable :=
  { array := [.integer 7, .integer 8, .integer 9], arrayCapacity := 8 }

def numbersAlone : TableState where
  store := [(16, threeNumbers)]
  memory := { grants := fun _ => true }

theorem numbersAlone_table {a : Address} {t : LhatTable}
    (htable : numbersAlone.store.table a = some t) : a = 16 ∧ t = threeNumbers := by
  unfold numbersAlone Store.table at htable
  rw [List.lookup_cons] at htable
  split at htable
  · next heq => exact ⟨eq_of_beq heq, (Option.some.inj htable).symm⟩
  · cases htable

theorem threeNumbers_orderly : numbersAlone.store.Orderly methodHeap := by
  intro a t htable
  obtain ⟨-, rfl⟩ := numbersAlone_table htable
  refine ⟨(wf_new methodHeap).of_entries rfl rfl rfl (by decide) (by decide), fun i hfound => ?_⟩
  rw [LhatTable.find_of_empty rfl] at hfound
  cases hfound

/-- The block and where it goes overlap, and the end is passed. -/
theorem move_block_overlapping : ∃ answered,
    vmTableNative methodHeap quietMachine numbersAlone .move 16
        [.integer 0, .integer 2, .integer 1] = some answered ∧
      ∃ t', answered.state.store.table 16 = some t' ∧
      (∀ k : Nat, (k : Int) ≤ (2 : Int64).toInt - (0 : Int64).toInt →
        if lhatTableGet methodHeap numbersAlone.store 16 (.integer (0 + Int64.ofNat k)) = some .nil ∧
            t'.array.length ≤ (1 : Int64).toInt + k then
          t'.own methodHeap (.integer (1 + Int64.ofNat k)) = none
        else lhatTableGet methodHeap answered.state.store 16 (.integer (1 + Int64.ofNat k)) =
          lhatTableGet methodHeap numbersAlone.store 16 (.integer (0 + Int64.ofNat k))) ∧
      ∀ i : Int64, ¬((1 : Int64) ≤ i ∧
          i.toInt ≤ (1 : Int64).toInt + ((2 : Int64).toInt - (0 : Int64).toInt)) →
        lhatTableGet methodHeap answered.state.store 16 (.integer i) =
          lhatTableGet methodHeap numbersAlone.store 16 (.integer i) := by
  have hran : (vmTableNative methodHeap quietMachine numbersAlone .move 16
      [.integer 0, .integer 2, .integer 1]).map Answered.status = some .ok := by
    decide_cbv
  obtain ⟨answered, hanswered, hok⟩ := Option.map_eq_some_iff.1 hran
  have hnames : numbersAlone.store.LendsByName methodHeap := fun a t htable =>
    .inl (by rw [(numbersAlone_table htable).2]; rfl)
  exact ⟨answered, hanswered, move_block threeNumbers_orderly hnames rfl rfl
    (show numbersAlone.store.table 16 = some threeNumbers from rfl) (by decide)
    (show numbersAlone.store.table 16 = some threeNumbers from rfl) (.own rfl rfl rfl rfl) (by decide)
    (by decide) hanswered hok⟩

/-- An instance whose definition has a method under `5`, and a sequence that begins with
`nil`. -/
def methodUnderFive : TableState where
  store := [
    (16, { entries := [{}, ⟨.integer 5, .object 64⟩, {}, {}], entryCount := 1,
           isDefinition := true }),
    (32, { definition := 16 }),
    (48, { array := [.nil, .integer 7], arrayCapacity := 8 })]
  memory := { grants := fun _ => true }

/-- The `nil` that is moved to `5` is not held there, and the method is read. -/
theorem move_block_fails : ∃ answered,
    vmTableNative methodHeap quietMachine methodUnderFive .move 32
        [.object 48, .integer 0, .integer 1, .integer 5] = some answered ∧
      answered.status = .ok ∧
      lhatTableGet methodHeap methodUnderFive.store 48 (.integer 0) = some .nil ∧
      lhatTableGet methodHeap answered.state.store 32 (.integer 5) = some (.object 64) := by
  have hran : (vmTableNative methodHeap quietMachine methodUnderFive .move 32
      [.object 48, .integer 0, .integer 1, .integer 5]).map (fun answered =>
        (answered.status, lhatTableGet methodHeap answered.state.store 32 (.integer 5))) =
      some (.ok, some (.object 64)) := by
    decide_cbv
  obtain ⟨answered, hanswered, hsaid⟩ := Option.map_eq_some_iff.1 hran
  obtain ⟨hok, hread⟩ := Prod.mk.inj hsaid
  exact ⟨answered, hanswered, hok, by decide_cbv, hread⟩

end Lhat
