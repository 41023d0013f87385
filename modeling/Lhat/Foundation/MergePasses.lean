import Mathlib.Data.List.Perm.Basic
import Mathlib.Data.List.Count
import Mathlib.Tactic.Linarith

/-!
# Merging in passes

A list is ordered from the bottom up, in passes between two runs that change
places: every pass reads the whole of one and writes the whole of the other, two
neighbouring blocks of a width merged into one of twice the width. Who is asked for
an order may fail at any call, and what the runs hold then is part of the answer.

A pass that is cut short leaves the run it reads complete. The run it writes has the
merged front of a block before what it held two passes ago, so it is complete only
by coincidence (`mergePasses_error_perm`).
-/

namespace MergePasses

variable {α ε : Type*}

/-- A comparison that failed, and the merge it was made in: the next of either half,
the position to be written, and both runs as they stand. -/
structure Fault (α ε : Type*) where
  cause : ε
  source : List α
  target : List α
  mid : Nat
  hi : Nat
  i : Nat
  j : Nat
  k : Nat

section Definitions

variable (ask : Nat → α → α → Except ε Bool) (blank : α) (source : List α)

/-- Whether the next element comes from the left half. Only while both halves last
is the order asked for. -/
def takeLeft (mid hi i j calls : Nat) : Except ε (Bool × Nat) :=
  if mid ≤ i then .ok (false, calls)
  else if hi ≤ j then .ok (true, calls)
  else (ask calls (source.getD i blank) (source.getD j blank)).map fun left => (left, calls + 1)

/-- A block from a position on, over as many positions as are left of it. -/
def mergeFrom (mid hi : Nat) : Nat → Nat → Nat → Nat → Nat → List α →
    Except (Fault α ε) (List α × Nat)
  | 0, _, _, _, calls, target => .ok (target, calls)
  | left + 1, i, j, k, calls, target =>
    match takeLeft ask blank source mid hi i j calls with
    | .error cause => .error { cause, source, target, mid, hi, i, j, k }
    | .ok (true, calls) =>
      mergeFrom mid hi left (i + 1) j (k + 1) calls (target.set k (source.getD i blank))
    | .ok (false, calls) =>
      mergeFrom mid hi left i (j + 1) (k + 1) calls (target.set k (source.getD j blank))

/-- Two neighbouring blocks of a width merged into one. -/
def mergeBlock (width count lo calls : Nat) (target : List α) :
    Except (Fault α ε) (List α × Nat) :=
  let mid := if lo + width < count then lo + width else count
  let hi := if lo + 2 * width < count then lo + 2 * width else count
  mergeFrom ask blank source mid hi (hi - lo) lo mid lo calls target

/-- The blocks of a pass. -/
def mergeBlocks (width count : Nat) : List Nat → Nat → List α →
    Except (Fault α ε) (List α × Nat)
  | [], calls, target => .ok (target, calls)
  | lo :: rest, calls, target =>
    match mergeBlock ask blank source width count lo calls target with
    | .error fault => .error fault
    | .ok (target, calls) => mergeBlocks width count rest calls target

end Definitions

/-- Where the blocks of a pass begin. -/
def blocks (width count : Nat) : List Nat :=
  List.range' 0 ((count + 2 * width - 1) / (2 * width)) (2 * width)

/-- The passes. The width doubles, so there are fewer of them than elements. With a
failure comes whether the run written was the one to be ordered. -/
def mergePasses (ask : Nat → α → α → Except ε Bool) (blank : α) (count : Nat) :
    Nat → Nat → Bool → Nat → List α → List α → Except (Bool × Fault α ε) (List α)
  | 0, _, _, _, source, _ => .ok source
  | fuel + 1, width, intoOwn, calls, source, target =>
    if width < count then
      match mergeBlocks ask blank source width count (blocks width count) calls target with
      | .error fault => .error (intoOwn, fault)
      | .ok (target, calls) =>
        mergePasses ask blank count fuel (2 * width) (!intoOwn) calls target source
    else .ok source

/-- What the run to be ordered holds where the passes stop. -/
def kept (stop : Bool × Fault α ε) : List α := if stop.1 then stop.2.target else stop.2.source

/-- What a block still holds unwritten is what has not been moved into it yet. -/
def Fault.Unspoilt (f : Fault α ε) : Prop :=
  (f.target.extract f.k f.hi).Perm (f.source.extract f.i f.mid ++ f.source.extract f.j f.hi)

section Counting

variable [DecidableEq α]

/-- Two runs hold the same below every multiple of a width. -/
def Aligned (width : Nat) (a b : List α) : Prop :=
  ∀ n, width ∣ n → ∀ v, (a.take n).count v = (b.take n).count v

theorem Aligned.double {width : Nat} {a b : List α} (ha : Aligned width a b) :
    Aligned (2 * width) a b :=
  fun n hn v => ha n (Dvd.dvd.trans (Nat.dvd_mul_left width 2) hn) v

theorem Aligned.perm {width : Nat} {a b : List α} (hwidth : 0 < width)
    (ha : Aligned width a b) : a.Perm b := by
  rw [List.perm_iff_count]
  intro v
  have hcount := ha (width * (a.length + b.length)) (Nat.dvd_mul_right _ _) v
  have hle : a.length + b.length ≤ width * (a.length + b.length) := Nat.le_mul_of_pos_left _ hwidth
  rwa [List.take_of_length_le (by omega), List.take_of_length_le (by omega)] at hcount

theorem count_take_extract (xs : List α) {a b : Nat} (hab : a ≤ b) (v : α) :
    (xs.take b).count v = (xs.take a).count v + (xs.extract a b).count v := by
  have hsplit : xs.take b = xs.take a ++ xs.extract a b := by
    rw [List.extract_eq_take_drop, ← List.take_add]
    congr 1
    omega
  rw [hsplit, List.count_append]

theorem count_take_succ (xs : List α) {i : Nat} (hi : i < xs.length) (blank v : α) :
    (xs.take (i + 1)).count v = (xs.take i).count v + [xs.getD i blank].count v := by
  rw [List.take_succ_eq_append_getElem hi, List.count_append]
  simp [List.getD_eq_getElem?_getD, hi]

theorem count_take_set {xs : List α} {k : Nat} (hk : k < xs.length) (x v : α) :
    ((xs.set k x).take (k + 1)).count v = (xs.take k).count v + [x].count v := by
  have hk' : k < (xs.set k x).length := by rwa [List.length_set]
  rw [List.take_succ_eq_append_getElem hk', List.count_append, List.getElem_set_self,
    List.take_set_of_le (Nat.le_refl k)]

/-- The state of a merge: the front of the block is written, with what was taken from
the two halves, and the rest stands as it was. -/
structure Midway (source start target : List α) (lo mid hi i j k : Nat) : Prop where
  left : lo ≤ i
  leftEnd : i ≤ mid
  right : mid ≤ j
  rightEnd : j ≤ hi
  spent : k + mid = i + j
  length : target.length = start.length
  below : target.take lo = start.take lo
  rest : target.drop k = start.drop k
  moved : ∀ v, (target.take k).count v + (source.take mid).count v =
    (source.take i).count v + (source.take j).count v

section Merging

variable (ask : Nat → α → α → Except ε Bool) (blank : α) {source start target : List α}
  {lo mid hi i j k : Nat}

theorem Midway.turn (hm : Midway source start target lo mid hi i j k) {i' j' n : Nat}
    (hturn : (i' = i + 1 ∧ j' = j ∧ n = i ∧ i < mid) ∨ (i' = i ∧ j' = j + 1 ∧ n = j ∧ j < hi))
    (hhi : hi ≤ source.length) (hlen : source.length = start.length) :
    Midway source start (target.set k (source.getD n blank)) lo mid hi i' j' (k + 1) := by
  obtain ⟨hleft, hleftEnd, hright, hrightEnd, hspent, hlength, hbelow, hrest, hmoved⟩ := hm
  have hk : k < target.length := by omega
  refine ⟨by omega, by omega, by omega, by omega, by omega, by rwa [List.length_set], ?_, ?_, ?_⟩
  · rw [List.take_set_of_le (by omega), hbelow]
  · rw [List.drop_set_of_lt (by omega), ← List.drop_drop, hrest, List.drop_drop]
  · intro v
    have hset := count_take_set hk (source.getD n blank) v
    have hm := hmoved v
    rcases hturn with ⟨rfl, rfl, rfl, hlt⟩ | ⟨rfl, rfl, rfl, hlt⟩
    · have hnext := count_take_succ source (i := n) (by omega) blank v
      omega
    · have hnext := count_take_succ source (i := n) (by omega) blank v
      omega

theorem Midway.mergeFrom (left calls : Nat) (hm : Midway source start target lo mid hi i j k)
    (hk : k + left = hi) (hhi : hi ≤ source.length) (hlen : source.length = start.length) :
    match MergePasses.mergeFrom ask blank source mid hi left i j k calls target with
    | .ok (target', _) => Midway source start target' lo mid hi mid hi hi
    | .error f => f.source = source ∧ f.mid = mid ∧ f.hi = hi ∧
        Midway source start f.target lo mid hi f.i f.j f.k := by
  induction left generalizing i j k calls target with
  | zero =>
    obtain rfl : k = hi := by omega
    have := hm.spent
    obtain rfl : i = mid := by have := hm.leftEnd; have := hm.rightEnd; omega
    obtain rfl : j = k := by omega
    exact hm
  | succ left ih =>
    unfold MergePasses.mergeFrom takeLeft
    have hspent := hm.spent
    by_cases hi' : mid ≤ i
    · rw [if_pos hi']
      exact ih _ (hm.turn blank (.inr ⟨rfl, rfl, rfl, by omega⟩) hhi hlen) (by omega)
    · rw [if_neg hi']
      by_cases hj' : hi ≤ j
      · rw [if_pos hj']
        exact ih _ (hm.turn blank (.inl ⟨rfl, rfl, rfl, by omega⟩) hhi hlen) (by omega)
      · rw [if_neg hj']
        cases ask calls (source.getD i blank) (source.getD j blank) with
        | error cause => exact ⟨rfl, rfl, rfl, hm⟩
        | ok taken =>
          cases taken with
          | true => exact ih _ (hm.turn blank (.inl ⟨rfl, rfl, rfl, by omega⟩) hhi hlen) (by omega)
          | false => exact ih _ (hm.turn blank (.inr ⟨rfl, rfl, rfl, by omega⟩) hhi hlen) (by omega)

/-- The state of a pass between two blocks: what is written holds what was read, and
the rest stands as it was. -/
structure Passing (width : Nat) (source start target : List α) (lo : Nat) : Prop where
  length : target.length = start.length
  done : ∀ n ≤ lo, 2 * width ∣ n → ∀ v, (target.take n).count v = (source.take n).count v
  rest : target.drop lo = start.drop lo

/-- What a failed comparison leaves of a pass. -/
structure Halted (source start : List α) (f : Fault α ε) : Prop where
  reads : f.source = source
  halves : f.i ≤ f.mid ∧ f.mid ≤ f.j ∧ f.j ≤ f.hi
  front : f.k ≤ f.hi
  inside : ∀ v, (start.take f.hi).count v = (source.take f.hi).count v
  rest : f.target.drop f.k = start.drop f.k
  moved : ∀ v, (f.target.take f.k).count v + (source.take f.mid).count v =
    (source.take f.i).count v + (source.take f.j).count v

theorem Passing.block {width : Nat} (calls : Nat) (hp : Passing width source start target lo)
    (ha : Aligned (2 * width) source start) (hlen : source.length = start.length)
    (hdvd : 2 * width ∣ lo) (hlo : lo < source.length) :
    match mergeBlock ask blank source width source.length lo calls target with
    | .ok (target', _) => Passing width source start target' (lo + 2 * width)
    | .error f => Halted source start f := by
  unfold mergeBlock
  set mid := if lo + width < source.length then lo + width else source.length with hmid
  set hi := if lo + 2 * width < source.length then lo + 2 * width else source.length with hhi
  have hbounds : lo ≤ mid ∧ mid ≤ hi ∧ hi ≤ source.length := by
    split at hmid <;> split at hhi <;> omega
  have hm : Midway source target target lo mid hi lo mid lo :=
    { left := Nat.le_refl _
      leftEnd := hbounds.1
      right := Nat.le_refl _
      rightEnd := hbounds.2.1
      spent := rfl
      length := rfl
      below := rfl
      rest := rfl
      moved := fun v => by rw [hp.done lo (Nat.le_refl lo) hdvd v] }
  have hmerged := hm.mergeFrom ask blank (hi - lo) calls (by omega) hbounds.2.2 (by rw [hlen, hp.length])
  -- The end of the block is a multiple of the width, or the end of the runs.
  have hend : ∀ v, (start.take hi).count v = (source.take hi).count v := by
    intro v
    have hcount := ha (lo + 2 * width) (Nat.dvd_add hdvd (Nat.dvd_refl _)) v
    by_cases hlt : lo + 2 * width < source.length
    · rw [hhi, if_pos hlt]
      exact hcount.symm
    · rw [List.take_of_length_le (by omega), List.take_of_length_le (by omega)] at hcount
      rw [hhi, if_neg hlt, List.take_of_length_le (by omega), List.take_of_length_le (by omega)]
      exact hcount.symm
  cases hrun : MergePasses.mergeFrom ask blank source mid hi (hi - lo) lo mid lo calls target with
  | error f =>
    rw [hrun] at hmerged
    obtain ⟨hsource, hfmid, hfhi, hf⟩ := hmerged
    have hk : lo ≤ f.k := by have := hf.spent; have := hf.left; have := hf.right; omega
    refine
      { reads := hsource
        halves := by rw [hfmid, hfhi]; exact ⟨hf.leftEnd, hf.right, hf.rightEnd⟩
        front := by
          have := hf.spent; have := hf.leftEnd; have := hf.rightEnd
          omega
        inside := by rw [hfhi]; exact hend
        rest := ?_
        moved := by rw [hfmid]; exact hf.moved }
    obtain ⟨d, hd⟩ := Nat.exists_eq_add_of_le hk
    rw [hf.rest, hd, ← List.drop_drop, hp.rest, List.drop_drop]
  | ok made =>
    obtain ⟨target', calls'⟩ := made
    rw [hrun] at hmerged
    have hm' : Midway source target target' lo mid hi mid hi hi := hmerged
    have hdone : ∀ v, (target'.take hi).count v = (source.take hi).count v := by
      intro v
      have := hm'.moved v
      omega
    have hlength : target'.length = start.length := by rw [hm'.length, hp.length]
    refine ⟨hlength, fun n hn hdvd' v => ?_, ?_⟩
    · by_cases hle : n ≤ lo
      · have hsame : target'.take n = target.take n := by
          have := congrArg (List.take n) hm'.below
          rwa [List.take_take, List.take_take, Nat.min_eq_left hle] at this
        rw [hsame]
        exact hp.done n hle hdvd' v
      · obtain rfl : n = lo + 2 * width := by
          have hle' := Nat.le_of_dvd (by omega) (Nat.dvd_sub hdvd' hdvd)
          omega
        by_cases hlt : lo + 2 * width < source.length
        · have := hdone v
          rwa [hhi, if_pos hlt] at this
        · have := hdone v
          rw [hhi, if_neg hlt, List.take_of_length_le (by omega), List.take_length] at this
          rwa [List.take_of_length_le (by omega), List.take_of_length_le (by omega)]
    · obtain ⟨d, hd⟩ : ∃ d, lo + 2 * width = hi + d :=
        Nat.exists_eq_add_of_le (by split at hhi <;> omega)
      obtain ⟨e, he⟩ := Nat.exists_eq_add_of_le (hbounds.1.trans hbounds.2.1)
      rw [hd, ← List.drop_drop, hm'.rest, List.drop_drop, he, Nat.add_assoc, ← List.drop_drop,
        hp.rest, List.drop_drop]

theorem Passing.blocks {width : Nat} (calls n : Nat) (hp : Passing width source start target lo)
    (ha : Aligned (2 * width) source start) (hlen : source.length = start.length)
    (hdvd : 2 * width ∣ lo) (hn : lo + n * (2 * width) < source.length + 2 * width) :
    match mergeBlocks ask blank source width source.length (List.range' lo n (2 * width)) calls
      target with
    | .ok (target', _) => Passing width source start target' (lo + n * (2 * width))
    | .error f => Halted source start f := by
  induction n generalizing lo calls target with
  | zero => simpa [mergeBlocks] using hp
  | succ n ih =>
    rw [List.range'_succ]
    unfold mergeBlocks
    have hblock := hp.block ask blank calls ha hlen hdvd
      (by rw [Nat.succ_mul] at hn; omega)
    cases hrun : mergeBlock ask blank source width source.length lo calls target with
    | error f =>
      rw [hrun] at hblock
      exact hblock
    | ok made =>
      obtain ⟨target', calls'⟩ := made
      rw [hrun] at hblock
      have hp' : Passing width source start target' (lo + 2 * width) := hblock
      have := ih calls' hp' (Nat.dvd_add hdvd (Nat.dvd_refl _))
        (by rw [Nat.succ_mul] at hn; omega)
      have hnext : lo + 2 * width + n * (2 * width) = lo + (n + 1) * (2 * width) := by
        rw [Nat.succ_mul n]
        omega
      rwa [hnext] at this

/-- A whole pass leaves the run it wrote with what it read. -/
theorem pass_spec {width : Nat} (calls : Nat) (hwidth : 0 < width)
    (ha : Aligned (2 * width) source start) (hlen : source.length = start.length) :
    match mergeBlocks ask blank source width source.length
      (MergePasses.blocks width source.length) calls start with
    | .ok (target, _) => target.length = start.length ∧ Aligned (2 * width) target source
    | .error f => Halted source start f := by
  set count := source.length with hcount
  have hdiv := Nat.div_add_mod (count + 2 * width - 1) (2 * width)
  have hmod := Nat.mod_lt (count + 2 * width - 1) (show 0 < 2 * width by omega)
  set n := (count + 2 * width - 1) / (2 * width) with hn
  rw [Nat.mul_comm] at hdiv
  have hp : Passing width source start start 0 :=
    { length := rfl
      done := fun n hn _ v => by rw [Nat.le_zero.1 hn, List.take_zero, List.take_zero]
      rest := rfl }
  have hblocks := hp.blocks ask blank calls n ha hlen
    (Nat.dvd_zero _) (by omega)
  unfold MergePasses.blocks
  rw [← hn]
  cases hrun : mergeBlocks ask blank source width count (List.range' 0 n (2 * width)) calls start with
  | error f =>
    rw [hrun] at hblocks
    exact hblocks
  | ok made =>
    obtain ⟨target, calls'⟩ := made
    rw [hrun] at hblocks
    have hp' : Passing width source start target (0 + n * (2 * width)) := hblocks
    refine ⟨hp'.length, fun m hm v => ?_⟩
    by_cases hle : m ≤ 0 + n * (2 * width)
    · exact hp'.done m hle hm v
    · have := hp'.done _ (Nat.le_refl _) (Nat.dvd_add (Nat.dvd_zero _) (Nat.dvd_mul_left _ _)) v
      have hlength := hp'.length
      rw [List.take_of_length_le (by omega), List.take_of_length_le (by omega)] at this
      rwa [List.take_of_length_le (by omega), List.take_of_length_le (by omega)]

/-- The written run of a pass that was cut short holds what was read, exactly where
the block it stopped in is unspoilt. -/
theorem Halted.perm_iff {f : Fault α ε} (hf : Halted source start f) (hperm : start.Perm source) :
    f.target.Perm source ↔ f.Unspoilt := by
  obtain ⟨hreads, ⟨hi, hj, hhi⟩, hk, hinside, hrest, hmoved⟩ := hf
  have hextract : f.target.extract f.k f.hi = start.extract f.k f.hi := by
    rw [List.extract_eq_take_drop, List.extract_eq_take_drop, hrest]
  unfold Fault.Unspoilt
  rw [hextract, hreads, List.perm_iff_count, List.perm_iff_count]
  refine forall_congr' fun v => ?_
  have htarget : f.target.count v = (f.target.take f.k).count v + (start.drop f.k).count v := by
    rw [← hrest, ← List.count_append, List.take_append_drop]
  have hstart : start.count v = (start.take f.k).count v + (start.drop f.k).count v := by
    rw [← List.count_append, List.take_append_drop]
  have hunwritten := count_take_extract start hk v
  have hleft := count_take_extract source hi v
  have hright := count_take_extract source hhi v
  have hsame := (List.perm_iff_count.1 hperm) v
  have := hinside v
  have := hmoved v
  rw [List.count_append]
  omega

/-- A run that stops leaves the run to be ordered a permutation of what it was,
exactly where it was being read or its block is unspoilt. -/
theorem mergePasses_error_perm {fuel width calls : Nat} {intoOwn : Bool}
    {own : List α} (hwidth : 0 < width) (ha : Aligned (2 * width) source start)
    (hlen : source.length = start.length) (hown : source.Perm own) {stop : Bool × Fault α ε}
    (hstop : mergePasses ask blank source.length fuel width intoOwn calls source start =
      .error stop) :
    (kept stop).Perm own ↔ (stop.1 = true → stop.2.Unspoilt) := by
  induction fuel generalizing width calls intoOwn source start with
  | zero => cases hstop
  | succ fuel ih =>
    have hpass := pass_spec ask blank calls hwidth ha hlen
    unfold mergePasses at hstop
    split at hstop
    · cases hrun : mergeBlocks ask blank source width source.length
        (MergePasses.blocks width source.length) calls start with
      | error f =>
        rw [hrun] at hstop hpass
        cases hstop
        have hf : Halted source start f := hpass
        have hperm : start.Perm source := (ha.perm (by omega)).symm
        cases intoOwn with
        | true =>
          rw [← hf.perm_iff hperm]
          exact ⟨fun h _ => h.trans hown.symm, fun h => (h rfl).trans hown⟩
        | false =>
          refine iff_of_true ?_ nofun
          show f.source.Perm own
          rw [hf.reads]
          exact hown
      | ok made =>
        obtain ⟨target, calls'⟩ := made
        rw [hrun] at hstop hpass
        obtain ⟨hlength, ha'⟩ := hpass
        have hlen' : target.length = source.length := by rw [hlength, hlen]
        rw [← hlen'] at hstop
        exact ih (by omega) ha'.double hlen' ((ha'.perm (by omega)).trans hown) hstop
    · cases hstop

end Merging

end Counting

end MergePasses
