import Lhat.Arithmetic.Ordering
import Mathlib.Logic.Relation

/-!
# The counted loop

`FORPREP` stands above the body of a counted loop and enters it or leaves past
the end; `FORLOOP` stands below, moves the focus and turns back or goes on. The
interpreter has the turn three times: the fast path for three integers, the
general one behind it, and the tail of the hot loop, which may take the turn
instead of the full instruction whenever it likes.

A loop is a machine over its three registers, the place it stands at and the
slice it has left (`Step`); a label is a run of the body. `counted_run` says
which focuses the body runs with.
-/

namespace Lhat.Arithmetic

/-- The registers of the loop, where it stands, and `steps_left`. -/
structure LoopState where
  focus : LhatValue
  bound : LhatValue
  step : LhatValue
  pc : Int
  stepsLeft : Nat
deriving DecidableEq

/-- How an instruction ends: with the next one, with the slice at its end and the
place kept, or with a type error. -/
inductive Outcome where
  | next (s : LoopState)
  | suspended (s : LoopState)
  | typeError
deriving DecidableEq

/-- `LHAT_SLICE_POLL`. -/
def slicePoll (s : LoopState) : Outcome :=
  if s.stepsLeft ≠ 0 ∧ s.stepsLeft - 1 = 0 then .suspended { s with stepsLeft := s.stepsLeft - 1 }
  else .next { s with stepsLeft := s.stepsLeft - 1 }

/-- The direction: `FORPREP` and `FORLOOP`, or `FORPREPD` and `FORLOOPD`. -/
inductive Direction where
  | up | down
deriving DecidableEq, Repr

namespace Direction

def exact : Direction → Int64 → Int64 → Option Int64
  | up => addExact
  | down => subtractExact

def operator : Direction → Operator
  | up => .add
  | down => .sub

def comparison : Direction → Comparison
  | up => .le
  | down => .ge

/-- `<=` or `>=` of two integers. -/
def reaches : Direction → Int64 → Int64 → Bool
  | up, focus, bound => decide (focus ≤ bound)
  | down, focus, bound => decide (bound ≤ focus)

end Direction

section Instructions

variable (h : Heap) (m : Pow) (d : Direction) (offset : Int)

/-- `LHAT_BC_FORPREP`, `LHAT_BC_FORPREPD`. -/
def forPrep (s : LoopState) : Outcome :=
  let s := { s with pc := s.pc + 1 }
  if !isNumber s.focus || !isNumber s.bound || !isNumber s.step then .typeError
  else
    let enter := (ordering h d.comparison s.focus s.bound).getD false
    .next (if enter then s else { s with pc := s.pc + offset })

/-- `VM_FORLOOP_FAST`; `none` where it falls through. -/
def forLoopFast (s : LoopState) : Option Outcome :=
  match s.focus, s.bound, s.step with
  | .integer focus, .integer bound, .integer step =>
    match d.exact focus step with
    | some next =>
      let s := { s with focus := .integer next }
      if d.reaches next bound then some (slicePoll { s with pc := s.pc + offset })
      else some (.next s)
    -- An overflow is past any integer bound: the loop is over.
    | none => some (.next s)
  | _, _, _ => none

/-- `forloop_generic`. -/
def forLoopGeneric (s : LoopState) : Outcome :=
  match arithmetic m d.operator s.focus s.step with
  | some (.ok moved) =>
    let s := { s with focus := moved }
    let more := (ordering h d.comparison moved s.bound).getD false
    if more then slicePoll { s with pc := s.pc + offset } else .next s
  | _ => .typeError

/-- `LHAT_BC_FORLOOP`, `LHAT_BC_FORLOOPD`. -/
def forLoop (s : LoopState) : Outcome :=
  let s := { s with pc := s.pc + 1 }
  (forLoopFast d offset s).getD (forLoopGeneric h m d offset s)

/-- The tail of the hot loop; `none` where it leaves to the full interpreter,
with nothing written. -/
def hotForLoop (s : LoopState) : Option LoopState :=
  match s.focus, s.bound, s.step with
  | .integer focus, .integer bound, .integer step =>
    match d.exact focus step with
    | none => some { s with pc := s.pc + 1 }
    | some next =>
      let again := d.reaches next bound
      if again ∧ s.stepsLeft = 1 then none
      else
        let s := { s with focus := .integer next }
        if again then
          some { s with stepsLeft := s.stepsLeft - 1, pc := s.pc + 1 + offset }
        else some { s with pc := s.pc + 1 }
  | _, _, _ => none

end Instructions

/-- Where the two instructions stand: the body is between them, and may be empty.
The jumps are as the compiler lays them, down past the turn and back to the body. -/
structure CountedLoop where
  top : Int
  looping : Int
  below : top < looping

namespace CountedLoop

def prepOffset (l : CountedLoop) : Int := l.looping - l.top

def turnOffset (l : CountedLoop) : Int := l.top - l.looping

/-- The focus the body is entered with, where it is. -/
def entered (l : CountedLoop) (s : LoopState) : Option LhatValue :=
  if s.pc = l.top + 1 then some s.focus else none

end CountedLoop

/-- A step of the machine, with the focus of the body it enters. The body leaves
the three registers as they are and may take any part of the slice; a run that
was suspended goes on with a new one. -/
inductive Step (h : Heap) (m : Pow) (d : Direction) (l : CountedLoop) :
    LoopState → Option LhatValue → LoopState → Prop
  | prep {s t} : s.pc = l.top → forPrep h d l.prepOffset s = .next t →
      Step h m d l s (l.entered t) t
  | body {s} (left : Nat) : l.top + 1 < l.looping → s.pc = l.top + 1 →
      Step h m d l s none { s with pc := l.looping, stepsLeft := left }
  | turn {s t} : s.pc = l.looping → forLoop h m d l.turnOffset s = .next t →
      Step h m d l s (l.entered t) t
  | resumed {s t} (slice : Nat) : s.pc = l.looping →
      forLoop h m d l.turnOffset s = .suspended t →
      Step h m d l s (l.entered t) { t with stepsLeft := slice }
  | hot {s t} : s.pc = l.looping → hotForLoop d l.turnOffset s = some t →
      Step h m d l s (l.entered t) t

/-- The machine from `s`, with the focuses the body has been entered with. -/
inductive Run (h : Heap) (m : Pow) (d : Direction) (l : CountedLoop) (s : LoopState) :
    List LhatValue → LoopState → Prop
  | refl : Run h m d l s [] s
  | tail {trace t label u} : Run h m d l s trace t → Step h m d l t label u →
      Run h m d l s (trace ++ label.toList) u

namespace Direction

/-- One step on, of whole numbers. -/
def moved : Direction → Int → Int → Int
  | up, focus, step => focus + step
  | down, focus, step => focus - step

/-- The focus has not passed the bound. -/
def Within : Direction → Int → Int → Prop
  | up, focus, bound => focus ≤ bound
  | down, focus, bound => bound ≤ focus

instance (d : Direction) (focus bound : Int) : Decidable (d.Within focus bound) := by
  cases d <;> exact inferInstanceAs (Decidable (_ ≤ _))

/-- The focus after so many steps. -/
def after (d : Direction) (start step : Int) (k : Nat) : Int := d.moved start (k * step)

/-- How far the bound is ahead. -/
def ahead : Direction → Int → Int → Int
  | up, focus, bound => bound - focus
  | down, focus, bound => focus - bound

/-- How many values of the range there are. -/
def count (d : Direction) (start bound step : Int) : Nat :=
  if d.Within start bound then (d.ahead start bound / step).toNat + 1 else 0

/-- The range a loop stands for: the values from the start on, a step apart,
that have not passed the bound. -/
def range (d : Direction) (start bound step : Int) : List Int :=
  (List.range (d.count start bound step)).map (d.after start step)

variable {d : Direction}

theorem exact_eq (d : Direction) (x y : Int64) :
    d.exact x y =
      if Fits (d.moved x.toInt y.toInt) then some (Int64.ofInt (d.moved x.toInt y.toInt))
      else none := by
  cases d with
  | up => exact addExact_eq x y
  | down => exact subtractExact_eq x y

theorem reaches_iff {x y : Int64} : d.reaches x y = true ↔ d.Within x.toInt y.toInt := by
  cases d <;> simp [reaches, Within, Int64.le_iff_toInt_le]

theorem after_zero (start step : Int) : d.after start step 0 = start := by
  cases d <;> simp [after, moved]

theorem after_succ (start step : Int) (k : Nat) :
    d.after start step (k + 1) = d.moved (d.after start step k) step := by
  cases d <;> simp only [after, moved] <;> push_cast <;> ring

theorem not_within_of_overflow {focus bound step : Int} (hfocus : Fits focus) (hbound : Fits bound)
    (hstep : 0 < step) (hover : ¬ Fits (d.moved focus step)) :
    ¬ d.Within (d.moved focus step) bound := by
  unfold Fits at *
  cases d <;> simp only [moved, Within] at * <;> omega

theorem within_after_iff {start bound step : Int} (hstep : 0 < step) (k : Nat) :
    d.Within (d.after start step k) bound ↔ k < d.count start bound step := by
  have hk : 0 ≤ (k : Int) * step := Int.mul_nonneg (Int.natCast_nonneg k) hstep.le
  have hahead : d.Within (d.after start step k) bound ↔ k * step ≤ d.ahead start bound := by
    cases d <;> simp only [Within, after, moved, ahead] <;> omega
  unfold count
  by_cases hin : d.Within start bound
  · have hnonneg : 0 ≤ d.ahead start bound := by
      cases d <;> simp only [Within, ahead] at * <;> omega
    rw [if_pos hin, hahead, ← Int.le_ediv_iff_mul_le hstep]
    have := Int.ediv_nonneg hnonneg hstep.le
    omega
  · rw [if_neg hin, hahead]
    have : d.ahead start bound < 0 := by
      cases d <;> simp only [Within, ahead] at * <;> omega
    omega

end Direction

/-! ### One turn -/

section Turns

variable {h : Heap} {m : Pow} {d : Direction} {offset : Int}

/-- The three registers hold integers. -/
def Holds (s : LoopState) (focus bound step : Int64) : Prop :=
  s.focus = .integer focus ∧ s.bound = .integer bound ∧ s.step = .integer step

theorem ordering_integers (h : Heap) (d : Direction) (x y : Int64) :
    ordering h d.comparison (.integer x) (.integer y) = some (d.reaches x y) := by
  cases d with
  | up =>
    simp only [ordering, Direction.comparison, vmThreeWay_integers, Option.bind_eq_bind,
      Option.bind_some, Direction.reaches, threeWay_nonpos, Std.isLE_compare,
      Int64.le_iff_toInt_le]
  | down =>
    simp only [ordering, Direction.comparison, vmThreeWay_integers, Option.bind_eq_bind,
      Option.bind_some, Direction.reaches, threeWay_nonneg, Std.isGE_compare,
      Int64.le_iff_toInt_le]

theorem forPrep_integers {s : LoopState} {focus bound step : Int64} (hs : Holds s focus bound step) :
    forPrep h d offset s =
      .next (if d.reaches focus bound then { s with pc := s.pc + 1 }
        else { s with pc := s.pc + 1 + offset }) := by
  obtain ⟨hfocus, hbound, hstep⟩ := hs
  simp [forPrep, hfocus, hbound, hstep, isNumber, ordering_integers]

theorem forLoop_integers {s : LoopState} {focus bound step : Int64} (hs : Holds s focus bound step) :
    forLoop h m d offset s =
      match d.exact focus step with
      | none => .next { s with pc := s.pc + 1 }
      | some next =>
        if d.reaches next bound then
          slicePoll { s with focus := .integer next, pc := s.pc + 1 + offset }
        else .next { s with focus := .integer next, pc := s.pc + 1 } := by
  obtain ⟨hfocus, hbound, hstep⟩ := hs
  simp only [forLoop, forLoopFast, hfocus, hbound, hstep]
  cases d.exact focus step with
  | none => rfl
  | some next =>
    by_cases hin : d.reaches next bound <;> simp [hin]

theorem forLoop_of_hot {s t : LoopState} (hhot : hotForLoop d offset s = some t) :
    forLoop h m d offset s = .next t := by
  unfold hotForLoop at hhot
  split at hhot
  · next focus bound step hfocus hbound hstep =>
      rw [forLoop_integers ⟨hfocus, hbound, hstep⟩]
      split at hhot
      · exact congrArg Outcome.next (Option.some.inj hhot)
      · next next hnext =>
          by_cases hin : d.reaches next bound
          · by_cases hleft : s.stepsLeft = 1
            · simp [hin, hleft] at hhot
            · have hgo : ¬ (s.stepsLeft ≠ 0 ∧ s.stepsLeft - 1 = 0) := by omega
              simp only [hin, hleft, and_false, if_false, if_true, Option.some.injEq] at hhot
              simp only [hin, if_true, slicePoll, hgo, if_false, hhot]
          · simp only [hin, Bool.false_eq_true, false_and, if_false, Option.some.injEq] at hhot
            simp only [hin, Bool.false_eq_true, if_false, hhot]
  · cases hhot

theorem hot_eq_none_iff {s : LoopState} :
    hotForLoop d offset s = none ↔
      ∀ focus bound step, Holds s focus bound step →
        ∃ next, d.exact focus step = some next ∧ d.reaches next bound = true ∧ s.stepsLeft = 1 := by
  constructor
  · rintro hnone focus bound step ⟨hfocus, hbound, hstep⟩
    simp only [hotForLoop, hfocus, hbound, hstep] at hnone
    split at hnone
    · cases hnone
    · next next hnext =>
        refine ⟨next, hnext, ?_⟩
        by_contra hnot
        rw [if_neg hnot] at hnone
        split at hnone <;> cases hnone
  · intro hall
    unfold hotForLoop
    split
    · next focus bound step hfocus hbound hstep =>
        obtain ⟨next, hnext, hin, hleft⟩ := hall focus bound step ⟨hfocus, hbound, hstep⟩
        simp [hnext, hin, hleft]
    · rfl

theorem forLoopGeneric_eq {s : LoopState} {o : Outcome} {focus bound step next : Int64}
    (hs : Holds s focus bound step) (hnext : d.exact focus step = some next)
    (hfast : forLoopFast d offset s = some o) : forLoopGeneric h m d offset s = o := by
  obtain ⟨hfocus, hbound, hstep⟩ := hs
  have hmoved : arithmetic m d.operator (.integer focus) (.integer step) =
      some (.ok (.integer next)) := by
    cases d with
    | up => simp [arithmetic, Direction.operator, isNumber, show addExact focus step = some next from hnext]
    | down =>
      simp [arithmetic, Direction.operator, isNumber, show subtractExact focus step = some next from hnext]
  simp only [forLoopFast, hfocus, hbound, hstep, hnext] at hfast
  simp only [forLoopGeneric, hfocus, hbound, hstep, hmoved, ordering_integers, Option.getD_some]
  by_cases hin : d.reaches next bound
  · rw [if_pos hin] at hfast ⊢
    exact Option.some.inj hfast
  · rw [if_neg hin] at hfast ⊢
    exact Option.some.inj hfast

end Turns

/-! ### Runs -/

/-- What a turn does of three integers: it turns back with the focus moved exactly,
or goes on past the loop because the moved focus has passed the bound. -/
structure Turned (d : Direction) (offset : Int) (s t : LoopState) (focus bound step : Int64) :
    Prop where
  sameBound : t.bound = s.bound
  sameStep : t.step = s.step
  place : (d.Within (d.moved focus.toInt step.toInt) bound.toInt ∧
      Fits (d.moved focus.toInt step.toInt) ∧
      t.focus = .integer (Int64.ofInt (d.moved focus.toInt step.toInt)) ∧
      t.pc = s.pc + 1 + offset) ∨
    (¬ d.Within (d.moved focus.toInt step.toInt) bound.toInt ∧ t.pc = s.pc + 1)

theorem slicePoll_eq {s t : LoopState} (h : slicePoll s = .next t ∨ slicePoll s = .suspended t) :
    t = { s with stepsLeft := s.stepsLeft - 1 } := by
  unfold slicePoll at h
  split at h
  · rcases h with h | h
    · cases h
    · exact (Outcome.suspended.inj h).symm
  · rcases h with h | h
    · exact (Outcome.next.inj h).symm
    · cases h

theorem turned_of_forLoop {h : Heap} {m : Pow} {d : Direction} {offset : Int} {s t : LoopState}
    {focus bound step : Int64} (hs : Holds s focus bound step) (hpos : 0 < step.toInt)
    (hloop : forLoop h m d offset s = .next t ∨ forLoop h m d offset s = .suspended t) :
    Turned d offset s t focus bound step := by
  rw [forLoop_integers hs, Direction.exact_eq] at hloop
  by_cases hfit : Fits (d.moved focus.toInt step.toInt)
  · rw [if_pos hfit] at hloop
    simp only [Direction.reaches_iff, toInt_ofInt hfit] at hloop
    by_cases hin : d.Within (d.moved focus.toInt step.toInt) bound.toInt
    · simp only [if_pos hin] at hloop
      obtain rfl := slicePoll_eq hloop
      exact ⟨rfl, rfl, Or.inl ⟨hin, hfit, rfl, rfl⟩⟩
    · simp only [if_neg hin, reduceCtorEq, or_false, Outcome.next.injEq] at hloop
      subst hloop
      exact ⟨rfl, rfl, Or.inr ⟨hin, rfl⟩⟩
  · rw [if_neg hfit] at hloop
    simp only [reduceCtorEq, or_false, Outcome.next.injEq] at hloop
    subst hloop
    exact ⟨rfl, rfl, Or.inr ⟨Direction.not_within_of_overflow (fits_toInt focus) (fits_toInt bound)
      hpos hfit, rfl⟩⟩

/-- The focus after so many steps, as a register holds it. -/
def focusAt (d : Direction) (start step : Int64) (k : Nat) : LhatValue :=
  .integer (Int64.ofInt (d.after start.toInt step.toInt k))

/-- Where the machine may stand when the body has been entered `k` times. -/
inductive Place (d : Direction) (l : CountedLoop) (start bound step : Int64) (k : Nat)
    (t : LoopState) : Prop
  | before : t.pc = l.top → k = 0 → t.focus = .integer start → Place d l start bound step k t
  | inside (j : Nat) : t.pc = l.top + 1 ∨ t.pc = l.looping → k = j + 1 →
      t.focus = focusAt d start step j → Fits (d.after start.toInt step.toInt j) →
      d.Within (d.after start.toInt step.toInt j) bound.toInt → Place d l start bound step k t
  | past : t.pc = l.looping + 1 →
      ¬ d.Within (d.after start.toInt step.toInt k) bound.toInt → Place d l start bound step k t

/-- What every run keeps. -/
structure Counting (d : Direction) (l : CountedLoop) (start bound step : Int64)
    (trace : List LhatValue) (t : LoopState) : Prop where
  holdsBound : t.bound = .integer bound
  holdsStep : t.step = .integer step
  visited : trace = (List.range trace.length).map (focusAt d start step)
  within : ∀ j < trace.length, d.Within (d.after start.toInt step.toInt j) bound.toInt
  place : Place d l start bound step trace.length t

section Invariant

variable {h : Heap} {m : Pow} {d : Direction} {l : CountedLoop} {start bound step : Int64}
  {trace : List LhatValue} {t u : LoopState}

section

variable (hc : Counting d l start bound step trace t)
include hc

theorem Counting.enter
    (hbound : u.bound = t.bound) (hstep : u.step = t.step) (hpc : u.pc = l.top + 1)
    (hfocus : u.focus = focusAt d start step trace.length)
    (hfit : Fits (d.after start.toInt step.toInt trace.length))
    (hin : d.Within (d.after start.toInt step.toInt trace.length) bound.toInt) :
    Counting d l start bound step (trace ++ (l.entered u).toList) u := by
  have hlabel : l.entered u = some (focusAt d start step trace.length) := by
    rw [CountedLoop.entered, if_pos hpc, hfocus]
  have hlength : (trace ++ (l.entered u).toList).length = trace.length + 1 := by
    rw [hlabel, Option.toList_some, List.length_append, List.length_singleton]
  refine ⟨hbound.trans hc.holdsBound, hstep.trans hc.holdsStep, ?_, ?_, ?_⟩
  · rw [hlength, List.range_succ, List.map_append, ← hc.visited, hlabel]
    rfl
  · intro j hj
    rw [hlength] at hj
    rcases Nat.lt_succ_iff_lt_or_eq.1 hj with hlt | rfl
    · exact hc.within j hlt
    · exact hin
  · rw [hlength]
    exact Place.inside trace.length (Or.inl hpc) rfl hfocus hfit hin

theorem Counting.leave
    (hbound : u.bound = t.bound) (hstep : u.step = t.step) (hpc : u.pc = l.looping + 1)
    (hpast : ¬ d.Within (d.after start.toInt step.toInt trace.length) bound.toInt) :
    Counting d l start bound step (trace ++ (l.entered u).toList) u := by
  have hlabel : l.entered u = none := by
    rw [CountedLoop.entered, if_neg]
    have := l.below
    omega
  rw [hlabel, Option.toList_none, List.append_nil]
  exact ⟨hbound.trans hc.holdsBound, hstep.trans hc.holdsStep, hc.visited, hc.within,
    Place.past hpc hpast⟩

theorem Counting.turned (hpc : t.pc = l.looping)
    {j : Nat} (hlength : trace.length = j + 1) (hfit : Fits (d.after start.toInt step.toInt j))
    (hturn : Turned d l.turnOffset t u (Int64.ofInt (d.after start.toInt step.toInt j)) bound step) :
    Counting d l start bound step (trace ++ (l.entered u).toList) u := by
  have hmoved : d.moved (Int64.ofInt (d.after start.toInt step.toInt j)).toInt step.toInt =
      d.after start.toInt step.toInt trace.length := by
    rw [toInt_ofInt hfit, hlength, Direction.after_succ]
  obtain ⟨hbound, hstep, hplace⟩ := hturn
  rw [hmoved] at hplace
  rcases hplace with ⟨hin, hfit', hfocus, hnext⟩ | ⟨hpast, hnext⟩
  · refine hc.enter hbound hstep ?_ hfocus hfit' hin
    rw [hnext, hpc, CountedLoop.turnOffset]
    omega
  · refine hc.leave hbound hstep ?_ hpast
    rw [hnext, hpc]

theorem Counting.withSlice (slice : Nat) :
    Counting d l start bound step trace { t with stepsLeft := slice } := by
  refine ⟨hc.holdsBound, hc.holdsStep, hc.visited, hc.within, ?_⟩
  rcases hc.place with ⟨hpc, hzero, hfocus⟩ | ⟨j, hpc, hlength, hfocus, hfit, hin⟩ | ⟨hpc, hpast⟩
  · exact Place.before hpc hzero hfocus
  · exact Place.inside j hpc hlength hfocus hfit hin
  · exact Place.past hpc hpast

end

theorem focusAt_zero (d : Direction) (start step : Int64) :
    focusAt d start step 0 = .integer start := by
  rw [focusAt, Direction.after_zero, Int64.ofInt_toInt]

theorem Counting.of_prep (hc : Counting d l start bound step trace t) (hpc : t.pc = l.top)
    (hprep : forPrep h d l.prepOffset t = .next u) :
    Counting d l start bound step (trace ++ (l.entered u).toList) u := by
  have hbelow := l.below
  rcases hc.place with ⟨-, hzero, hfocus⟩ | ⟨j, hat, -⟩ | ⟨hat, -⟩
  · rw [forPrep_integers ⟨hfocus, hc.holdsBound, hc.holdsStep⟩] at hprep
    obtain rfl := Outcome.next.inj hprep
    have hstart : d.after start.toInt step.toInt trace.length = start.toInt := by
      rw [hzero, Direction.after_zero]
    by_cases hin : d.reaches start bound
    · rw [if_pos hin]
      refine hc.enter rfl rfl (by rw [← hpc]) ?_ ?_ ?_
      · rw [hzero, focusAt_zero]
        exact hfocus
      · rw [hstart]
        exact fits_toInt start
      · rw [hstart]
        exact Direction.reaches_iff.1 hin
    · rw [if_neg hin]
      refine hc.leave rfl rfl ?_ ?_
      · change t.pc + 1 + l.prepOffset = l.looping + 1
        rw [hpc, CountedLoop.prepOffset]
        omega
      · rw [hstart]
        exact mt Direction.reaches_iff.2 hin
  · omega
  · omega

theorem Counting.of_step (hpos : 0 < step.toInt) (hc : Counting d l start bound step trace t)
    {label : Option LhatValue} (hstep : Step h m d l t label u) :
    Counting d l start bound step (trace ++ label.toList) u := by
  have hbelow := l.below
  have hturns : ∀ v, t.pc = l.looping →
      forLoop h m d l.turnOffset t = .next v ∨ forLoop h m d l.turnOffset t = .suspended v →
      Counting d l start bound step (trace ++ (l.entered v).toList) v := by
    intro v hpc hloop
    rcases hc.place with ⟨hat, -, -⟩ | ⟨j, -, hlength, hfocus, hfit, -⟩ | ⟨hat, -⟩
    · omega
    · exact hc.turned hpc hlength hfit
        (turned_of_forLoop ⟨hfocus, hc.holdsBound, hc.holdsStep⟩ hpos hloop)
    · omega
  cases hstep with
  | prep hpc hprep => exact hc.of_prep hpc hprep
  | body left hbody hpc =>
    rcases hc.place with ⟨hat, -, -⟩ | ⟨j, hat, hlength, hfocus, hfit, hin⟩ | ⟨hat, -⟩
    · omega
    · rw [Option.toList_none, List.append_nil]
      exact ⟨hc.holdsBound, hc.holdsStep, hc.visited, hc.within,
        Place.inside j (Or.inr rfl) hlength hfocus hfit hin⟩
    · omega
  | turn hpc hloop => exact hturns _ hpc (Or.inl hloop)
  | resumed slice hpc hloop => exact (hturns _ hpc (Or.inr hloop)).withSlice slice
  | hot hpc hhot => exact hturns _ hpc (Or.inl (forLoop_of_hot hhot))

theorem Counting.of_run (hpos : 0 < step.toInt) {s : LoopState}
    (hs : Counting d l start bound step [] s) (hrun : Run h m d l s trace t) :
    Counting d l start bound step trace t := by
  induction hrun with
  | refl => exact hs
  | tail _ hstep ih => exact ih.of_step hpos hstep

/-- The machine before the loop. -/
def entering (l : CountedLoop) (start bound step : Int64) (slice : Nat) : LoopState :=
  ⟨.integer start, .integer bound, .integer step, l.top, slice⟩

theorem counting_entering (slice : Nat) :
    Counting d l start bound step [] (entering l start bound step slice) :=
  ⟨rfl, rfl, rfl, fun j hj => absurd hj (Nat.not_lt_zero j), Place.before rfl rfl rfl⟩

/-! ### The end of a run -/

/-- How much of a turn is left at a place. -/
def turnLeft (l : CountedLoop) (pc : Int) : Nat :=
  if pc = l.top then 3 else if pc = l.looping then 1 else 2

theorem turnLeft_top : turnLeft l l.top = 3 := if_pos rfl

theorem turnLeft_looping : turnLeft l l.looping = 1 := by
  have := l.below
  rw [turnLeft, if_neg (by omega), if_pos rfl]

theorem turnLeft_le (l : CountedLoop) {pc : Int} (hpc : pc ≠ l.top) : turnLeft l pc ≤ 2 := by
  rw [turnLeft, if_neg hpc]
  split <;> omega

theorem turnLeft_body {pc : Int} (hpc : pc ≠ l.top) (hpc' : pc ≠ l.looping) :
    turnLeft l pc = 2 := by
  rw [turnLeft, if_neg hpc, if_neg hpc']

/-- How far a state is from the end. -/
def remaining (d : Direction) (l : CountedLoop) (t : LoopState) : Nat :=
  match t.focus, t.bound with
  | .integer focus, .integer bound =>
    if t.pc = l.looping + 1 then 0
    else 3 * (d.ahead focus.toInt bound.toInt).toNat + turnLeft l t.pc
  | _, _ => 0

theorem remaining_eq {focus bound : Int64} (hfocus : t.focus = .integer focus)
    (hbound : t.bound = .integer bound) (hpc : t.pc ≠ l.looping + 1) :
    remaining d l t = 3 * (d.ahead focus.toInt bound.toInt).toNat + turnLeft l t.pc := by
  simp only [remaining, hfocus, hbound, if_neg hpc]

theorem remaining_past (hpc : t.pc = l.looping + 1) : remaining d l t = 0 := by
  unfold remaining
  split
  · rw [if_pos hpc]
  · rfl

theorem Direction.ahead_nonneg {focus bound : Int} (hin : d.Within focus bound) :
    0 ≤ d.ahead focus bound := by
  cases d <;> simp only [Direction.Within, Direction.ahead] at * <;> omega

theorem Direction.ahead_moved (focus bound step : Int) :
    d.ahead (d.moved focus step) bound = d.ahead focus bound - step := by
  cases d <;> simp only [Direction.moved, Direction.ahead] <;> omega

theorem remaining_lt_of_turned (hpos : 0 < step.toInt) (hpc : t.pc = l.looping)
    {focus : Int64} (hfocus : t.focus = .integer focus) (hbound : t.bound = .integer bound)
    (hturn : Turned d l.turnOffset t u focus bound step) : remaining d l u < remaining d l t := by
  have hbelow := l.below
  rw [remaining_eq hfocus hbound (by omega), hpc, turnLeft_looping]
  obtain ⟨hbound', -, ⟨hin, hfit, hfocus', hnext⟩ | ⟨-, hnext⟩⟩ := hturn
  · rw [hpc, CountedLoop.turnOffset] at hnext
    have hahead := Direction.ahead_nonneg hin
    have hleft := turnLeft_le l (show u.pc ≠ l.top by omega)
    rw [remaining_eq hfocus' (hbound'.trans hbound) (by omega), toInt_ofInt hfit]
    rw [Direction.ahead_moved] at hahead ⊢
    omega
  · rw [remaining_past (by omega)]
    omega

theorem remaining_lt_of_prep (hc : Counting d l start bound step trace t) (hpc : t.pc = l.top)
    (hprep : forPrep h d l.prepOffset t = .next u) : remaining d l u < remaining d l t := by
  have hbelow := l.below
  rcases hc.place with ⟨-, -, hfocus⟩ | ⟨j, hat, -⟩ | ⟨hat, -⟩
  · rw [forPrep_integers ⟨hfocus, hc.holdsBound, hc.holdsStep⟩] at hprep
    have hu := Outcome.next.inj hprep
    rw [remaining_eq hfocus hc.holdsBound (by omega), hpc, turnLeft_top]
    by_cases hin : d.reaches start bound
    · rw [if_pos hin] at hu
      have hat : u.pc = l.top + 1 := by rw [← hu, ← hpc]
      have hleft := turnLeft_le l (show u.pc ≠ l.top by omega)
      rw [remaining_eq (by rw [← hu]; exact hfocus) (by rw [← hu]; exact hc.holdsBound) (by omega)]
      omega
    · rw [if_neg hin] at hu
      have hat : u.pc = l.top + 1 + l.prepOffset := by rw [← hu, ← hpc]
      rw [CountedLoop.prepOffset] at hat
      rw [remaining_past (by omega)]
      omega
  · omega
  · omega

theorem remaining_lt (hpos : 0 < step.toInt) (hc : Counting d l start bound step trace t)
    {label : Option LhatValue} (hstep : Step h m d l t label u) :
    remaining d l u < remaining d l t := by
  have hbelow := l.below
  have hturns : ∀ v, t.pc = l.looping →
      forLoop h m d l.turnOffset t = .next v ∨ forLoop h m d l.turnOffset t = .suspended v →
      remaining d l v < remaining d l t := by
    intro v hpc hloop
    rcases hc.place with ⟨hat, -, -⟩ | ⟨j, -, -, hfocus, -, -⟩ | ⟨hat, -⟩
    · omega
    · exact remaining_lt_of_turned hpos hpc hfocus hc.holdsBound
        (turned_of_forLoop ⟨hfocus, hc.holdsBound, hc.holdsStep⟩ hpos hloop)
    · omega
  cases hstep with
  | prep hpc hprep => exact remaining_lt_of_prep hc hpc hprep
  | body left hbody hpc =>
    rcases hc.place with ⟨hat, -, -⟩ | ⟨j, -, -, hfocus, -, -⟩ | ⟨hat, -⟩
    · omega
    · have hthere : remaining d l { t with pc := l.looping, stepsLeft := left } = _ :=
        remaining_eq hfocus hc.holdsBound (show l.looping ≠ l.looping + 1 by omega)
      rw [hthere, remaining_eq hfocus hc.holdsBound (by omega), turnLeft_looping,
        turnLeft_body (by omega) (by omega)]
      omega
    · omega
  | turn hpc hloop => exact hturns _ hpc (Or.inl hloop)
  | resumed slice hpc hloop =>
    have hless := hturns _ hpc (Or.inr hloop)
    exact hless
  | hot hpc hhot => exact hturns _ hpc (Or.inl (forLoop_of_hot hhot))

theorem forLoop_ne_typeError {offset : Int} {focus : Int64} (hs : Holds t focus bound step) :
    forLoop h m d offset t ≠ .typeError := by
  rw [forLoop_integers hs]
  split
  · simp
  · split
    · unfold slicePoll
      split <;> simp
    · simp

theorem exists_step (hc : Counting d l start bound step trace t)
    (hpc : t.pc ≠ l.looping + 1) : ∃ label u, Step h m d l t label u := by
  rcases hc.place with ⟨hat, -, hfocus⟩ | ⟨j, hat, -, hfocus, -, -⟩ | ⟨hat, -⟩
  · exact ⟨_, _, Step.prep hat (forPrep_integers ⟨hfocus, hc.holdsBound, hc.holdsStep⟩)⟩
  · by_cases hloop : t.pc = l.looping
    · cases hturn : forLoop h m d l.turnOffset t with
      | next v => exact ⟨_, _, Step.turn hloop hturn⟩
      | suspended v => exact ⟨_, _, Step.resumed 0 hloop hturn⟩
      | typeError =>
        exact absurd hturn (forLoop_ne_typeError ⟨hfocus, hc.holdsBound, hc.holdsStep⟩)
    · have hbelow := l.below
      exact ⟨_, _, Step.body 0 (by omega) (by omega)⟩
  · exact absurd hat hpc

/-- The values of the range as registers hold them. -/
def visits (d : Direction) (start bound step : Int64) : List LhatValue :=
  (d.range start.toInt bound.toInt step.toInt).map fun z => .integer (Int64.ofInt z)

theorem visits_eq (d : Direction) (start bound step : Int64) :
    visits d start bound step =
      (List.range (d.count start.toInt bound.toInt step.toInt)).map (focusAt d start step) := by
  rw [visits, Direction.range, List.map_map]
  rfl

theorem length_le_count (hpos : 0 < step.toInt) (hc : Counting d l start bound step trace t) :
    trace.length ≤ d.count start.toInt bound.toInt step.toInt := by
  by_contra hlt
  exact lt_irrefl _ ((Direction.within_after_iff hpos _).1 (hc.within _ (not_le.1 hlt)))

theorem prefix_visits (hpos : 0 < step.toInt) (hc : Counting d l start bound step trace t) :
    trace <+: visits d start bound step := by
  obtain ⟨more, hmore⟩ := Nat.exists_eq_add_of_le (length_le_count hpos hc)
  rw [visits_eq, hmore, List.range_add, List.map_append, ← hc.visited]
  exact List.prefix_append _ _

theorem trace_of_past (hpos : 0 < step.toInt) (hc : Counting d l start bound step trace t)
    (hpc : t.pc = l.looping + 1) : trace = visits d start bound step := by
  have hbelow := l.below
  rcases hc.place with ⟨hat, -, -⟩ | ⟨j, hat, -⟩ | ⟨-, hpast⟩
  · omega
  · omega
  · rw [Direction.within_after_iff hpos] at hpast
    rw [visits_eq, ← le_antisymm (length_le_count hpos hc) (not_lt.1 hpast)]
    exact hc.visited

end Invariant

theorem fits_range {d : Direction} {start bound step : Int64} (hpos : 0 < step.toInt) {z : Int}
    (hz : z ∈ d.range start.toInt bound.toInt step.toInt) : Fits z := by
  obtain ⟨j, hj, rfl⟩ := List.mem_map.1 hz
  have hin := (Direction.within_after_iff hpos j).2 (List.mem_range.1 hj)
  have hstart := fits_toInt start
  have hbound := fits_toInt bound
  have hmove : 0 ≤ (j : Int) * step.toInt := Int.mul_nonneg (Int.natCast_nonneg j) hpos.le
  unfold Fits at *
  cases d <;> simp only [Direction.Within, Direction.after, Direction.moved] at * <;> omega

/-- What a counted loop has to do, of three integers with a positive step. -/
structure VisitsRange (h : Heap) (m : Pow) (d : Direction) (l : CountedLoop)
    (start bound step : Int64) (slice : Nat) : Prop where
  exact : ∀ z ∈ d.range start.toInt bound.toInt step.toInt, Fits z
  visited : ∀ trace t, Run h m d l (entering l start bound step slice) trace t →
    t.pc = l.looping + 1 → trace = visits d start bound step
  onTheWay : ∀ trace t, Run h m d l (entering l start bound step slice) trace t →
    trace <+: visits d start bound step
  progress : ∀ trace t, Run h m d l (entering l start bound step slice) trace t →
    t.pc ≠ l.looping + 1 → ∃ label u, Step h m d l t label u
  ends : ∀ trace t, Run h m d l (entering l start bound step slice) trace t →
    ∀ label u, Step h m d l t label u → remaining d l u < remaining d l t

/-- The three turns of a loop make one decision. -/
structure TurnsAgree (h : Heap) (m : Pow) (d : Direction) (offset : Int) : Prop where
  fast : ∀ s focus bound step, Holds s focus bound step →
    forLoopFast d offset { s with pc := s.pc + 1 } = some (forLoop h m d offset s)
  general : ∀ s o focus bound step next, Holds s focus bound step →
    d.exact focus step = some next → forLoopFast d offset s = some o →
    forLoopGeneric h m d offset s = o
  hot : ∀ s t, hotForLoop d offset s = some t → forLoop h m d offset s = .next t
  leaves : ∀ s, hotForLoop d offset s = none ↔ ∀ focus bound step, Holds s focus bound step →
    ∃ next, d.exact focus step = some next ∧ d.reaches next bound = true ∧ s.stepsLeft = 1

/-- A counted loop of three integers with a positive step runs its body with the
values of its range, in their order, and ends; and whichever of its turns is
taken the decision is one. -/
theorem counted_run (h : Heap) (m : Pow) (d : Direction) :
    (∀ l start bound step slice, 0 < Int64.toInt step →
        VisitsRange h m d l start bound step slice) ∧
      ∀ offset, TurnsAgree h m d offset := by
  refine ⟨fun l start bound step slice hpos => ?_, fun offset => ?_⟩
  · have hinvariant : ∀ trace t, Run h m d l (entering l start bound step slice) trace t →
        Counting d l start bound step trace t := fun trace t hrun =>
      (counting_entering slice).of_run hpos hrun
    exact ⟨fun z hz => fits_range hpos hz,
      fun trace t hrun hpc => trace_of_past hpos (hinvariant trace t hrun) hpc,
      fun trace t hrun => prefix_visits hpos (hinvariant trace t hrun),
      fun trace t hrun hpc => exists_step (hinvariant trace t hrun) hpc,
      fun trace t hrun label u hstep => remaining_lt hpos (hinvariant trace t hrun) hstep⟩
  · refine ⟨fun s focus bound step hs => ?_,
      fun s o focus bound step next hs hnext hfast => forLoopGeneric_eq hs hnext hfast,
      fun s t hhot => forLoop_of_hot hhot, fun s => hot_eq_none_iff⟩
    obtain ⟨hfocus, hbound, hstep⟩ := hs
    simp only [forLoop]
    cases hfast : forLoopFast d offset { s with pc := s.pc + 1 } with
    | some o => rfl
    | none =>
      simp only [forLoopFast, hfocus, hbound, hstep] at hfast
      split at hfast
      · split at hfast <;> cases hfast
      · cases hfast

end Lhat.Arithmetic
