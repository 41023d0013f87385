import Lhat.Compile.Code
import Mathlib.Logic.Function.Basic
import Mathlib.Logic.Relation

/-!
# Emitting jumps

The compiler writes a body by a handful of operations on its chunk. A forward jump is
emitted empty and aimed once the place it leads to is reached, a backward one is written
out by hand, and a cleanup is named by the index of its first instruction.

`aimed` and `bodies` keep what the compiler meant: where the jump at an index was aimed,
and where the body of the cleanup at an index begins. Nothing is decided by them.
-/

namespace Lhat.Compile

open LhatOpcode

variable {place : Nat} {i : LhatInstruction} {body : Emitter → Emitter}

/-- A chunk being written. `failed` is a compilation that will not be answered with
`LHAT_COMPILE_OK`. -/
structure Emitter where
  code : List LhatInstruction := []
  failed : Bool := false
  aimed : Nat → Option Nat := fun _ => none
  bodies : Nat → Option Nat := fun _ => none

namespace Emitter

variable (e : Emitter)

/-- `fail`. -/
def fail : Emitter := { e with failed := true }

/-- `emit`. -/
def emit (instruction : LhatInstruction) : Emitter := { e with code := e.code ++ [instruction] }

/-- `emit_jump`: the jump stands at the index that was the count. -/
def emitJump (op : LhatOpcode) (a : UInt8) : Emitter := e.emit (lhatEncodeJump op a 0)

/-- The distance from the instruction after an index to a target. -/
def distance (place target : Nat) : Int := (target : Int) - place - 1

/-- A jump written over, with the place it is meant to lead to. -/
def aim (place target : Nat) (instruction : LhatInstruction) : Emitter :=
  { e with
    code := e.code.set place instruction
    aimed := Function.update e.aimed place (some target) }

/-- `lhat_chunk_patch_here`. -/
def lhatChunkPatchHere (place : Nat) : Emitter :=
  match e.code[place]? with
  | none => e
  | some instruction =>
    e.aim place e.code.length (lhatEncodeJump (lhatOp instruction) (lhatA instruction)
      (int32 (distance place e.code.length)))

/-- The jump back to the top of a loop, as it is written out by hand. -/
def jumpBack (top : Nat) : Emitter :=
  (e.emitJump jump 0).aim e.code.length top
    (lhatEncodeJump jump 0 (int32 (distance e.code.length top)))

/-- The turn of a counted loop: it leads to the instruction after the one at the top. -/
def emitTurn (op : LhatOpcode) (a : UInt8) (top : Nat) : Emitter :=
  { e with
    code := e.code ++ [lhatEncodeJump op a (int32 (distance e.code.length (top + 1)))]
    aimed := Function.update e.aimed e.code.length (some (top + 1)) }

/-- `emit_cleanup_push`. -/
def emitCleanupPush : Emitter := e.emit (lhatEncodeAbx pushCleanup 0 0)

/-- `patch_cleanup_here`. -/
def patchCleanupHere (place : Nat) : Emitter :=
  if e.code.length ≤ place then e
  else if 0xFFFF < e.code.length then e.fail
  else
    { e with
      code := e.code.set place (lhatEncodeAbx pushCleanup 0 (uint16 e.code.length))
      bodies := Function.update e.bodies place (some e.code.length) }

/-- One instruction of `mark_hot_loops`. Which loops are hot is not asked here: it makes
of the register of a backward jump a hint. -/
def markHotLoop (hint : Nat → Option UInt8) (place : Nat) (instruction : LhatInstruction) :
    LhatInstruction :=
  if lhatOp instruction = jump ∧ lhatJumpOffset instruction < 0 then
    match hint place with
    | some a => lhatEncodeJump jump a (lhatJumpOffset instruction)
    | none => instruction
  else instruction

/-- `mark_hot_loops`. -/
def markHotLoops (hint : Nat → Option UInt8) : Emitter :=
  { e with code := e.code.mapIdx (markHotLoop hint) }

end Emitter

open Emitter

/-- What the compiler may do to a chunk next. Only what was emitted as a jump is aimed,
and only what was emitted as a cleanup is given a body. -/
inductive Emits : Emitter → Emitter → Prop
  | fail (e) : Emits e e.fail
  | plain (e) (instruction : LhatInstruction) : Emits e (e.emit instruction)
  | jump (e) (op : LhatOpcode) (a : UInt8) (hop : op.isJump = true) : Emits e (e.emitJump op a)
  | patch (e) (place : Nat) (hjump : ∀ i, e.code[place]? = some i → (lhatOp i).isJump = true) :
      Emits e (e.lhatChunkPatchHere place)
  | back (e) (top : Nat) : Emits e (e.jumpBack top)
  | turn (e) (op : LhatOpcode) (a : UInt8) (top : Nat) (hop : op.isJump = true) :
      Emits e (e.emitTurn op a top)
  | push (e) : Emits e e.emitCleanupPush
  | body (e) (place : Nat) (hpush : ∀ i, e.code[place]? = some i → lhatOp i = pushCleanup) :
      Emits e (e.patchCleanupHere place)

/-- A chunk as the compiler may leave it. -/
def Emitted (e : Emitter) : Prop := Relation.ReflTransGen Emits {} e

namespace Emitter

/-- Every jump that was aimed leads where it was aimed, and every cleanup names its
body. -/
structure Lands (e : Emitter) : Prop where
  jumps : ∀ place target, e.aimed place = some target →
    ∃ i, e.code[place]? = some i ∧ (lhatOp i).isJump = true ∧
      ((place + 1 : Nat) : Int) + lhatJumpOffset i = target
  cleanups : ∀ place body, e.bodies place = some body →
    ∃ i, e.code[place]? = some i ∧ lhatOp i = pushCleanup ∧ (lhatBx i).toNat = body

/-- No jump was aimed farther than the field of a distance goes. -/
def Reaches (e : Emitter) : Prop :=
  ∀ place target, e.aimed place = some target → InReach (distance place target)

/-- What is kept while a chunk is written. -/
structure Written (e : Emitter) : Prop where
  jumps : ∀ place target, e.aimed place = some target → ∃ op a, op.isJump = true ∧
    e.code[place]? = some (lhatEncodeJump op a (int32 (distance place target)))
  cleanups : ∀ place body, e.bodies place = some body →
    body ≤ 0xFFFF ∧ e.code[place]? = some (lhatEncodeAbx pushCleanup 0 (uint16 body))

variable {e e' : Emitter}

theorem Written.empty : ({} : Emitter).Written := ⟨nofun, nofun⟩

theorem Written.emit (hw : e.Written) (instruction : LhatInstruction) :
    (e.emit instruction).Written where
  jumps place target h := by
    obtain ⟨op, a, hop, hat⟩ := hw.jumps place target h
    exact ⟨op, a, hop, List.getElem?_append_left (List.getElem?_eq_some_iff.mp hat).1 ▸ hat⟩
  cleanups place body h := by
    obtain ⟨hbody, hat⟩ := hw.cleanups place body h
    exact ⟨hbody, List.getElem?_append_left (List.getElem?_eq_some_iff.mp hat).1 ▸ hat⟩

theorem pushCleanup_not_jump : pushCleanup.isJump = false := by decide

theorem Written.aim (hw : e.Written) (target : Nat) {op : LhatOpcode} {a : UInt8}
    (hop : op.isJump = true) (hat : e.code[place]? = some i)
    (hjump : (lhatOp i).isJump = true) :
    (e.aim place target (lhatEncodeJump op a (int32 (distance place target)))).Written where
  jumps k t h := by
    unfold Emitter.aim at h ⊢
    simp only [Function.update_apply] at h
    split at h
    · rename_i hk
      cases h
      subst hk
      exact ⟨op, a, hop, List.getElem?_set_self (List.getElem?_eq_some_iff.mp hat).1⟩
    · rename_i hk
      obtain ⟨op', a', hop', hk'⟩ := hw.jumps k t h
      exact ⟨op', a', hop', by rw [List.getElem?_set_ne (Ne.symm hk)]; exact hk'⟩
  cleanups k body h := by
    obtain ⟨hbody, hk⟩ := hw.cleanups k body h
    refine ⟨hbody, ?_⟩
    unfold Emitter.aim
    rw [List.getElem?_set_ne]
    · exact hk
    · rintro rfl
      rw [hat] at hk
      rw [Option.some.inj hk, lhatOp_encodeAbx, pushCleanup_not_jump] at hjump
      cases hjump

theorem Written.step (hw : e.Written) (h : Emits e e') : e'.Written := by
  cases h with
  | fail => exact ⟨hw.jumps, hw.cleanups⟩
  | plain instruction => exact hw.emit instruction
  | jump op a hop => exact hw.emit _
  | patch place hjump =>
    unfold Emitter.lhatChunkPatchHere
    split
    · exact hw
    · rename_i i hat
      exact hw.aim _ (hjump i hat) hat (hjump i hat)
  | back top =>
    refine (hw.emit _).aim top (by decide) (i := lhatEncodeJump LhatOpcode.jump 0 0) ?_ ?_
    · show (e.code ++ [lhatEncodeJump LhatOpcode.jump 0 0])[e.code.length]? = _
      rw [List.getElem?_concat_length]
    · rw [lhatOp_encodeJump]
      decide
  | turn op a top hop =>
    have hfirst : (e.emit (lhatEncodeJump op a 0)).code[e.code.length]? =
        some (lhatEncodeJump op a 0) := List.getElem?_concat_length ..
    have haim := (hw.emit (lhatEncodeJump op a 0)).aim (a := a) (top + 1) hop hfirst
      (by rwa [lhatOp_encodeJump])
    have hsame : (e.emit (lhatEncodeJump op a 0)).aim e.code.length (top + 1)
        (lhatEncodeJump op a (int32 (distance e.code.length (top + 1)))) = e.emitTurn op a top := by
      unfold Emitter.aim Emitter.emit Emitter.emitTurn
      simp
    rwa [hsame] at haim
  | push => exact hw.emit _
  | body place hpush =>
    unfold Emitter.patchCleanupHere
    split
    · exact hw
    split
    · exact ⟨hw.jumps, hw.cleanups⟩
    rename_i hlt hsmall
    have hlt' : place < e.code.length := Nat.lt_of_not_le hlt
    have hpush' := hpush _ (List.getElem?_eq_getElem hlt')
    refine ⟨fun k t h => ?_, fun k body h => ?_⟩
    · obtain ⟨op, a, hop, hk⟩ := hw.jumps k t h
      refine ⟨op, a, hop, ?_⟩
      rw [List.getElem?_set_ne]
      · exact hk
      · rintro rfl
        rw [List.getElem?_eq_getElem hlt'] at hk
        rw [Option.some.inj hk, lhatOp_encodeJump] at hpush'
        rw [hpush', pushCleanup_not_jump] at hop
        cases hop
    · simp only [Function.update_apply] at h
      split at h
      · rename_i hk
        cases h
        subst hk
        exact ⟨Nat.not_lt.mp hsmall, List.getElem?_set_self hlt'⟩
      · rename_i hk
        obtain ⟨hbody, hk'⟩ := hw.cleanups k body h
        exact ⟨hbody, by rw [List.getElem?_set_ne (Ne.symm hk)]; exact hk'⟩

theorem Written.of_emitted (h : Emitted e) : e.Written := by
  induction h with
  | refl => exact Written.empty
  | tail _ hstep ih => exact ih.step hstep

theorem markHotLoop_reads (hint : Nat → Option UInt8) (place : Nat) (i : LhatInstruction) :
    lhatOp (markHotLoop hint place i) = lhatOp i ∧
      lhatBx (markHotLoop hint place i) = lhatBx i := by
  unfold markHotLoop
  split
  · rename_i hback
    split
    · refine ⟨by rw [lhatOp_encodeJump, hback.1], ?_⟩
      have hoffset := lhatJumpOffset_encodeJump_offset LhatOpcode.jump ‹UInt8› i
      unfold lhatJumpOffset at hoffset ⊢
      exact UInt16.toNat_inj.mp (by omega)
    · exact ⟨rfl, rfl⟩
  · exact ⟨rfl, rfl⟩

theorem markHotLoop_offset (hint : Nat → Option UInt8) (place : Nat) (i : LhatInstruction) :
    lhatJumpOffset (markHotLoop hint place i) = lhatJumpOffset i := by
  unfold lhatJumpOffset
  rw [(markHotLoop_reads hint place i).2]

theorem markHotLoops_getElem? (hint : Nat → Option UInt8) (hat : e.code[place]? = some i) :
    (e.markHotLoops hint).code[place]? = some (markHotLoop hint place i) := by
  show (e.code.mapIdx (markHotLoop hint))[place]? = _
  rw [List.getElem?_mapIdx, hat, Option.map_some]

theorem Written.reaches (hw : e.Written) {hint : Nat → Option UInt8}
    (hlands : (e.markHotLoops hint).Lands) : e.Reaches := by
  intro place target haim
  obtain ⟨op, a, -, hat⟩ := hw.jumps place target haim
  obtain ⟨i, hi, -, htarget⟩ := hlands.jumps place target haim
  rw [markHotLoops_getElem? hint hat] at hi
  rw [← Option.some.inj hi, markHotLoop_offset] at htarget
  refine (lhatJumpOffset_eq_iff op a _).mp ?_
  have hdistance : distance place target = (target : Int) - place - 1 := rfl
  push_cast at htarget
  omega

theorem Written.lands (hw : e.Written) (hint : Nat → Option UInt8) (hreach : e.Reaches) :
    (e.markHotLoops hint).Lands := by
  refine ⟨fun place target haim => ?_, fun place body hbody => ?_⟩
  · obtain ⟨op, a, hop, hat⟩ := hw.jumps place target haim
    have hoffset := (lhatJumpOffset_eq_iff op a _).mpr (hreach place target haim)
    refine ⟨_, markHotLoops_getElem? hint hat, ?_, ?_⟩
    · rw [(markHotLoop_reads hint place _).1, lhatOp_encodeJump]
      exact hop
    · rw [markHotLoop_offset, hoffset]
      unfold distance
      push_cast
      omega
  · obtain ⟨hsmall, hat⟩ := hw.cleanups place body hbody
    refine ⟨_, markHotLoops_getElem? hint hat, ?_, ?_⟩
    · rw [(markHotLoop_reads hint place _).1, lhatOp_encodeAbx]
    · rw [(markHotLoop_reads hint place _).2, lhatBx_encodeAbx]
      have := toNat_uint16 body
      omega

end Emitter

variable {e e' : Emitter}

theorem Emits.op (h : Emits e e') (hat : e.code[place]? = some i) :
    ∃ i', e'.code[place]? = some i' ∧ lhatOp i' = lhatOp i := by
  have happend : ∀ j, (e.code ++ [j])[place]? = some i := fun j =>
    List.getElem?_append_left (List.getElem?_eq_some_iff.mp hat).1 ▸ hat
  have hset : ∀ (code : List LhatInstruction) k j, code[place]? = some i →
      (∀ x, code[k]? = some x → lhatOp j = lhatOp x) →
        ∃ i', (code.set k j)[place]? = some i' ∧ lhatOp i' = lhatOp i := by
    intro code k j hcode hop
    by_cases hk : k = place
    · subst hk
      exact ⟨j, List.getElem?_set_self (List.getElem?_eq_some_iff.mp hcode).1, hop i hcode⟩
    · exact ⟨i, by rw [List.getElem?_set_ne hk]; exact hcode, rfl⟩
  cases h with
  | fail => exact ⟨i, hat, rfl⟩
  | plain instruction => exact ⟨i, happend _, rfl⟩
  | jump op a hop => exact ⟨i, happend _, rfl⟩
  | patch k hjump =>
    unfold Emitter.lhatChunkPatchHere
    split
    · exact ⟨i, hat, rfl⟩
    · rename_i x hx
      refine hset e.code k _ hat fun y hy => ?_
      rw [hx] at hy
      rw [Option.some.inj hy, lhatOp_encodeJump]
  | back top =>
    refine hset (e.code ++ [lhatEncodeJump LhatOpcode.jump 0 0]) e.code.length _ (happend _) ?_
    intro x hx
    rw [List.getElem?_concat_length] at hx
    rw [← Option.some.inj hx, lhatOp_encodeJump, lhatOp_encodeJump]
  | turn op a top hop => exact ⟨i, happend _, rfl⟩
  | push => exact ⟨i, happend _, rfl⟩
  | body k hpush =>
    unfold Emitter.patchCleanupHere
    split
    · exact ⟨i, hat, rfl⟩
    split
    · exact ⟨i, hat, rfl⟩
    · refine hset e.code k _ hat fun x hx => ?_
      rw [hpush x hx, lhatOp_encodeAbx]

theorem Emits.ops (h : Relation.ReflTransGen Emits e e')
    (hat : e.code[place]? = some i) : ∃ i', e'.code[place]? = some i' ∧ lhatOp i' = lhatOp i := by
  induction h with
  | refl => exact ⟨i, hat, rfl⟩
  | tail _ hstep ih =>
    obtain ⟨i', hplace, hop'⟩ := ih
    obtain ⟨i'', hplace', hop''⟩ := hstep.op hplace
    exact ⟨i'', hplace', hop''.trans hop'⟩

/-! ### What the statements emit -/

namespace Emitter

/-- What may be emitted in place of a part of a statement. -/
def Emitting (part : Emitter → Emitter) : Prop := ∀ e, Relation.ReflTransGen Emits e (part e)

/-- A statement that runs if a register is true. -/
def compileIf (test : UInt8) (body : Emitter → Emitter) (e : Emitter) : Emitter :=
  (body (e.emitJump jumpFalse test)).lhatChunkPatchHere e.code.length

/-- The loop of `compile_loop` that tests a register at the top of every turn. -/
def compileLoop (test : UInt8) (condition body : Emitter → Emitter) (e : Emitter) : Emitter :=
  let tested := condition e
  ((body (tested.emitJump jumpFalse test)).jumpBack e.code.length).lhatChunkPatchHere
    tested.code.length

theorem emitJump_stays {op : LhatOpcode} {a : UInt8} (hop : op.isJump = true)
    (h : Relation.ReflTransGen Emits (e.emitJump op a) e') :
    ∀ i, e'.code[e.code.length]? = some i → (lhatOp i).isJump = true := by
  intro i hi
  have hfirst : (e.emitJump op a).code[e.code.length]? = some (lhatEncodeJump op a 0) :=
    List.getElem?_concat_length ..
  obtain ⟨i', hi', hop'⟩ := Emits.ops h hfirst
  rw [hi] at hi'
  rw [Option.some.inj hi', hop', lhatOp_encodeJump]
  exact hop

theorem Emitting.around {part : Emitter → Emitter} (hpart : Emitting part) (op : LhatOpcode)
    (a : UInt8) (hop : op.isJump = true) (e : Emitter) :
    Relation.ReflTransGen Emits e ((part (e.emitJump op a)).lhatChunkPatchHere e.code.length) :=
  (Relation.ReflTransGen.head (Emits.jump e op a hop) (hpart _)).tail
    (Emits.patch _ _ (emitJump_stays hop (hpart _)))

theorem Emitting.compileIf (hbody : Emitting body) (test : UInt8) :
    Emitting (compileIf test body) := fun e => hbody.around jumpFalse test (by decide) e

theorem Emitting.compileLoop {condition : Emitter → Emitter} (hcondition : Emitting condition)
    (hbody : Emitting body) (test : UInt8) : Emitting (compileLoop test condition body) := by
  intro e
  have hturn : Emitting fun e' => (body e').jumpBack e.code.length := fun e' =>
    (hbody e').tail (Emits.back _ _)
  exact (hcondition e).trans (hturn.around jumpFalse test (by decide) _)

/-- A number of instructions that are no jumps. -/
def emitMoves : Nat → Emitter → Emitter
  | 0, e => e
  | n + 1, e => (emitMoves n e).emit (lhatEncodeAbx move 0 0)

theorem Emitting.emitMoves (n : Nat) : Emitting (emitMoves n) := by
  intro e
  induction n with
  | zero => exact Relation.ReflTransGen.refl
  | succ n ih =>
    exact ih.tail (Emits.plain _ _)

theorem emitMoves_keeps (n : Nat) (e : Emitter) :
    (emitMoves n e).failed = e.failed ∧ (emitMoves n e).code.length = e.code.length + n := by
  induction n with
  | zero => exact ⟨rfl, rfl⟩
  | succ n ih =>
    refine ⟨ih.1, ?_⟩
    show ((Emitter.emitMoves n e).code ++ [_]).length = _
    rw [List.length_append, ih.2, List.length_singleton, Nat.add_assoc]

/-- In a chunk that was written and marked, the jumps land exactly if none was aimed too
far. The cleanups name their bodies whatever the length. -/
theorem lands_iff_reaches (h : Emitted e) (hint : Nat → Option UInt8) :
    (e.markHotLoops hint).Lands ↔ e.Reaches :=
  ⟨(Written.of_emitted h).reaches, (Written.of_emitted h).lands hint⟩

theorem lands_iff_reaches_loop :
    Emitter.Lands ((compileLoop 0 (emitMoves 1) (emitMoves 2) {}).markHotLoops fun _ => some 3) ↔
      Reaches (compileLoop 0 (emitMoves 1) (emitMoves 2) {}) :=
  lands_iff_reaches ((Emitting.emitMoves 1).compileLoop (Emitting.emitMoves 2) 0 {}) _

theorem compileIf_moves (n : Nat) :
    (compileIf 0 (emitMoves n) {}).failed = false ∧
      (compileIf 0 (emitMoves n) {}).aimed 0 = some (1 + n) := by
  obtain ⟨hfailed, hlength⟩ := emitMoves_keeps n (({} : Emitter).emitJump jumpFalse 0)
  have hlength' : (emitMoves n (({} : Emitter).emitJump jumpFalse 0)).code.length = 1 + n := hlength
  unfold compileIf lhatChunkPatchHere
  generalize emitMoves n (({} : Emitter).emitJump jumpFalse 0) = e at hfailed hlength'
  have hfirst : 0 < e.code.length := by omega
  have hat : e.code[({} : Emitter).code.length]? = some e.code[0] := List.getElem?_eq_getElem hfirst
  rw [hat]
  refine ⟨hfailed, ?_⟩
  show Function.update e.aimed 0 (some e.code.length) 0 = _
  rw [Function.update_self, hlength']

/-- A statement of 32768 instructions is jumped over backwards. -/
theorem not_lands :
    ¬ ∀ e : Emitter, Emitted e → e.failed = false → ∀ hint, (e.markHotLoops hint).Lands := by
  intro hlands
  have hemitted : Emitted (compileIf 0 (emitMoves 32768) {}) :=
    (Emitting.emitMoves 32768).compileIf 0 {}
  have hreach := (Written.of_emitted hemitted).reaches
    (hlands _ hemitted (compileIf_moves 32768).1 fun _ => none)
  exact absurd (hreach 0 (1 + 32768) (compileIf_moves 32768).2) (by decide)

end Emitter

end Lhat.Compile
