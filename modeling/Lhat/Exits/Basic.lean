import Mathlib.Data.List.Basic
import Mathlib.Logic.Function.Iterate

/-!
# Ways out of a block

A body is left by coming to its end, by `break^` and `next^` of any level and by `return^`,
and each block it is in has its cleanup run on the way. `eval` says what that means for the
statements as they are written: every block has a place of its own for the exit that waits
while its cleanup runs. `compile` and `step` are the code that is emitted and the frame that
runs it, where there is one such place for the whole frame.

What happens between the ways out is of no interest here: it is an action on a state of any
kind, known by a number.
-/

namespace Lhat.Exits

/-- What the actions, the conditions and the answers of a body do. -/
structure Atoms (σ V : Type*) where
  run : Nat → σ → σ
  test : Nat → σ → σ × Bool
  value : Nat → σ → V

/-- A statement. A `finally^` of a loop or an `if^` is that of a block around it, and the
clauses of a loop that need no way back into it are statements before and after it. -/
inductive Stmt where
  | skip
  | act (a : Nat)
  | yield (a : Nat)
  | seq (s t : Stmt)
  | ifThen (c : Nat) (s : Stmt)
  | ifElse (c : Nat) (s t : Stmt)
  /-- A block with a `finally^`. -/
  | block (s cleanup : Stmt)
  /-- A `with^`: what is bound and how it is disposed of. -/
  | withBlock (bindings : List (Nat × Nat)) (s : Stmt)
  /-- `pre^`, a condition tested at the top of every turn, and the step. -/
  | loop (pre : Stmt) (c : Nat) (s : Stmt) (step : Nat)
  /-- A loop that one instruction turns. -/
  | counted (prep turn : Nat) (s : Stmt)
  | brk (level : Nat)
  | nxt (level : Nat)
  | ret (a : Nat)
deriving DecidableEq, Repr

/-- How a statement is left. Levels count the loops around it from the innermost. -/
inductive Exit (V : Type*) where
  | normal
  | brk (level : Nat)
  | nxt (level : Nat)
  | ret (v : V)
deriving DecidableEq, Repr

/-- `LHAT_MAX_CLEANUPS`. -/
def maxCleanups : Nat := 32

/-! ### The statements as they are written -/

/-- What a statement comes to. There is no exit where it was not followed to its end.
`drains` says that a block with a cleanup was entered, and `spoilt` that a `finally^` body
in which one was came to its end, or that more cleanups waited than a frame keeps. -/
structure Outcome (σ V : Type*) where
  exit : Option (Exit V)
  state : σ
  drains : Bool := false
  spoilt : Bool := false

namespace Outcome

variable {σ V : Type*}

/-- What comes after what was done. -/
def followedBy (o : Outcome σ V) (next : σ → Outcome σ V) : Outcome σ V :=
  let o' := next o.state
  { o' with drains := o.drains || o'.drains, spoilt := o.spoilt || o'.spoilt }

/-- What comes after, where the end was come to. -/
def andThen (o : Outcome σ V) (next : σ → Outcome σ V) : Outcome σ V :=
  match o.exit with
  | some .normal => o.followedBy next
  | _ => o

/-- One turn of a loop, and then the next. The levels that are left count from outside. -/
def turn (o : Outcome σ V) (again : σ → Outcome σ V) : Outcome σ V :=
  match o.exit with
  | some .normal | some (.nxt 0) => o.followedBy again
  | some (.brk 0) => { o with exit := some .normal }
  | some (.brk (level + 1)) => { o with exit := some (.brk level) }
  | some (.nxt (level + 1)) => { o with exit := some (.nxt level) }
  | some (.ret _) | none => o

/-- The turns of a loop. -/
def turns (body : σ → Outcome σ V) (again : σ → σ × Bool) : Nat → σ → Outcome σ V
  | 0, s => { exit := none, state := s }
  | n + 1, s =>
    (body s).turn fun s =>
      if (again s).2 then turns body again n (again s).1
      else { exit := some .normal, state := (again s).1 }

/-- The cleanup of a block that was left. A way out of the cleanup takes the place of the
one that waits. -/
def cleanedBy (o : Outcome σ V) (depth : Nat) (cleanup : σ → Outcome σ V) : Outcome σ V :=
  match o.exit with
  | none => { o with drains := true, spoilt := o.spoilt || decide (maxCleanups ≤ depth) }
  | some exit =>
    let c := cleanup o.state
    { exit := if c.exit matches some .normal then some exit else c.exit
      state := c.state
      drains := true
      spoilt := o.spoilt || decide (maxCleanups ≤ depth) || c.spoilt ||
        (c.exit matches some .normal) && c.drains }

end Outcome

section

variable {σ V : Type*} (A : Atoms σ V)

/-- The bindings of a `with^`, in the order they are written in. -/
def bind (bindings : List (Nat × Nat)) (s : σ) : σ :=
  bindings.foldl (fun s binding => A.run binding.1 s) s

/-- The disposals of a `with^`, the last binding first. -/
def dispose (bindings : List (Nat × Nat)) (s : σ) : σ :=
  bindings.foldr (fun binding s => A.run binding.2 s) s

/-- What a statement does, followed for so many steps inwards. `depth` cleanups wait
around it. -/
def eval : Nat → Nat → Stmt → σ → Outcome σ V
  | 0, _, _, s => { exit := none, state := s }
  | n + 1, depth, stmt, s =>
    match stmt with
    | .skip => { exit := some .normal, state := s }
    | .act a | .yield a => { exit := some .normal, state := A.run a s }
    | .seq first second => (eval n depth first s).andThen (eval n depth second)
    | .ifThen c body =>
      if (A.test c s).2 then eval n depth body (A.test c s).1
      else { exit := some .normal, state := (A.test c s).1 }
    | .ifElse c body other =>
      if (A.test c s).2 then eval n depth body (A.test c s).1
      else eval n depth other (A.test c s).1
    | .block body cleanup =>
      (eval n (depth + 1) body s).cleanedBy depth (eval n depth cleanup)
    | .withBlock bindings body =>
      let o := eval n (depth + bindings.length) body (bind A bindings s)
      { o with
        state := if o.exit.isSome then dispose A bindings o.state else o.state
        drains := true
        spoilt := o.spoilt || decide (maxCleanups < depth + bindings.length) }
    | .loop pre c body step =>
      Outcome.turns
        (fun s => (eval n depth pre s).andThen fun s =>
          if (A.test c s).2 then eval n depth body (A.test c s).1
          else { exit := some (.brk 0), state := (A.test c s).1 })
        (fun s => (A.run step s, true)) n s
    | .counted prep turn body =>
      if (A.test prep s).2 then
        Outcome.turns (eval n depth body) (A.test turn) n (A.test prep s).1
      else { exit := some .normal, state := (A.test prep s).1 }
    | .brk level => { exit := some (.brk level), state := s }
    | .nxt level => { exit := some (.nxt level), state := s }
    | .ret a => { exit := some (.ret (A.value a s)), state := s }

end

/-! ### The code -/

/-- The instructions that decide where a frame goes on. `jumpFalse` is `JUMP_FALSE` and
`FORPREP`, `turn` is `FORLOOP`. -/
inductive Instruction where
  | act (a : Nat)
  | yield (a : Nat)
  | jump (target : Nat)
  | jumpFalse (c target : Nat)
  | turn (c target : Nat)
  | pushCleanup (bx : Nat)
  | popCleanup (a : Nat)
  | endCleanup
  | ret (a : Nat)
  | retNil
deriving DecidableEq, Repr

/-- `LoopContext`, with the places its jumps are patched to. -/
structure LoopContext where
  brkTo : Nat
  nxtTo : Nat
  cleanupDepth : Nat
deriving DecidableEq, Repr

/-- `emit_cleanup_drain`. -/
def emitCleanupDrain (cleanupDepth downTo : Nat) : List Instruction :=
  if downTo < cleanupDepth then [.popCleanup downTo] else []

/-- The disposals of a `with^`, one body for a binding. -/
def disposals (bindings : List (Nat × Nat)) : List Instruction :=
  bindings.flatMap fun binding => [.act binding.2, .endCleanup]

/-- The bindings of a `with^`, each with the cleanup that stands for it in the disposals
that begin at a place. -/
def bindingCode (bodies : Nat) : List (Nat × Nat) → List Instruction
  | [] => []
  | binding :: bindings =>
    .act binding.1 :: .pushCleanup bodies :: bindingCode (bodies + 2) bindings

/-- How many instructions a statement takes, in loops that were entered with so many
cleanups. -/
def size (cleanupDepth : Nat) (loops : List Nat) : Stmt → Nat
  | .skip => 0
  | .act _ | .yield _ | .ret _ => 1
  | .seq s t => size cleanupDepth loops s + size cleanupDepth loops t
  | .ifThen _ s => 1 + size cleanupDepth loops s
  | .ifElse _ s t => 1 + size cleanupDepth loops s + 1 + size cleanupDepth loops t
  | .block s cleanup =>
    1 + size (cleanupDepth + 1) loops s + 2 + size cleanupDepth loops cleanup + 1
  | .withBlock bindings s =>
    2 * bindings.length + size (cleanupDepth + bindings.length) loops s +
      (emitCleanupDrain (cleanupDepth + bindings.length) cleanupDepth).length + 1 +
      2 * bindings.length
  | .loop pre _ s _ =>
    size cleanupDepth (cleanupDepth :: loops) pre + 1 +
      size cleanupDepth (cleanupDepth :: loops) s + 2
  | .counted _ _ s => 1 + size cleanupDepth (cleanupDepth :: loops) s + 1
  | .brk level | .nxt level =>
    match loops[level]? with
    | some depth => (emitCleanupDrain cleanupDepth depth).length + 1
    | none => 0

/-- `compile_statement`, at the instruction that comes next. -/
def compile (cleanupDepth : Nat) (loops : List LoopContext) (place : Nat) :
    Stmt → List Instruction
  | .skip => []
  | .act a => [.act a]
  | .yield a => [.yield a]
  | .seq s t =>
    compile cleanupDepth loops place s ++
      compile cleanupDepth loops
        (place + size cleanupDepth (loops.map LoopContext.cleanupDepth) s) t
  | .ifThen c s =>
    let past := place + 1 + size cleanupDepth (loops.map LoopContext.cleanupDepth) s
    .jumpFalse c past :: compile cleanupDepth loops (place + 1) s
  | .ifElse c s t =>
    let other := place + 1 + size cleanupDepth (loops.map LoopContext.cleanupDepth) s + 1
    let past := other + size cleanupDepth (loops.map LoopContext.cleanupDepth) t
    .jumpFalse c other :: compile cleanupDepth loops (place + 1) s ++
      .jump past :: compile cleanupDepth loops other t
  | .block s cleanup =>
    let body := place + 1 + size (cleanupDepth + 1) (loops.map LoopContext.cleanupDepth) s + 2
    let past := body + size cleanupDepth (loops.map LoopContext.cleanupDepth) cleanup + 1
    .pushCleanup body :: compile (cleanupDepth + 1) loops (place + 1) s ++
      emitCleanupDrain (cleanupDepth + 1) cleanupDepth ++
      .jump past :: compile cleanupDepth loops body cleanup ++ [.endCleanup]
  | .withBlock bindings s =>
    let block := place + 2 * bindings.length
    let drain := emitCleanupDrain (cleanupDepth + bindings.length) cleanupDepth
    let bodies := block +
      size (cleanupDepth + bindings.length) (loops.map LoopContext.cleanupDepth) s +
      drain.length + 1
    bindingCode bodies bindings ++
      compile (cleanupDepth + bindings.length) loops block s ++ drain ++
      .jump (bodies + 2 * bindings.length) :: disposals bindings
  | .loop pre c s step =>
    let depths := cleanupDepth :: loops.map LoopContext.cleanupDepth
    let test := place + size cleanupDepth depths pre
    let next := test + 1 + size cleanupDepth depths s
    let context := { brkTo := next + 2, nxtTo := next, cleanupDepth }
    compile cleanupDepth (context :: loops) place pre ++
      .jumpFalse c (next + 2) :: compile cleanupDepth (context :: loops) (test + 1) s ++
      [.act step, .jump place]
  | .counted prep turn s =>
    let depths := cleanupDepth :: loops.map LoopContext.cleanupDepth
    let next := place + 1 + size cleanupDepth depths s
    let context := { brkTo := next + 1, nxtTo := next, cleanupDepth }
    .jumpFalse prep (next + 1) :: compile cleanupDepth (context :: loops) (place + 1) s ++
      [.turn turn (place + 1)]
  | .brk level =>
    match loops[level]? with
    | some target => emitCleanupDrain cleanupDepth target.cleanupDepth ++ [.jump target.brkTo]
    | none => []
  | .nxt level =>
    match loops[level]? with
    | some target => emitCleanupDrain cleanupDepth target.cleanupDepth ++ [.jump target.nxtTo]
    | none => []
  | .ret a => [.ret a]

/-- What `compile_statement` does not refuse, in so many loops: a level that asks for more
loops, and a `return^` in a `finally^` body. -/
def accepted (inCleanup : Bool) (loops : Nat) : Stmt → Bool
  | .skip | .act _ | .yield _ => true
  | .seq s t | .ifElse _ s t => accepted inCleanup loops s && accepted inCleanup loops t
  | .ifThen _ s | .withBlock _ s => accepted inCleanup loops s
  | .block s cleanup => accepted inCleanup loops s && accepted true loops cleanup
  | .loop pre _ s _ => accepted inCleanup (loops + 1) pre && accepted inCleanup (loops + 1) s
  | .counted _ _ s => accepted inCleanup (loops + 1) s
  | .brk level | .nxt level => decide (level < loops)
  | .ret _ => !inCleanup

/-- A whole body. Falling off its end answers `nil^`. -/
def compileProc (s : Stmt) : List Instruction := compile 0 [] 0 s ++ [.retNil]

/-! ### The frame -/

/-- What has become of a frame. It answers `nil^` where there is no answer. -/
inductive Status (V : Type*) where
  | running
  | answered (v : Option V)
  | stackOverflow
deriving DecidableEq, Repr

/-- `Frame`, with the state its actions are on. -/
structure Frame (σ V : Type*) where
  pc : Nat := 0
  cleanups : List Nat := []
  drainTarget : Nat := 0
  resume : Nat := 0
  returning : Bool := false
  answer : Option V := none
  status : Status V := .running
  state : σ
deriving DecidableEq, Repr

namespace Frame

variable {σ V : Type*} (A : Atoms σ V) (code : List Instruction) (f : Frame σ V)

/-- `drain`: the innermost cleanup that is left, or where the frame goes from there. -/
def drain : Frame σ V :=
  match f.cleanups with
  | cleanup :: rest =>
    if f.drainTarget < rest.length + 1 then { f with pc := cleanup, cleanups := rest }
    else if f.returning then { f with status := .answered f.answer }
    else { f with pc := f.resume }
  | [] =>
    if f.returning then { f with status := .answered f.answer } else { f with pc := f.resume }

/-- One instruction, in a frame that is past it already. -/
def execute : Instruction → Frame σ V
  | .act a | .yield a => { f with state := A.run a f.state }
  | .jump target => { f with pc := target }
  | .jumpFalse c target =>
    { f with state := (A.test c f.state).1, pc := if (A.test c f.state).2 then f.pc else target }
  | .turn c target =>
    { f with state := (A.test c f.state).1, pc := if (A.test c f.state).2 then target else f.pc }
  | .pushCleanup bx =>
    if maxCleanups ≤ f.cleanups.length then { f with status := .stackOverflow }
    else { f with cleanups := bx :: f.cleanups }
  | .popCleanup a => { f with drainTarget := a, resume := f.pc, returning := false }.drain
  | .endCleanup => f.drain
  | .ret a =>
    { f with drainTarget := 0, returning := true, answer := some (A.value a f.state) }.drain
  | .retNil => { f with drainTarget := 0, returning := true, answer := none }.drain

/-- One turn of the loop. -/
def step : Frame σ V :=
  match f.status, code[f.pc]? with
  | .running, some instruction => { f with pc := f.pc + 1 }.execute A instruction
  | _, _ => f

end Frame

end Lhat.Exits
