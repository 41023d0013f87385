import Lhat.Compile.Emitter

/-!
# Chains of clauses

`if^`, `elif^` and `el^`, as a statement and as an expression. What is emitted for a condition and
for what it guards is a block: it comes behind what was emitted before, and of the contexts that a
`try^` may leave for it fills in none but its own.

The places a chain notes beside its code, where its clauses begin and end and where its jumps stand,
are read by nothing in the compiler.
-/

namespace Lhat.Compile

open LhatOpcode Emitter

namespace LhatOpcode

def loadK : LhatOpcode := 0

def loadBool : LhatOpcode := 2

def popCleanup : LhatOpcode := 75

def endCleanup : LhatOpcode := 76

def panic : LhatOpcode := 82

end LhatOpcode

/-- `LHAT_MAX_LOCALS`. -/
def lhatMaxLocals : Nat := 200

/-- `LHAT_MAX_REGISTERS`. -/
def lhatMaxRegisters : Nat := 250

/-- Where a `try^` leaves for: the register of the error and the jumps that wait to be aimed. -/
structure TryContext where
  caught : UInt8
  jumps : List Nat := []
  cleanupDepth : Nat := 0

/-- `trying` has the innermost context first. -/
structure Compiler extends Emitter where
  nextRegister : Nat := 0
  cleanupDepth : Nat := 0
  trying : List TryContext := []

namespace Compiler

def emits (f : Emitter → Emitter) (c : Compiler) : Compiler :=
  { c with toEmitter := f c.toEmitter }

def here (c : Compiler) : Nat := c.code.length

/-- `reserve`. -/
def reserve (c : Compiler) : UInt8 × Compiler :=
  if lhatMaxRegisters ≤ c.nextRegister then (0, c.emits Emitter.fail)
  else (c.nextRegister.toUInt8, { c with nextRegister := c.nextRegister + 1 })

/-- A context that waited has got jumps from a stretch of code. -/
def Gains (lo hi : Nat) (context context' : TryContext) : Prop :=
  context'.caught = context.caught ∧
    ∃ new, context'.jumps = context.jumps ++ new ∧ ∀ k ∈ new, lo ≤ k ∧ k < hi

/-- What a part of the compiler leaves alone. -/
structure Keeps (c c' : Compiler) : Prop where
  code : c.code <+: c'.code
  failed : c.failed = true → c'.failed = true
  depth : c'.cleanupDepth = c.cleanupDepth
  trying : List.Forall₂ (Gains c.here c'.here) c.trying c'.trying

end Compiler

/-- A part of the compiler that emits code for something of the source. -/
structure Block where
  compile : Compiler → Compiler
  keeps : ∀ c : Compiler, c.Keeps (compile c)

/-- A condition is compiled for the register it is tested in. There is none in front of `el^`. -/
structure Clause where
  condition : Option (UInt8 → Block)
  body : Block

/-- Where the code of a clause stands: its beginning, the jump over it with the register it tests,
its body, its end and the place behind it. -/
structure ClausePlaces where
  start : Nat
  tested : Option (Nat × UInt8)
  body : Nat
  ended : Nat
  following : Nat
  /-- Whether a jump is due at its end. -/
  due : Bool
  /-- Whether one was emitted. -/
  leaves : Bool

/-- A chain half compiled: the context of its bodies and the jumps that leave its clauses. -/
structure Chain where
  compiler : Compiler
  context : Option TryContext := none
  leaving : List Nat := []
  places : List ClausePlaces := []

namespace Chain

/-- The body of a clause, in the context of the bodies where they have one of their own. -/
def compileBody (body : Block) (chain : Chain) : Chain :=
  match chain.context with
  | none => { chain with compiler := body.compile chain.compiler }
  | some context =>
    let c := body.compile
      { chain.compiler with trying := context :: chain.compiler.trying }
    { chain with
      compiler := { c with trying := c.trying.tail }
      context := c.trying.head? }

/-- The condition of a clause and the jump over the clause. -/
def compileCondition (condition : UInt8 → Block) (c : Compiler) : Nat × UInt8 × Compiler :=
  let (test, reserved) := c.reserve
  let conditioned := (condition test).compile reserved
  (conditioned.here, test,
    { conditioned.emits (·.emitJump jumpFalse test) with nextRegister := c.nextRegister })

/-- The jump that leaves a clause, where one is due and there is room to note it. -/
def leave (due : Bool) (chain : Chain) : Chain :=
  if due && decide (chain.leaving.length < lhatMaxLocals) then
    { chain with
      compiler := chain.compiler.emits (·.emitJump jump 0)
      leaving := chain.leaving ++ [chain.compiler.here] }
  else chain

/-- One turn of the loop over the clauses. -/
def compileConditional (due : Bool) (condition : UInt8 → Block) (body : Block) (chain : Chain) :
    Chain :=
  let (next, test, c) := compileCondition condition chain.compiler
  let done := { chain with compiler := c }.compileBody body
  let left := done.leave due
  let patched := left.compiler.emits (·.lhatChunkPatchHere next)
  { left with
    compiler := patched
    places := chain.places ++
      [{ start := chain.compiler.here
         tested := some (next, test)
         body := c.here
         ended := done.compiler.here
         following := patched.here
         due := due
         leaves := due && decide (done.leaving.length < lhatMaxLocals) }] }

/-- The clause of an `el^`. -/
def compileOtherwise (body : Block) (chain : Chain) : Chain :=
  let done := chain.compileBody body
  { done with
    places := chain.places ++
      [{ start := chain.compiler.here
         tested := none
         body := chain.compiler.here
         ended := done.compiler.here
         following := done.compiler.here
         due := false
         leaves := false }] }

/-- The loop over the clauses, and whether an `el^` ended it. `jumps` says whether a jump is due,
given whether another clause follows. -/
def compileClauses (jumps : Bool → Bool) : List Clause → Chain → Chain × Bool
  | [], chain => (chain, false)
  | ⟨none, body⟩ :: _, chain => (chain.compileOtherwise body, true)
  | ⟨some condition, body⟩ :: rest, chain =>
    compileClauses jumps rest (chain.compileConditional (jumps (!rest.isEmpty)) condition body)

end Chain

/-- The jumps that are due in a chain. -/
def leavers (jumps : Bool → Bool) : List Clause → Nat
  | [] => 0
  | ⟨none, _⟩ :: _ => 0
  | ⟨some _, _⟩ :: rest => (jumps (!rest.isEmpty)).toNat + leavers jumps rest

/-- A stretch behind a chain that ends in a jump. -/
structure ClosingPlaces where
  start : Nat
  ended : Nat
  target : Nat

/-- The places of a construct: its clauses, where control comes if none is taken and where it comes
behind one that is, and what it still passes on its way out. -/
structure Layout where
  first : Nat
  places : List ClausePlaces
  missed : Nat
  done : Nat
  closing : List ClosingPlaces
  past : Nat

def patchAll (places : List Nat) (c : Compiler) : Compiler :=
  places.foldl (fun c place => c.emits (·.lhatChunkPatchHere place)) c

/-- `compile_arms`. -/
def compileArms (context : TryContext) (arms : Block) (c : Compiler) : Compiler :=
  let caught := patchAll context.jumps (c.emits (·.emitJump jump 0))
  (arms.compile caught).emits (·.lhatChunkPatchHere c.here)

/-- The drain of `compile_cleanup`. -/
def drain (entry : Nat) (c : Compiler) : Compiler :=
  let drained := if entry < c.cleanupDepth
    then c.emits (·.emit (lhatEncodeAbx popCleanup entry.toUInt8 0)) else c
  { drained with cleanupDepth := entry }

/-- `compile_cleanup`, where there is one. -/
def compileCleanup (cleanup : Block) (entry push : Nat) (c : Compiler) : Compiler :=
  let drained := drain entry c
  let opened := (drained.emits (·.emitJump jump 0)).emits (·.patchCleanupHere push)
  ((cleanup.compile opened).emits (·.emit (lhatEncodeAbx endCleanup 0 0))).emits
    (·.lhatChunkPatchHere drained.here)

/-- `catch_begin`. -/
def catchBegin (c : Compiler) : TryContext × Compiler :=
  let (caught, reserved) := c.reserve
  (⟨caught, [], c.cleanupDepth⟩, reserved)

/-- The chain of an `if^` statement with its arms behind it. -/
def compileGuarded (clauses : List Clause) (arms : Option (UInt8 → Block)) (c : Compiler) :
    Compiler × Layout :=
  match arms with
  | none =>
    let chain := (Chain.compileClauses id clauses { compiler := c }).1
    let done := patchAll chain.leaving chain.compiler
    (done, ⟨c.here, chain.places, done.here, done.here, [], done.here⟩)
  | some arms =>
    let (context, opened) := catchBegin c
    let chain :=
      (Chain.compileClauses id clauses { compiler := opened, context := some context }).1
    let done := patchAll chain.leaving chain.compiler
    let caught := compileArms (chain.context.getD context) (arms context.caught) done
    (caught, ⟨opened.here, chain.places, done.here, done.here,
      [⟨done.here, done.here, caught.here⟩], caught.here⟩)

/-- `compile_statement` of an `if^`. -/
def compileIfStatement (clauses : List Clause) (arms : Option (UInt8 → Block))
    (cleanup : Option Block) (c : Compiler) : Compiler × Layout :=
  match cleanup with
  | none =>
    let (guarded, layout) := compileGuarded clauses arms c
    ({ guarded with nextRegister := c.nextRegister }, layout)
  | some cleanup =>
    let pushed := { c.emits Emitter.emitCleanupPush with cleanupDepth := c.cleanupDepth + 1 }
    let (guarded, layout) := compileGuarded clauses arms pushed
    let closed := compileCleanup cleanup c.cleanupDepth c.here guarded
    ({ closed with nextRegister := c.nextRegister },
      { layout with
        closing := layout.closing ++
          [⟨layout.past, (drain c.cleanupDepth guarded).here, closed.here⟩]
        past := closed.here })

/-- What an `if^` expression does where no clause was taken. The constant is its message. -/
def compileMissed (message : UInt16) (c : Compiler) : Compiler :=
  let (slot, reserved) := c.reserve
  let loaded := reserved.emits (·.emit (lhatEncodeAbx loadK slot message))
  { loaded.emits (·.emit (lhatEncodeAbx panic slot 0)) with nextRegister := c.nextRegister }

/-- `compile_expression` of an `if^`: the clauses answer in one register, which is theirs. -/
def compileIfExpression (clauses : List Clause) (message : UInt16) (c : Compiler) :
    Compiler × Layout :=
  let (chain, defaulted) := Chain.compileClauses (fun _ => true) clauses { compiler := c }
  let ended := if defaulted then chain.compiler else compileMissed message chain.compiler
  let done := patchAll chain.leaving ended
  (done, ⟨c.here, chain.places, chain.compiler.here, done.here, [], done.here⟩)

end Lhat.Compile
