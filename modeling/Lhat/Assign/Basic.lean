import Lhat.Runtime.Value
import Mathlib.Logic.Function.Basic
import Mathlib.Data.Fin.Tuple.Basic

/-!
# Assignments to a local

`x := e` is compiled straight into the register of `x`. The forms of `e` are here with the code
that is emitted for them, with what that code does, and with what they stand for where every
read of `x` is a read of what `x` held before.

A body has `n` locals in its first registers, and `x` is one of them. What an operator or a
call does is not the body's: it may read the locals through captures, and write those other
than `x`.
-/

namespace Lhat.Assign

/-- What runs outside the body, as far as the body sees it. -/
inductive Act (W : Type) (n x : Nat) where
  | done (v : LhatValue) (w : W)
  | fault (w : W)
  | read (r : Nat) (h : r < n) (k : LhatValue → Act W n x)
  | write (r : Nat) (h : r < n ∧ r ≠ x) (v : LhatValue) (k : Act W n x)

/-- The unary operators. -/
inductive UnaryOp where
  | neg
  | not
  | bnot
deriving DecidableEq, Repr

/-- `binary_opcode`. -/
inductive BinaryOp where
  | add | sub | mul | cross | dotProduct | div | idiv | mod | pow
  | band | bor | bxor | bshift | concat
  | eq | same | ne | lt | gt | le | ge | spaceship
deriving DecidableEq, Repr

mutual

/-- Expressions, inside so many `catch^`. A name is the register it was resolved to, and `it^`
the error of a `catch^` around it, the innermost first. `numeric` is the checker's mark of an
operation between two numbers. -/
inductive Expr (n : Nat) : Nat → Type where
  | literal {d : Nat} (v : LhatValue) : Expr n d
  | name {d : Nat} (r : Fin n) : Expr n d
  | it {d : Nat} (k : Fin d) : Expr n d
  | upvalue {d : Nat} (u : Nat) : Expr n d
  | unary {d : Nat} (op : UnaryOp) (operand : Expr n d) : Expr n d
  | binary {d : Nat} (op : BinaryOp) (numeric : Bool) (left right : Expr n d) : Expr n d
  | opAnd {d : Nat} (left right : Expr n d) : Expr n d
  | opOr {d : Nat} (left right : Expr n d) : Expr n d
  | nilElse {d : Nat} (left right : Expr n d) : Expr n d
  | opCatch {d : Nat} (left : Expr n d) (right : Expr n (d + 1)) : Expr n d
  | tryHat {d : Nat} (operand : Expr n d) : Expr n d
  | panic {d : Nat} (value : Expr n d) : Expr n d
  | chain {d : Nat} (first : Expr n d) (op : BinaryOp) (second : Expr n d)
      (links : Links n d) : Expr n d
  | table {d : Nat} (fields : Nat) (entries : Entries n d) : Expr n d
  | interp {d : Nat} (parts : Parts n d) : Expr n d
  | ifExpr {d : Nat} (clauses : Clauses n d) : Expr n d
  | call {d : Nat} (callee : Expr n d) (arguments : Exprs n d) : Expr n d

/-- The arguments of a call. -/
inductive Exprs (n : Nat) : Nat → Type where
  | nil {d : Nat} : Exprs n d
  | cons {d : Nat} (e : Expr n d) (rest : Exprs n d) : Exprs n d

/-- The links of a chain of comparisons, after its first. -/
inductive Links (n : Nat) : Nat → Type where
  | nil {d : Nat} : Links n d
  | cons {d : Nat} (op : BinaryOp) (operand : Expr n d) (rest : Links n d) : Links n d

/-- The entries of a table. A key that is a name or a position is a literal. -/
inductive Entries (n : Nat) : Nat → Type where
  | nil {d : Nat} : Entries n d
  | cons {d : Nat} (key value : Expr n d) (rest : Entries n d) : Entries n d

/-- The clauses of an `if^`. Where none has no condition, the panic that ends it is the last. -/
inductive Clauses (n : Nat) : Nat → Type where
  | other {d : Nat} (body : Expr n d) : Clauses n d
  | cons {d : Nat} (condition body : Expr n d) (rest : Clauses n d) : Clauses n d

/-- The pieces of an interpolated string. -/
inductive Parts (n : Nat) : Nat → Type where
  | nil {d : Nat} : Parts n d
  | text {d : Nat} (s : LhatValue) (rest : Parts n d) : Parts n d
  | hole {d : Nat} (value : Expr n d) (format : Option LhatValue) (rest : Parts n d) : Parts n d

end

/-! ### The code -/

inductive Instruction where
  /-- `LOADK`, `LOADBOOL` and `LOADNIL`. -/
  | load (into : Nat) (v : LhatValue)
  | move (into source : Nat)
  | getUpval (into u : Nat)
  | unary (op : UnaryOp) (into operand : Nat)
  | binary (op : BinaryOp) (into left right : Nat)
  | binaryK (op : BinaryOp) (into left : Nat) (k : LhatValue)
  | jump (offset : Nat)
  | jumpFalse (test offset : Nat)
  | isNil (into tested : Nat)
  | isError (into tested : Nat)
  | newTable (into fields : Nat)
  | getIndex (into target key : Nat)
  | setIndex (target key value : Nat)
  | call (callee count : Nat)
  | callMethod (callee given : Nat)
  | close (register : Nat)
  | panic (slot : Nat)
  | ret (source : Nat)
  /-- The drain and the jump to the arms that a `try^` goes to. -/
  | toArms (caught : Nat)
deriving DecidableEq, Repr

/-- What the compiler has at hand where the assignment stands. -/
structure Compiler (n x : Nat) where
  target : x < n
  /-- The number of a constant, among those of the chunk. -/
  constantIndex : LhatValue → Nat
  /-- The register the arms of the `catch^` around have the error in, if there are any. -/
  trying : Option { caught : Nat // caught < n ∧ caught ≠ x }
  emptyString : LhatValue
  tostring : LhatValue

def maxLocals : Nat := 200

section

variable {n d : Nat}

/-- The four common operations, the orderings and the two equalities have a form with a constant
on the right. -/
def BinaryOp.folded : BinaryOp → Bool
  | .add | .sub | .mul | .div | .lt | .le | .gt | .ge | .eq | .ne => true
  | .cross | .dotProduct | .idiv | .mod | .pow | .band | .bor | .bxor | .bshift | .concat | .same
  | .spaceship => false

/-- `literal_constant`. The equalities take a string as well. -/
def literalConstant (op : BinaryOp) : Expr n d → Option LhatValue
  | .literal (.integer i) => some (.integer i)
  | .literal (.real r) => some (.real r)
  | .literal (.object o) => if op = .eq ∨ op = .ne then some (.object o) else none
  | _ => none

/-- `forwardable_local`. -/
def forwardableLocal (its : Fin d → Nat) : Expr n d → Option Nat
  | .name r => some r
  | .it k => some (its k)
  | _ => none

/-- `runs_nothing`. -/
def runsNothing : Expr n d → Bool
  | .literal _ | .name _ | .it _ => true
  | .binary _ numeric left right => numeric && runsNothing left && runsNothing right
  | _ => false

/-- How many arguments a call has. -/
def Exprs.count : Exprs n d → Nat
  | .nil => 0
  | .cons _ rest => rest.count + 1

/-- `emit_move_wide`. -/
def emitMove (into source : Nat) : List Instruction :=
  if into = source then [] else [.move into source]

end

namespace Compiler

variable {n x : Nat} (c : Compiler n x)

/-- The constant a right operand is folded into. -/
def foldedConstant {d : Nat} (op : BinaryOp) (right : Expr n d) : Option LhatValue :=
  if op.folded then (literalConstant op right).filter fun k => decide (c.constantIndex k ≤ 0xFF)
  else none

/-- `emit_error_escape`. -/
def emitErrorEscape (source : Nat) : List Instruction :=
  match c.trying with
  | none => [.ret source]
  | some caught => emitMove caught source ++ [.toArms caught]

/-- `holds_local`. -/
def holdsLocal {d : Nat} (its : Fin d → Nat) (r : Nat) : Bool :=
  decide (r < n) || (List.ofFn its).contains r

mutual

/-- `compile_expression`, where `mark` is the next register. -/
def compileExpression {d : Nat} (its : Fin d → Nat) (into mark : Nat) :
    Expr n d → List Instruction
  | .literal v => [.load into v]
  | .name r => emitMove into r
  | .it k => emitMove into (its k)
  | .upvalue u => [.getUpval into u]
  | .unary op operand =>
    match forwardableLocal its operand with
    | some home => [.unary op into home]
    | none => compileExpression its mark (mark + 1) operand ++ [.unary op into mark]
  | .binary op _ left right =>
    match c.foldedConstant op right with
    | some k =>
      match forwardableLocal its left with
      | some home => [.binaryK op into home k]
      | none => compileExpression its mark (mark + 1) left ++ [.binaryK op into mark k]
    | none =>
      match (if runsNothing right then forwardableLocal its left else none),
        forwardableLocal its right with
      | some home, some other => [.binary op into home other]
      | some home, none =>
        compileExpression its mark (mark + 1) right ++ [.binary op into home mark]
      | none, some other =>
        compileExpression its mark (mark + 1) left ++ [.binary op into mark other]
      | none, none =>
        compileExpression its mark (mark + 1) left ++
          (compileExpression its (mark + 1) (mark + 2) right ++
            [.binary op into mark (mark + 1)])
  | .opAnd left right =>
    let other := compileExpression its into mark right
    compileExpression its into mark left ++ (.jumpFalse into other.length :: other)
  | .opOr left right =>
    let other := compileExpression its into mark right
    compileExpression its into mark left ++
      (.jumpFalse into 1 :: .jump other.length :: other)
  -- `compile_nil_else`
  | .nilElse left right =>
    let other := compileExpression its into mark right
    compileExpression its into mark left ++
      (.isNil mark into :: .jumpFalse mark other.length :: other)
  -- `compile_catch`
  | .opCatch left right =>
    let other :=
      compileExpression (Fin.cons mark its) into (mark + 2) right ++ [.close mark]
    compileExpression its into mark left ++
      (.move mark into :: .isError (mark + 1) mark :: .jumpFalse (mark + 1) other.length :: other)
  -- `compile_try`
  | .tryHat operand =>
    let escape := c.emitErrorEscape into
    compileExpression its into mark operand ++
      (.isError mark into :: .jumpFalse mark escape.length :: escape)
  | .panic value => compileExpression its mark (mark + 1) value ++ [.panic mark]
  -- `compile_compare_chain`
  | .chain first op second links =>
    compileExpression its mark (mark + 1) first ++
      (compileExpression its (mark + 1) (mark + 2) second ++
        (.binary op into mark (mark + 1) :: compileLinks its into (mark + 1) (mark + 2) links))
  -- `compile_table`
  | .table fields entries => .newTable into fields :: compileEntries its into mark entries
  -- `compile_interp`
  | .interp parts => compileParts its into mark false parts
  | .ifExpr clauses => compileClauses its into mark 0 clauses
  -- `compile_call`
  | .call callee arguments =>
    let place := if into + 1 = mark && !holdsLocal (n := n) its into then into else mark
    compileExpression its place (place + 1) callee ++
      (compileArguments its (place + 1) arguments ++
        (.call place arguments.count :: emitMove into place))

def compileArguments {d : Nat} (its : Fin d → Nat) (mark : Nat) : Exprs n d → List Instruction
  | .nil => []
  | .cons e rest =>
    compileExpression its mark (mark + 1) e ++ compileArguments its (mark + 1) rest

/-- Every link but the first. A false answer jumps past all that follow. -/
def compileLinks {d : Nat} (its : Fin d → Nat) (into left mark : Nat) :
    Links n d → List Instruction
  | .nil => []
  | .cons op operand rest =>
    let others :=
      compileExpression its mark (mark + 1) operand ++
        (.binary op into left mark :: compileLinks its into mark (mark + 1) rest)
    .jumpFalse into others.length :: others

def compileEntries {d : Nat} (its : Fin d → Nat) (into mark : Nat) : Entries n d → List Instruction
  | .nil => []
  | .cons key value rest =>
    compileExpression its mark (mark + 2) key ++
      (compileExpression its (mark + 1) (mark + 2) value ++
        (.setIndex into mark (mark + 1) :: compileEntries its into mark rest))

/-- The pieces are joined in `into`, the first of which is moved there. -/
def compileParts {d : Nat} (its : Fin d → Nat) (into mark : Nat) (started : Bool) :
    Parts n d → List Instruction
  | .nil => if started then [] else [.load into c.emptyString]
  | .text s rest =>
    .load mark s ::
      (if started then Instruction.binary .concat into into mark else .move into mark) ::
        compileParts its into mark true rest
  | .hole value format rest =>
    compileExpression its (mark + 1) (mark + 3) value ++
      (.load (mark + 2) c.tostring :: .getIndex mark (mark + 1) (mark + 2) ::
        (match format with
          | some s => [.load (mark + 2) s, .callMethod mark 1]
          | none => [.callMethod mark 0]) ++
        ((if started then Instruction.binary .concat into into mark else .move into mark) ::
          compileParts its into mark true rest))

/-- There is room for so many jumps out of an `if^`. -/
def compileClauses {d : Nat} (its : Fin d → Nat) (into mark leaving : Nat) :
    Clauses n d → List Instruction
  | .other body => compileExpression its into mark body
  | .cons condition body rest =>
    let others := compileClauses its into mark (leaving + 1) rest
    let taken := compileExpression its into mark body ++
      if leaving < maxLocals then [.jump others.length] else []
    compileExpression its mark (mark + 1) condition ++
      (.jumpFalse mark taken.length :: (taken ++ others))

end

/-- `compile_reassign`, of one target that is a local. -/
def compileReassign (value : Expr n 0) : List Instruction :=
  c.compileExpression Fin.elim0 x n value

end Compiler

end Lhat.Assign
