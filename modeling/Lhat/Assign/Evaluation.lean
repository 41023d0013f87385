import Lhat.Assign.Basic

/-!
# What an expression stands for

`exec` runs the code that is left: every jump of an expression goes forward. `eval` is the
expression from left to right, with what `x` held before for every read of `x`. `ReadsOld`
follows the evaluation and says that no read of `x`, and no way out, comes upon an answer that
the code has put into the register of `x` early.
-/

namespace Lhat.Assign

/-- The registers of the body and whatever else there is. -/
structure State (W : Type) where
  registers : Nat → LhatValue
  world : W

/-- How a run ends: with a value, with an error on its way to the caller or to the arms of a
`catch^`, or with a fault. -/
inductive Outcome (α : Type) where
  | value (v : α)
  | left (error : LhatValue)
  | fault
deriving DecidableEq, Repr

abbrev Result (W α : Type) := Outcome α × State W

variable {W : Type} {n x : Nat}

def IsNumber : LhatValue → Prop
  | .integer _ | .real _ => True
  | _ => False

/-- Nothing of the program runs. -/
def Act.Settled : Act W n x → Prop
  | .done _ _ | .fault _ => True
  | .read _ _ _ | .write _ _ _ _ => False

/-- What operators, tables and calls do. -/
structure Atoms (W : Type) (n x : Nat) where
  isError : W → LhatValue → Bool
  upvalue : W → Nat → LhatValue
  unary : UnaryOp → LhatValue → W → Act W n x
  binary : BinaryOp → LhatValue → LhatValue → W → Act W n x
  /-- What is between two numbers is built in. -/
  numbers : ∀ op a b w, IsNumber a → IsNumber b → (binary op a b w).Settled
  newTable : Nat → W → Act W n x
  getIndex : LhatValue → LhatValue → W → Act W n x
  setIndex : LhatValue → LhatValue → LhatValue → W → Act W n x
  call : LhatValue → List LhatValue → W → Act W n x
  callMethod : LhatValue → List LhatValue → W → Act W n x
  /-- What a call leaves in the registers above its answer. -/
  leavings : W → Nat → LhatValue

namespace Result

variable {α β : Type}

def andThen (r : Result W α) (k : α → State W → Result W β) : Result W β :=
  match r with
  | (.value v, s) => k v s
  | (.left v, s) => (.left v, s)
  | (.fault, s) => (.fault, s)

/-- A property of the value and the state, if a value is come to. -/
def After (r : Result W α) (P : α → State W → Prop) : Prop :=
  match r with
  | (.value v, s) => P v s
  | (.left _, _) | (.fault, _) => True

end Result

def State.set (s : State W) (r : Nat) (v : LhatValue) : State W :=
  { s with registers := Function.update s.registers r v }

/-- The answer of a call, over which the callee's registers stood. -/
def State.answer (s : State W) (callee : Nat) (v : LhatValue) (leavings : Nat → LhatValue) :
    State W :=
  { s with
    registers := fun r =>
      if r < callee then s.registers r else if r = callee then v else leavings r }

def Act.perform : Act W n x → State W → Result W LhatValue
  | .done v w, s => (.value v, { s with world := w })
  | .fault w, s => (.fault, { s with world := w })
  | .read r _ k, s => (k (s.registers r)).perform s
  | .write r _ v k, s => k.perform (s.set r v)

/-- The code that is left, past so many instructions. -/
def exec (A : Atoms W n x) : Nat → List Instruction → State W → Result W Unit
  | _, [], s => (.value (), s)
  | skip + 1, _ :: rest, s => exec A skip rest s
  | 0, instruction :: rest, s =>
    match instruction with
    | .load into v => exec A 0 rest (s.set into v)
    | .move into source => exec A 0 rest (s.set into (s.registers source))
    | .getUpval into u => exec A 0 rest (s.set into (A.upvalue s.world u))
    | .unary op into operand =>
      ((A.unary op (s.registers operand) s.world).perform s).andThen fun v s =>
        exec A 0 rest (s.set into v)
    | .binary op into left right =>
      ((A.binary op (s.registers left) (s.registers right) s.world).perform s).andThen
        fun v s => exec A 0 rest (s.set into v)
    | .binaryK op into left k =>
      ((A.binary op (s.registers left) k s.world).perform s).andThen fun v s =>
        exec A 0 rest (s.set into v)
    | .jump offset => exec A offset rest s
    | .jumpFalse test offset =>
      match s.registers test with
      | .bool true => exec A 0 rest s
      | .bool false => exec A offset rest s
      | _ => (.fault, s)
    | .isNil into tested =>
      exec A 0 rest (s.set into (.bool (decide (s.registers tested = .nil))))
    | .isError into tested =>
      exec A 0 rest (s.set into (.bool (A.isError s.world (s.registers tested))))
    | .newTable into fields =>
      ((A.newTable fields s.world).perform s).andThen fun v s => exec A 0 rest (s.set into v)
    | .getIndex into target key =>
      ((A.getIndex (s.registers target) (s.registers key) s.world).perform s).andThen
        fun v s => exec A 0 rest (s.set into v)
    | .setIndex target key value =>
      ((A.setIndex (s.registers target) (s.registers key) (s.registers value)
        s.world).perform s).andThen fun _ s => exec A 0 rest s
    | .call callee count =>
      ((A.call (s.registers callee)
        ((List.range count).map fun i => s.registers (callee + 1 + i)) s.world).perform
          s).andThen fun v s => exec A 0 rest (s.answer callee v (A.leavings s.world))
    | .callMethod callee given =>
      ((A.callMethod (s.registers callee)
        ((List.range (given + 1)).map fun i => s.registers (callee + 1 + i)) s.world).perform
          s).andThen fun v s => exec A 0 rest (s.answer callee v (A.leavings s.world))
    | .close _ => exec A 0 rest s
    | .panic _ => (.fault, s)
    | .ret source => (.left (s.registers source), s)
    | .toArms caught => (.left (s.registers caught), s)

/-! ### The evaluation -/

section

variable (A : Atoms W n x) (c : Compiler n x)

/-- The pieces so far are joined with the next. -/
def join (joined : Option LhatValue) (piece : LhatValue) (s : State W) : Result W LhatValue :=
  match joined with
  | some text => (A.binary .concat text piece s.world).perform s
  | none => (.value piece, s)

/-- What a hole is written as. -/
def written (v : LhatValue) (format : Option LhatValue) (s : State W) : Result W LhatValue :=
  ((A.getIndex v c.tostring s.world).perform s).andThen fun f s =>
    (A.callMethod f (v :: format.toList) s.world).perform s

mutual

/-- The value of an expression. The registers of the locals are all that is read of the state's,
and `x` is written by no part of it. -/
def eval {d : Nat} (its : Fin d → LhatValue) : Expr n d → State W → Result W LhatValue
  | .literal v, s => (.value v, s)
  | .name r, s => (.value (s.registers r), s)
  | .it k, s => (.value (its k), s)
  | .upvalue u, s => (.value (A.upvalue s.world u), s)
  | .unary op operand, s =>
    (eval its operand s).andThen fun v s => (A.unary op v s.world).perform s
  | .binary op _ left right, s =>
    (eval its left s).andThen fun a s =>
      (eval its right s).andThen fun b s => (A.binary op a b s.world).perform s
  | .opAnd left right, s =>
    (eval its left s).andThen fun v s =>
      match v with
      | .bool true => eval its right s
      | .bool false => (.value v, s)
      | _ => (.fault, s)
  | .opOr left right, s =>
    (eval its left s).andThen fun v s =>
      match v with
      | .bool true => (.value v, s)
      | .bool false => eval its right s
      | _ => (.fault, s)
  | .nilElse left right, s =>
    (eval its left s).andThen fun v s => if v = .nil then eval its right s else (.value v, s)
  | .opCatch left right, s =>
    (eval its left s).andThen fun v s =>
      if A.isError s.world v then eval (Fin.cons v its) right s else (.value v, s)
  | .tryHat operand, s =>
    (eval its operand s).andThen fun v s =>
      if A.isError s.world v then (.left v, s) else (.value v, s)
  | .panic value, s => (eval its value s).andThen fun _ s => (.fault, s)
  | .chain first op second links, s =>
    (eval its first s).andThen fun a s =>
      (eval its second s).andThen fun b s =>
        ((A.binary op a b s.world).perform s).andThen fun v s => evalLinks its v b links s
  | .table fields entries, s =>
    ((A.newTable fields s.world).perform s).andThen fun t s => evalEntries its t entries s
  | .interp parts, s => evalParts its none parts s
  | .ifExpr clauses, s => evalClauses its clauses s
  | .call callee arguments, s =>
    (eval its callee s).andThen fun f s =>
      (evalArguments its arguments s).andThen fun vs s => (A.call f vs s.world).perform s

def evalArguments {d : Nat} (its : Fin d → LhatValue) :
    Exprs n d → State W → Result W (List LhatValue)
  | .nil, s => (.value [], s)
  | .cons e rest, s =>
    (eval its e s).andThen fun v s =>
      (evalArguments its rest s).andThen fun vs s => (.value (v :: vs), s)

/-- A chain whose links so far hold goes on from the operand that the next one shares. -/
def evalLinks {d : Nat} (its : Fin d → LhatValue) (answer left : LhatValue) :
    Links n d → State W → Result W LhatValue
  | .nil, s => (.value answer, s)
  | .cons op operand rest, s =>
    match answer with
    | .bool true =>
      (eval its operand s).andThen fun right s =>
        ((A.binary op left right s.world).perform s).andThen fun v s =>
          evalLinks its v right rest s
    | .bool false => (.value answer, s)
    | _ => (.fault, s)

def evalEntries {d : Nat} (its : Fin d → LhatValue) (table : LhatValue) :
    Entries n d → State W → Result W LhatValue
  | .nil, s => (.value table, s)
  | .cons key value rest, s =>
    (eval its key s).andThen fun k s =>
      (eval its value s).andThen fun v s =>
        ((A.setIndex table k v s.world).perform s).andThen fun _ s =>
          evalEntries its table rest s

def evalParts {d : Nat} (its : Fin d → LhatValue) (joined : Option LhatValue) :
    Parts n d → State W → Result W LhatValue
  | .nil, s => (.value (joined.getD c.emptyString), s)
  | .text piece rest, s =>
    (join A joined piece s).andThen fun text s => evalParts its (some text) rest s
  | .hole value format rest, s =>
    (eval its value s).andThen fun v s =>
      (written A c v format s).andThen fun piece s =>
        (join A joined piece s).andThen fun text s => evalParts its (some text) rest s

def evalClauses {d : Nat} (its : Fin d → LhatValue) : Clauses n d → State W → Result W LhatValue
  | .other body, s => eval its body s
  | .cons condition body rest, s =>
    (eval its condition s).andThen fun v s =>
      match v with
      | .bool true => eval its body s
      | .bool false => evalClauses its rest s
      | _ => (.fault, s)

end

/-! ### What is read early -/

/-- Where an answer stands in the register of `x`, nothing that runs reads `x`, unless that is
what `x` held. -/
def Act.ReadsOld (old standing : LhatValue) : Act W n x → State W → Prop
  | .done _ _, _ => True
  | .fault _, _ => standing = old
  | .read r _ k, s => (r = x → standing = old) ∧ (k (s.registers r)).ReadsOld old standing s
  | .write r _ v k, s => k.ReadsOld old standing (s.set r v)

/-- A branch on an answer: a fault where it is no truth value. -/
def Branches (old standing : LhatValue) (v : LhatValue) (whenTrue whenFalse : Prop) : Prop :=
  match v with
  | .bool true => whenTrue
  | .bool false => whenFalse
  | _ => standing = old

variable (old : LhatValue)

/-- The pieces so far are joined with the next, of which only the first is moved. -/
def JoinReadsOld (standing : LhatValue) (joined : Option LhatValue) (piece : LhatValue)
    (s : State W) : Prop :=
  match joined with
  | some text => (A.binary .concat text piece s.world).ReadsOld old standing s
  | none => True

def WrittenReadsOld (standing v : LhatValue) (format : Option LhatValue) (s : State W) : Prop :=
  (A.getIndex v c.tostring s.world).ReadsOld old standing s ∧
    ((A.getIndex v c.tostring s.world).perform s).After fun f s =>
      (A.callMethod f (v :: format.toList) s.world).ReadsOld old standing s

mutual

/-- Every read of `x`, and every way out, finds what `x` held before. `standing` is what is in
the register of `x`, and `direct` says that the answer is put there. What is marked as an
operation between numbers is one. -/
def ReadsOld {d : Nat} (direct : Bool) (its : Fin d → LhatValue) (standing : LhatValue) :
    Expr n d → State W → Prop
  | .literal _, _ | .it _, _ | .upvalue _, _ => True
  | .name r, _ => r.val = x → standing = old
  | .unary op operand, s =>
    ReadsOld false its standing operand s ∧
      (eval A c its operand s).After fun v s => (A.unary op v s.world).ReadsOld old standing s
  | .binary op numeric left right, s =>
    ReadsOld false its standing left s ∧
      (eval A c its left s).After fun a s =>
        ReadsOld false its standing right s ∧
          (eval A c its right s).After fun b s =>
            (numeric = true → IsNumber a ∧ IsNumber b) ∧
              (A.binary op a b s.world).ReadsOld old standing s
  | .opAnd left right, s =>
    ReadsOld direct its standing left s ∧
      (eval A c its left s).After fun v s =>
        let standing := if direct then v else standing
        Branches old standing v (ReadsOld direct its standing right s) True
  | .opOr left right, s =>
    ReadsOld direct its standing left s ∧
      (eval A c its left s).After fun v s =>
        let standing := if direct then v else standing
        Branches old standing v True (ReadsOld direct its standing right s)
  | .nilElse left right, s =>
    ReadsOld direct its standing left s ∧
      (eval A c its left s).After fun v s =>
        v = .nil → ReadsOld direct its (if direct then v else standing) right s
  | .opCatch left right, s =>
    ReadsOld direct its standing left s ∧
      (eval A c its left s).After fun v s =>
        A.isError s.world v = true →
          ReadsOld direct (Fin.cons v its) (if direct then v else standing) right s
  | .tryHat operand, s =>
    ReadsOld direct its standing operand s ∧
      (eval A c its operand s).After fun v s =>
        A.isError s.world v = true → (if direct then v else standing) = old
  | .panic value, s =>
    ReadsOld false its standing value s ∧ (eval A c its value s).After fun _ _ => standing = old
  | .chain first op second links, s =>
    ReadsOld false its standing first s ∧
      (eval A c its first s).After fun a s =>
        ReadsOld false its standing second s ∧
          (eval A c its second s).After fun b s =>
            (A.binary op a b s.world).ReadsOld old standing s ∧
              ((A.binary op a b s.world).perform s).After fun v s =>
                LinksReadOld direct its (if direct then v else standing) v b links s
  | .table fields entries, s =>
    (A.newTable fields s.world).ReadsOld old standing s ∧
      ((A.newTable fields s.world).perform s).After fun t s =>
        EntriesReadOld its (if direct then t else standing) t entries s
  | .interp parts, s => PartsReadOld direct its standing none parts s
  | .ifExpr clauses, s => ClausesReadOld direct its standing 0 clauses s
  | .call callee arguments, s =>
    ReadsOld false its standing callee s ∧
      (eval A c its callee s).After fun f s =>
        ArgumentsReadOld its standing arguments s ∧
          (evalArguments A c its arguments s).After fun vs s =>
            (A.call f vs s.world).ReadsOld old standing s

def ArgumentsReadOld {d : Nat} (its : Fin d → LhatValue) (standing : LhatValue) :
    Exprs n d → State W → Prop
  | .nil, _ => True
  | .cons e rest, s =>
    ReadsOld false its standing e s ∧
      (eval A c its e s).After fun _ s => ArgumentsReadOld its standing rest s

def LinksReadOld {d : Nat} (direct : Bool) (its : Fin d → LhatValue)
    (standing answer left : LhatValue) : Links n d → State W → Prop
  | .nil, _ => True
  | .cons op operand rest, s =>
    Branches old standing answer
      (ReadsOld false its standing operand s ∧
        (eval A c its operand s).After fun right s =>
          (A.binary op left right s.world).ReadsOld old standing s ∧
            ((A.binary op left right s.world).perform s).After fun v s =>
              LinksReadOld direct its (if direct then v else standing) v right rest s) True

def EntriesReadOld {d : Nat} (its : Fin d → LhatValue) (standing table : LhatValue) :
    Entries n d → State W → Prop
  | .nil, _ => True
  | .cons key value rest, s =>
    ReadsOld false its standing key s ∧
      (eval A c its key s).After fun k s =>
        ReadsOld false its standing value s ∧
          (eval A c its value s).After fun v s =>
            (A.setIndex table k v s.world).ReadsOld old standing s ∧
              ((A.setIndex table k v s.world).perform s).After fun _ s =>
                EntriesReadOld its standing table rest s

def PartsReadOld {d : Nat} (direct : Bool) (its : Fin d → LhatValue) (standing : LhatValue)
    (joined : Option LhatValue) : Parts n d → State W → Prop
  | .nil, _ => True
  | .text piece rest, s =>
    JoinReadsOld A old standing joined piece s ∧
      (join A joined piece s).After fun text s =>
        PartsReadOld direct its (if direct then text else standing) (some text) rest s
  | .hole value format rest, s =>
    ReadsOld false its standing value s ∧
      (eval A c its value s).After fun v s =>
        WrittenReadsOld A c old standing v format s ∧
          (written A c v format s).After fun piece s =>
            JoinReadsOld A old standing joined piece s ∧
              (join A joined piece s).After fun text s =>
                PartsReadOld direct its (if direct then text else standing) (some text) rest s

/-- The arm that is taken is among those there is room to jump out of. -/
def ClausesReadOld {d : Nat} (direct : Bool) (its : Fin d → LhatValue) (standing : LhatValue)
    (leaving : Nat) : Clauses n d → State W → Prop
  | .other body, s => ReadsOld direct its standing body s
  | .cons condition body rest, s =>
    ReadsOld false its standing condition s ∧
      (eval A c its condition s).After fun v s =>
        Branches old standing v (leaving < maxLocals ∧ ReadsOld direct its standing body s)
          (ClausesReadOld direct its standing (leaving + 1) rest s)

end

end

end Lhat.Assign
