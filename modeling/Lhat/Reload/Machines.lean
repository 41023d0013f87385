import Lhat.Collector.Program
import Lhat.Reload.Basic

/-!
# A program and the machines that run it

A closure names the proto it was made from, and the protos of a body name one another: a body
holds its nested bodies, and its unit table names the bodies its `require^`s reach. What an
invalidation retires is kept until no machine holds a closure of it, and then its code is freed.
What its constants named is not: that becomes the program's.

The heap of a machine is the collector's. Beside it stands which proto each closure was made from.
A body is a number, and `root` is what the compiler made as that body.
-/

namespace Lhat.Reload

open Gc (LhatProto Action Roots)

/-- A proto: the body it lies in, and the way down to it from the unit's own. -/
abbrev ProtoRef := Body × List Nat

mutual

/-- `fill_bodies`, below what `path` leads to. -/
def fillBodies (path : List Nat) : LhatProto → List (List Nat)
  | .node protos _ => path :: fillNested path 0 protos

def fillNested (path : List Nat) (i : Nat) : List LhatProto → List (List Nat)
  | [] => []
  | proto :: protos => fillBodies (path ++ [i]) proto ++ fillNested path (i + 1) protos

end

/-- The proto nested as `which` in another. -/
def nestedAt : LhatProto → List Nat → Nat → Option LhatProto
  | .node protos _, [], which => protos[which]?
  | .node protos _, i :: path, which => protos[i]?.bind fun proto => nestedAt proto path which

/-- `LhatMachine`, and what its closures name. -/
structure Station where
  gc : Gc.Machine
  proto : Address → Option ProtoRef := fun _ => none

namespace Station

/-- The body an object names: a closure outright, and a coroutine through the closure it was
suspended in. -/
def bodyAt (m : Station) (a : Address) : Option ProtoRef :=
  match m.gc.object a with
  | some { payload := .subroutine _ _ _, .. } => m.proto a
  | some { payload := .coroutine co, .. } => if co.closure = 0 then none else m.proto co.closure
  | _ => none

/-- `lhat_machine_holds_body`. -/
def lhatMachineHoldsBody (m : Station) (bodies : List ProtoRef) : Bool :=
  m.gc.objects.any fun a =>
    match m.bodyAt a with
    | none => false
    | some p => decide (p ∈ bodies)

/-- `lhat_machine_pending_disposals`. -/
def lhatMachinePendingDisposals (m : Station) : Nat := m.gc.pendingDispose.length

/-- A closure is made, and a register or another root holds it. -/
def makeClosure (m : Station) (a : Address) (p : ProtoRef) (upvalues : List Address)
    (owner : Address) (registers : Nat) (r : Roots) : Station where
  gc := m.gc.act (.alloc a (.subroutine upvalues owner registers) r)
  proto := Function.update m.proto a (some p)

end Station

structure System (Types : Type) where
  program : Program Types
  /-- `proto->units`, for the bodies that have one. -/
  tables : Body → Option (List (Option Body)) := fun _ => none
  /-- The bodies that were loaded beside the units. -/
  scripts : List Body := []
  /-- What was carried from one machine to go to another. -/
  carried : List ProtoRef := []
  retiredObjects : List Address := []
  machines : List Station := []

variable {Types : Type}

namespace System

variable (root : Body → LhatProto)

/-- `prg_fill_unit_table`, where there is room. -/
def fillUnitTable (s : System Types) (b : Body) (referenced : List Path) : System Types :=
  { s with
    tables := Function.update s.tables b
      (some (referenced.map fun path => (s.program.findUnit path).bind LhatUnit.body)) }

/-- The second pass of `prg_compile_all`, over the units that are left. -/
def fillTables (room : Body → Bool) : List (LhatUnit Types) → System Types → System Types
  | [], s => s
  | u :: rest, s =>
    match u.body with
    | none => fillTables room rest s
    | some b =>
      if (s.tables b).isNone && room b then fillTables room rest (s.fillUnitTable b u.referenced)
      else fillTables room rest s

/-- `prg_compile_all`. -/
def compileAll (s : System Types) (outcome : Path → Program.Compiled) (room : Body → Bool) :
    System Types :=
  let s := { s with program := s.program.compileAll outcome s.program.units }
  fillTables room s.program.units s

/-- `build_placed`, from the check of the text on. What is made is the caller's. -/
def buildPlaced (s : System Types) (env : Env Types) (stack : Nat) (checking : Checking Types)
    (outcome : Path → Program.Compiled) (room : Body → Bool) (script : Program.Compiled) :
    Option (System Types) :=
  match s.program.loadText env stack checking with
  | none => none
  | some p =>
    let s := { s with program := p }.compileAll outcome room
    let b := s.program.bodies
    if script.ok && room b then
      some ({ s with
        program := { s.program with bodies := b + 1 }
        scripts := s.scripts ++ [b] }.fillUnitTable b (script.resolved.foldl Program.edgeTo []))
    else some s

/-! ### Where a closure comes from -/

/-- What a machine may make a closure of next. -/
inductive Origin (s : System Types) (m : Station) : ProtoRef → Prop where
  /-- A unit is run, or handed over by the host. -/
  | run {u : LhatUnit Types} {b : Body} (hu : u ∈ s.program.units) (hb : u.body = some b) :
      Origin s m (b, [])
  /-- `lhat_machine_adopt_script`, or the host's own. -/
  | script {b : Body} (hb : b ∈ s.scripts) : Origin s m (b, [])
  /-- `LHAT_BC_CLOSURE`, in a frame that runs `p`. -/
  | closure {f : Gc.Frame} {p : ProtoRef} {which : Nat} (hf : f ∈ m.gc.roots.frames)
      (hp : m.proto f.closure = some p) (hnested : (nestedAt (root p.1) p.2 which).isSome) :
      Origin s m (p.1, p.2 ++ [which])
  /-- `LHAT_BC_UNIT`: the number indexes the table of the unit the body was written in. -/
  | unit {f : Gc.Frame} {p : ProtoRef} {table : List (Option Body)} {which : Nat} {b : Body}
      (hf : f ∈ m.gc.roots.frames) (hp : m.proto f.closure = some p)
      (htable : s.tables p.1 = some table) (hwhich : table[which]? = some (some b)) :
      Origin s m (b, [])
  /-- A copy of what another machine carried over. -/
  | carried {p : ProtoRef} (hp : p ∈ s.carried) : Origin s m p

/-- No action but `makeClosure` makes a closure of an object. -/
def Leaves (m : Station) : Action → Prop
  | .alloc _ (.subroutine _ _ _) _ => False
  | .write a (.subroutine _ _ _) _ _ =>
    ∀ o, m.gc.object a = some o → ∃ upvalues owner registers,
      o.payload = .subroutine upvalues owner registers
  | _ => True

/-- What a machine does next, at steps the collector is sure to see. -/
inductive Runs (s : System Types) (m : Station) : Station → Prop where
  | act (action : Action) (hallowed : m.gc.Allowed action) (hmeets : m.gc.Meets action)
      (hleaves : Leaves m action) : Runs s m { m with gc := m.gc.act action }
  | closure {a : Address} {p : ProtoRef} {upvalues : List Address} {owner : Address}
      {registers : Nat} {r : Roots} (horigin : Origin root s m p)
      (hallowed : m.gc.Allowed (.alloc a (.subroutine upvalues owner registers) r)) :
      Runs s m (m.makeClosure a p upvalues owner registers r)

/-- `lhat_machine_gc_collect`: a whole collection, and then the cleanups it held back. -/
def Collects (s : System Types) (m m' : Station) : Prop :=
  Relation.ReflTransGen (Runs root s) { m with gc := m.gc.act .collect } m'

/-! ### Discarding -/

/-- The bodies of what was retired, nested ones included. -/
def retiredBodies (s : System Types) : List ProtoRef :=
  s.program.retired.flatMap fun b => (fillBodies [] (root b)).map (b, ·)

/-- What the constants of the retired bodies named. -/
def retiredConstants (s : System Types) : List Address :=
  s.program.retired.flatMap fun b => (root b).objects

/-- `prg_discard_retired_held`. -/
def discardRetired (s : System Types) : System Types :=
  { s with
    program := { s.program with retired := [] }
    retiredObjects := s.retiredConstants root ++ s.retiredObjects }

/-- The loop of `discard_unheld_held` over the machines, which ends at the first that holds
something back. -/
inductive Asks (s : System Types) (bodies : List ProtoRef) :
    List Station → List Station → Bool → Prop where
  | nil : Asks s bodies [] [] false
  | held {m m' : Station} {rest : List Station} (hcollects : Collects root s m m')
      (hheld : (decide (0 < m'.lhatMachinePendingDisposals) || m'.lhatMachineHoldsBody bodies) =
        true) : Asks s bodies (m :: rest) (m' :: rest) true
  | next {m m' : Station} {rest rest' : List Station} {held : Bool}
      (hcollects : Collects root s m m')
      (hfree : (decide (0 < m'.lhatMachinePendingDisposals) || m'.lhatMachineHoldsBody bodies) =
        false) (hrest : Asks s bodies rest rest' held) :
      Asks s bodies (m :: rest) (m' :: rest') held

/-- `discard_unheld_held`, and whether nothing retired is left waiting. -/
inductive DiscardsUnheld (s : System Types) : System Types → Bool → Prop where
  | nothing (hnone : s.program.retired = []) : DiscardsUnheld s s true
  | noRoom : DiscardsUnheld s s false
  | kept {machines : List Station} (hsome : s.program.retired ≠ [])
      (hasks : Asks root s (s.retiredBodies root) s.machines machines true) :
      DiscardsUnheld s { s with machines := machines } false
  | freed {machines : List Station} (hsome : s.program.retired ≠ [])
      (hasks : Asks root s (s.retiredBodies root) s.machines machines false) :
      DiscardsUnheld s ({ s with machines := machines }.discardRetired root) true

/-! ### Runs -/

/-- A reload is an invalidation, the machines forgetting the modules, a check of each unit that is
stale then, a compile, and a discard. -/
inductive Step (s : System Types) : System Types → Prop where
  | check (env : Env Types) (stack : Nat) (path : Path) {p : Program Types} {found : Bool}
      (hcheck : s.program.checkPath env stack path = some (p, found)) :
      Step s { s with program := p }
  | compile (outcome : Path → Program.Compiled) (room : Body → Bool) :
      Step s (s.compileAll outcome room)
  | loadText (env : Env Types) (stack : Nat) (checking : Checking Types)
      (outcome : Path → Program.Compiled) (room : Body → Bool) (script : Program.Compiled)
      {s' : System Types}
      (hbuild : s.buildPlaced env stack checking outcome room script = some s') : Step s s'
  | invalidate (env : Env Types) (room : Bool) (path : Path) :
      Step s { s with program := (s.program.invalidate env room path).1 }
  /-- One more machine that the program is installed on. -/
  | install : Step s { s with machines := s.machines ++ [{ gc := Gc.Machine.started }] }
  | run {before after : List Station} {m m' : Station} (hm : s.machines = before ++ m :: after)
      (hrun : Runs root s m m') : Step s { s with machines := before ++ m' :: after }
  /-- A closure is carried out of a machine. -/
  | carry {m : Station} {a : Address} {p : ProtoRef} (hm : m ∈ s.machines)
      (hp : m.bodyAt a = some p) : Step s { s with carried := s.carried ++ [p] }
  | discard {s' : System Types} {answer : Bool} (hdiscards : DiscardsUnheld root s s' answer) :
      Step s s'

def Steps : System Types → System Types → Prop := Relation.ReflTransGen (Step root)

def Reached (s : System Types) : Prop := Steps root { program := {} } s

/-! ### What a discard may take -/

/-- None of what a machine's heap holds, and nothing that its frames, its registers, its modules or
a suspended run reach, names one of these bodies. -/
def LetsGo (m : Station) (freed : List ProtoRef) : Prop :=
  ∀ a, m.gc.Reachable a ∨ a ∈ m.gc.objects → ∀ p, m.bodyAt a = some p → p ∉ freed

/-- No unit that stands names one of these bodies in its table. -/
def Forgotten (s : System Types) (freed : List Body) : Prop :=
  ∀ u ∈ s.program.units, ∀ b, u.body = some b → b ∉ freed ∧
    ∀ table, s.tables b = some table → ∀ t, some t ∈ table → t ∉ freed

end System

end Lhat.Reload
