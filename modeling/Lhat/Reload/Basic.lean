import Lhat.Foundation.Closing

/-!
# Units and what they require

A program holds its units by path. A unit is read through the loader and checked, and the check
asks for other units where it meets a `require^`, which are read then and there. When a text
changes, its unit and those that reach it are retired, and read again when they are next asked
for.

Here a text is what the checker makes of it, a body is a number, and the messages are left out
but for the one of a cycle. With each unit stands how often it was read, and what its last check
asked for and which reading that was an answer about.
-/

namespace Lhat.Reload

/-- A path as `prg_resolve_against` leaves it. -/
abbrev Path := String

abbrev Body := Nat

/-- `LhatUnitState`. -/
inductive UnitState where
  | checking
  | done
  | failed
  | stale
deriving DecidableEq

/-- What the checker does with a text: it asks for units, one after the other, and what it asks
for next may hang on the types it was answered. -/
inductive Checking (Types : Type) where
  | done (types : Types)
  | ask (path : Path) (next : Option Types → Checking Types)

/-- What the loader answered. The bytes of a binary unit name what they require, and may not be
sound. -/
inductive Content (Types : Type) where
  | source (checking : Checking Types)
  | binary (requires : List Path) (types : Types) (sound : Bool)

structure Text (Types : Type) where
  hash : UInt64
  content : Content Types

/-- The files, and whether the list of a unit has room for one more edge. -/
structure Env (Types : Type) where
  read : Path → Option (Text Types)
  grows : Path → Path → Bool

structure LhatUnit (Types : Type) where
  path : Path
  state : UnitState := .checking
  referenced : List Path := []
  loaded : Bool := false
  binary : Bool := false
  types : Option Types := none
  body : Option Body := none
  sourceHash : UInt64 := 0
  version : Nat := 0
  asked : List (Path × Nat) := []
deriving DecidableEq

structure Program (Types : Type) where
  units : List (LhatUnit Types) := []
  retired : List Body := []
  bodies : Nat := 0
  /-- How often a cycle was reported. -/
  cycles : Nat := 0
deriving DecidableEq

variable {Types : Type}

/-- It was read, whatever came of it. -/
def LhatUnit.Stands (u : LhatUnit Types) : Prop := u.state = .done ∨ u.state = .failed

namespace Program

def findUnit (p : Program Types) (path : Path) : Option (LhatUnit Types) :=
  p.units.find? fun u => decide (u.path = path)

def modify (p : Program Types) (path : Path) (f : LhatUnit Types → LhatUnit Types) :
    Program Types :=
  { p with units := p.units.map fun u => if u.path = path then f u else u }

def versionOf (p : Program Types) (path : Path) : Nat :=
  match p.findUnit path with
  | some u => u.version
  | none => 0

/-- `remember_edge`. -/
def rememberEdge (env : Env Types) (p : Program Types) (requiring target : Path) : Program Types :=
  p.modify requiring fun u =>
    if target ∈ u.referenced then u
    else if env.grows requiring target then { u with referenced := u.referenced ++ [target] }
    else u

/-- What a check asked for, as it is answered. -/
def note (p : Program Types) (requiring target : Path) : Program Types :=
  p.modify requiring fun u => { u with asked := u.asked ++ [(target, p.versionOf target)] }

/-! ### Reading -/

/-- `resolve_require`, when `check_path` has answered. -/
def resolveRequire (env : Env Types) (requiring target : Path) (p : Program Types) (found : Bool) :
    Program Types × Option Types :=
  if found then
    let p := (p.note requiring target).rememberEdge env requiring target
    match p.findUnit target with
    | some u => (p, if u.state = .done ∧ u.binary = false then u.types else none)
    | none => (p, none)
  else (p.note requiring target, none)

section Reading

variable (check : Program Types → Path → Option (Program Types × Bool)) (env : Env Types)

/-- The check of a text, up to its last `require^`. -/
def runChecking (requiring : Path) : Checking Types → Program Types → Option (Program Types × Types)
  | .done types, p => some (p, types)
  | .ask target next, p =>
    match check p target with
    | none => none
    | some (p, found) =>
      runChecking requiring (next (p.resolveRequire env requiring target found).2)
        (p.resolveRequire env requiring target found).1

/-- The units a binary one names, up to the first that will not do. -/
def runBinary (requiring : Path) : List Path → Program Types → Option (Program Types × Bool)
  | [], p => some (p, true)
  | target :: rest, p =>
    match check p target with
    | none => none
    | some (p, false) => some (p.note requiring target, false)
    | some (p, true) =>
      let p := (p.note requiring target).rememberEdge env requiring target
      match p.findUnit target with
      | some u => if u.state = .done ∧ u.binary = false then some (p, false)
        else runBinary requiring rest p
      | none => some (p, false)

/-- `load_into`. -/
def loadInto (path : Path) (p : Program Types) : Option (Program Types) :=
  let p := p.modify path fun u =>
    { u with state := .checking, version := u.version + 1, asked := [] }
  match env.read path with
  | none => some (p.modify path fun u => { u with state := .failed })
  | some text =>
    let p := p.modify path fun u => { u with sourceHash := text.hash }
    match text.content with
    | .source checking =>
      match runChecking check env path checking
        (p.modify path fun u => { u with loaded := true }) with
      | none => none
      | some (p, types) =>
        some (p.modify path fun u => { u with types := some types, state := .done })
    | .binary requires types sound =>
      match runBinary check env path requires p with
      | none => none
      | some (p, ok) =>
        if ok && sound then
          some ({ p with bodies := p.bodies + 1 }.modify path fun u =>
            { u with
              binary := true
              loaded := true
              body := some p.bodies
              types := some types
              state := .done })
        else some (p.modify path fun u => { u with state := .failed })

end Reading

/-- `check_path`, with so much of the stack left. -/
def checkPath (env : Env Types) : Nat → Program Types → Path → Option (Program Types × Bool)
  | 0, _, _ => none
  | stack + 1, p, path =>
    match p.findUnit path with
    | some u =>
      if u.state = .checking then some ({ p with cycles := p.cycles + 1 }, false)
      else if u.state = .stale then
        (p.loadInto (checkPath env stack) env path).map fun p => (p, true)
      else some (p, true)
    | none =>
      ({ p with units := ({ path := path } : LhatUnit Types) :: p.units }.loadInto
        (checkPath env stack) env path).map fun p => (p, true)

/-- The check of a text that is loaded beside the units. What it requires joins the program, and
what it asked goes with it. -/
def loadText (env : Env Types) (stack : Nat) : Checking Types → Program Types →
    Option (Program Types)
  | .done _, p => some p
  | .ask target next, p =>
    match p.checkPath env stack target with
    | none => none
    | some (p, found) =>
      let types := match p.findUnit target with
        | some u => if found ∧ u.state = .done ∧ u.binary = false then u.types else none
        | none => none
      loadText env stack (next types) p

/-! ### Compiling -/

/-- What compiling a unit comes to: the units it resolves, and whether there is a body. -/
structure Compiled where
  resolved : List Path
  ok : Bool

/-- An edge, where there is room. -/
def edgeTo (referenced : List Path) (target : Path) : List Path :=
  if target ∈ referenced then referenced else referenced ++ [target]

/-- `prg_compile_one`. The edges are taken anew. -/
def compileOne (p : Program Types) (path : Path) (compiled : Compiled) : Program Types :=
  let p := p.modify path fun u => { u with referenced := compiled.resolved.foldl edgeTo [] }
  if compiled.ok then
    { p with bodies := p.bodies + 1 }.modify path fun u => { u with body := some p.bodies }
  else p

def compiles (u : LhatUnit Types) : Bool :=
  u.loaded && decide (u.state = .done) && u.body.isNone

/-- `prg_compile_all`, over the units that are left. -/
def compileAll (outcome : Path → Compiled) : List (LhatUnit Types) → Program Types → Program Types
  | [], p => p
  | u :: rest, p =>
    if compiles u then
      let p := p.compileOne u.path (outcome u.path)
      if (outcome u.path).ok then compileAll outcome rest p else p
    else compileAll outcome rest p

/-! ### Invalidation -/

/-- `reaching`. -/
def reaching (p : Program Types) (start : Path) : List Path :=
  closing (fun path => match p.findUnit path with
    | some u => u.referenced
    | none => []) (p.units.map LhatUnit.path) (p.units.length + 1) [start]

/-- `text_unchanged`. -/
def textUnchanged (env : Env Types) (u : LhatUnit Types) : Bool :=
  if u.sourceHash = 0 then false
  else match env.read u.path with
    | none => false
    | some text => decide (text.hash = u.sourceHash)

/-- What is left of a unit when its stages are cleared. -/
def cleared (u : LhatUnit Types) : LhatUnit Types :=
  { u with
    state := .stale
    referenced := []
    loaded := false
    binary := false
    types := none
    body := none
    sourceHash := 0 }

def retireOne (p : Program Types) (path : Path) : Program Types :=
  { p with
    retired := p.retired ++ ((p.findUnit path).bind LhatUnit.body).toList }.modify path cleared

/-- `retire_set`, where there is room for the bodies. -/
def retireSet (p : Program Types) (set : List Path) : Program Types := set.foldl retireOne p

/-- `prg_invalidate_held`. Without an answer it could not be done. -/
def invalidate (env : Env Types) (room : Bool) (p : Program Types) (path : Path) :
    Program Types × Option Nat :=
  match p.findUnit path with
  | none => (p, none)
  | some u =>
    if u.state = .stale then (p, some 0)
    else if textUnchanged env u then (p, some 0)
    else if room then (p.retireSet (p.reaching path), some (p.reaching path).length)
    else (p, none)

/-! ### Runs -/

/-- A reload is an invalidation, a check of each unit that is stale then, and a compile. -/
inductive Act (Types : Type) where
  | check (env : Env Types) (stack : Nat) (path : Path)
  | loadText (env : Env Types) (stack : Nat) (checking : Checking Types)
  | compile (outcome : Path → Compiled)
  | invalidate (env : Env Types) (room : Bool) (path : Path)

def step (p : Program Types) : Act Types → Option (Program Types)
  | .check env stack path => (p.checkPath env stack path).map Prod.fst
  | .loadText env stack checking => p.loadText env stack checking
  | .compile outcome => some (p.compileAll outcome p.units)
  | .invalidate env room path => some (p.invalidate env room path).1

/-- No `require^` closes a cycle and no edge is refused, and a unit that is compiled resolves
what its check asked for. -/
def Sound (p : Program Types) (p' : Program Types) : Act Types → Prop
  | .check env _ _ | .loadText env _ _ => p'.cycles = p.cycles ∧ ∀ u v, env.grows u v = true
  | .compile outcome => ∀ u ∈ p.units, compiles u = true →
      ∀ target, target ∈ (outcome u.path).resolved ↔ target ∈ u.asked.map Prod.fst
  | .invalidate _ _ _ => True

inductive Reached : Program Types → Prop where
  | new : Reached {}
  | step {p p' : Program Types} (act : Act Types) : Reached p → p.step act = some p' →
      Sound p p' act → Reached p'

/-! ### What an invalidation is for -/

/-- The last check of a unit asked for another. -/
def Asked (p : Program Types) (path target : Path) : Prop :=
  ∃ u ∈ p.units, u.path = path ∧ target ∈ u.asked.map Prod.fst

/-- It asked for it directly, or through others. -/
def DependsOn (p : Program Types) : Path → Path → Prop := Relation.ReflTransGen p.Asked

/-- What stands was answered about what stands, as it was last read. -/
def Current (p : Program Types) : Prop :=
  ∀ u ∈ p.units, u.Stands → ∀ target version, (target, version) ∈ u.asked →
    ∃ t ∈ p.units, t.path = target ∧ t.Stands ∧ t.version = version

/-- The units that no longer stand are those that depend on the one that changed, and those that
did not stand before. Each is retired once, and nothing else is touched. -/
def RetiresDependents (p p' : Program Types) (path : Path) (count : Nat) : Prop :=
  ∃ set : List Path, set.Nodup ∧ set.length = count ∧
    (∀ u ∈ p.units, u.state ≠ .stale → (u.path ∈ set ↔ p.DependsOn u.path path)) ∧
    p'.units = p.units.map (fun u => if u.path ∈ set then cleared u else u) ∧
    p'.retired = p.retired ++ set.filterMap fun q => (p.findUnit q).bind LhatUnit.body

end Program

end Lhat.Reload
