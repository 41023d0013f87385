import Lhat.Collector.Basic
import Lhat.Foundation.Reaching

/-!
# What the program does between steps of the collector

Registers, frames and the other roots are written freely. An object's field is
written together with a barrier on that object. Captures of stack slots are closed
before the frame they lie in goes, they move into a coroutine with its registers
when it suspends and back when it is taken up, and a loop's coroutine that ran to
its end is kept to be made again.
-/

namespace Lhat.Gc

/-- A slot of the weak cache that holds something. -/
def LhatWeakEntry.Live (entry : LhatWeakEntry) : Prop := entry.key ≠ 0 ∧ entry.key ≠ weakGone

/-- What a chunk's own heap holds. -/
def Payload.isConstant : Payload → Bool
  | .string | .errorKind _ _ | .type _ => true
  | _ => false

/-- What an object is made with, or written over with, in one piece: a script comes
with its constants, and a capture of a place is made by `vm_capture`. -/
def Payload.isPlain : Payload → Bool
  | .script _ => false
  | .upvalue (some .closed) _ _ => true
  | .upvalue _ _ _ => false
  | _ => true

namespace Machine

variable (m : Machine)

/-- An object stands at the address. -/
def Present (a : Address) : Prop := ∃ o, m.object a = some o

/-- What stands at an address refers to another. -/
def Refers (a b : Address) : Prop :=
  (∃ o, m.object a = some o ∧ b ∈ m.children o.payload) ∧ b ≠ 0

/-- What is reached from the roots `mark_roots` reads. -/
def Reachable : Address → Prop := Reaching (fun a => a ∈ m.rootList ∧ a ≠ 0) m.Refers

/-- What a chunk owns: in memory, and not on the machine's list. -/
def Constant (a : Address) : Prop := m.Present a ∧ a ∉ m.objects

/-- What an instruction can lay hands on without following a field. -/
def Nameable (a : Address) : Prop :=
  a ∈ m.rootList ∨ m.Constant a ∨ (∃ entry ∈ m.weak, entry.Live ∧ objectOf entry.value = a) ∨
    a ∈ m.unboundNatives ∨
      ∃ cache ∈ m.memberCaches, cache.answered ≠ 0 ∧
        (a = cache.answered ∨ a = cache.receiver ∨ a = cache.lender)

/-- What an instruction can name. -/
def Named : Address → Prop := Reaching (fun a => m.Nameable a ∧ a ≠ 0) m.Refers

/-- What the sweep under way does not free. -/
def Kept (a : Address) : Prop :=
  ∃ o, m.object a = some o ∧ (m.gcstate = .sweep → o.color ≠ m.white.other)

/-- Every capture of a slot lies in a frame. -/
def Covered : Prop :=
  ∀ u ∈ m.openUpvalues, ∀ o i closedValue suspendedIn, m.object u = some o →
    o.payload = .upvalue (some (.slot i)) closedValue suspendedIn →
      ∃ f ∈ m.roots.frames, f.covers i

/-! ### Objects -/

/-- `lhat_object_alloc`. -/
def allocate (a : Address) (payload : Payload) : Machine :=
  { m with object := Function.update m.object a (some { color := m.white, payload := payload }) }.prepend
    [a]

/-- The constants of a chunk, born black on a heap of their own. -/
def withConstants (constants : List (Address × Payload)) : Machine :=
  { m with
    object := constants.foldl
      (fun object c => Function.update object c.1 (some { color := .black, payload := c.2 })) m.object }

def setPayload (a : Address) (payload : Payload) : Machine :=
  match m.object a with
  | none => m
  | some o => { m with object := Function.update m.object a (some { o with payload := payload }) }

/-- A write of an object, each value it gains given to the forward or to the
backward barrier. -/
def write (a : Address) (payload : Payload) (gained : List Address) (back : Bool) : Machine :=
  gained.foldl (fun m v => if back then m.lhatGcBarrierBack a v else m.lhatGcBarrier a v)
    (m.setPayload a payload)

/-! ### Captures -/

/-- The slot an open capture names. -/
def slotOf (u : Address) : Nat :=
  match m.object u with
  | some { payload := .upvalue (some (.slot i)) _ _, .. } => i
  | _ => 0

/-- `vm_capture`, the new capture going to the address given. -/
def vmCapture (i : Nat) (a : Address) : Machine :=
  let above := m.openUpvalues.takeWhile fun u => decide (i < m.slotOf u)
  let rest := m.openUpvalues.dropWhile fun u => decide (i < m.slotOf u)
  if (rest.head?.map m.slotOf) = some i then m
  else { m.allocate a (.upvalue (some (.slot i)) .nil 0) with openUpvalues := above ++ a :: rest }

/-- `close_into_cell`. -/
def closeIntoCell (u : Address) : Machine :=
  match m.object u with
  | some { payload := .upvalue (some place) closedValue suspendedIn, .. } =>
    let held := m.read closedValue place
    (m.setPayload u (.upvalue (some .closed) held suspendedIn)).lhatGcBarrier u (objectOf held)
  | _ => m

/-- The loop of `vm_close_upvalues` over what the list holds. -/
def closeAbove (above : Nat) : List Address → Machine → Machine
  | [], m => m
  | u :: us, m =>
    if above ≤ m.slotOf u then closeAbove above us ({ m with openUpvalues := us }.closeIntoCell u)
    else m

/-- `vm_close_upvalues`. -/
def vmCloseUpvalues (above : Nat) : Machine := m.closeAbove above m.openUpvalues

/-- The loop of a yield over the captures of the frame at `base`. -/
def detachAbove (co : Address) (base : Nat) : List Address → Machine → Machine
  | [], m => m
  | u :: us, m =>
    if base ≤ m.slotOf u then
      match m.object co, m.object u with
      | some { payload := .coroutine c, .. },
          some { payload := .upvalue (some (.slot i)) closedValue _, .. } =>
          let moved := { m with openUpvalues := us }.setPayload u
            (.upvalue (some (.saved co (i - base))) closedValue co)
          let listed := moved.setPayload co
            (.coroutine { c with openCaptures := u :: c.openCaptures })
          detachAbove co base us (listed.lhatGcBarrier u co)
      | _, _ => m
    else m

/-- What `LHAT_BC_YIELD` does with the captures of its frame. -/
def detachUpvalues (co : Address) (base : Nat) : Machine := m.detachAbove co base m.openUpvalues

/-- The loop of `reattach_upvalues`. -/
def reattachEach (co : Address) (base : Nat) : List Address → Machine → Machine
  | [], m => m
  | u :: us, m =>
    match m.object u with
    | some { payload := .upvalue (some (.saved _ i)) closedValue _, .. } =>
      reattachEach co base us
        { m.setPayload u (.upvalue (some (.slot (base + i))) closedValue 0) with
          openUpvalues := u :: m.openUpvalues }
    | _ => reattachEach co base us m

/-- `reattach_upvalues`. -/
def reattachUpvalues (co : Address) (base : Nat) : Machine :=
  match m.object co with
  | some { payload := .coroutine c, .. } =>
    (m.setPayload co (.coroutine { c with openCaptures := [] })).reattachEach co base c.openCaptures
  | _ => m

/-! ### Spare coroutines -/

/-- `LHAT_SPARE_COROUTINES`. -/
def spareLimit : Nat := 8

/-- `vm_coroutine_spare`. -/
def vmCoroutineSpare (co : Address) : Machine :=
  match m.object co with
  | some { payload := .coroutine c, .. } =>
    if m.spareCoroutines.length < spareLimit then
      { m.setPayload co (.coroutine { c with closure := 0, registers := [] }) with
        spareCoroutines := m.spareCoroutines ++ [co] }
    else m
  | _ => m

/-- The registers a coroutine's runs hold. -/
def capacityOf (co : Address) : Nat :=
  match m.object co with
  | some { payload := .coroutine c, .. } => c.registerCapacity
  | _ => 0

/-- The first spare that is wide enough. -/
def spareFor (registers : Nat) : Option Nat :=
  m.spareCoroutines.findIdx? fun co => decide (max registers 1 ≤ m.capacityOf co)

/-- The list of spares with one taken out, the last put in its place. -/
def withoutSpare (i : Nat) : List Address :=
  (m.spareCoroutines.set i (m.spareCoroutines.getLast?.getD 0)).dropLast

/-- A spare made again: `lhat_coroutine_frame_init`, and the colour of what is born
now. -/
def remake (co closure : Address) (registers : Nat) : Machine :=
  match m.object co with
  | some o =>
    match o.payload with
    | .coroutine c =>
      { m with
        object := Function.update m.object co
          (some
            { o with
              color := m.white
              payload := .coroutine
                { c with
                  closure := closure
                  state := .fresh
                  registers := List.replicate registers .nil
                  cleanupCount := 0
                  openCaptures := [] } }) }
    | _ => m
  | none => m

/-- `vm_coroutine_new`, and the coroutine it answers. `a` is where one that is not
made again goes. -/
def vmCoroutineNew (closure : Address) (registers : Nat) (a : Address) : Machine × Address :=
  match m.spareFor registers with
  | some i =>
    let co := m.spareCoroutines.getD i 0
    ({ m.remake co closure registers with spareCoroutines := m.withoutSpare i }, co)
  | none =>
    (m.allocate a (.coroutine
      { closure := closure
        registers := List.replicate registers .nil
        registerCapacity := max registers 1 }), a)

/-! ### The weak cache -/

/-- `lhat_machine_weak_cache_get` of an entry that is there. -/
def weakGet (entry : LhatWeakEntry) : Machine :=
  if m.gcstate = .propagate then m.reach (objectOf entry.value) else m

end Machine

/-- What the program, the host or the collector does next. -/
inductive Action where
  /-- An object is made, and a register or another root holds it. -/
  | alloc (a : Address) (payload : Payload) (r : Roots)
  /-- A chunk is read, its constants on a heap of their own. -/
  | load (constants : List (Address × Payload))
  /-- A script is made over the constants of its protos. -/
  | script (a : Address) (root : LhatProto) (r : Roots)
  /-- Registers, frames and the other roots are written. -/
  | roots (r : Roots)
  /-- A field is written, with a barrier on the object it is written in. -/
  | write (a : Address) (payload : Payload) (gained : List Address) (back : Bool)
  /-- `vm_capture` of a register. -/
  | capture (i : Nat) (a : Address)
  /-- `vm_close_upvalues`. -/
  | close (above : Nat)
  /-- The captures of a yielding frame go with its registers. -/
  | detach (co : Address) (base : Nat)
  /-- A suspended coroutine is taken up again, its registers back on the stack. -/
  | reattach (co : Address) (base : Nat)
  /-- A loop's coroutine ran to its end. -/
  | spare (co : Address)
  /-- A coroutine is made, from a spare or new, and a root holds it. -/
  | coroutine (closure : Address) (registers : Nat) (a : Address) (r : Roots)
  /-- The weak cache is asked. -/
  | weakGet (entry : LhatWeakEntry)
  /-- What a host remembers, and the hints the machine keeps. -/
  | remember (weak : List LhatWeakEntry) (weakCount : Nat) (natives : List Address)
      (caches : List LhatMemberCache)
  /-- The next coroutine held back is taken to have its cleanups run, in a frame. -/
  | takePending (r : Roots)
  /-- `lhat_machine_gc_configure` and `lhat_machine_gc_pause`. -/
  | settings (growth stepmul stepsize : Nat) (paused : Bool)
  /-- `single_step`. -/
  | single (budget : Nat)
  /-- `lhat_gc_step`. -/
  | step
  /-- `lhat_gc_advance`. -/
  | advance (budget : Nat)
  /-- `lhat_gc_collect`. -/
  | collect

namespace Machine

/-- What an action makes of the machine. -/
def act (m : Machine) : Action → Machine
  | .alloc a payload r => { m.allocate a payload with roots := r }
  | .load constants => m.withConstants constants
  | .script a root r => { m.allocate a (.script root) with roots := r }
  | .roots r => { m with roots := r }
  | .write a payload gained back => m.write a payload gained back
  | .capture i a => m.vmCapture i a
  | .close above => m.vmCloseUpvalues above
  | .detach co base => m.detachUpvalues co base
  | .reattach co base => m.reattachUpvalues co base
  | .spare co => m.vmCoroutineSpare co
  | .coroutine closure registers a r =>
    { (m.vmCoroutineNew closure registers a).1 with roots := r }
  | .weakGet entry => m.weakGet entry
  | .remember weak weakCount natives caches =>
    { m with
      weak := weak
      weakCount := weakCount
      unboundNatives := natives
      memberCaches := caches }
  | .takePending r => { m.lhatGcTakePending with roots := r }
  | .settings growth stepmul stepsize paused =>
    { m with
      gcGrowth := growth
      gcStepmul := stepmul
      gcStepsize := stepsize
      gcPaused := paused }.lhatGcRearm
  | .single budget => (m.singleStep budget).1
  | .step => m.lhatGcStep
  | .advance budget => (m.lhatGcAdvance budget).1
  | .collect => m.lhatGcCollect

/-- What the machine's own code sees to. A reference that is laid anywhere is one
that could be named, or that of what was just made. -/
def Allowed (m : Machine) : Action → Prop
  | .alloc a payload r =>
    a ≠ 0 ∧ m.object a = none ∧ payload.isPlain = true ∧
      (∀ b ∈ payload.links, b ≠ 0 → m.Named b) ∧
        (∀ b ∈ (m.act (.alloc a payload r)).rootList, b ≠ 0 → m.Named b ∨ b = a) ∧
          (m.act (.alloc a payload r)).Covered
  | .load constants =>
    (constants.map Prod.fst).Nodup ∧ (∀ c ∈ constants, c.1 ≠ 0 ∧ m.object c.1 = none) ∧
      ∀ c ∈ constants, c.2.isConstant = true ∧
        ∀ b ∈ c.2.links, b ≠ 0 → b ∈ constants.map Prod.fst
  | .script a root r =>
    a ≠ 0 ∧ m.object a = none ∧ root.objects.Nodup ∧ (∀ b ∈ root.objects, m.Constant b) ∧
      (∀ b o, m.Constant b → m.object b = some o →
        ∀ c ∈ o.payload.links, c ∈ root.objects → b ∈ root.objects) ∧
        (∀ s o other, m.object s = some o → o.payload = .script other →
          ∀ b ∈ other.objects, b ∉ root.objects) ∧
          (∀ b ∈ (m.act (.script a root r)).rootList, b ≠ 0 → m.Named b ∨ b = a) ∧
            (m.act (.script a root r)).Covered
  | .roots r =>
    (∀ b ∈ (m.act (.roots r)).rootList, b ≠ 0 → m.Named b) ∧ (m.act (.roots r)).Covered
  | .write a payload gained _ =>
    a ∈ m.objects ∧ m.Named a ∧ payload.isPlain = true ∧
      (∀ o, m.object a = some o → o.payload.isPlain = true ∧
        ∀ b ∈ payload.links, b ∈ o.payload.links ∨ b ∈ gained) ∧
        ∀ b ∈ gained, b ≠ 0 → m.Named b
  | .capture i a => a ≠ 0 ∧ m.object a = none ∧ ∃ f ∈ m.roots.frames, f.covers i
  | .close _ => True
  | .detach co _ => m.Named co ∧ co ∈ m.objects
  | .reattach co base =>
    m.Named co ∧ co ∈ m.objects ∧
      ∀ o c, m.object co = some o → o.payload = .coroutine c → ∀ u ∈ c.openCaptures,
        ∀ p i v s, m.object u = some p → p.payload = .upvalue (some (.saved co i)) v s →
          ∃ f ∈ m.roots.frames, f.covers (base + i)
  | .spare co => m.Named co ∧ co ∈ m.objects
  | .coroutine closure registers a r =>
    a ≠ 0 ∧ m.object a = none ∧ (closure ≠ 0 → m.Named closure) ∧
      (∀ b ∈ (m.act (.coroutine closure registers a r)).rootList,
        b ≠ 0 → m.Named b ∨ b = (m.vmCoroutineNew closure registers a).2) ∧
        (m.act (.coroutine closure registers a r)).Covered
  | .weakGet entry => entry ∈ m.weak ∧ entry.Live
  | .remember weak _ natives caches =>
    (∀ entry ∈ weak, entry.Live → objectOf entry.value ≠ 0 → m.Named (objectOf entry.value)) ∧
      (∀ a ∈ natives, a ≠ 0 → m.Named a) ∧
        ∀ cache ∈ caches, cache.answered ≠ 0 →
          ∀ a, a = cache.answered ∨ a = cache.receiver ∨ a = cache.lender → a ≠ 0 → m.Named a
  | .takePending r =>
    (∀ b ∈ (m.act (.takePending r)).rootList, b ≠ 0 → m.Named b) ∧
      (m.act (.takePending r)).Covered
  | .settings _ _ _ _ | .single _ | .step | .advance _ | .collect => True

/-- Where the collector is sure to see what an action does. A spare made again takes the
colour of what is born now, so it may not be on the gray list, nor be referred to by
what was looked into. A coroutine does not keep its open captures, so those of one
taken up again have to stand still. -/
def Meets (m : Machine) : Action → Prop
  | .coroutine _ registers _ _ =>
    m.gcstate = .propagate → ∀ i, m.spareFor registers = some i →
      ∀ o, m.object (m.spareCoroutines.getD i 0) = some o → o.color ≠ .gray ∧
        ∀ b p, m.object b = some p → p.color = .black →
          m.spareCoroutines.getD i 0 ∉ p.payload.links
  | .reattach co _ =>
    ∀ o c, m.object co = some o → o.payload = .coroutine c → ∀ u ∈ c.openCaptures,
      m.Kept u ∧ ∃ p i v s, m.object u = some p ∧ p.payload = .upvalue (some (.saved co i)) v s
  | _ => True

/-- A machine just made: nothing is on its list. -/
def started : Machine where
  object := fun _ => none
  objects := []
  count := 0
  white := .white0
  roots := {}

end Machine

/-- The states a machine goes through when every action is one `meets` holds of. -/
inductive Run (meets : Machine → Action → Prop) : Machine → Prop
  | started : Run meets Machine.started
  | act {m : Machine} (action : Action) (hrun : Run meets m) (hallowed : m.Allowed action)
      (hmeets : meets m action) : Run meets (m.act action)

end Lhat.Gc
