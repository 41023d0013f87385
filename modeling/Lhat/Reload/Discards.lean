import Lhat.Collector.Safety
import Lhat.Reload.Bodies
import Lhat.Reload.Machines
import Mathlib

/-!
# What a discard frees

A unit that stands has its table filled from its own edges, and an invalidation goes along these
edges backwards: it leaves no table standing that names what it retires. What a machine's heap
names is asked of the heap itself.
-/

namespace Lhat.Reload

open Gc (LhatProto Roots)
open Program (Housed Onward)

variable {room : Body → Bool} {bodies : List ProtoRef}

variable {Types : Type} {root : Body → LhatProto}

namespace System

variable {s s' : System Types} {p : Program Types} {m m' : Station}

/-- What the table of a unit names are the bodies of units it has edges to. -/
structure Filled (s : System Types) : Prop where
  housed : Housed s.program
  fresh : ∀ b, s.program.bodies ≤ b → s.tables b = none
  entries : ∀ u ∈ s.program.units, ∀ b, u.body = some b → ∀ table, s.tables b = some table →
    ∀ t, some t ∈ table → ∃ v ∈ s.program.units, v.path ∈ u.referenced ∧ v.body = some t

theorem Filled.new : Filled ({ program := {} } : System Types) :=
  ⟨.new, fun _ _ => rfl, fun _ h => nomatch h⟩

theorem Filled.congr (h : Filled s) (hprogram : s'.program = s.program)
    (htables : s'.tables = s.tables) : Filled s' := by
  refine ⟨hprogram ▸ h.housed, ?_, ?_⟩
  · rw [hprogram, htables]
    exact h.fresh
  · rw [hprogram, htables]
    exact h.entries

theorem Filled.onward (h : Filled s) (hp : Housed p)
    (hto : Onward (fun _ => False) s.program p) : Filled { s with program := p } := by
  refine ⟨hp, fun b hb => h.fresh b (Nat.le_trans hto.bodies hb),
    fun v hv b hb table htable t ht => ?_⟩
  have hlt : b < s.program.bodies := by
    refine Nat.lt_of_not_le fun hle => ?_
    have hnone := h.fresh b hle
    dsimp only at htable
    rw [hnone] at htable
    cases htable
  obtain ⟨u, hu, hpath, hbody⟩ := hto.known v hv b hb hlt
  obtain ⟨w, hw, hwpath, hwbody⟩ := h.entries u hu b hbody table htable t ht
  obtain ⟨v', hv', hvpath, -, -, hsub⟩ := hto.kept u hu id (.inl (by simp [hbody]))
  obtain rfl := Program.eq_of_path hp.nodup hv hv' (hpath.symm.trans hvpath.symm)
  obtain ⟨w', hw', hwpath', hwbody', -, -⟩ := hto.kept w hw id (.inl (by simp [hwbody]))
  exact ⟨w', hw', hwpath' ▸ hsub hwpath, hwbody'.trans hwbody⟩

/-! ### The tables -/

theorem Filled.fill (h : Filled s) {u : LhatUnit Types} (hu : u ∈ s.program.units) {b : Body}
    (hb : u.body = some b) : Filled (s.fillUnitTable b u.referenced) := by
  unfold fillUnitTable
  refine ⟨h.housed, fun c hc => ?_, fun v hv c hc table htable t ht => ?_⟩
  · have hne : c ≠ b := by
      rintro rfl
      exact Nat.not_le_of_lt (h.housed.made u hu c hb) hc
    exact (Function.update_of_ne hne ..).trans (h.fresh c hc)
  · by_cases heq : c = b
    · subst heq
      obtain rfl := h.housed.one u hu v hv c hb hc
      have hsome : some (u.referenced.map fun path =>
          (s.program.findUnit path).bind LhatUnit.body) = some table :=
        (Function.update_self c _ s.tables).symm.trans htable
      cases hsome
      obtain ⟨q, hq, hbody⟩ := List.mem_map.mp ht
      obtain ⟨w, hfind, hown⟩ := Option.bind_eq_some_iff.mp hbody
      obtain ⟨hw, rfl⟩ := Program.findUnit_some hfind
      exact ⟨w, hw, hq, hown⟩
    · exact h.entries v hv c hc table ((Function.update_of_ne heq ..).symm.trans htable) t ht

theorem Filled.fillTables (units : List (LhatUnit Types)) :
    ∀ {s : System Types}, Filled s → units ⊆ s.program.units →
    Filled (fillTables room units s) := by
  induction units with
  | nil => exact fun h _ => h
  | cons u units ih =>
    intro s h hsub
    have hrest := List.subset_of_cons_subset hsub
    unfold System.fillTables
    split
    · exact ih h hrest
    · rename_i b hb
      split
      · exact ih (h.fill (hsub List.mem_cons_self) hb) hrest
      · exact ih h hrest

theorem Filled.compileAll (h : Filled s) (outcome : Path → Program.Compiled)
    (room : Body → Bool) : Filled (s.compileAll outcome room) := by
  obtain ⟨hp, hto⟩ : Housed (s.program.compileAll outcome s.program.units) ∧ _ :=
    h.housed.compileAll s.program.units h.housed.nodup fun _ hu => hu
  exact (h.onward hp hto).fillTables _ (List.Subset.refl _)

theorem Filled.buildPlaced (h : Filled s) {env : Env Types} {stack : Nat}
    {checking : Checking Types} {outcome : Path → Program.Compiled} {script : Program.Compiled}
    (hbuild : s.buildPlaced env stack checking outcome room script = some s') : Filled s' := by
  unfold System.buildPlaced at hbuild
  split at hbuild
  · cases hbuild
  · rename_i p hload
    obtain ⟨hp, hto⟩ := h.housed.loadText checking hload
    have hfilled := (h.onward hp hto).compileAll outcome room
    dsimp only at hbuild
    generalize ({ s with program := p } : System Types).compileAll outcome room = s₁
      at hfilled hbuild
    split at hbuild
    · cases hbuild
      have hmade := hfilled.housed
      unfold fillUnitTable
      refine ⟨⟨hmade.nodup, hmade.bare, fun u hu b hb => Nat.lt_succ_of_lt (hmade.made u hu b hb),
        hmade.one, fun b hb => Nat.lt_succ_of_lt (hmade.below b hb), hmade.apart⟩, fun c hc => ?_,
        fun u hu c hc table htable t ht => ?_⟩
      · have hne : c ≠ s₁.program.bodies := by
          rintro rfl
          exact Nat.not_succ_le_self _ hc
        exact (Function.update_of_ne hne ..).trans (hfilled.fresh c (Nat.le_of_succ_le hc))
      · have hne : c ≠ s₁.program.bodies := by
          rintro rfl
          exact Nat.lt_irrefl _ (hmade.made u hu _ hc)
        have hold := (Function.update_of_ne hne ..).symm.trans htable
        exact hfilled.entries u hu c hc table hold t ht
    · cases hbuild
      exact hfilled

/-! ### Invalidations -/

theorem Filled.retireSet (h : Filled s) (path : Path) :
    Filled { s with program := s.program.retireSet (s.program.reaching path) } := by
  have hset : (s.program.reaching path).Nodup := by
    rw [Program.reaching, ← List.length_map LhatUnit.path]
    exact (mem_closing _ _ _).1
  refine ⟨h.housed.retireSet hset, fun b hb => ?_, fun u hu b hb table htable t ht => ?_⟩
  · dsimp only at hb
    rw [Program.retireSet_bodies] at hb
    exact h.fresh b hb
  · obtain ⟨hu, hout⟩ := Program.mem_retireSet hu hb
    obtain ⟨v, hv, hedge, hbody⟩ := h.entries u hu b hb table htable t ht
    refine ⟨v, Program.mem_retireSet_of_not_mem hv fun hin => hout ?_, hedge, hbody⟩
    -- It would have been retired with what its table names.
    exact Program.mem_reaching_of_edge h.housed hu hedge hin

theorem Filled.invalidate (h : Filled s) (env : Env Types) (room : Bool) (path : Path) :
    Filled { s with program := (s.program.invalidate env room path).1 } := by
  unfold Program.invalidate
  split
  · exact h
  · split
    · exact h
    · split
      · exact h
      · split
        · exact h.retireSet path
        · exact h

theorem Filled.discardRetired (h : Filled s) : Filled (s.discardRetired root) :=
  ⟨⟨h.housed.nodup, h.housed.bare, h.housed.made, h.housed.one, (fun _ h => nomatch h),
    fun _ _ _ _ h => nomatch h⟩, h.fresh, h.entries⟩

theorem Filled.forgotten (h : Filled s) : Forgotten s s.program.retired := by
  refine fun u hu b hb => ⟨h.housed.apart u hu b hb, fun table htable t ht => ?_⟩
  obtain ⟨v, hv, -, hbody⟩ := h.entries u hu b hb table htable t ht
  exact h.housed.apart v hv t hbody

/-! ### The machines -/

theorem listed_of_bodyAt (h : m.gc.Inv) {a : Address} (ha : m.gc.Reachable a) {b : ProtoRef}
    (hb : m.bodyAt a = some b) : a ∈ m.gc.objects := by
  by_contra hnot
  obtain ⟨o, ho, -⟩ := h.named ha.named
  have hconstant := (h.base.constant a o ho hnot).2.1
  unfold Station.bodyAt at hb
  rw [ho] at hb
  split at hb
  · rename_i heq
    cases heq
    cases hconstant
  · rename_i heq
    cases heq
    cases hconstant
  · cases hb

theorem letsGo_of_not_holds (h : m.gc.Inv)
    (hholds : m.lhatMachineHoldsBody bodies = false) : LetsGo m bodies := by
  intro a ha b hb hin
  have hlisted : a ∈ m.gc.objects := ha.elim (listed_of_bodyAt h · hb) id
  unfold Station.lhatMachineHoldsBody at hholds
  rw [List.any_eq_false] at hholds
  refine hholds a hlisted ?_
  rw [hb]
  exact decide_eq_true hin

theorem Runs.gc (h : Gc.Run Gc.Machine.Meets m.gc) (hrun : Runs root s m m') :
    Gc.Run Gc.Machine.Meets m'.gc := by
  cases hrun with
  | act action hallowed hmeets _ => exact .act action h hallowed hmeets
  | closure _ hallowed => exact .act _ h hallowed trivial

theorem Collects.gc (h : Gc.Run Gc.Machine.Meets m.gc) (hcollects : Collects root s m m') :
    Gc.Run Gc.Machine.Meets m'.gc := by
  have hfirst : Gc.Run Gc.Machine.Meets (m.gc.act .collect) := .act .collect h trivial trivial
  induction hcollects with
  | refl => exact hfirst
  | tail _ hrun ih => exact hrun.gc ih

theorem Asks.gc {ms ms' : List Station} {held : Bool} (h : Asks root s bodies ms ms' held)
    (hms : ∀ m ∈ ms, Gc.Run Gc.Machine.Meets m.gc) : ∀ m ∈ ms', Gc.Run Gc.Machine.Meets m.gc := by
  induction h with
  | nil => exact hms
  | held hcollects _ =>
    obtain ⟨hm, hrest⟩ := List.forall_mem_cons.mp hms
    exact List.forall_mem_cons.mpr ⟨hcollects.gc hm, hrest⟩
  | next hcollects _ _ ih =>
    obtain ⟨hm, hrest⟩ := List.forall_mem_cons.mp hms
    exact List.forall_mem_cons.mpr ⟨hcollects.gc hm, ih hrest⟩

theorem Asks.free {ms ms' : List Station} (h : Asks root s bodies ms ms' false) :
    ∀ m ∈ ms', m.lhatMachinePendingDisposals = 0 ∧ m.lhatMachineHoldsBody bodies = false := by
  obtain ⟨held, hheld⟩ : ∃ held, held = false := ⟨false, rfl⟩
  rw [← hheld] at h
  induction h with
  | nil => exact fun _ h => nomatch h
  | held => cases hheld
  | next _ hfree _ ih =>
    rw [Bool.or_eq_false_iff, decide_eq_false_iff_not] at hfree
    exact List.forall_mem_cons.mpr ⟨⟨Nat.eq_zero_of_not_pos hfree.1, hfree.2⟩, ih hheld⟩

/-! ### Runs -/

/-- What is held of every system that is reached. -/
structure Sound (s : System Types) : Prop where
  filled : Filled s
  machines : ∀ m ∈ s.machines, Gc.Run Gc.Machine.Meets m.gc

theorem fillTables_eq (units : List (LhatUnit Types)) :
    ∀ s : System Types,
      fillTables room units s = { s with tables := (fillTables room units s).tables } := by
  induction units with
  | nil => exact fun _ => rfl
  | cons u units ih =>
    intro s
    unfold fillTables
    split
    · exact ih s
    · split
      · exact ih (s.fillUnitTable _ _)
      · exact ih s

theorem compileAll_machines (outcome : Path → Program.Compiled) (room : Body → Bool) :
    (s.compileAll outcome room).machines = s.machines := by
  unfold compileAll
  rw [fillTables_eq]

theorem compileAll_retiredObjects (outcome : Path → Program.Compiled) (room : Body → Bool) :
    (s.compileAll outcome room).retiredObjects = s.retiredObjects := by
  unfold compileAll
  rw [fillTables_eq]

theorem buildPlaced_same {env : Env Types} {stack : Nat} {checking : Checking Types}
    {outcome : Path → Program.Compiled} {script : Program.Compiled}
    (hbuild : s.buildPlaced env stack checking outcome room script = some s') :
    s'.machines = s.machines ∧ s'.retiredObjects = s.retiredObjects := by
  unfold buildPlaced at hbuild
  split at hbuild
  · cases hbuild
  · rename_i p _
    have hmachines := compileAll_machines (s := { s with program := p }) outcome room
    have hobjects := compileAll_retiredObjects (s := { s with program := p }) outcome room
    dsimp only at hbuild
    split at hbuild
    · cases hbuild
      exact ⟨hmachines, hobjects⟩
    · cases hbuild
      exact ⟨hmachines, hobjects⟩

theorem Sound.discards (h : Sound s) {answer : Bool}
    (hdiscards : DiscardsUnheld root s s' answer) : Sound s' := by
  cases hdiscards with
  | nothing | noRoom => exact h
  | kept _ hasks => exact ⟨h.filled.congr rfl rfl, hasks.gc h.machines⟩
  | @freed machines _ hasks =>
    have hasked : Filled { s with machines := machines } := h.filled.congr rfl rfl
    exact ⟨hasked.discardRetired, hasks.gc h.machines⟩

theorem Sound.step (h : Sound s) (hstep : Step root s s') : Sound s' := by
  cases hstep with
  | check env stack path hcheck =>
    obtain ⟨hp, hto⟩ := Program.keeps_checkPath env stack hcheck h.filled.housed
    exact ⟨h.filled.onward hp hto, h.machines⟩
  | compile outcome room =>
    refine ⟨h.filled.compileAll outcome room, ?_⟩
    rw [compileAll_machines]
    exact h.machines
  | loadText env stack checking outcome room script hbuild =>
    refine ⟨h.filled.buildPlaced hbuild, ?_⟩
    rw [(buildPlaced_same hbuild).1]
    exact h.machines
  | invalidate env room path => exact ⟨h.filled.invalidate env room path, h.machines⟩
  | install =>
    refine ⟨h.filled.congr rfl rfl, ?_⟩
    exact List.forall_mem_append.mpr ⟨h.machines, List.forall_mem_singleton.mpr .started⟩
  | run hm hrun =>
    refine ⟨h.filled.congr rfl rfl, ?_⟩
    have hmachines := h.machines
    rw [hm] at hmachines
    obtain ⟨hbefore, hrest⟩ := List.forall_mem_append.mp hmachines
    obtain ⟨hthis, hafter⟩ := List.forall_mem_cons.mp hrest
    exact List.forall_mem_append.mpr ⟨hbefore, List.forall_mem_cons.mpr ⟨hrun.gc hthis, hafter⟩⟩
  | carry => exact ⟨h.filled.congr rfl rfl, h.machines⟩
  | discard hdiscards => exact h.discards hdiscards

theorem Reached.sound (h : Reached root s) : Sound s := by
  induction h with
  | refl => exact ⟨.new, fun _ h => nomatch h⟩
  | tail _ hstep ih => exact ih.step hstep

theorem Step.retiredObjects (h : Step root s s') : s.retiredObjects ⊆ s'.retiredObjects := by
  cases h with
  | compile outcome room =>
    rw [compileAll_retiredObjects]
    exact List.Subset.refl _
  | loadText env stack checking outcome room script hbuild =>
    rw [(buildPlaced_same hbuild).2]
    exact List.Subset.refl _
  | discard hdiscards =>
    cases hdiscards with
    | freed => exact List.subset_append_right _ _
    | _ => exact List.Subset.refl _
  | _ => exact List.Subset.refl _

theorem Steps.retiredObjects (h : Steps root s s') : s.retiredObjects ⊆ s'.retiredObjects := by
  induction h with
  | refl => exact List.Subset.refl _
  | tail _ hstep ih => exact List.Subset.trans ih hstep.retiredObjects

/-- Whatever was loaded, reloaded, invalidated and run before: when the bodies that were retired
are freed, nothing on a machine names one of them, no unit that stands is one of them or names one
in its table, and the objects of their constants are the program's from then on. -/
theorem Reached.discards_retired (h : Reached root s) (hdiscards : DiscardsUnheld root s s' true) :
    (∀ m ∈ s'.machines, LetsGo m (s.retiredBodies root)) ∧
      Forgotten s' s.program.retired ∧
      ∀ s'', Steps root s' s'' → s.retiredConstants root ⊆ s''.retiredObjects := by
  have hs := h.sound
  cases hdiscards with
  | nothing hnone =>
    have hbodies : s.retiredBodies root = [] := by
      unfold retiredBodies
      rw [hnone]
      rfl
    have hconstants : s.retiredConstants root = [] := by
      unfold retiredConstants
      rw [hnone]
      rfl
    refine ⟨fun m _ a _ p _ hin => ?_, hs.filled.forgotten, fun s'' _ => ?_⟩
    · rw [hbodies] at hin
      cases hin
    · rw [hconstants]
      exact List.nil_subset _
  | freed _ hasks =>
    refine ⟨fun m hm => ?_, hs.filled.forgotten, fun s'' hsteps => ?_⟩
    · exact letsGo_of_not_holds (hasks.gc hs.machines m hm).inv (hasks.free m hm).2
    · exact List.Subset.trans (List.subset_append_left _ _) (Steps.retiredObjects hsteps)

/-! ### A small run -/

section Small

/-- The text of `a` requires nothing. -/
def lone (edited : Bool) : Env Unit where
  read path :=
    if path = "a" then some { hash := if edited then 2 else 1, content := .source (.done ()) }
    else none
  grows _ _ := true

/-- A body without nested ones, whose chunk owns one string. -/
def named (_ : Body) : LhatProto := .node [] [5]

/-- `L^.modules`, with the string for a key. -/
def modulesNamed : Gc.Payload :=
  .table { entries := [{ key := .object 5, value := .integer 7 }], entryCount := 1 }

def entering (modules : Address) : Roots :=
  { modules := modules, frames := [{ closure := 2, base := 0, width := 0 }] }

/-- A machine with the constants of the chunk, that enters the unit, -/
def entered : Station :=
  ({ gc := Gc.Machine.started.act (.load [(5, .string)]) } : Station).makeClosure 2 (0, []) [] 0 0
    (entering 0)

/-- and enters its name, -/
def registered : Station :=
  { entered with gc := entered.gc.act (.alloc 1 modulesNamed (entering 1)) }

/-- and has left it. -/
def left : Station := { registered with gc := registered.gc.act (.roots { modules := 1 }) }

def checkedOnce : Program Unit where
  units :=
    [{ path := "a", state := .done, loaded := true, types := some (), sourceHash := 1,
       version := 1 }]

def compiledOnce : System Unit :=
  System.compileAll { program := checkedOnce } (fun _ => ⟨[], true⟩) fun _ => true

/-- The unit was edited, and the machine still stands. -/
def editedOnce : System Unit :=
  { compiledOnce with
    program := (compiledOnce.program.invalidate (lone true) true "a").1
    machines := [left] }

theorem reached_compiledOnce : Reached named compiledOnce := by
  have hcheck : ({} : Program Unit).checkPath (lone false) 1 "a" = some (checkedOnce, true) := by
    decide_cbv
  exact .tail (.single (.check (lone false) 1 "a" hcheck)) (.compile _ _)

theorem steps_left : Steps named compiledOnce { compiledOnce with machines := [left] } := by
  have hbody : (compiledOnce.program.findUnit "a").bind LhatUnit.body = some 0 := by decide_cbv
  obtain ⟨u, hfind, hbody⟩ := Option.bind_eq_some_iff.mp hbody
  have hu := (Program.findUnit_some hfind).1
  have hone : ∀ {s : System Unit} {m m' : Station}, s.machines = [m] → Runs named s m m' →
      Step named s { s with machines := [m'] } := fun hm hrun =>
    @Step.run _ _ _ [] [] _ _ hm hrun
  have hinstalled : Step named compiledOnce
      { compiledOnce with machines := [{ gc := Gc.Machine.started }] } := .install
  refine .head hinstalled (.head (hone rfl (.act (.load [(5, .string)]) ?_ trivial trivial)) ?_)
  · refine ⟨by decide, by decide, fun c hc => ?_⟩
    obtain rfl := List.mem_singleton.1 hc
    exact ⟨rfl, fun _ hb => absurd hb List.not_mem_nil⟩
  have hentered : ∀ {s : System Unit}, s.program = compiledOnce.program →
      Runs named s { gc := Gc.Machine.started.act (.load [(5, .string)]) } entered := fun hs =>
    .closure (.run (hs ▸ hu) hbody) ⟨by decide, by decide, rfl,
      Gc.Machine.named_of_list (by decide), Gc.Machine.named_of_roots (by decide_cbv),
      Gc.Machine.covered_of_none rfl⟩
  refine .head (hone rfl (hentered rfl)) ?_
  refine .head (hone rfl (.act (.alloc 1 modulesNamed (entering 1)) ?_ trivial trivial)) ?_
  · refine ⟨by decide, Option.isNone_iff_eq_none.1 (by decide_cbv), rfl, fun b hb hne => ?_,
      Gc.Machine.named_of_roots (by decide_cbv), Gc.Machine.covered_of_none rfl⟩
    have hlinks : modulesNamed.links.all (fun b => decide (b = 0 ∨ b = 5)) = true := by decide
    obtain rfl | rfl := of_decide_eq_true (List.all_eq_true.mp hlinks b hb)
    · exact absurd rfl hne
    · have hstands : (entered.gc.object 5).isSome = true := by decide_cbv
      exact .start ⟨.inr (.inl ⟨Option.isSome_iff_exists.mp hstands, by decide_cbv⟩), hne⟩
  refine .single (hone rfl (.act (.roots { modules := 1 }) ?_ trivial trivial))
  exact ⟨Gc.Machine.named_of_list (by decide_cbv), Gc.Machine.covered_of_none rfl⟩

theorem reached_editedOnce : Reached named editedOnce :=
  (reached_compiledOnce.trans steps_left).tail (.invalidate (lone true) true "a")

theorem discards_editedOnce : DiscardsUnheld named editedOnce
    ({ editedOnce with machines := [{ left with gc := left.gc.act .collect }] }.discardRetired
      named) true := by
  refine .freed (by decide_cbv) (.next .refl ?_ .nil)
  decide_cbv

/-- The code of `a` is freed, and no machine names it. -/
theorem discards_retired_small : editedOnce.retiredBodies named = [(0, [])] ∧
    LetsGo { left with gc := left.gc.act .collect } (editedOnce.retiredBodies named) :=
  ⟨by decide_cbv, (reached_editedOnce.discards_retired discards_editedOnce).1 _
    (List.mem_singleton_self _)⟩

/-- But its constant is still what the machine's modules are keyed by. -/
theorem constant_still_reached : ¬∀ s s' : System Unit, Reached named s →
    DiscardsUnheld named s s' true → ∀ m ∈ s'.machines, LetsGo m (s.retiredBodies named) ∧
      ∀ a, m.gc.Reachable a → a ∉ s.retiredConstants named := by
  intro h
  obtain ⟨-, hconstants⟩ := h _ _ reached_editedOnce discards_editedOnce _
    (List.mem_singleton_self _)
  have htable : Gc.Machine.Reachable (left.gc.act .collect) 1 :=
    .start ⟨by decide_cbv, by decide⟩
  have hname : Gc.Machine.Reachable (left.gc.act .collect) 5 :=
    htable.edge (Gc.Machine.refers_of_any (by decide) (by decide_cbv))
  exact hconstants 5 hname (by decide_cbv)

end Small

end System

end Lhat.Reload
