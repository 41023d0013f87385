import Lhat.Reload.Checks
import Mathlib

/-!
# What an invalidation retires

The edges of what stands are what its check asked for, so the units that reach the one that
changed are those that depend on it.
-/

namespace Lhat.Reload

namespace Program

variable {Types : Type} {env : Env Types} {p p' : Program Types} {u t : LhatUnit Types}
  {path target : Path} {f : LhatUnit Types → LhatUnit Types}

/-! ### Compiling -/

theorem mem_foldl_edgeTo (resolved : List Path) : ∀ edges : List Path,
    target ∈ resolved.foldl edgeTo edges ↔ target ∈ edges ∨ target ∈ resolved := by
  induction resolved with
  | nil => simp
  | cons q resolved ih =>
    intro edges
    rw [List.foldl_cons, ih, mem_edgeTo, List.mem_cons, or_assoc]

theorem Good.kept (h : Good p) (hu : u ∈ p.units) (hpath : u.path = path)
    (hf : ∀ u, (f u).path = u.path) (hstate : (f u).state = u.state)
    (hversion : (f u).version = u.version) (hasked : (f u).asked = u.asked)
    (hnot : u.state ≠ .stale)
    (hedges : ∀ target, target ∈ (f u).referenced ↔ target ∈ u.asked.map Prod.fst) :
    Good (p.modify path f) := by
  refine h.modify hu hpath hf (fun hstands => ⟨?_, hversion⟩) (fun _ q => ?_)
    (fun _ q version hin => ?_) fun hstale => ?_
  · unfold LhatUnit.Stands
    rw [hstate]
    exact hstands
  · rw [hasked]
    exact hedges q
  · rw [hasked] at hin
    obtain ⟨s, hs, hspath, hsstands, hsversion⟩ := h.current u hu hnot q version hin
    by_cases heq : s.path = path
    · obtain rfl := eq_of_path h.nodup hs hu (heq.trans hpath.symm)
      refine ⟨f s, mem_modify_self hs heq, (hf s).trans hspath, ?_, hversion.trans hsversion⟩
      unfold LhatUnit.Stands
      rw [hstate]
      exact hsstands
    · exact ⟨s, mem_modify_of_ne hs heq, hspath, hsstands, hsversion⟩
  · rw [hstate] at hstale
    exact absurd hstale hnot

theorem Good.compileOne (h : Good p) (hu : u ∈ p.units) (hdone : u.state = .done)
    {compiled : Compiled}
    (hresolved : ∀ target, target ∈ compiled.resolved ↔ target ∈ u.asked.map Prod.fst) :
    Good (p.compileOne u.path compiled) ∧
      ∀ v ∈ p.units, v.path ≠ u.path → v ∈ (p.compileOne u.path compiled).units := by
  have hnot : u.state ≠ .stale := by simp [hdone]
  unfold Program.compileOne
  dsimp only
  generalize hrecorded : p.modify u.path (fun u =>
    { u with referenced := compiled.resolved.foldl edgeTo [] }) = p₁
  have hp₁ : Good p₁ := hrecorded ▸ h.kept hu rfl (fun _ => rfl) rfl rfl rfl hnot fun q => by
    rw [mem_foldl_edgeTo, hresolved]
    simp
  have hkept : ∀ v ∈ p.units, v.path ≠ u.path → v ∈ p₁.units := by
    rw [← hrecorded]
    exact fun v hv hne => mem_modify_of_ne hv hne
  have hu₁ : { u with referenced := compiled.resolved.foldl edgeTo [] } ∈ p₁.units := by
    rw [← hrecorded]
    exact mem_modify_self hu rfl
  split
  · have hp₂ : Good { p₁ with bodies := p₁.bodies + 1 } :=
      ⟨hp₁.nodup, hp₁.edges, hp₁.current, hp₁.cleared⟩
    refine ⟨hp₂.kept hu₁ rfl (fun _ => rfl) rfl rfl rfl hnot fun q => ?_, fun v hv hne => ?_⟩
    · rw [mem_foldl_edgeTo, hresolved]
      simp
    · exact mem_modify_of_ne (hkept v hv hne) hne
  · exact ⟨hp₁, hkept⟩

theorem Good.compileAll {outcome : Path → Compiled} (units : List (LhatUnit Types)) :
    ∀ {p : Program Types}, Good p → (units.map LhatUnit.path).Nodup → (∀ u ∈ units, u ∈ p.units) →
    (∀ u ∈ units, compiles u = true →
      ∀ target, target ∈ (outcome u.path).resolved ↔ target ∈ u.asked.map Prod.fst) →
    Good (p.compileAll outcome units) := by
  induction units with
  | nil => exact fun hp _ _ _ => hp
  | cons u units ih =>
    intro p hp hnodup hunits hsound
    have hrest := fun v hv => hunits v (List.mem_cons_of_mem u hv)
    have hsound' := fun v hv => hsound v (List.mem_cons_of_mem u hv)
    obtain ⟨hnew, hnodup'⟩ := List.nodup_cons.mp hnodup
    unfold Program.compileAll
    split
    · rename_i hcompiles
      have hdone : u.state = .done := by
        unfold compiles at hcompiles
        simp only [Bool.and_eq_true, decide_eq_true_eq] at hcompiles
        exact hcompiles.1.2
      obtain ⟨hp', hkept⟩ := hp.compileOne (hunits u (List.mem_cons_self ..)) hdone
        (hsound u (List.mem_cons_self ..) hcompiles)
      dsimp only
      split
      · refine ih hp' hnodup' (fun v hv => hkept v (hrest v hv) fun heq => hnew ?_) hsound'
        exact List.mem_map.mpr ⟨v, hv, heq⟩
      · exact hp'
    · exact ih hp hnodup' hrest hsound'

/-! ### What reaches the one that changed -/

theorem Good.edge_iff (h : Good p) (hu : u ∈ p.units) (hnot : u.state ≠ .stale) :
    Leads (fun path => match p.findUnit path with
      | some u => u.referenced
      | none => []) (p.units.map LhatUnit.path) u.path target ↔ p.Asked u.path target := by
  unfold Leads
  simp only [findUnit_eq h.nodup hu, h.edges u hu hnot target]
  constructor
  · rintro ⟨-, hasked⟩
    exact ⟨u, hu, rfl, hasked⟩
  · rintro ⟨v, hv, hpath, hasked⟩
    rw [← eq_of_path h.nodup hv hu hpath]
    exact ⟨List.mem_map.mpr ⟨v, hv, rfl⟩, hasked⟩

theorem Good.mem_reaching (h : Good p) (hu : u ∈ p.units) (hnot : u.state ≠ .stale) :
    u.path ∈ p.reaching path ↔ p.DependsOn u.path path := by
  have hmem := (mem_closing (fun path => match p.findUnit path with
      | some u => u.referenced
      | none => []) (p.units.map LhatUnit.path) path).2 u.path
  rw [List.length_map] at hmem
  refine hmem.trans ⟨Relation.ReflTransGen.mono (fun a b hedge => ?_) _ _, fun hreach => ?_⟩
  · -- A stale unit has no edges, so each edge is one of what stands.
    obtain ⟨v, hv, rfl⟩ := List.mem_map.mp hedge.1
    have hstate : v.state ≠ .stale := by
      intro hstale
      have hin := hedge.2
      simp only [findUnit_eq h.nodup hv, h.cleared v hv hstale] at hin
      cases hin
    exact (h.edge_iff hv hstate).mp hedge
  · clear hmem
    generalize hstart : u.path = start at hreach
    induction hreach using Relation.ReflTransGen.head_induction_on generalizing u with
    | refl => exact .refl
    | head hasked _ ih =>
      subst hstart
      refine .head ((h.edge_iff hu hnot).mpr hasked) ?_
      obtain ⟨v, hv, hpath, hin⟩ := hasked
      obtain rfl := eq_of_path h.nodup hv hu hpath
      obtain ⟨⟨q, version⟩, hmem, rfl⟩ := List.mem_map.mp hin
      obtain ⟨t, ht, htpath, htstands, -⟩ := h.current v hv hnot q version hmem
      refine ih ht ?_ htpath
      obtain hdone | hfailed := htstands
      · simp [hdone]
      · simp [hfailed]

/-! ### Retiring -/

theorem findUnit_modify_of_ne (hf : ∀ u, (f u).path = u.path) {q : Path} (hne : q ≠ path) :
    (p.modify path f).findUnit q = p.findUnit q := by
  unfold findUnit modify
  rw [List.find?_map]
  have hsame : ((fun u : LhatUnit Types => decide (u.path = q)) ∘
      fun u => if u.path = path then f u else u) = fun u => decide (u.path = q) := by
    funext u
    dsimp only [Function.comp]
    split
    · rw [hf]
    · rfl
  rw [hsame]
  cases hfind : p.units.find? (fun u => decide (u.path = q)) with
  | none => rfl
  | some u =>
    have hpath := List.find?_some hfind
    rw [decide_eq_true_eq] at hpath
    exact congrArg some (if_neg fun heq => hne (hpath.symm.trans heq))

theorem retireSet_units (set : List Path) : ∀ p : Program Types,
    (p.retireSet set).units = p.units.map fun u => if u.path ∈ set then cleared u else u := by
  induction set with
  | nil => simp [retireSet]
  | cons q set ih =>
    intro p
    refine (ih (p.retireOne q)).trans ?_
    unfold retireOne modify
    rw [List.map_map]
    refine List.map_congr_left fun u _ => ?_
    dsimp only [Function.comp]
    by_cases hq : u.path = q
    · have hpath : (cleared u).path = u.path := rfl
      have htwice : cleared (cleared u) = cleared u := rfl
      simp only [hq, if_true, List.mem_cons, true_or]
      split
      · exact htwice
      · rfl
    · simp [hq]

theorem retireSet_retired (set : List Path) : ∀ p : Program Types, set.Nodup →
    (p.retireSet set).retired =
      p.retired ++ set.filterMap fun q => (p.findUnit q).bind LhatUnit.body := by
  induction set with
  | nil => simp [retireSet]
  | cons q set ih =>
    intro p hnodup
    obtain ⟨hnew, hnodup'⟩ := List.nodup_cons.mp hnodup
    refine (ih (p.retireOne q) hnodup').trans ?_
    have hsame : set.filterMap (fun r => ((p.retireOne q).findUnit r).bind LhatUnit.body) =
        set.filterMap fun r => (p.findUnit r).bind LhatUnit.body := by
      refine List.filterMap_congr fun r hr => ?_
      have hne : r ≠ q := fun heq => hnew (heq ▸ hr)
      have hfind : (p.retireOne q).findUnit r = p.findUnit r :=
        findUnit_modify_of_ne (f := cleared) (fun _ => rfl) hne
      rw [hfind]
    rw [hsame]
    have hfirst : (p.retireOne q).retired =
        p.retired ++ ((p.findUnit q).bind LhatUnit.body).toList := rfl
    rw [hfirst, List.append_assoc, List.filterMap_cons]
    cases (p.findUnit q).bind LhatUnit.body with
    | none => rfl
    | some body => rfl

theorem Good.retiresDependents (h : Good p) (path : Path) :
    p.RetiresDependents (p.retireSet (p.reaching path)) path (p.reaching path).length := by
  have hnodup : (p.reaching path).Nodup := by
    have := (mem_closing (fun path => match p.findUnit path with
      | some u => u.referenced
      | none => []) (p.units.map LhatUnit.path) path).1
    rwa [List.length_map] at this
  exact ⟨p.reaching path, hnodup, rfl, fun u hu hnot => h.mem_reaching hu hnot,
    retireSet_units _ p, retireSet_retired _ p hnodup⟩

theorem Good.retireSet (h : Good p) (path : Path) : Good (p.retireSet (p.reaching path)) := by
  have hunits := retireSet_units (p.reaching path) p
  have hin : ∀ {u}, u ∈ (p.retireSet (p.reaching path)).units → u.state ≠ .stale →
      u ∈ p.units ∧ u.path ∉ p.reaching path := by
    intro u hu hnot
    rw [hunits] at hu
    obtain ⟨v, hv, rfl⟩ := List.mem_map.mp hu
    by_cases hmem : v.path ∈ p.reaching path
    · rw [if_pos hmem] at hnot
      exact absurd rfl hnot
    · rw [if_neg hmem]
      exact ⟨hv, hmem⟩
  refine ⟨?_, fun u hu hnot => ?_, fun u hu hnot q version hasked => ?_, fun u hu hstale => ?_⟩
  · rw [hunits, List.map_map]
    have hpaths : (LhatUnit.path ∘ fun u : LhatUnit Types =>
        if u.path ∈ p.reaching path then Program.cleared u else u) = LhatUnit.path := by
      funext u
      dsimp only [Function.comp]
      split <;> rfl
    rw [hpaths]
    exact h.nodup
  · exact h.edges u (hin hu hnot).1 hnot
  · obtain ⟨hold, hout⟩ := hin hu hnot
    obtain ⟨t, ht, htpath, htstands, htversion⟩ := h.current u hold hnot q version hasked
    refine ⟨t, ?_, htpath, htstands, htversion⟩
    rw [hunits]
    refine List.mem_map.mpr ⟨t, ht, if_neg fun hmem => hout ?_⟩
    -- What asked for a unit that was retired would have been retired with it.
    have htnot : t.state ≠ .stale := by
      obtain hdone | hfailed := htstands
      · simp [hdone]
      · simp [hfailed]
    refine (h.mem_reaching hold hnot).mpr (.head ?_ ((h.mem_reaching ht htnot).mp hmem))
    exact ⟨u, hold, rfl, List.mem_map.mpr ⟨(q, version), hasked, htpath.symm⟩⟩
  · rw [hunits] at hu
    obtain ⟨v, hv, rfl⟩ := List.mem_map.mp hu
    by_cases hmem : v.path ∈ p.reaching path
    · rw [if_pos hmem]
      rfl
    · rw [if_neg hmem] at hstale ⊢
      exact h.cleared v hv hstale

theorem Good.invalidate (h : Good p) (env : Env Types) (room : Bool) (path : Path) :
    Good (p.invalidate env room path).1 := by
  unfold Program.invalidate
  split
  · exact h
  · split
    · exact h
    · split
      · exact h
      · split
        · exact h.retireSet path
        · exact h

/-! ### Runs -/

theorem Reached.good (h : Reached p) : Good p := by
  induction h with
  | new => exact .new
  | step act _ hstep hsound ih =>
    cases act with
    | check env stack path =>
      obtain ⟨⟨p', found⟩, hcheck, rfl⟩ := Option.map_eq_some_iff.mp hstep
      exact ((checks_checkPath hsound.2 stack).good hcheck ih hsound.1).2.1
    | loadText env stack checking => exact (ih.loadText hsound.2 checking hstep hsound.1).1
    | compile outcome =>
      cases hstep
      exact ih.compileAll _ ih.nodup (fun _ hu => hu) hsound
    | invalidate env room path =>
      cases hstep
      exact ih.invalidate env room path

/-- While no cycle is closed, no edge is refused, and what is compiled resolves what its check
asked for: an invalidation retires what depends on the unit that changed, what was retired is read
once more when it is next asked for, and nothing stands on an answer about what was retired. -/
theorem Reached.retires_dependents (h : Reached p) :
    p.Current ∧
    (∀ env path u, p.findUnit path = some u → u.state ≠ .stale → textUnchanged env u = false →
      ∃ count, (p.invalidate env true path).2 = some count ∧
        p.RetiresDependents (p.invalidate env true path).1 path count) ∧
    ∀ env stack p' found, ∀ u ∈ p.units, u.state = .stale →
      p.checkPath env stack u.path = some (p', found) →
      Sound p p' (.check env stack u.path) →
      ∃ t ∈ p'.units, t.path = u.path ∧ t.Stands ∧ t.version = u.version + 1 := by
  have hp := h.good
  refine ⟨fun u hu hstands => hp.current u hu ?_, fun env path u hfind hnot htext => ?_,
    fun env stack p' found u hu hstale hcheck hsound =>
      version_checkPath hsound.2 hp hu hstale hcheck hsound.1⟩
  · obtain hdone | hfailed := hstands
    · simp [hdone]
    · simp [hfailed]
  · refine ⟨(p.reaching path).length, ?_⟩
    unfold Program.invalidate
    simp only [hfind, hnot, htext, if_true, if_false, Bool.false_eq_true]
    exact ⟨trivial, hp.retiresDependents path⟩

/-! ### Two small runs -/

section Small

/-- The text of `b` asks for `a`, which asks for nothing, or for `b` again. -/
def small (edited looped : Bool) : Env Nat where
  read path :=
    if path = "a" then some
      { hash := if edited then 2 else 1
        content := .source (if looped then .ask "b" fun _ => .done 0 else .done 0) }
    else if path = "b" then some { hash := 3, content := .source (.ask "a" fun _ => .done 0) }
    else none
  grows _ _ := true

def readOnce : Program Nat where
  units :=
    [{ path := "a", state := .done, loaded := true, types := some 0, sourceHash := 1, version := 1 },
     { path := "b", state := .done, referenced := ["a"], loaded := true, types := some 0,
       sourceHash := 3, version := 1, asked := [("a", 1)] }]

theorem reached_readOnce : Reached readOnce :=
  .step (.check (small false false) 3 "b") .new (by decide_cbv) ⟨rfl, fun _ _ => rfl⟩

/-- When `a` is edited, both are retired. -/
theorem retires_dependents_small :
    readOnce.Current ∧ ∃ count, (readOnce.invalidate (small true false) true "a").2 = some count ∧
      readOnce.RetiresDependents (readOnce.invalidate (small true false) true "a").1 "a" count := by
  obtain ⟨hcurrent, hretires, -⟩ := reached_readOnce.retires_dependents
  exact ⟨hcurrent, hretires (small true false) "a" _ rfl (by decide) (by decide_cbv)⟩

def readLooped : Program Nat where
  units :=
    [{ path := "b", state := .done, loaded := true, types := some 0, sourceHash := 3, version := 1,
       asked := [("a", 1)] },
     { path := "a", state := .done, referenced := ["b"], loaded := true, types := some 0,
       sourceHash := 1, version := 1, asked := [("b", 1)] }]
  cycles := 1

/-- The two ask for each other. The check of `a` reads `b`, which is told that `a` closes a cycle
and keeps no edge: when `a` is edited, `b` is left standing. -/
theorem cycle_left_standing :
    ({} : Program Nat).step (.check (small false true) 3 "a") = some readLooped ∧
    (readLooped.invalidate (small true true) true "a").2 = some 1 ∧
    ¬readLooped.RetiresDependents (readLooped.invalidate (small true true) true "a").1 "a" 1 := by
  refine ⟨by decide_cbv, by decide_cbv, ?_⟩
  rintro ⟨set, -, -, hset, hunits, -⟩
  have hdepends : readLooped.DependsOn "b" "a" :=
    .single ⟨_, List.mem_cons_self .., rfl, List.mem_cons_self ..⟩
  have hb : "b" ∈ set := (hset _ (List.mem_cons_self ..) (by decide)).mpr hdepends
  have hfirst : ((readLooped.invalidate (small true true) true "a").1.units.head?.map
      LhatUnit.state) = some .done := by decide_cbv
  rw [hunits] at hfirst
  simp [readLooped, hb, cleared] at hfirst

end Small

end Program

end Lhat.Reload
