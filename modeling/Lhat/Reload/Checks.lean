import Lhat.Reload.Basic

/-!
# What stands was checked against what stands

While a unit is being checked, each unit it asked for stands and is not read again: it would have
to be retired first. So when the check ends the unit knows exactly what it was answered about,
unless the answer was that the other is still being checked.
-/

namespace Lhat.Reload

namespace Program

variable {Types : Type} {env : Env Types} {p p' : Program Types} {u t : LhatUnit Types}
  {path target : Path} {f : LhatUnit Types → LhatUnit Types}

/-! ### Units by path -/

theorem findUnit_some (h : p.findUnit path = some u) : u ∈ p.units ∧ u.path = path := by
  refine ⟨List.mem_of_find?_eq_some h, ?_⟩
  have := List.find?_some h
  rwa [decide_eq_true_eq] at this

theorem findUnit_none (h : p.findUnit path = none) : ∀ u ∈ p.units, u.path ≠ path := by
  intro u hu
  have := List.find?_eq_none.mp h u hu
  rwa [decide_eq_true_eq] at this

theorem eq_of_path (h : (p.units.map LhatUnit.path).Nodup) (hu : u ∈ p.units) (ht : t ∈ p.units)
    (hpath : u.path = t.path) : u = t := List.inj_on_of_nodup_map h hu ht hpath

theorem findUnit_eq (h : (p.units.map LhatUnit.path).Nodup) (hu : u ∈ p.units) :
    p.findUnit u.path = some u := by
  cases hfind : p.findUnit u.path with
  | none => exact absurd rfl (findUnit_none hfind u hu)
  | some t =>
    obtain ⟨ht, hpath⟩ := findUnit_some hfind
    rw [eq_of_path h ht hu hpath]

theorem mem_modify : u ∈ (p.modify path f).units ↔
    ∃ v ∈ p.units, (if v.path = path then f v else v) = u := List.mem_map

theorem mem_modify_of_ne (hu : u ∈ p.units) (hne : u.path ≠ path) :
    u ∈ (p.modify path f).units := mem_modify.mpr ⟨u, hu, if_neg hne⟩

theorem mem_modify_self (hu : u ∈ p.units) (hpath : u.path = path) :
    f u ∈ (p.modify path f).units := mem_modify.mpr ⟨u, hu, if_pos hpath⟩

theorem of_mem_modify (h : u ∈ (p.modify path f).units) :
    u ∈ p.units ∧ u.path ≠ path ∨ ∃ v ∈ p.units, v.path = path ∧ u = f v := by
  obtain ⟨v, hv, rfl⟩ := mem_modify.mp h
  by_cases hpath : v.path = path
  · exact .inr ⟨v, hv, hpath, if_pos hpath⟩
  · rw [if_neg hpath]
    exact .inl ⟨hv, hpath⟩

theorem map_path_modify (hf : ∀ u, (f u).path = u.path) :
    (p.modify path f).units.map LhatUnit.path = p.units.map LhatUnit.path := by
  unfold modify
  rw [List.map_map]
  refine List.map_congr_left fun u _ => ?_
  dsimp only [Function.comp]
  split
  · exact hf u
  · rfl

/-! ### The invariant -/

/-- The edges of a unit that is not stale are what its check asked for, and what it asked for
stands, as it was read then. -/
structure Good (p : Program Types) : Prop where
  nodup : (p.units.map LhatUnit.path).Nodup
  edges : ∀ u ∈ p.units, u.state ≠ .stale →
    ∀ target, target ∈ u.referenced ↔ target ∈ u.asked.map Prod.fst
  current : ∀ u ∈ p.units, u.state ≠ .stale → ∀ target version, (target, version) ∈ u.asked →
    ∃ t ∈ p.units, t.path = target ∧ t.Stands ∧ t.version = version
  cleared : ∀ u ∈ p.units, u.state = .stale → u.referenced = []

theorem Good.new : Good ({} : Program Types) :=
  ⟨List.nodup_nil, fun _ h => (nomatch h), fun _ h => (nomatch h), fun _ h => (nomatch h)⟩

theorem Good.modify (h : Good p) (hu : u ∈ p.units) (hpath : u.path = path)
    (hf : ∀ u, (f u).path = u.path)
    (hstands : u.Stands → (f u).Stands ∧ (f u).version = u.version)
    (hedges : (f u).state ≠ .stale →
      ∀ target, target ∈ (f u).referenced ↔ target ∈ (f u).asked.map Prod.fst)
    (hcurrent : (f u).state ≠ .stale → ∀ target version, (target, version) ∈ (f u).asked →
      ∃ t ∈ (p.modify path f).units, t.path = target ∧ t.Stands ∧ t.version = version)
    (hcleared : (f u).state = .stale → (f u).referenced = []) : Good (p.modify path f) := by
  have hself : ∀ v ∈ p.units, v.path = path → v = u := fun v hv hvpath =>
    eq_of_path h.nodup hv hu (hvpath.trans hpath.symm)
  refine ⟨?_, fun v hv hstale => ?_, fun v hv hstale target version hasked => ?_,
    fun v hv hstale => ?_⟩
  · rw [map_path_modify hf]
    exact h.nodup
  · obtain ⟨hold, -⟩ | ⟨v, hold, hvpath, rfl⟩ := of_mem_modify hv
    · exact h.edges v hold hstale
    · rw [hself v hold hvpath] at hstale ⊢
      exact hedges hstale
  · obtain ⟨hold, -⟩ | ⟨v, hold, hvpath, rfl⟩ := of_mem_modify hv
    · obtain ⟨t, ht, htpath, htstands, hversion⟩ := h.current v hold hstale target version hasked
      by_cases htu : t.path = path
      · obtain rfl := hself t ht htu
        obtain ⟨hfstands, hfversion⟩ := hstands htstands
        exact ⟨f t, mem_modify_self ht htu, (hf t).trans htpath, hfstands, hfversion.trans hversion⟩
      · exact ⟨t, mem_modify_of_ne ht htu, htpath, htstands, hversion⟩
    · rw [hself v hold hvpath] at hstale hasked
      exact hcurrent hstale target version hasked
  · obtain ⟨hold, -⟩ | ⟨v, hold, hvpath, rfl⟩ := of_mem_modify hv
    · exact h.cleared v hold hstale
    · rw [hself v hold hvpath] at hstale ⊢
      exact hcleared hstale

/-- What was read stays as it is, and nothing else is left in the middle of a check. -/
structure Later (but : Path → Prop) (p p' : Program Types) : Prop where
  kept : ∀ u ∈ p.units, u.state ≠ .stale → ¬but u.path → u ∈ p'.units
  checking : ∀ u ∈ p'.units, u.state = .checking → ¬but u.path → u ∈ p.units

theorem Later.refl (but : Path → Prop) (p : Program Types) : Later but p p :=
  ⟨fun _ hu _ _ => hu, fun _ hu _ _ => hu⟩

theorem Later.trans {but : Path → Prop} {p'' : Program Types} (h : Later but p p')
    (h' : Later but p' p'') : Later but p p'' :=
  ⟨fun u hu hstale hbut => h'.kept u (h.kept u hu hstale hbut) hstale hbut,
    fun u hu hchecking hbut => h.checking u (h'.checking u hu hchecking hbut) hchecking hbut⟩

theorem Later.weaken {but but' : Path → Prop} (h : Later but p p') (hle : ∀ q, but q → but' q) :
    Later but' p p' :=
  ⟨fun u hu hstale hbut => h.kept u hu hstale fun hb => hbut (hle _ hb),
    fun u hu hchecking hbut => h.checking u hu hchecking fun hb => hbut (hle _ hb)⟩

theorem Later.modify (hf : ∀ u, (f u).path = u.path) : Later (· = path) p (p.modify path f) := by
  refine ⟨fun u hu _ hne => mem_modify_of_ne hu hne, fun u hu _ hne => ?_⟩
  obtain ⟨hu, -⟩ | ⟨v, -, hv, rfl⟩ := of_mem_modify hu
  · exact hu
  · exact absurd ((hf v).trans hv) hne

/-! ### Reading -/

/-- What is asked of the check of a path. -/
structure Checks (check : Program Types → Path → Option (Program Types × Bool)) : Prop where
  cycles : ∀ {p p' : Program Types} {path : Path} {found : Bool},
    check p path = some (p', found) → p.cycles ≤ p'.cycles
  good : ∀ {p p' : Program Types} {path : Path} {found : Bool},
    check p path = some (p', found) → Good p → p'.cycles = p.cycles →
    found = true ∧ Good p' ∧ Later (fun _ => False) p p' ∧
      ∃ t ∈ p'.units, t.path = path ∧ t.Stands

variable {check : Program Types → Path → Option (Program Types × Bool)}

theorem cycles_resolveRequire (found : Bool) :
    (p.resolveRequire env path target found).1.cycles = p.cycles := by
  unfold resolveRequire
  split
  · dsimp only
    split <;> rfl
  · rfl

/-- What can be said of two states along what a unit asks for: it goes from one answer to the
next. -/
structure Carries (check : Program Types → Path → Option (Program Types × Bool)) (env : Env Types)
    (path : Path) (R : Program Types → Program Types → Prop) : Prop where
  refl : ∀ p, R p p
  trans : ∀ {p₁ p₂ p₃}, R p₁ p₂ → R p₂ p₃ → R p₁ p₃
  asked : ∀ {p p' target found}, check p target = some (p', found) →
    R p (p'.resolveRequire env path target found).1
  refused : ∀ {p p' target}, check p target = some (p', false) → R p (p'.note path target)
  answered : ∀ {p p' target}, check p target = some (p', true) →
    R p ((p'.note path target).rememberEdge env path target)

theorem Carries.runChecking {R : Program Types → Program Types → Prop}
    (hR : Carries check env path R) (checking : Checking Types) :
    ∀ {p p' : Program Types} {types : Types},
    runChecking check env path checking p = some (p', types) → R p p' := by
  induction checking with
  | done types =>
    intro p p' types' h
    cases h
    exact hR.refl p
  | ask target next ih =>
    intro p p' types h
    unfold Program.runChecking at h
    split at h
    · cases h
    · rename_i hone
      exact hR.trans (hR.asked hone) (ih _ h)

theorem Carries.runBinary {R : Program Types → Program Types → Prop}
    (hR : Carries check env path R) (requires : List Path) :
    ∀ {p p' : Program Types} {ok : Bool},
    runBinary check env path requires p = some (p', ok) → R p p' := by
  induction requires with
  | nil =>
    intro p p' ok h
    cases h
    exact hR.refl p
  | cons target rest ih =>
    intro p p' ok h
    unfold Program.runBinary at h
    split at h
    · cases h
    · rename_i hone
      cases h
      exact hR.refused hone
    · rename_i hone
      dsimp only at h
      split at h
      · split at h
        · cases h
          exact hR.answered hone
        · exact hR.trans (hR.answered hone) (ih h)
      · cases h
        exact hR.answered hone

theorem loadText_carries {R : Program Types → Program Types → Prop} (hrefl : ∀ p, R p p)
    (htrans : ∀ {p₁ p₂ p₃}, R p₁ p₂ → R p₂ p₃ → R p₁ p₃) {stack : Nat}
    (hcheck : ∀ {p p' target found}, checkPath env stack p target = some (p', found) → R p p')
    (checking : Checking Types) :
    ∀ {p p' : Program Types}, p.loadText env stack checking = some p' → R p p' := by
  induction checking with
  | done types =>
    intro p p' h
    cases h
    exact hrefl p
  | ask target next ih =>
    intro p p' h
    unfold Program.loadText at h
    split at h
    · cases h
    · rename_i hone
      exact htrans (hcheck hone) (ih _ h)

theorem carries_cycles (hcheck : Checks check) :
    Carries check env path fun p p' => p.cycles ≤ p'.cycles where
  refl _ := Nat.le_refl _
  trans := Nat.le_trans
  asked h := by
    rw [cycles_resolveRequire]
    exact hcheck.cycles h
  refused h := have hle := hcheck.cycles h; hle
  answered h := have hle := hcheck.cycles h; hle

theorem cycles_loadInto (hcheck : Checks check) (h : p.loadInto check env path = some p') :
    p.cycles ≤ p'.cycles := by
  unfold loadInto at h
  dsimp only at h
  split at h
  · cases h
    exact Nat.le_refl _
  · split at h
    · split at h
      · cases h
      · rename_i hrun
        have hle := (carries_cycles hcheck).runChecking _ hrun
        cases h
        exact hle
    · split at h
      · cases h
      · rename_i hrun
        have hle := (carries_cycles hcheck).runBinary _ hrun
        split at h
        · cases h
          exact hle
        · cases h
          exact hle

theorem modify_modify {g : LhatUnit Types → LhatUnit Types} (hf : ∀ u, (f u).path = u.path) :
    (p.modify path f).modify path g = p.modify path fun u => g (f u) := by
  unfold modify
  rw [List.map_map]
  congr 1
  refine List.map_congr_left fun u _ => ?_
  by_cases hu : u.path = path
  · simp [hu, hf]
  · simp [hu]

/-- A unit in the middle of its check, which is so many-th reading. -/
def Checked (p : Program Types) (path : Path) (version : Nat) : Prop :=
  ∃ u ∈ p.units, u.path = path ∧ u.state = .checking ∧ u.version = version

variable {version : Nat}

theorem Checked.later (h : Checked p path version) (hlater : Later (fun _ => False) p p') :
    Checked p' path version := by
  obtain ⟨u, hu, hpath, hstate, hversion⟩ := h
  exact ⟨u, hlater.kept u hu (by simp [hstate]) id, hpath, hstate, hversion⟩

/-- A unit that was answered about another, and keeps the edge. -/
def answer (target : Path) (version : Nat) (u : LhatUnit Types) : LhatUnit Types :=
  { u with
    asked := u.asked ++ [(target, version)]
    referenced := edgeTo u.referenced target }

theorem note_rememberEdge (hgrows : ∀ u v, env.grows u v = true) :
    (p.note path target).rememberEdge env path target =
      p.modify path (answer target (p.versionOf target)) := by
  unfold note rememberEdge
  rw [modify_modify (f := fun u => { u with asked := u.asked ++ [(target, p.versionOf target)] })
    fun _ => rfl]
  congr 1
  funext u
  unfold answer edgeTo
  simp only [hgrows, if_true]
  split <;> rfl

theorem mem_edgeTo {edges : List Path} {q : Path} :
    q ∈ edgeTo edges target ↔ q ∈ edges ∨ q = target := by
  unfold edgeTo
  split
  · rename_i hin
    refine (or_iff_left_of_imp ?_).symm
    rintro rfl
    exact hin
  · rw [List.mem_append, List.mem_singleton]

theorem not_stands (h : u.state = .checking) : ¬u.Stands := by
  rintro (hdone | hfailed)
  · rw [h] at hdone
    cases hdone
  · rw [h] at hfailed
    cases hfailed

theorem Checked.ne (hu : Checked p path version) (h : Good p) (ht : t ∈ p.units)
    (hstands : t.Stands) : t.path ≠ path := by
  obtain ⟨u, hu, hpath, hstate, -⟩ := hu
  intro heq
  have htu := eq_of_path h.nodup ht hu (heq.trans hpath.symm)
  exact not_stands hstate (htu ▸ hstands)

theorem Good.answered (h : Good p) (hgrows : ∀ u v, env.grows u v = true)
    (hu : Checked p path version) (ht : t ∈ p.units) (htpath : t.path = target)
    (hstands : t.Stands) :
    Good ((p.note path target).rememberEdge env path target) ∧
      Later (· = path) p ((p.note path target).rememberEdge env path target) ∧
      Checked ((p.note path target).rememberEdge env path target) path version := by
  have hanswered : p.versionOf target = t.version := by
    unfold versionOf
    rw [← htpath, findUnit_eq h.nodup ht]
  have hother : ∀ s ∈ p.units, s.Stands → s.path ≠ path := fun s hs => hu.ne h hs
  obtain ⟨u, hu, hpath, hstate, hversion⟩ := hu
  have hnot : u.state ≠ .stale := by simp [hstate]
  rw [note_rememberEdge hgrows]
  refine ⟨h.modify hu hpath (fun _ => rfl) (fun h => absurd h (not_stands hstate)) ?_ ?_
    (fun h => absurd h hnot), .modify (fun _ => rfl),
    ⟨_, mem_modify_self hu hpath, hpath, hstate, hversion⟩⟩
  · intro _ q
    have hedge := h.edges u hu hnot q
    simp only [answer, mem_edgeTo, List.map_append, List.map_cons, List.map_nil, List.mem_append,
      List.mem_singleton, hedge]
  · intro _ q version hasked
    obtain hold | hnew := List.mem_append.mp hasked
    · obtain ⟨s, hs, hspath, hsstands, hsversion⟩ := h.current u hu hnot q version hold
      exact ⟨s, mem_modify_of_ne hs (hother s hs hsstands), hspath, hsstands, hsversion⟩
    · cases List.mem_singleton.mp hnew
      exact ⟨t, mem_modify_of_ne ht (hother t ht hstands), htpath, hstands, hanswered.symm⟩

theorem Good.marked (h : Good p) (hu : Checked p path version) (hf : ∀ u, (f u).path = u.path)
    (hasked : ∀ u, (f u).asked = u.asked) (hreferenced : ∀ u, (f u).referenced = u.referenced)
    (hstate : ∀ u, u.state = .checking → (f u).state ≠ .stale) : Good (p.modify path f) := by
  have hother : ∀ s ∈ p.units, s.Stands → s.path ≠ path := fun s hs => hu.ne h hs
  obtain ⟨u, hu, hpath, hchecking, -⟩ := hu
  have hnot : u.state ≠ .stale := by simp [hchecking]
  refine h.modify hu hpath hf (fun h => absurd h (not_stands hchecking)) ?_ ?_
    (fun h => absurd h (hstate u hchecking))
  · intro _ q
    rw [hasked, hreferenced]
    exact h.edges u hu hnot q
  · intro _ q version hin
    rw [hasked] at hin
    obtain ⟨s, hs, hspath, hsstands, hsversion⟩ := h.current u hu hnot q version hin
    exact ⟨s, mem_modify_of_ne hs (hother s hs hsstands), hspath, hsstands, hsversion⟩

theorem Checked.marked (hu : Checked p path version) (hf : ∀ u, (f u).path = u.path)
    (hversion : ∀ u, (f u).version = u.version)
    (hstate : ∀ u, u.state = .checking → (f u).state = .checking) :
    Checked (p.modify path f) path version := by
  obtain ⟨u, hu, hpath, hchecking, hold⟩ := hu
  exact ⟨f u, mem_modify_self hu hpath, (hf u).trans hpath, hstate u hchecking,
    (hversion u).trans hold⟩

theorem Checked.settled (hu : Checked p path version) (hf : ∀ u, (f u).path = u.path)
    (hversion : ∀ u, (f u).version = u.version) (hstands : ∀ u, (f u).Stands) :
    ∃ t ∈ (p.modify path f).units, t.path = path ∧ t.Stands ∧ t.version = version := by
  obtain ⟨u, hu, hpath, -, hold⟩ := hu
  exact ⟨f u, mem_modify_self hu hpath, (hf u).trans hpath, hstands u, (hversion u).trans hold⟩

theorem resolveRequire_true :
    (p.resolveRequire env path target true).1 = (p.note path target).rememberEdge env path target := by
  unfold resolveRequire
  rw [if_pos rfl]
  dsimp only
  split <;> rfl

theorem carries_good (hcheck : Checks check) (hgrows : ∀ u v, env.grows u v = true) :
    Carries check env path fun p p' => p.cycles ≤ p'.cycles ∧
      (Good p → Checked p path version → p'.cycles = p.cycles →
        Good p' ∧ Later (· = path) p p' ∧ Checked p' path version) := by
  have hanswered : ∀ {p p' : Program Types} {target : Path} {found : Bool},
      check p target = some (p', found) → Good p → Checked p path version →
      p'.cycles = p.cycles → found = true ∧
        Good ((p'.note path target).rememberEdge env path target) ∧
        Later (· = path) p ((p'.note path target).rememberEdge env path target) ∧
        Checked ((p'.note path target).rememberEdge env path target) path version := by
    intro p p' target found hone hp hu hcycles
    obtain ⟨hfound, hp₁, hlater, t, ht, htpath, hstands⟩ := hcheck.good hone hp hcycles
    obtain ⟨hp₂, hlater₂, hu₂⟩ := hp₁.answered hgrows (hu.later hlater) ht htpath hstands
    exact ⟨hfound, hp₂, (hlater.weaken fun _ h => h.elim).trans hlater₂, hu₂⟩
  refine ⟨fun p => ⟨Nat.le_refl _, fun hp hu _ => ⟨hp, .refl _ _, hu⟩⟩, ?_, ?_, ?_, ?_⟩
  · rintro p₁ p₂ p₃ ⟨hle, h⟩ ⟨hle', h'⟩
    refine ⟨Nat.le_trans hle hle', fun hp hu hcycles => ?_⟩
    obtain ⟨hp₂, hlater, hu₂⟩ := h hp hu (by omega)
    obtain ⟨hp₃, hlater', hu₃⟩ := h' hp₂ hu₂ (by omega)
    exact ⟨hp₃, hlater.trans hlater', hu₃⟩
  · intro p p' target found hone
    rw [cycles_resolveRequire]
    refine ⟨hcheck.cycles hone, fun hp hu hcycles => ?_⟩
    obtain ⟨rfl, h⟩ := hanswered hone hp hu hcycles
    rwa [resolveRequire_true]
  · intro p p' target hone
    have hle : p.cycles ≤ p'.cycles := hcheck.cycles hone
    exact ⟨hle, fun hp hu hcycles => nomatch (hanswered hone hp hu hcycles).1⟩
  · intro p p' target hone
    have hle : p.cycles ≤ p'.cycles := hcheck.cycles hone
    exact ⟨hle, fun hp hu hcycles => (hanswered hone hp hu hcycles).2⟩

theorem Good.loadInto (hcheck : Checks check) (hgrows : ∀ u v, env.grows u v = true) (hp : Good p)
    (hu : u ∈ p.units) (hpath : u.path = path) (hnot : ¬u.Stands) (hbare : u.referenced = [])
    (h : p.loadInto check env path = some p') (hcycles : p'.cycles = p.cycles) :
    Good p' ∧ Later (· = path) p p' ∧
      ∃ t ∈ p'.units, t.path = path ∧ t.Stands ∧ t.version = u.version + 1 := by
  unfold Program.loadInto at h
  dsimp only at h
  generalize hbegun : p.modify path (fun u =>
    { u with state := .checking, version := u.version + 1, asked := [] }) = p₀ at h
  have hp₀ : Good p₀ := hbegun ▸ hp.modify hu hpath (fun _ => rfl) (fun h => absurd h hnot)
    (fun _ q => by simp [hbare]) (fun _ q version hasked => (nomatch hasked))
    (fun h => nomatch h)
  have hu₀ : Checked p₀ path (u.version + 1) :=
    hbegun ▸ ⟨_, mem_modify_self hu hpath, hpath, rfl, rfl⟩
  have hlater₀ : Later (· = path) p p₀ := by
    rw [← hbegun]
    exact .modify (fun _ => rfl)
  have hcycles₀ : p₀.cycles = p.cycles := hbegun ▸ rfl
  split at h
  · cases h
    exact ⟨hp₀.marked hu₀ (fun _ => rfl) (fun _ => rfl) (fun _ => rfl) (fun _ _ h => nomatch h),
      hlater₀.trans (.modify fun _ => rfl),
      hu₀.settled (fun _ => rfl) (fun _ => rfl) fun _ => .inr rfl⟩
  · rename_i text htext
    generalize hhashed : p₀.modify path (fun u => { u with sourceHash := text.hash }) = p₁ at h
    have hp₁ : Good p₁ := hhashed ▸ hp₀.marked hu₀ (fun _ => rfl) (fun _ => rfl) (fun _ => rfl)
      (fun u h hstale => nomatch h.symm.trans hstale)
    have hu₁ : Checked p₁ path (u.version + 1) :=
      hhashed ▸ hu₀.marked (fun _ => rfl) (fun _ => rfl) fun _ h => h
    have hlater₁ : Later (· = path) p p₁ := by
      rw [← hhashed]
      exact hlater₀.trans (.modify fun _ => rfl)
    have hcycles₁ : p₁.cycles = p.cycles := hhashed ▸ hcycles₀
    split at h
    · generalize hloaded : p₁.modify path (fun u => { u with loaded := true }) = p₂ at h
      have hp₂ : Good p₂ := hloaded ▸ hp₁.marked hu₁ (fun _ => rfl) (fun _ => rfl) (fun _ => rfl)
        (fun u h hstale => nomatch h.symm.trans hstale)
      have hu₂ : Checked p₂ path (u.version + 1) :=
        hloaded ▸ hu₁.marked (fun _ => rfl) (fun _ => rfl) fun _ h => h
      have hlater₂ : Later (· = path) p p₂ := by
        rw [← hloaded]
        exact hlater₁.trans (.modify fun _ => rfl)
      have hcycles₂ : p₂.cycles = p.cycles := hloaded ▸ hcycles₁
      split at h
      · cases h
      · rename_i p₃ types hrun
        have hsame : p'.cycles = p₃.cycles := by
          cases h
          rfl
        obtain ⟨hp₃, hlater₃, hu₃⟩ := ((carries_good hcheck hgrows).runChecking _ hrun).2 hp₂ hu₂
          (by omega)
        cases h
        exact ⟨hp₃.marked hu₃ (fun _ => rfl) (fun _ => rfl) (fun _ => rfl) (fun _ _ h => nomatch h),
          hlater₂.trans (hlater₃.trans (.modify fun _ => rfl)),
          hu₃.settled (fun _ => rfl) (fun _ => rfl) fun _ => .inl rfl⟩
    · split at h
      · cases h
      · rename_i p₂ ok hrun
        have hsame : p'.cycles = p₂.cycles := by
          split at h <;> (cases h; rfl)
        obtain ⟨hp₂, hlater₂, hu₂⟩ := ((carries_good hcheck hgrows).runBinary _ hrun).2 hp₁ hu₁
          (by omega)
        split at h
        · cases h
          have hp₃ : Good { p₂ with bodies := p₂.bodies + 1 } :=
            ⟨hp₂.nodup, hp₂.edges, hp₂.current, hp₂.cleared⟩
          have hu₃ : Checked { p₂ with bodies := p₂.bodies + 1 } path (u.version + 1) := hu₂
          have hlater₃ : Later (· = path) p₂ { p₂ with bodies := p₂.bodies + 1 } :=
            ⟨fun _ h _ _ => h, fun _ h _ _ => h⟩
          exact ⟨hp₃.marked hu₃ (fun _ => rfl) (fun _ => rfl) (fun _ => rfl)
              (fun _ _ h => nomatch h),
            hlater₁.trans (hlater₂.trans (hlater₃.trans (.modify fun _ => rfl))),
            hu₃.settled (fun _ => rfl) (fun _ => rfl) fun _ => .inl rfl⟩
        · cases h
          exact ⟨hp₂.marked hu₂ (fun _ => rfl) (fun _ => rfl) (fun _ => rfl)
              (fun _ _ h => nomatch h),
            hlater₁.trans (hlater₂.trans (.modify fun _ => rfl)),
            hu₂.settled (fun _ => rfl) (fun _ => rfl) fun _ => .inr rfl⟩

theorem Good.cons (h : Good p) (hfind : p.findUnit path = none) :
    Good { p with units := { path := path } :: p.units } := by
  refine ⟨?_, fun u hu hstale => ?_, fun u hu hstale q version hasked => ?_, fun u hu hstale => ?_⟩
  · refine List.nodup_cons.mpr ⟨?_, h.nodup⟩
    intro hin
    obtain ⟨u, hu, hpath⟩ := List.mem_map.mp hin
    exact findUnit_none hfind u hu hpath
  · obtain rfl | hu := List.mem_cons.mp hu
    · simp
    · exact h.edges u hu hstale
  · obtain rfl | hu := List.mem_cons.mp hu
    · cases hasked
    · obtain ⟨t, ht, hrest⟩ := h.current u hu hstale q version hasked
      exact ⟨t, List.mem_cons_of_mem _ ht, hrest⟩
  · obtain rfl | hu := List.mem_cons.mp hu
    · cases hstale
    · exact h.cleared u hu hstale

theorem Later.closed (h : Later (· = path) p p') (hp' : Good p')
    (hold : ∀ u ∈ p.units, u.path = path → u.state = .stale)
    (ht : t ∈ p'.units) (htpath : t.path = path) (hstands : t.Stands) :
    Later (fun _ => False) p p' := by
  refine ⟨fun u hu hstale _ => h.kept u hu hstale fun heq => hstale (hold u hu heq),
    fun u hu hchecking _ => h.checking u hu hchecking fun heq => ?_⟩
  obtain rfl := eq_of_path hp'.nodup hu ht (heq.trans htpath.symm)
  exact not_stands hchecking hstands

theorem checks_checkPath (hgrows : ∀ u v, env.grows u v = true) (stack : Nat) :
    Checks (checkPath env stack) := by
  induction stack with
  | zero => exact ⟨fun h => (nomatch h), fun h => (nomatch h)⟩
  | succ stack ih =>
    constructor
    · intro p p' path found h
      unfold checkPath at h
      split at h
      · split at h
        · cases h
          exact Nat.le_succ _
        · split at h
          · obtain ⟨p₁, hload, hsome⟩ := Option.map_eq_some_iff.mp h
            cases hsome
            exact cycles_loadInto ih hload
          · cases h
            exact Nat.le_refl _
      · obtain ⟨p₁, hload, hsome⟩ := Option.map_eq_some_iff.mp h
        cases hsome
        have hle := cycles_loadInto ih hload
        exact hle
    · intro p p' path found h hp hcycles
      unfold checkPath at h
      split at h
      · rename_i u hfind
        obtain ⟨hu, hpath⟩ := findUnit_some hfind
        split at h
        · cases h
          exact absurd hcycles (Nat.succ_ne_self _)
        · rename_i hnot
          split at h
          · rename_i hstale
            obtain ⟨p₁, hload, hsome⟩ := Option.map_eq_some_iff.mp h
            cases hsome
            have hnot : ¬u.Stands := by simp [LhatUnit.Stands, hstale]
            obtain ⟨hp', hlater, t, ht, htpath, htstands, -⟩ :=
              hp.loadInto ih hgrows hu hpath hnot (hp.cleared u hu hstale) hload hcycles
            refine ⟨rfl, hp', hlater.closed hp' (fun v hv hvpath => ?_) ht htpath htstands,
              t, ht, htpath, htstands⟩
            rw [eq_of_path hp.nodup hv hu (hvpath.trans hpath.symm)]
            exact hstale
          · rename_i hstale
            cases h
            refine ⟨rfl, hp, .refl _ _, u, hu, hpath, ?_⟩
            cases hstate : u.state with
            | checking => exact absurd hstate hnot
            | done => exact .inl hstate
            | failed => exact .inr hstate
            | stale => exact absurd hstate hstale
      · rename_i hfind
        obtain ⟨p₁, hload, hsome⟩ := Option.map_eq_some_iff.mp h
        cases hsome
        obtain ⟨hp', hlater, t, ht, htpath, htstands, -⟩ := (hp.cons hfind).loadInto ih hgrows
          (List.mem_cons_self ..) rfl (not_stands rfl) rfl hload hcycles
        refine ⟨rfl, hp', ⟨fun u hu hstale _ => ?_, fun u hu hchecking _ => ?_⟩,
          t, ht, htpath, htstands⟩
        · exact hlater.kept u (List.mem_cons_of_mem _ hu) hstale (findUnit_none hfind u hu)
        · have hne : u.path ≠ path := fun heq => by
            obtain rfl := eq_of_path hp'.nodup hu ht (heq.trans htpath.symm)
            exact not_stands hchecking htstands
          obtain rfl | hold := List.mem_cons.mp (hlater.checking u hu hchecking hne)
          · exact absurd rfl hne
          · exact hold

theorem version_checkPath (hgrows : ∀ u v, env.grows u v = true) {stack : Nat} {found : Bool}
    (hp : Good p) (hu : u ∈ p.units) (hstale : u.state = .stale)
    (h : p.checkPath env stack u.path = some (p', found)) (hcycles : p'.cycles = p.cycles) :
    ∃ t ∈ p'.units, t.path = u.path ∧ t.Stands ∧ t.version = u.version + 1 := by
  cases stack with
  | zero => cases h
  | succ stack =>
    unfold checkPath at h
    simp only [findUnit_eq hp.nodup hu, hstale, reduceCtorEq, if_false, if_true] at h
    obtain ⟨p₁, hload, hsome⟩ := Option.map_eq_some_iff.mp h
    cases hsome
    have hnot : ¬u.Stands := by simp [LhatUnit.Stands, hstale]
    exact (hp.loadInto (checks_checkPath hgrows stack) hgrows hu rfl hnot (hp.cleared u hu hstale)
      hload hcycles).2.2

theorem Good.loadText (hgrows : ∀ u v, env.grows u v = true) {stack : Nat}
    (checking : Checking Types) (hp : Good p) (h : p.loadText env stack checking = some p')
    (hcycles : p'.cycles = p.cycles) : Good p' ∧ Later (fun _ => False) p p' := by
  refine (loadText_carries (R := fun p p' => p.cycles ≤ p'.cycles ∧ (Good p →
    p'.cycles = p.cycles → Good p' ∧ Later (fun _ => False) p p'))
    (fun p => ⟨Nat.le_refl _, fun hp _ => ⟨hp, .refl _ _⟩⟩) ?_ ?_ checking h).2 hp hcycles
  · rintro p₁ p₂ p₃ ⟨hle, h⟩ ⟨hle', h'⟩
    refine ⟨Nat.le_trans hle hle', fun hp hcycles => ?_⟩
    obtain ⟨hp₂, hlater⟩ := h hp (by omega)
    obtain ⟨hp₃, hlater'⟩ := h' hp₂ (by omega)
    exact ⟨hp₃, hlater.trans hlater'⟩
  · intro p p' target found hone
    refine ⟨(checks_checkPath hgrows stack).cycles hone, fun hp hcycles => ?_⟩
    obtain ⟨-, hp', hlater, -⟩ := (checks_checkPath hgrows stack).good hone hp hcycles
    exact ⟨hp', hlater⟩

end Program

end Lhat.Reload
