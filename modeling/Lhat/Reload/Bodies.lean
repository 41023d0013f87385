import Lhat.Reload.Invalidation

/-!
# The bodies of a program

Each body belongs to one unit, or is retired, and what is read or compiled later leaves it where
it is. Cycles and refused edges make no difference here.
-/

namespace Lhat.Reload

namespace Program

variable {Types : Type} {env : Env Types} {p p' p'' : Program Types} {u t : LhatUnit Types}
  {path target : Path} {f : LhatUnit Types → LhatUnit Types} {but : Path → Prop}

/-- A unit that was not read, or not to its end, has no body. No two units have the same one, and
none has one that was retired. -/
structure Housed (p : Program Types) : Prop where
  nodup : (p.units.map LhatUnit.path).Nodup
  bare : ∀ u ∈ p.units, u.state ≠ .done → u.body = none
  made : ∀ u ∈ p.units, ∀ b, u.body = some b → b < p.bodies
  one : ∀ u ∈ p.units, ∀ t ∈ p.units, ∀ b, u.body = some b → t.body = some b → u = t
  below : ∀ b ∈ p.retired, b < p.bodies
  apart : ∀ u ∈ p.units, ∀ b, u.body = some b → b ∉ p.retired

theorem Housed.new : Housed ({} : Program Types) where
  nodup := List.nodup_nil
  bare _ h := nomatch h
  made _ h := nomatch h
  one _ h := nomatch h
  below _ h := nomatch h
  apart _ h := nomatch h

/-- A body is left to its unit, which keeps its edges, and a check that is under way stays so.
What has a body that was not there before has a new one. -/
structure Onward (but : Path → Prop) (p p' : Program Types) : Prop where
  bodies : p.bodies ≤ p'.bodies
  retired : p'.retired = p.retired
  kept : ∀ u ∈ p.units, ¬but u.path → u.body ≠ none ∨ u.state = .checking →
    ∃ v ∈ p'.units, v.path = u.path ∧ v.body = u.body ∧
      (u.state = .checking → v.state = .checking) ∧ u.referenced ⊆ v.referenced
  known : ∀ v ∈ p'.units, ∀ b, v.body = some b → b < p.bodies →
    ∃ u ∈ p.units, u.path = v.path ∧ u.body = some b

theorem Onward.refl (but : Path → Prop) (p : Program Types) : Onward but p p where
  bodies := Nat.le_refl _
  retired := rfl
  kept u hu _ _ := ⟨u, hu, rfl, rfl, id, fun _ h => h⟩
  known v hv _ hb _ := ⟨v, hv, rfl, hb⟩

theorem Onward.trans (h : Onward but p p') (h' : Onward but p' p'') : Onward but p p'' where
  bodies := Nat.le_trans h.bodies h'.bodies
  retired := h'.retired.trans h.retired
  kept u hu hbut hheld := by
    obtain ⟨v, hv, hpath, hbody, hstate, hsub⟩ := h.kept u hu hbut hheld
    obtain ⟨w, hw, hpath', hbody', hstate', hsub'⟩ :=
      h'.kept v hv (hpath ▸ hbut) (hheld.imp (hbody ▸ ·) hstate)
    exact ⟨w, hw, hpath'.trans hpath, hbody'.trans hbody, fun h => hstate' (hstate h),
      fun _ hq => hsub' (hsub hq)⟩
  known w hw b hb hlt := by
    obtain ⟨v, hv, hpath, hbody⟩ := h'.known w hw b hb (Nat.lt_of_lt_of_le hlt h.bodies)
    obtain ⟨u, hu, hpath', hbody'⟩ := h.known v hv b hbody hlt
    exact ⟨u, hu, hpath'.trans hpath, hbody'⟩

theorem Onward.weaken {but' : Path → Prop} (h : Onward but p p') (hle : ∀ q, but q → but' q) :
    Onward but' p p' :=
  ⟨h.bodies, h.retired, fun u hu hbut => h.kept u hu fun hq => hbut (hle _ hq), h.known⟩

/-! ### One unit changes -/

/-- A change of one unit that leaves its body alone, and its state too if it is being checked. -/
structure Mild (f : LhatUnit Types → LhatUnit Types) : Prop where
  path : ∀ u, (f u).path = u.path
  body : ∀ u, (f u).body = u.body
  checking : ∀ u, u.state = .checking → (f u).state = .checking
  bare : ∀ u, (f u).state ≠ .done → u.state ≠ .done
  referenced : ∀ u, u.referenced ⊆ (f u).referenced

theorem Housed.modify (h : Housed p) (hf : ∀ u, (f u).path = u.path)
    (hbody : ∀ u ∈ p.units, u.path = path → (f u).body = u.body)
    (hbare : ∀ u ∈ p.units, u.path = path → (f u).state ≠ .done → u.body = none) :
    Housed (p.modify path f) := by
  have hback : ∀ v ∈ (p.modify path f).units, ∃ u ∈ p.units, v.path = u.path ∧ v.body = u.body ∧
      v = if u.path = path then f u else u := by
    intro v hv
    obtain ⟨u, hu, rfl⟩ := mem_modify.mp hv
    refine ⟨u, hu, ?_, ?_, rfl⟩
    · split
      · exact hf u
      · rfl
    · split
      · rename_i hpath
        exact hbody u hu hpath
      · rfl
  refine ⟨?_, fun v hv hstate => ?_, fun v hv b hb => ?_, fun v hv w hw b hvb hwb => ?_, h.below,
    fun v hv b hb => ?_⟩
  · rw [map_path_modify hf]
    exact h.nodup
  · obtain ⟨u, hu, -, hsame, heq⟩ := hback v hv
    rw [hsame]
    by_cases hpath : u.path = path
    · rw [if_pos hpath] at heq
      exact hbare u hu hpath (heq ▸ hstate)
    · rw [if_neg hpath] at heq
      exact h.bare u hu (heq ▸ hstate)
  · obtain ⟨u, hu, -, hsame, -⟩ := hback v hv
    exact h.made u hu b (hsame ▸ hb)
  · obtain ⟨u, hu, -, hu', rfl⟩ := hback v hv
    obtain ⟨s, hs, -, hs', rfl⟩ := hback w hw
    rw [h.one u hu s hs b (hu' ▸ hvb) (hs' ▸ hwb)]
  · obtain ⟨u, hu, -, hsame, -⟩ := hback v hv
    exact h.apart u hu b (hsame ▸ hb)

theorem Housed.mild (h : Housed p) (hf : Mild f) : Housed (p.modify path f) :=
  h.modify hf.path (fun u _ _ => hf.body u) fun u hu _ hstate => h.bare u hu (hf.bare u hstate)

theorem Onward.mild (hf : Mild f) : Onward but p (p.modify path f) where
  bodies := Nat.le_refl _
  retired := rfl
  kept u hu _ _ := by
    by_cases hpath : u.path = path
    · exact ⟨f u, mem_modify_self hu hpath, hf.path u, hf.body u, hf.checking u, hf.referenced u⟩
    · exact ⟨u, mem_modify_of_ne hu hpath, rfl, rfl, id, fun _ h => h⟩
  known v hv b hb _ := by
    obtain ⟨hold, -⟩ | ⟨u, hu, hpath, rfl⟩ := of_mem_modify hv
    · exact ⟨v, hold, rfl, hb⟩
    · exact ⟨u, hu, (hf.path u).symm, (hf.body u).symm.trans hb⟩

theorem Onward.modify (hf : ∀ u, (f u).path = u.path)
    (hbody : ∀ u ∈ p.units, u.path = path → ∀ b, (f u).body = some b → b < p.bodies →
      u.body = some b) :
    Onward (· = path) p (p.modify path f) where
  bodies := Nat.le_refl _
  retired := rfl
  kept u hu hne _ := ⟨u, mem_modify_of_ne hu hne, rfl, rfl, id, fun _ h => h⟩
  known v hv b hb hlt := by
    obtain ⟨hold, -⟩ | ⟨u, hu, hpath, rfl⟩ := of_mem_modify hv
    · exact ⟨v, hold, rfl, hb⟩
    · exact ⟨u, hu, (hf u).symm, hbody u hu hpath b hb hlt⟩

theorem Onward.build (hbody : ∀ u, (f u).body = some p.bodies) :
    Onward (· = path) p ({ p with bodies := p.bodies + 1 }.modify path f) where
  bodies := Nat.le_succ _
  retired := rfl
  kept u hu hne _ := ⟨u, mem_modify_of_ne hu hne, rfl, rfl, id, fun _ h => h⟩
  known v hv b hb hlt := by
    obtain ⟨hold, -⟩ | ⟨u, hu, hpath, rfl⟩ := of_mem_modify hv
    · exact ⟨v, hold, rfl, hb⟩
    · rw [Option.some.inj ((hbody u).symm.trans hb)] at hlt
      exact absurd hlt (Nat.lt_irrefl _)

theorem Housed.build (h : Housed p) (hf : ∀ u, (f u).path = u.path)
    (hbody : ∀ u, (f u).body = some p.bodies) (hstate : ∀ u ∈ p.units, u.path = path →
      (f u).state = .done) :
    Housed ({ p with bodies := p.bodies + 1 }.modify path f) := by
  have hback : ∀ v ∈ (({ p with bodies := p.bodies + 1 } : Program Types).modify path f).units,
      ∀ b, v.body = some b →
      v ∈ p.units ∧ b < p.bodies ∨ b = p.bodies ∧ v.path = path := by
    intro v hv b hb
    obtain ⟨hold, -⟩ | ⟨u, hu, hpath, rfl⟩ := of_mem_modify hv
    · exact .inl ⟨hold, h.made v hold b hb⟩
    · exact .inr ⟨(Option.some.inj ((hbody u).symm.trans hb)).symm, (hf u).trans hpath⟩
  have hnodup : ((({ p with bodies := p.bodies + 1 } : Program Types).modify path f).units.map
      LhatUnit.path).Nodup := by
    rw [map_path_modify hf]
    exact h.nodup
  refine ⟨hnodup, fun v hv hnot => ?_, fun v hv b hb => ?_, fun v hv w hw b hvb hwb => ?_,
    fun b hb => Nat.lt_succ_of_lt (h.below b hb), fun v hv b hb => ?_⟩
  · obtain ⟨hold, -⟩ | ⟨u, hu, hpath, rfl⟩ := of_mem_modify hv
    · exact h.bare v hold hnot
    · exact absurd (hstate u hu hpath) hnot
  · obtain ⟨-, hlt⟩ | ⟨rfl, -⟩ := hback v hv b hb
    · exact Nat.lt_succ_of_lt hlt
    · exact Nat.lt_succ_self _
  · obtain ⟨hold, hlt⟩ | ⟨rfl, hpath⟩ := hback v hv b hvb
    · obtain ⟨hold', -⟩ | ⟨rfl, -⟩ := hback w hw b hwb
      · exact h.one v hold w hold' b hvb hwb
      · exact absurd hlt (Nat.lt_irrefl _)
    · obtain ⟨-, hlt⟩ | ⟨-, hpath'⟩ := hback w hw p.bodies hwb
      · exact absurd hlt (Nat.lt_irrefl _)
      · exact eq_of_path hnodup hv hw (hpath.trans hpath'.symm)
  · obtain ⟨hold, -⟩ | ⟨rfl, -⟩ := hback v hv b hb
    · exact h.apart v hold b hb
    · exact fun hin => Nat.lt_irrefl _ (h.below _ hin)

/-! ### Reading -/

/-- A check of one unit leaves the bodies where they are. -/
def Keeps (check : Program Types → Path → Option (Program Types × Bool)) : Prop :=
  ∀ {p p' : Program Types} {path : Path} {found : Bool}, check p path = some (p', found) →
    Housed p → Housed p' ∧ Onward (fun _ => False) p p'

variable {check : Program Types → Path → Option (Program Types × Bool)}

theorem mild_note (version : Nat) :
    Mild fun u : LhatUnit Types => { u with asked := u.asked ++ [(target, version)] } :=
  ⟨fun _ => rfl, fun _ => rfl, fun _ h => h, fun _ h => h, fun _ _ h => h⟩

theorem mild_edge (grows : Bool) : Mild fun u : LhatUnit Types =>
    if target ∈ u.referenced then u
    else if grows then { u with referenced := u.referenced ++ [target] }
    else u := by
  refine ⟨fun u => ?_, fun u => ?_, fun u h => ?_, fun u h => ?_, fun u q hq => ?_⟩
  · split
    · rfl
    · split <;> rfl
  · split
    · rfl
    · split <;> rfl
  · split
    · exact h
    · split <;> exact h
  · split at h
    · exact h
    · split at h <;> exact h
  · split
    · exact hq
    · split
      · exact List.mem_append_left _ hq
      · exact hq

theorem Housed.answered (h : Housed p) (env : Env Types) (path target : Path) :
    Housed ((p.note path target).rememberEdge env path target) ∧
      Onward but p ((p.note path target).rememberEdge env path target) := by
  have hnoted : Housed (p.note path target) := h.mild (mild_note _)
  exact ⟨hnoted.mild (mild_edge _),
    (Onward.mild (mild_note (p.versionOf target))).trans (Onward.mild (mild_edge _))⟩

theorem Housed.noted (h : Housed p) (path target : Path) :
    Housed (p.note path target) ∧ Onward but p (p.note path target) :=
  ⟨h.mild (mild_note _), Onward.mild (mild_note _)⟩

theorem Housed.resolveRequire (h : Housed p) (env : Env Types) (path target : Path) (found : Bool) :
    Housed (p.resolveRequire env path target found).1 ∧
      Onward but p (p.resolveRequire env path target found).1 := by
  unfold Program.resolveRequire
  split
  · dsimp only
    split <;> exact h.answered env path target
  · exact h.noted path target

theorem carries_housed (hcheck : Keeps check) : Carries check env path fun p p' =>
    Housed p → Housed p' ∧ Onward (fun _ => False) p p' where
  refl p hp := ⟨hp, .refl _ _⟩
  trans h h' hp := by
    obtain ⟨hp₂, hto⟩ := h hp
    obtain ⟨hp₃, hto'⟩ := h' hp₂
    exact ⟨hp₃, hto.trans hto'⟩
  asked hone hp := by
    obtain ⟨hp₁, hto₁⟩ := hcheck hone hp
    obtain ⟨hp₂, hto₂⟩ := hp₁.resolveRequire env path _ _
    exact ⟨hp₂, hto₁.trans hto₂⟩
  refused hone hp := by
    obtain ⟨hp₁, hto₁⟩ := hcheck hone hp
    obtain ⟨hp₂, hto₂⟩ := hp₁.noted path _
    exact ⟨hp₂, hto₁.trans hto₂⟩
  answered hone hp := by
    obtain ⟨hp₁, hto₁⟩ := hcheck hone hp
    obtain ⟨hp₂, hto₂⟩ := hp₁.answered env path _
    exact ⟨hp₂, hto₁.trans hto₂⟩

/-- While a unit is checked it has no body. -/
def Open (p : Program Types) (path : Path) : Prop :=
  ∀ u ∈ p.units, u.path = path → u.state = .checking ∧ u.body = none

theorem Open.onward (h : Open p path) (hp' : Housed p')
    (hto : Onward (fun _ => False) p p') (hin : ∃ u ∈ p.units, u.path = path) : Open p' path := by
  intro v hv hpath
  obtain ⟨u, hu, hupath⟩ := hin
  obtain ⟨hstate, hbody⟩ := h u hu hupath
  obtain ⟨w, hw, hwpath, hwbody, hwstate, -⟩ := hto.kept u hu id (.inr hstate)
  obtain rfl := eq_of_path hp'.nodup hv hw (hpath.trans (hupath.symm.trans hwpath.symm))
  exact ⟨hwstate hstate, hwbody.trans hbody⟩

theorem Housed.loadInto (hcheck : Keeps check) (hp : Housed p)
    (hin : ∃ u ∈ p.units, u.path = path) (hnone : ∀ u ∈ p.units, u.path = path → u.body = none)
    (h : p.loadInto check env path = some p') : Housed p' ∧ Onward (· = path) p p' := by
  unfold Program.loadInto at h
  dsimp only at h
  generalize hbegun : p.modify path (fun u =>
    { u with state := .checking, version := u.version + 1, asked := [] }) = p₁ at h
  have hp₁ : Housed p₁ := hbegun ▸ hp.modify (fun _ => rfl) (fun _ _ _ => rfl)
    fun u hu hpath _ => hnone u hu hpath
  have hto₁ : Onward (· = path) p p₁ := hbegun ▸ Onward.modify (fun _ => rfl)
    fun u _ _ b hb _ => hb
  have hopen₁ : Open p₁ path := by
    intro v hv hpath
    rw [← hbegun] at hv
    obtain ⟨-, hne⟩ | ⟨u, hu, hupath, rfl⟩ := of_mem_modify hv
    · exact absurd hpath hne
    · exact ⟨rfl, hnone u hu hupath⟩
  have hin₁ : ∃ u ∈ p₁.units, u.path = path := by
    obtain ⟨u, hu, hpath⟩ := hin
    rw [← hbegun]
    exact ⟨_, mem_modify_self hu hpath, hpath⟩
  clear hbegun hnone hin hp
  -- What is left when the text was gone through, and it was not a body that came of it.
  have hleft : ∀ {p₂ : Program Types} {f : LhatUnit Types → LhatUnit Types}, Housed p₂ →
      Onward (fun _ => False) p₁ p₂ → (∀ u, (f u).path = u.path) → (∀ u, (f u).body = u.body) →
      Housed (p₂.modify path f) ∧ Onward (· = path) p (p₂.modify path f) := by
    intro p₂ f hp₂ hto hf hbody
    have hopen := hopen₁.onward hp₂ hto hin₁
    refine ⟨hp₂.modify hf (fun u _ _ => hbody u) fun u hu hpath _ => (hopen u hu hpath).2,
      hto₁.trans ((hto.weaken fun _ h => h.elim).trans (Onward.modify hf fun u _ _ b hb _ => ?_))⟩
    exact (hbody u).symm.trans hb
  split at h
  · cases h
    exact hleft hp₁ (.refl _ _) (fun _ => rfl) fun _ => rfl
  · rename_i text hread
    have hhash : Mild fun u : LhatUnit Types => { u with sourceHash := text.hash } :=
      ⟨fun _ => rfl, fun _ => rfl, fun _ h => h, fun _ h => h, fun _ _ h => h⟩
    have hloaded : Mild fun u : LhatUnit Types => { u with loaded := true } :=
      ⟨fun _ => rfl, fun _ => rfl, fun _ h => h, fun _ h => h, fun _ _ h => h⟩
    split at h
    · split at h
      · cases h
      · rename_i p₂ types hone
        cases h
        obtain ⟨hp₂, hto⟩ := (carries_housed hcheck).runChecking _ hone
          ((hp₁.mild hhash).mild hloaded)
        exact hleft hp₂ ((Onward.mild hhash).trans ((Onward.mild hloaded).trans hto))
          (fun _ => rfl) fun _ => rfl
    · split at h
      · cases h
      · rename_i p₂ ok hone
        obtain ⟨hp₂, hto⟩ := (carries_housed hcheck).runBinary _ hone (hp₁.mild hhash)
        have hto₂ := (Onward.mild hhash).trans hto
        split at h
        · cases h
          refine ⟨hp₂.build (fun _ => rfl) (fun _ => rfl) fun _ _ _ => rfl, hto₁.trans
            ((hto₂.weaken fun _ h => h.elim).trans (Onward.build fun _ => rfl))⟩
        · cases h
          exact hleft hp₂ hto₂ (fun _ => rfl) fun _ => rfl

theorem Housed.cons (h : Housed p) (hfind : p.findUnit path = none) :
    Housed { p with units := { path := path } :: p.units } := by
  refine ⟨?_, fun u hu hstate => ?_, fun u hu b hb => ?_, fun u hu t ht b hb hb' => ?_, h.below,
    fun u hu b hb => ?_⟩
  · refine List.nodup_cons.mpr ⟨fun hin => ?_, h.nodup⟩
    obtain ⟨u, hu, hpath⟩ := List.mem_map.mp hin
    exact findUnit_none hfind u hu hpath
  · obtain rfl | hu := List.mem_cons.mp hu
    · rfl
    · exact h.bare u hu hstate
  · obtain rfl | hu := List.mem_cons.mp hu
    · cases hb
    · exact h.made u hu b hb
  · obtain rfl | hu := List.mem_cons.mp hu
    · cases hb
    · obtain rfl | ht := List.mem_cons.mp ht
      · cases hb'
      · exact h.one u hu t ht b hb hb'
  · obtain rfl | hu := List.mem_cons.mp hu
    · cases hb
    · exact h.apart u hu b hb

theorem keeps_checkPath (env : Env Types) (stack : Nat) : Keeps (checkPath env stack) := by
  induction stack with
  | zero => exact fun h => (nomatch h)
  | succ stack ih =>
    intro p p' path found h hp
    unfold checkPath at h
    split at h
    · rename_i u hfind
      obtain ⟨hu, hpath⟩ := findUnit_some hfind
      have hself : ∀ v ∈ p.units, v.path = path → v = u := fun v hv hvpath =>
        eq_of_path hp.nodup hv hu (hvpath.trans hpath.symm)
      split at h
      · cases h
        exact ⟨⟨hp.nodup, hp.bare, hp.made, hp.one, hp.below, hp.apart⟩, Nat.le_refl _, rfl,
          fun u hu _ _ => ⟨u, hu, rfl, rfl, id, fun _ h => h⟩, fun v hv _ hb _ => ⟨v, hv, rfl, hb⟩⟩
      · rename_i hnot
        split at h
        · rename_i hstale
          have hbare : u.body = none := hp.bare u hu (by simp [hstale])
          obtain ⟨p₁, hload, hsome⟩ := Option.map_eq_some_iff.mp h
          cases hsome
          obtain ⟨hp', hto⟩ := hp.loadInto ih ⟨u, hu, hpath⟩
            (fun v hv hvpath => hself v hv hvpath ▸ hbare) hload
          refine ⟨hp', hto.bodies, hto.retired, fun v hv _ hheld => ?_, hto.known⟩
          refine hto.kept v hv (fun hvpath => ?_) hheld
          rw [hself v hv hvpath] at hheld
          exact hheld.elim (· hbare) hnot
        · cases h
          exact ⟨hp, .refl _ _⟩
    · rename_i hfind
      obtain ⟨p₁, hload, hsome⟩ := Option.map_eq_some_iff.mp h
      cases hsome
      obtain ⟨hp', hto⟩ := (hp.cons hfind).loadInto ih ⟨_, List.mem_cons_self .., rfl⟩
        (fun v hv hvpath => by
          obtain rfl | hv := List.mem_cons.mp hv
          · rfl
          · exact absurd hvpath (findUnit_none hfind v hv)) hload
      refine ⟨hp', hto.bodies, hto.retired, fun u hu _ hheld => ?_, fun v hv b hb hlt => ?_⟩
      · exact hto.kept u (List.mem_cons_of_mem _ hu) (findUnit_none hfind u hu) hheld
      · obtain ⟨u, hu, hpath, hbody⟩ := hto.known v hv b hb hlt
        obtain rfl | hu := List.mem_cons.mp hu
        · cases hbody
        · exact ⟨u, hu, hpath, hbody⟩

theorem Housed.loadText {stack : Nat} (checking : Checking Types) (hp : Housed p)
    (h : p.loadText env stack checking = some p') : Housed p' ∧ Onward (fun _ => False) p p' := by
  refine loadText_carries (R := fun p p' => Housed p → Housed p' ∧ Onward (fun _ => False) p p')
    (fun p hp => ⟨hp, .refl _ _⟩) (fun h h' hp => ?_) (keeps_checkPath env stack) checking h hp
  obtain ⟨hp₂, hto⟩ := h hp
  obtain ⟨hp₃, hto'⟩ := h' hp₂
  exact ⟨hp₃, hto.trans hto'⟩

/-! ### Compiling -/

theorem Housed.compileOne (h : Housed p) (hu : u ∈ p.units) (hdone : u.state = .done)
    (hbare : u.body = none) (compiled : Compiled) :
    Housed (p.compileOne u.path compiled) ∧
      Onward (fun _ => False) p (p.compileOne u.path compiled) ∧
      ∀ v ∈ p.units, v.path ≠ u.path → v ∈ (p.compileOne u.path compiled).units := by
  have hself : ∀ v ∈ p.units, v.path = u.path → v = u := fun v hv hvpath =>
    eq_of_path h.nodup hv hu hvpath
  unfold Program.compileOne
  dsimp only
  generalize hrecorded : p.modify u.path (fun u =>
    { u with referenced := compiled.resolved.foldl edgeTo [] }) = p₁
  have hp₁ : Housed p₁ := hrecorded ▸ h.modify (fun _ => rfl) (fun _ _ _ => rfl)
    fun v hv _ hstate => h.bare v hv hstate
  have hto₁ : Onward (· = u.path) p p₁ := hrecorded ▸ Onward.modify (fun _ => rfl)
    fun _ _ _ _ hb _ => hb
  have hkept : ∀ v ∈ p.units, v.path ≠ u.path → v ∈ p₁.units := by
    rw [← hrecorded]
    exact fun v hv hne => mem_modify_of_ne hv hne
  -- The unit itself had nothing that is to be left where it is.
  have hclosed : ∀ {p'}, Onward (· = u.path) p p' → Onward (fun _ => False) p p' := by
    intro p' hto
    refine ⟨hto.bodies, hto.retired, fun v hv _ hheld => hto.kept v hv (fun hvpath => ?_) hheld,
      hto.known⟩
    rw [hself v hv hvpath, hdone] at hheld
    exact hheld.elim (· hbare) nofun
  split
  · refine ⟨hp₁.build (fun _ => rfl) (fun _ => rfl) fun v hv hvpath => ?_,
      hclosed (hto₁.trans (Onward.build fun _ => rfl)), fun v hv hne => ?_⟩
    · rw [← hrecorded] at hv
      obtain ⟨-, hne⟩ | ⟨w, hw, hwpath, rfl⟩ := of_mem_modify hv
      · exact absurd hvpath hne
      · rw [hself w hw hwpath]
        exact hdone
    · exact mem_modify_of_ne (hkept v hv hne) hne
  · exact ⟨hp₁, hclosed hto₁, hkept⟩

theorem Housed.compileAll {outcome : Path → Compiled} (units : List (LhatUnit Types)) :
    ∀ {p : Program Types}, Housed p → (units.map LhatUnit.path).Nodup →
    (∀ u ∈ units, u ∈ p.units) →
    Housed (p.compileAll outcome units) ∧
      Onward (fun _ => False) p (p.compileAll outcome units) := by
  induction units with
  | nil => exact fun hp _ _ => ⟨hp, .refl _ _⟩
  | cons u units ih =>
    intro p hp hnodup hunits
    have hrest := fun v hv => hunits v (List.mem_cons_of_mem u hv)
    obtain ⟨hnew, hnodup'⟩ := List.nodup_cons.mp hnodup
    unfold Program.compileAll
    split
    · rename_i hcompiles
      unfold compiles at hcompiles
      simp only [Bool.and_eq_true, decide_eq_true_eq, Option.isNone_iff_eq_none] at hcompiles
      obtain ⟨⟨-, hdone⟩, hbare⟩ := hcompiles
      obtain ⟨hp₁, hto₁, hkept⟩ := hp.compileOne (hunits u (List.mem_cons_self ..)) hdone hbare
        (outcome u.path)
      dsimp only
      split
      · obtain ⟨hp', hto'⟩ := ih hp₁ hnodup' fun v hv => hkept v (hrest v hv) fun heq =>
          hnew (List.mem_map.mpr ⟨v, hv, heq⟩)
        exact ⟨hp', hto₁.trans hto'⟩
      · exact ⟨hp₁, hto₁⟩
    · exact ih hp hnodup' hrest

/-! ### Retiring -/

theorem mem_reaching_of_edge (h : Housed p) (hu : u ∈ p.units) (hedge : target ∈ u.referenced)
    (hin : target ∈ p.reaching path) : u.path ∈ p.reaching path := by
  rw [reaching, ← List.length_map LhatUnit.path] at hin ⊢
  refine ((mem_closing _ _ _).2 _).mpr
    (.head ⟨List.mem_map_of_mem hu, ?_⟩ (((mem_closing _ _ _).2 _).mp hin))
  simp only [findUnit_eq h.nodup hu]
  exact hedge

theorem mem_retireSet {set : List Path} (hu : u ∈ (p.retireSet set).units) {b : Body}
    (hb : u.body = some b) : u ∈ p.units ∧ u.path ∉ set := by
  rw [retireSet_units] at hu
  obtain ⟨v, hv, rfl⟩ := List.mem_map.mp hu
  split at hb
  · cases hb
  · rename_i hout
    rw [if_neg hout]
    exact ⟨hv, hout⟩

theorem mem_retireSet_of_not_mem {set : List Path} (hu : u ∈ p.units) (hout : u.path ∉ set) :
    u ∈ (p.retireSet set).units := by
  rw [retireSet_units]
  exact List.mem_map.mpr ⟨u, hu, if_neg hout⟩

theorem retireSet_bodies (set : List Path) : ∀ p : Program Types,
    (p.retireSet set).bodies = p.bodies := by
  induction set with
  | nil => exact fun _ => rfl
  | cons q set ih => exact fun p => ih (p.retireOne q)

theorem Housed.retireSet (h : Housed p) {set : List Path} (hset : set.Nodup) :
    Housed (p.retireSet set) := by
  have hretired : ∀ b ∈ (p.retireSet set).retired, b ∈ p.retired ∨
      ∃ u ∈ p.units, u.path ∈ set ∧ u.body = some b := by
    intro b hb
    rw [retireSet_retired set p hset] at hb
    obtain hb | hb := List.mem_append.mp hb
    · exact .inl hb
    · obtain ⟨q, hq, hbody⟩ := List.mem_filterMap.mp hb
      obtain ⟨u, hfind, hown⟩ := Option.bind_eq_some_iff.mp hbody
      obtain ⟨hu, rfl⟩ := findUnit_some hfind
      exact .inr ⟨u, hu, hq, hown⟩
  refine ⟨?_, fun u hu hstate => ?_, fun u hu b hb => ?_, fun u hu t ht b hb hb' => ?_,
    fun b hb => ?_, fun u hu b hb hin => ?_⟩
  · rw [retireSet_units, List.map_map]
    have hpaths : (LhatUnit.path ∘ fun u : LhatUnit Types =>
        if u.path ∈ set then Program.cleared u else u) = LhatUnit.path := by
      funext u
      dsimp only [Function.comp]
      split <;> rfl
    rw [hpaths]
    exact h.nodup
  · cases hb : u.body with
    | none => rfl
    | some b => exact hb.symm.trans (h.bare u (mem_retireSet hu hb).1 hstate)
  · rw [retireSet_bodies]
    exact h.made u (mem_retireSet hu hb).1 b hb
  · exact h.one u (mem_retireSet hu hb).1 t (mem_retireSet ht hb').1 b hb hb'
  · rw [retireSet_bodies]
    obtain hold | ⟨u, hu, -, hbody⟩ := hretired b hb
    · exact h.below b hold
    · exact h.made u hu b hbody
  · obtain ⟨hu, hout⟩ := mem_retireSet hu hb
    obtain hold | ⟨t, ht, htin, hbody⟩ := hretired b hin
    · exact h.apart u hu b hb hold
    · rw [h.one u hu t ht b hb hbody] at hout
      exact hout htin

end Program

end Lhat.Reload
