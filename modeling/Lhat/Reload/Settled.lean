import Lhat.Reload.Walks

/-!
# What is said of the units as they are settled

`Judged` is what holds of each unit a walk settled, and goes on holding as the walk goes on: why
it failed, if it did, and that what it asked for and did not stand waits for it. `Ran` follows
one check from `require^` to `require^`, and `Answered` is what the check of a path comes to.
-/

namespace Lhat.Reload

namespace Program

open Relation

variable {Types : Type} {env : Env Types} {p p' p₁ p₂ : Program Types} {u t : LhatUnit Types}
  {path target q : Path} {but : Path → Prop} {settled next : List (LhatUnit Types)}
  {asks more : List (Path × Nat)} {said said' : List Message}

/-- The paths a cycle was reported of. -/
def cyclesIn (said : List Message) : List Path :=
  said.filterMap fun message => match message with
    | .cycle path => some path
    | _ => none

theorem cyclesIn_append : cyclesIn (said ++ said') = cyclesIn said ++ cyclesIn said' :=
  List.filterMap_append

theorem cyclesIn_requireSaid (found : Bool) : cyclesIn (p.requireSaid target found) = [] := by
  unfold requireSaid
  split
  · split <;> rfl
  · rfl

/-- A unit of text that is ready. -/
def IsText (p : Program Types) (path : Path) : Prop :=
  ∃ t ∈ p.units, t.path = path ∧ t.state = .done ∧ t.binary = false

/-- A unit fails for its own file, but for the bytes of a binary one, which ask for what stands
and is binary too. -/
def Refused (env : Env Types) (p : Program Types) (stands : Set Path) (u : LhatUnit Types) : Prop :=
  match env.read u.path with
  | none => True
  | some text => match text.content with
    | .source _ => False
    | .binary _ _ sound =>
      sound = false ∨ ∃ ask ∈ u.asked, ask.1 ∉ stands ∨ p.IsText ask.1

structure Judged (env : Env Types) (p p' : Program Types) (settled : List (LhatUnit Types)) :
    Prop where
  verdicts : Each (fun stands u => u.state = .failed ↔ Refused env p' stands u) p.standing settled
  waits : Each (fun stands u => ∀ ask ∈ u.asked, ask.1 ∉ stands →
    p.UnderCheck ask.1 ∨ ReflTransGen (Among settled) ask.1 u.path) p.standing settled

theorem UnderCheck.not_standing (hp : (p.units.map LhatUnit.path).Nodup) (hopen : p.UnderCheck q) :
    q ∉ p.standing := by
  rintro ⟨t, ht, rfl, hstands⟩
  obtain ⟨u, hu, hpath, hchecking⟩ := hopen
  exact not_stands hchecking (eq_of_path hp hu ht hpath ▸ hstands)

theorem Walk.met (h : Walk but p₁ p₂ next) (hq : q ∈ p₁.standing) : q ∉ paths next := by
  rintro ⟨u, hu, rfl⟩
  obtain ⟨t, ht, hpath, hstands⟩ := hq
  have hstale := h.unmet u hu t ht hpath
  simp [LhatUnit.Stands, hstale] at hstands

theorem Walk.isText (h : Walk but p₁ p₂ next) (hq : q ∈ p₁.standing) (hbut : ¬but q) :
    p₂.IsText q ↔ p₁.IsText q := by
  have hkept : ∀ t ∈ p₁.units, t.path = q → t ∈ p₂.units := fun t ht hpath =>
    h.kept t ht (hpath ▸ hbut) (hpath ▸ h.met hq)
  constructor
  · rintro ⟨t, ht, hpath, hrest⟩
    obtain ⟨s, hs, hspath, -⟩ := hq
    obtain rfl := eq_of_path h.distinct ht (hkept s hs hspath) (hpath.trans hspath.symm)
    exact ⟨t, hs, hpath, hrest⟩
  · rintro ⟨t, ht, hpath, hrest⟩
    exact ⟨t, hkept t ht hpath, hpath, hrest⟩

theorem Refused.later {stands : Set Path} (hle : stands ⊆ p₁.standing)
    (hbut : ∀ q ∈ stands, ¬but q) (h : Walk but p₁ p₂ next) (u : LhatUnit Types) :
    Refused env p₂ stands u ↔ Refused env p₁ stands u := by
  unfold Refused
  cases hread : env.read u.path with
  | none => exact Iff.rfl
  | some text =>
    dsimp only
    cases hcontent : text.content with
    | source checking => exact Iff.rfl
    | binary requires types sound =>
      refine or_congr_right (exists_congr fun ask => and_congr_right fun _ => ?_)
      by_cases hin : ask.1 ∈ stands
      · exact or_congr_right (h.isText (hle hin) (hbut _ hin))
      · exact iff_of_true (.inl hin) (.inl hin)

theorem Judged.later (h : Judged env p p₁ settled) (hbut : ∀ q, but q → q ∉ p.standing)
    (hwalk : Walk but p p₁ settled) (hlater : Walk but p₁ p₂ next) : Judged env p p₂ settled := by
  have hapart : ∀ q ∈ p.standing ∪ paths settled, ¬but q := by
    rintro q (hq | ⟨u, hu, rfl⟩) hb
    · exact hbut q hb hq
    · exact hwalk.apart u hu hb
  refine ⟨h.verdicts.imp fun stood u _ hle hverdict => ?_, h.waits⟩
  rw [hverdict]
  exact (Refused.later (fun q hq => (hwalk.mem_standing (hapart q (hle hq))).2 (hle hq))
    (fun q hq => hapart q (hle hq)) hlater u).symm

theorem Judged.append (h : Judged env p p₂ settled) (hp : (p.units.map LhatUnit.path).Nodup)
    (hopen : ∀ q, but q → p.UnderCheck q) (hopen₁ : ∀ q, but q → p₁.UnderCheck q)
    (hwalk : Walk but p p₁ settled) (h' : Judged env p₁ p₂ next) :
    Judged env p p₂ (settled ++ next) := by
  have hstands : p₁.standing = p.standing ∪ paths settled := by
    ext q
    by_cases hb : but q
    · refine iff_of_false ((hopen₁ q hb).not_standing hwalk.distinct) ?_
      rintro (hq | ⟨u, hu, rfl⟩)
      · exact (hopen q hb).not_standing hp hq
      · exact hwalk.apart u hu hb
    · exact hwalk.mem_standing hb
  refine ⟨each_append.2 ⟨h.verdicts, hstands ▸ h'.verdicts⟩,
    each_append.2 ⟨h.waits.imp fun stood u _ _ hwaits ask hask hnot => ?_, ?_⟩⟩
  · exact (hwaits ask hask hnot).imp_right (reach_mono fun _ => List.mem_append_left _)
  · rw [← hstands]
    refine h'.waits.imp fun stood u _ _ hwaits ask hask hnot => ?_
    rcases hwaits ask hask hnot with ⟨t, ht, hpath, hchecking⟩ | hreach
    · -- what is checked after the first part was checked before it
      left
      by_cases hb : but ask.1
      · exact hopen _ hb
      · rcases hwalk.rest t ht (hpath ▸ hb) with hin | hold
        · exact absurd (hwalk.stands t hin) (not_stands hchecking)
        · exact ⟨t, hold, hpath, hchecking⟩
    · exact .inr (reach_mono (fun _ => List.mem_append_right _) hreach)

/-! ### One check -/

/-- From one `require^` of a unit to another. -/
structure Ran (env : Env Types) (path : Path) (p p' : Program Types)
    (settled : List (LhatUnit Types)) (asks : List (Path × Nat)) (said : List Message) : Prop where
  walk : Walk (· = path) p p' settled
  judged : Judged env p p' settled
  unit : ∀ u ∈ p.units, u.path = path → u.state = .checking → ∃ u' ∈ p'.units, u'.path = path ∧
    u'.state = .checking ∧ u'.version = u.version ∧ u'.asked = u.asked ++ asks
  cycles : (cyclesIn said).Perm
    (closings p.standing settled ++ missed (p.standing ∪ paths settled) asks)
  waits : ∀ ask ∈ asks, ask.1 ∉ p.standing ∪ paths settled → p.UnderCheck ask.1
  first : ∀ u ∈ settled, ∃ ask ∈ asks, ReflTransGen (Among settled) ask.1 u.path

theorem Ran.opened (h : Ran env path p p' settled asks said) (hopen : p.UnderCheck path) :
    p'.UnderCheck path := by
  obtain ⟨u, hu, hpath, hchecking⟩ := hopen
  obtain ⟨u', hu', hpath', hchecking', -⟩ := h.unit u hu hpath hchecking
  exact ⟨u', hu', hpath', hchecking'⟩

theorem Ran.standing (h : Ran env path p p' settled asks said)
    (hp : (p.units.map LhatUnit.path).Nodup) (hopen : p.UnderCheck path) :
    p'.standing = p.standing ∪ paths settled := by
  ext q
  by_cases hq : q = path
  · subst hq
    refine iff_of_false ((h.opened hopen).not_standing h.walk.distinct) ?_
    rintro (hin | ⟨u, hu, hpath⟩)
    · exact hopen.not_standing hp hin
    · exact h.walk.apart u hu hpath
  · exact h.walk.mem_standing hq

theorem Ran.refl (hp : (p.units.map LhatUnit.path).Nodup) : Ran env path p p [] [] [] :=
  ⟨.refl _ hp, ⟨trivial, trivial⟩,
    fun u hu hpath hchecking => ⟨u, hu, hpath, hchecking, rfl, (List.append_nil _).symm⟩,
    .refl _, nofun, nofun⟩

theorem Ran.trans (h : Ran env path p p₁ settled asks said) (hp : (p.units.map LhatUnit.path).Nodup)
    (hopen : p.UnderCheck path) (h' : Ran env path p₁ p₂ next more said') :
    Ran env path p p₂ (settled ++ next) (asks ++ more) (said ++ said') := by
  have hopen₁ := h.opened hopen
  have hstands := h.standing hp hopen
  have hpaths : p.standing ∪ paths (settled ++ next) = p₁.standing ∪ paths next := by
    rw [hstands, paths_append, Set.union_assoc]
  -- what waits is not settled in the second part
  have hstill : ∀ q, p.UnderCheck q → q ∉ paths next := by
    rintro q ⟨t, ht, rfl, hchecking⟩
    by_cases hq : t.path = path
    · rintro ⟨u, hu, hpath⟩
      exact h'.walk.apart u hu (hpath.trans hq)
    · refine h'.walk.open_apart ⟨t, h.walk.kept t ht hq ?_, rfl, hchecking⟩
      exact h.walk.open_apart ⟨t, ht, rfl, hchecking⟩
  refine ⟨h.walk.trans hp h'.walk, ?_, fun u hu hpath hchecking => ?_, ?_, fun ask hask hnot => ?_,
    fun u hu => ?_⟩
  · refine (h.judged.later ?_ h.walk h'.walk).append hp ?_ ?_ h.walk h'.judged
    · rintro q rfl
      exact hopen.not_standing hp
    · rintro q rfl
      exact hopen
    · rintro q rfl
      exact hopen₁
  · obtain ⟨u₁, hu₁, hpath₁, hchecking₁, hversion₁, hasked₁⟩ := h.unit u hu hpath hchecking
    obtain ⟨u₂, hu₂, hpath₂, hchecking₂, hversion₂, hasked₂⟩ := h'.unit u₁ hu₁ hpath₁ hchecking₁
    refine ⟨u₂, hu₂, hpath₂, hchecking₂, hversion₂.trans hversion₁, ?_⟩
    rw [hasked₂, hasked₁, List.append_assoc]
  · have hasks : missed (p.standing ∪ paths settled) asks =
        missed (p₁.standing ∪ paths next) asks := by
      refine missed_congr fun ask hask => ?_
      rw [← hstands]
      refine ⟨Or.inl, fun hin => hin.elim id fun hlater => ?_⟩
      by_contra hnot
      exact hstill _ (h.waits ask hask (hstands ▸ hnot)) hlater
    rw [cyclesIn_append, closings_append, hpaths, missed_append, ← hasks, ← hstands]
    refine (h.cycles.append h'.cycles).trans ?_
    rw [List.append_assoc, List.append_assoc, hstands]
    refine List.Perm.append_left _ ?_
    rw [← List.append_assoc, ← List.append_assoc]
    exact List.Perm.append_right _ List.perm_append_comm
  · rw [hpaths] at hnot
    rcases List.mem_append.1 hask with hask | hask
    · exact h.waits ask hask fun hin => hnot (.inl (hstands ▸ hin))
    · obtain ⟨t, ht, hpath, hchecking⟩ := h'.waits ask hask hnot
      by_cases hq : ask.1 = path
      · rw [hq]
        exact hopen
      · rcases h.walk.rest t ht (hpath ▸ hq) with hin | hold
        · exact absurd (h.walk.stands t hin) (not_stands hchecking)
        · exact ⟨t, hold, hpath, hchecking⟩
  · rcases List.mem_append.1 hu with hu | hu
    · obtain ⟨ask, hask, hreach⟩ := h.first u hu
      exact ⟨ask, List.mem_append_left _ hask, reach_mono (fun _ => List.mem_append_left _) hreach⟩
    · obtain ⟨ask, hask, hreach⟩ := h'.first u hu
      exact ⟨ask, List.mem_append_right _ hask, reach_mono
        (fun _ => List.mem_append_right _) hreach⟩

theorem Ran.marked {f : LhatUnit Types → LhatUnit Types} (hp : (p.units.map LhatUnit.path).Nodup)
    (hf : ∀ u, (f u).path = u.path ∧ (f u).state = u.state ∧ (f u).version = u.version ∧
      (f u).asked = u.asked) : Ran env path p (p.modify path f) [] [] [] := by
  refine ⟨.modify (fun u => (hf u).1) hp, ⟨trivial, trivial⟩, fun u hu hpath hchecking => ?_,
    .refl _, nofun, nofun⟩
  obtain ⟨hfpath, hstate, hversion, hasked⟩ := hf u
  exact ⟨f u, mem_modify_self hu hpath, hfpath.trans hpath, hstate.trans hchecking, hversion,
    hasked.trans (List.append_nil _).symm⟩

/-- What the check of a path comes to. -/
inductive Answered (env : Env Types) (p p' : Program Types) (path : Path) :
    Bool → List Message → Prop
  | closed (hopen : p.UnderCheck path) (hunits : p'.units = p.units) :
      Answered env p p' path false [.cycle path]
  | met {settled : List (LhatUnit Types)} {said : List Message} (hstands : path ∈ p'.standing)
      (hwalk : Walk (fun _ => False) p p' settled) (hjudged : Judged env p p' settled)
      (hcycles : (cyclesIn said).Perm (closings p.standing settled))
      (hreach : ∀ u ∈ settled, ReflTransGen (Among settled) path u.path) :
      Answered env p p' path true said

theorem Answered.ran {found : Bool} {f : LhatUnit Types → LhatUnit Types} {version : Nat}
    (h : Answered env p p₁ target found said) (hp : (p.units.map LhatUnit.path).Nodup)
    (hopen : p.UnderCheck path)
    (hf : ∀ u, (f u).path = u.path ∧ (f u).state = u.state ∧ (f u).version = u.version ∧
      (f u).asked = u.asked ++ [(target, version)]) (hsaid : cyclesIn said' = []) :
    ∃ settled, Ran env path p (p₁.modify path f) settled [(target, version)] (said ++ said') ∧
      (found = true ↔ target ∈ (p₁.modify path f).standing) := by
  cases h with
  | closed htarget hunits =>
    have hp₁ : (p₁.units.map LhatUnit.path).Nodup := hunits ▸ hp
    have hstands : p₁.standing = p.standing := by
      unfold Program.standing
      rw [hunits]
    have hwalk : Walk (· = path) p (p₁.modify path f) [] := by
      have h₁ : Walk (· = path) p₁ (p₁.modify path f) [] := .modify (fun u => (hf u).1) hp₁
      exact .of_none h₁.distinct (fun t ht hne => h₁.kept t (hunits ▸ ht) hne
        fun ⟨_, hin, _⟩ => nomatch hin)
        fun t ht hne => hunits ▸ (h₁.rest t ht hne).resolve_left List.not_mem_nil
    have hran : Ran env path p (p₁.modify path f) [] [(target, version)]
        ([.cycle target] ++ said') := by
      refine ⟨hwalk, ⟨trivial, trivial⟩, fun u hu hpath hchecking => ?_, ?_, ?_, nofun⟩
      · obtain ⟨hfpath, hstate, hversion, hasked⟩ := hf u
        exact ⟨f u, mem_modify_self (hunits ▸ hu) hpath, hfpath.trans hpath,
          hstate.trans hchecking, hversion, hasked⟩
      · have hmissed : missed (p.standing ∪ paths ([] : List (LhatUnit Types)))
            [(target, version)] = [target] := by
          rw [paths_nil, Set.union_empty]
          simp [missed, htarget.not_standing hp]
        rw [cyclesIn_append, hsaid, hmissed]
        exact .refl _
      · intro ask hask _
        rw [List.mem_singleton.1 hask]
        exact htarget
    refine ⟨[], hran, iff_of_false Bool.false_ne_true ?_⟩
    rw [hran.standing hp hopen, paths_nil, Set.union_empty]
    exact htarget.not_standing hp
  | @met settled _ hstands hwalk hjudged hcycles hreach =>
    have hapart : ∀ u ∈ settled, ¬u.path = path := fun u hu hpath =>
      hwalk.open_apart hopen ⟨u, hu, hpath⟩
    have hfirst : Walk (· = path) p p₁ settled := hwalk.weaken (fun _ => False.elim) hapart
    have hmark : Walk (· = path) p₁ (p₁.modify path f) [] :=
      .modify (fun u => (hf u).1) hwalk.distinct
    have hboth := hfirst.trans hp hmark
    rw [List.append_nil] at hboth
    have htarget : target ∈ p.standing ∪ paths settled := (hwalk.mem_standing id).1 hstands
    have hran : Ran env path p (p₁.modify path f) settled [(target, version)] (said ++ said') :=
      by
      refine ⟨hboth, hjudged.later ?_ hfirst hmark, fun u hu hpath hchecking => ?_, ?_, ?_,
        fun u hu => ⟨_, List.mem_singleton_self _, hreach u hu⟩⟩
      · rintro q rfl
        exact hopen.not_standing hp
      · obtain ⟨hfpath, hstate, hversion, hasked⟩ := hf u
        refine ⟨f u, mem_modify_self (hwalk.kept u hu id ?_) hpath, hfpath.trans hpath,
          hstate.trans hchecking, hversion, hasked⟩
        exact hwalk.open_apart ⟨u, hu, rfl, hchecking⟩
      · have hmissed : missed (p.standing ∪ paths settled) [(target, version)] = [] := by
          simp only [missed, List.map_cons, List.map_nil, List.filter_cons, htarget,
            not_true_eq_false, decide_false, Bool.false_eq_true, if_false, List.filter_nil]
        rw [cyclesIn_append, hsaid, hmissed]
        simpa using hcycles
      · intro ask hask hnot
        rw [List.mem_singleton.1 hask] at hnot
        exact absurd htarget hnot
    exact ⟨settled, hran, iff_of_true rfl ((hran.standing hp hopen).symm ▸ htarget)⟩

end Program

end Lhat.Reload
