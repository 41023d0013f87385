import Lhat.Reload.Settled
import Mathlib.Data.Finset.Card

/-!
# Units are read once, in the order they require each other

The walk of `check_path` is followed to its end. Where it stops it says of the units it settled
what `Settled` collects (`checkPath_orders`): each was read once, after all it was answered
about; what it was not answered about is a cycle that was reported; and each failed for its own
file, whatever became of the units it requires. It does stop, where the files that can be asked
for are finitely many, and no deeper than they are many.
-/

namespace Lhat.Reload

/-- What a check may come to ask for. -/
inductive Checking.Asks {Types : Type} : Checking Types → Path → Prop where
  | here {target : Path} {next : Option Types → Checking Types} : Asks (.ask target next) target
  | later {target other : Path} {next : Option Types → Checking Types} (answer : Option Types) :
      Asks (next answer) other → Asks (.ask target next) other

def Content.Asks {Types : Type} : Content Types → Path → Prop
  | .source checking, target => checking.Asks target
  | .binary requires _ _, target => target ∈ requires

namespace Program

open Relation

variable {Types : Type} {env : Env Types} {p p' p₁ p₂ : Program Types} {u t : LhatUnit Types}
  {path target q : Path} {settled : List (LhatUnit Types)} {asks : List (Path × Nat)}
  {said : List Message} {found : Bool}

/-- What is asked of the check of a path. -/
def Answers (env : Env Types)
    (check : Program Types → Path → Option ((Program Types × Bool) × List Message)) : Prop :=
  ∀ {p p' : Program Types} {path : Path} {found : Bool} {said : List Message},
    (p.units.map LhatUnit.path).Nodup → check p path = some ((p', found), said) →
    Answered env p p' path found said

section Runs

variable {check : Program Types → Path → Option ((Program Types × Bool) × List Message)}

theorem noted (p : Program Types) (path target : Path) : ∃ f : LhatUnit Types → LhatUnit Types,
    p.note path target = p.modify path f ∧
    ∀ u, (f u).path = u.path ∧ (f u).state = u.state ∧ (f u).version = u.version ∧
      (f u).asked = u.asked ++ [(target, p.versionOf target)] :=
  ⟨_, rfl, fun _ => ⟨rfl, rfl, rfl, rfl⟩⟩

theorem noted_edge (env : Env Types) (p : Program Types) (path target : Path) :
    ∃ f : LhatUnit Types → LhatUnit Types,
      (p.note path target).rememberEdge env path target = p.modify path f ∧
      ∀ u, (f u).path = u.path ∧ (f u).state = u.state ∧ (f u).version = u.version ∧
        (f u).asked = u.asked ++ [(target, p.versionOf target)] := by
  refine ⟨_, modify_modify fun _ => rfl, fun u => ?_⟩
  dsimp only
  split
  · exact ⟨rfl, rfl, rfl, rfl⟩
  · split <;> exact ⟨rfl, rfl, rfl, rfl⟩

theorem resolveRequire_noted (env : Env Types) (p : Program Types) (path target : Path)
    (found : Bool) : ∃ f : LhatUnit Types → LhatUnit Types,
    (p.resolveRequire env path target found).1 = p.modify path f ∧
    ∀ u, (f u).path = u.path ∧ (f u).state = u.state ∧ (f u).version = u.version ∧
      (f u).asked = u.asked ++ [(target, p.versionOf target)] := by
  cases found with
  | false => exact noted p path target
  | true =>
    obtain ⟨f, hf, hrest⟩ := noted_edge env p path target
    refine ⟨f, ?_, hrest⟩
    rw [resolveRequire, if_pos rfl]
    dsimp only
    rw [← hf]
    split <;> rfl

theorem runChecking_ran (hcheck : Answers env check) (checking : Checking Types)
    (hp : (p.units.map LhatUnit.path).Nodup) (hopen : p.UnderCheck path) {types : Types}
    (h : runCheckingSaid check env path checking p = some ((p', types), said)) :
    ∃ settled asks, Ran env path p p' settled asks said := by
  induction checking generalizing p said with
  | done types =>
    cases h
    exact ⟨[], [], .refl hp⟩
  | ask target next ih =>
    rw [runCheckingSaid] at h
    cases hone : check p target with
    | none => simp [hone] at h
    | some answered =>
      obtain ⟨⟨p₁, found⟩, said₁⟩ := answered
      rw [hone] at h
      obtain ⟨⟨left, said₂⟩, hrun, heq⟩ := Option.map_eq_some_iff.1 h
      cases heq
      obtain ⟨f, hresolved, hf⟩ := resolveRequire_noted env p₁ path target found
      obtain ⟨settled₁, hfirst, -⟩ :=
        (hcheck hp hone).ran hp hopen hf (cyclesIn_requireSaid found)
      rw [hresolved] at hrun
      obtain ⟨settled₂, asks₂, hrest⟩ := ih _ hfirst.walk.distinct (hfirst.opened hopen) hrun
      exact ⟨_, _, hfirst.trans hp hopen hrest⟩

theorem runBinary_ran (hcheck : Answers env check) (requires : List Path)
    (hp : (p.units.map LhatUnit.path).Nodup) (hopen : p.UnderCheck path) {ok : Bool}
    (h : runBinarySaid check env path requires p = some ((p', ok), said)) :
    ∃ settled asks, Ran env path p p' settled asks said ∧
      (ok = false ↔ ∃ ask ∈ asks, ask.1 ∉ p'.standing ∨ p'.IsText ask.1) := by
  induction requires generalizing p said with
  | nil =>
    cases h
    exact ⟨[], [], .refl hp, by simp⟩
  | cons target rest ih =>
    rw [runBinarySaid] at h
    cases hone : check p target with
    | none => simp [hone] at h
    | some answered =>
      obtain ⟨⟨p₁, found⟩, said₁⟩ := answered
      rw [hone] at h
      have hanswered := hcheck hp hone
      cases found with
      | false =>
        cases h
        obtain ⟨f, hnoted, hf⟩ := noted p₁ path target
        obtain ⟨settled₁, hfirst, hmet⟩ := hanswered.ran hp hopen hf (rfl : cyclesIn [] = [])
        rw [List.append_nil] at hfirst
        refine ⟨_, _, hnoted ▸ hfirst, iff_of_true rfl ⟨_, List.mem_singleton_self _,
          .inl ?_⟩⟩
        rw [hnoted]
        exact fun hin => Bool.false_ne_true (hmet.2 hin)
      | true =>
        obtain ⟨f, hnoted, hf⟩ := noted_edge env p₁ path target
        dsimp only at h
        rw [hnoted] at h
        have hfirst : ∀ {said' : List Message}, cyclesIn said' = [] → ∃ settled₁,
            Ran env path p (p₁.modify path f) settled₁ [(target, p₁.versionOf target)]
              (said₁ ++ said') ∧ (true = true ↔ target ∈ (p₁.modify path f).standing) :=
          fun hsaid => hanswered.ran hp hopen hf hsaid
        obtain ⟨settled₁, hran, hmet⟩ := hfirst (rfl : cyclesIn [] = [])
        have hstands := hmet.1 rfl
        have hdistinct := hran.walk.distinct
        obtain ⟨u, hu, hupath, -⟩ := hstands
        have hfind : (p₁.modify path f).findUnit target = some u := by
          rw [← hupath]
          exact findUnit_eq hdistinct hu
        rw [hfind] at h
        dsimp only at h
        split at h
        · next htext =>
            cases h
            obtain ⟨settled₂, hran, -⟩ := hfirst (rfl : cyclesIn [.mixed target] = [])
            exact ⟨_, _, hran, iff_of_true rfl ⟨_, List.mem_singleton_self _,
              .inr ⟨u, hu, hupath, htext⟩⟩⟩
        · next htext =>
            obtain ⟨⟨left, said₂⟩, hrun, heq⟩ := Option.map_eq_some_iff.1 h
            cases heq
            rw [List.append_nil] at hran
            have hopen₁ := hran.opened hopen
            obtain ⟨settled₂, asks₂, hrest, hok⟩ := ih hdistinct hopen₁ hrun
            refine ⟨_, _, hran.trans hp hopen hrest, hok.trans ?_⟩
            -- the one that was met goes on standing, and being binary
            have hne : target ≠ path := by
              rintro rfl
              exact hopen₁.not_standing hdistinct (hmet.1 rfl)
            have hstill : target ∈ p'.standing := (hrest.walk.mem_standing hne).2 (.inl
              (hmet.1 rfl))
            have hbinary : ¬p'.IsText target := by
              rw [hrest.walk.isText (hmet.1 rfl) hne]
              rintro ⟨t, ht, hpath, hrest⟩
              obtain rfl := eq_of_path hdistinct ht hu (hpath.trans hupath.symm)
              exact htext hrest
            simp [hstill, hbinary]

end Runs

/-! ### One unit -/

theorem Walk.close (h : Walk (· = path) p p' settled) (hu : u ∈ p'.units) (hpath : u.path = path)
    (hstands : u.Stands) (hversion : u.version = p.versionOf path + 1)
    (hold : ∀ t ∈ p.units, t.path = path → t.state = .stale) :
    Walk (fun _ => False) p p' (settled ++ [u]) := by
  refine ⟨h.distinct, ?_, fun v hv => ?_, fun v hv => ?_, fun v hv => ?_,
    fun v hv t ht htpath => ?_,
    fun _ _ => id, fun t ht _ hnot => ?_, fun t ht _ => ?_⟩
  · rw [List.map_append]
    refine List.Nodup.append h.once (List.nodup_singleton _) fun q hq hq' => ?_
    obtain ⟨v, hv, rfl⟩ := List.mem_map.1 hq
    exact h.apart v hv ((List.mem_singleton.1 hq').trans hpath)
  · rcases List.mem_append.1 hv with hv | hv
    · exact h.here v hv
    · rwa [List.mem_singleton.1 hv]
  · rcases List.mem_append.1 hv with hv | hv
    · exact h.stands v hv
    · rwa [List.mem_singleton.1 hv]
  · rcases List.mem_append.1 hv with hv | hv
    · exact h.read v hv
    · rwa [List.mem_singleton.1 hv, hpath]
  · rcases List.mem_append.1 hv with hv | hv
    · exact h.unmet v hv t ht htpath
    · rw [List.mem_singleton.1 hv, hpath] at htpath
      exact hold t ht htpath
  · rw [paths_append, Set.mem_union, not_or] at hnot
    exact h.kept t ht (fun heq => hnot.2 ⟨u, List.mem_singleton_self _,
      hpath.trans heq.symm⟩) hnot.1
  · by_cases heq : t.path = path
    · rw [eq_of_path h.distinct ht hu (heq.trans hpath.symm)]
      exact .inl (List.mem_append_right _ (List.mem_singleton_self _))
    · exact (h.rest t ht heq).imp_left (List.mem_append_left _)

theorem Ran.settle {mid : Program Types} {g : LhatUnit Types → LhatUnit Types} {u₀ : LhatUnit Types}
    (hp : (p.units.map LhatUnit.path).Nodup) (hbegun : Walk (· = path) p p₁ [])
    (hold : ∀ t ∈ p.units, t.path = path → t.state = .stale)
    (hu₀ : u₀ ∈ p₁.units ∧ u₀.path = path ∧ u₀.state = .checking ∧
      u₀.version = p.versionOf path + 1 ∧ u₀.asked = [])
    (hran : Ran env path p₁ mid settled asks said) (hended : p'.units = (mid.modify path g).units)
    (hg : ∀ u, (g u).path = u.path ∧ (g u).Stands ∧ (g u).version = u.version ∧
      (g u).asked = u.asked)
    (hverdict : ∀ u, u.path = path → u.asked = asks →
      ((g u).state = .failed ↔ Refused env mid mid.standing (g u))) :
    Answered env p p' path true said := by
  obtain ⟨hu₀, hpath₀, hchecking₀, hversion₀, hasked₀⟩ := hu₀
  obtain ⟨v, hv, hvpath, hvchecking, hvversion, hvasked⟩ := hran.unit u₀ hu₀ hpath₀ hchecking₀
  have hopen₁ : p₁.UnderCheck path := ⟨u₀, hu₀, hpath₀, hchecking₀⟩
  obtain ⟨hgpath, hgstands, hgversion, hgasked⟩ := hg v
  rw [hasked₀, List.nil_append] at hvasked
  have hu : g v ∈ p'.units := hended ▸ mem_modify_self hv hvpath
  have hmark : Walk (· = path) mid p' [] := by
    have h : Walk (· = path) mid (mid.modify path g) [] :=
      .modify (fun u => (hg u).1) hran.walk.distinct
    exact .of_none (hended ▸ h.distinct) (fun t ht hne => hended ▸ h.kept t ht hne
      fun ⟨_, hin, _⟩ => nomatch hin)
      fun t ht hne => (h.rest t (hended ▸ ht) hne).resolve_left List.not_mem_nil
  have hall : Walk (· = path) p p' settled := by
    have h := hbegun.trans hp (hran.walk.trans hbegun.distinct hmark)
    rwa [List.append_nil, List.nil_append] at h
  have hclosed := hall.close hu (hgpath.trans hvpath) hgstands
    (hgversion.trans (hvversion.trans hversion₀)) hold
  -- what stood and what was open, but for the unit itself
  have hstands : p₁.standing = p.standing := by
    ext q
    by_cases hq : q = path
    · subst hq
      refine iff_of_false (hopen₁.not_standing hbegun.distinct) ?_
      rintro ⟨t, ht, htpath, htstands⟩
      have hstale := hold t ht htpath
      simp [LhatUnit.Stands, hstale] at htstands
    · rw [hbegun.mem_standing hq, paths_nil]
      exact or_iff_left id
  have hwaits : ∀ q, p₁.UnderCheck q → q ≠ path → p.UnderCheck q := by
    rintro q ⟨t, ht, rfl, hchecking⟩ hne
    rcases hbegun.rest t ht hne with hin | hin
    · cases hin
    · exact ⟨t, hin, rfl, hchecking⟩
  have hmid : mid.standing = p.standing ∪ paths settled := by
    rw [hran.standing hbegun.distinct hopen₁, hstands]
  have hreach : ∀ u ∈ settled, ReflTransGen (Among (settled ++ [g v])) path u.path := by
    intro u hu
    obtain ⟨ask, hask, hreach⟩ := hran.first u hu
    refine .head ⟨g v, List.mem_append_right _ (List.mem_singleton_self _), hgpath.trans hvpath, ?_⟩
      (reach_mono (fun _ => List.mem_append_left _) hreach)
    rw [hgasked, hvasked]
    exact List.mem_map_of_mem hask
  have hjudged : Judged env p₁ p' settled := by
    refine hran.judged.later ?_ hran.walk hmark
    rintro q rfl
    exact hopen₁.not_standing hbegun.distinct
  refine .met ⟨g v, hu, hgpath.trans hvpath, hgstands⟩ hclosed
    ⟨each_append.2 ⟨hstands ▸ hjudged.verdicts, ?_, trivial⟩,
      each_append.2 ⟨?_, fun ask hask hnot => ?_, trivial⟩⟩ ?_ fun u hu => ?_
  · rw [← hmid]
    refine (hverdict v hvpath hvasked).trans ?_
    refine (Refused.later (fun q hq => hq) ?_ hmark (g v)).symm
    rintro q hq rfl
    exact (hran.opened hopen₁).not_standing hran.walk.distinct hq
  · rw [← hstands]
    refine hjudged.waits.imp fun stood u hu _ hwaiting ask hask hnot => ?_
    rcases hwaiting ask hask hnot with hopen | hsome
    · by_cases hq : ask.1 = path
      · rw [hq]
        exact .inr (hreach u hu)
      · exact .inl (hwaits _ hopen hq)
    · exact .inr (reach_mono (fun _ => List.mem_append_left _) hsome)
  · rw [hgasked, hvasked] at hask
    rw [← hstands] at hnot
    by_cases hq : ask.1 = path
    · rw [hq, hgpath, hvpath]
      exact .inr .refl
    · exact .inl (hwaits _ (hran.waits ask hask hnot) hq)
  · rw [closings_append, closings, closings, List.append_nil, hgasked, hvasked, ← hstands]
    exact hran.cycles
  · rcases List.mem_append.1 hu with hu | hu
    · exact hreach u hu
    · rw [List.mem_singleton.1 hu, hgpath, hvpath]

section Walks

variable {check : Program Types → Path → Option ((Program Types × Bool) × List Message)}

theorem loadInto_answered (hcheck : Answers env check) (hp : (p.units.map LhatUnit.path).Nodup)
    (hp₁ : (p₁.units.map LhatUnit.path).Nodup) (hbegun : Walk (· = path) p p₁ [])
    (hold : ∀ t ∈ p.units, t.path = path → t.state = .stale) (hu : u ∈ p₁.units)
    (hpath : u.path = path) (hversion : u.version = p.versionOf path)
    (h : p₁.loadIntoSaid check env path = some (p', said)) : Answered env p p' path true said := by
  unfold loadIntoSaid at h
  dsimp only at h
  generalize hread : p₁.modify path (fun u =>
    { u with state := .checking, version := u.version + 1, asked := [] }) = p₂ at h
  have hbegun₂ : Walk (· = path) p p₂ [] := by
    rw [← hread]
    exact hbegun.trans hp (.modify (fun _ => rfl) hp₁)
  have hu₂ : ∃ u₀ ∈ p₂.units, u₀.path = path ∧ u₀.state = .checking ∧
      u₀.version = p.versionOf path + 1 ∧ u₀.asked = [] := by
    rw [← hread]
    exact ⟨_, mem_modify_self hu hpath, hpath, rfl, congrArg (· + 1) hversion, rfl⟩
  obtain ⟨u₀, hu₀⟩ := hu₂
  have hopen : p₂.UnderCheck path := ⟨u₀, hu₀.1, hu₀.2.1, hu₀.2.2.1⟩
  cases hfile : env.read path with
  | none =>
    rw [hfile] at h
    cases h
    have hran : Ran env path p₂ p₂ [] [] [.cannotRead path] :=
      { Ran.refl hbegun₂.distinct with cycles := .refl _ }
    refine hran.settle hp hbegun₂ hold hu₀ rfl (fun _ => ⟨rfl, .inr rfl, rfl, rfl⟩)
      fun u hu _ => iff_of_true rfl ?_
    simp only [Refused, hu, hfile]
  | some text =>
    rw [hfile] at h
    dsimp only at h
    generalize hhashed : p₂.modify path (fun u => { u with sourceHash := text.hash }) = p₃ at h
    have hran₃ : Ran env path p₂ p₃ [] [] [] := by
      rw [← hhashed]
      exact .marked hbegun₂.distinct fun _ => ⟨rfl, rfl, rfl, rfl⟩
    cases hcontent : text.content with
    | source checking =>
      rw [hcontent] at h
      obtain ⟨⟨⟨p₅, types⟩, said'⟩, hrun, heq⟩ := Option.map_eq_some_iff.1 h
      cases heq
      generalize hloaded : p₃.modify path (fun u => { u with loaded := true }) = p₄ at hrun
      have hmark : Ran env path p₃ p₄ [] [] [] := by
        rw [← hloaded]
        exact .marked hran₃.walk.distinct fun _ => ⟨rfl, rfl, rfl, rfl⟩
      have hran₄ := hran₃.trans hbegun₂.distinct hopen hmark
      obtain ⟨settled, asks, hran⟩ :=
        runChecking_ran hcheck checking hran₄.walk.distinct (hran₄.opened hopen) hrun
      refine (hran₄.trans hbegun₂.distinct hopen hran).settle hp hbegun₂ hold hu₀ rfl
        (fun _ => ⟨rfl, .inl rfl, rfl, rfl⟩) fun u hu _ => iff_of_false nofun ?_
      simp only [Refused, hu, hfile, hcontent, not_false_eq_true]
    | binary requires types sound =>
      rw [hcontent] at h
      obtain ⟨⟨⟨p₄, ok⟩, said'⟩, hrun, heq⟩ := Option.map_eq_some_iff.1 h
      cases heq
      obtain ⟨settled, asks, hran, hok⟩ :=
        runBinary_ran hcheck requires hran₃.walk.distinct (hran₃.opened hopen) hrun
      have hall := hran₃.trans hbegun₂.distinct hopen hran
      cases hgood : ok && sound with
      | true =>
        obtain ⟨rfl, rfl⟩ : ok = true ∧ sound = true := by simpa using hgood
        refine hall.settle hp hbegun₂ hold hu₀ rfl (fun _ => ⟨rfl, .inl rfl, rfl, rfl⟩)
          fun u hu hasked => iff_of_false nofun ?_
        simp only [Refused, hu, hfile, hcontent, hasked, Bool.true_eq_false, false_or]
        exact fun hsome => Bool.true_eq_false_eq_False (hok.2 hsome)
      | false =>
        refine hall.settle hp hbegun₂ hold hu₀ rfl (fun _ => ⟨rfl, .inr rfl, rfl, rfl⟩)
          fun u hu hasked => iff_of_true rfl ?_
        simp only [Refused, hu, hfile, hcontent, hasked]
        rcases Bool.and_eq_false_iff.1 hgood with hno | hno
        · exact .inr (hok.1 hno)
        · exact .inl hno

theorem Walk.added (hp : (p.units.map LhatUnit.path).Nodup) (hfind : p.findUnit path = none) :
    Walk (· = path) p { p with units := { path := path } :: p.units } [] := by
  refine .of_none (List.nodup_cons.2 ⟨?_, hp⟩) (fun t ht _ => List.mem_cons_of_mem _ ht)
    fun t ht hne => ?_
  · intro hin
    obtain ⟨u, hu, hpath⟩ := List.mem_map.1 hin
    exact findUnit_none hfind u hu hpath
  · rcases List.mem_cons.1 ht with rfl | ht
    · exact absurd rfl hne
    · exact ht

theorem checkPath_answered (env : Env Types) (stack : Nat) : Answers env
    (checkPathSaid env stack) := by
  induction stack with
  | zero =>
    intro p p' path found said _ h
    cases h
  | succ stack ih =>
    intro p p' path found said hp h
    rw [checkPathSaid] at h
    cases hfind : p.findUnit path with
    | none =>
      rw [hfind] at h
      obtain ⟨⟨p₁, said₁⟩, hload, heq⟩ := Option.map_eq_some_iff.1 h
      cases heq
      have hadded := Walk.added hp hfind
      refine loadInto_answered ih hp hadded.distinct hadded
        (fun t ht hpath => absurd hpath (findUnit_none hfind t ht))
          (List.mem_cons_self ..) rfl ?_
        hload
      rw [versionOf_none (findUnit_none hfind)]
    | some u =>
      obtain ⟨hu, hpath⟩ := findUnit_some hfind
      rw [hfind] at h
      dsimp only at h
      split at h
      · next hchecking =>
          cases h
          exact .closed ⟨u, hu, hpath, hchecking⟩ rfl
      · next hchecking =>
          split at h
          · next hstale =>
              obtain ⟨⟨p₁, said₁⟩, hload, heq⟩ := Option.map_eq_some_iff.1 h
              cases heq
              refine loadInto_answered ih hp hp (.refl _ hp) (fun t ht htpath => ?_) hu hpath ?_
                hload
              · rw [eq_of_path hp ht hu (htpath.trans hpath.symm)]
                exact hstale
              · rw [← hpath, versionOf_eq hp hu]
          · next hstale =>
              cases h
              refine .met ⟨u, hu, hpath, ?_⟩ (.refl _ hp) ⟨trivial, trivial⟩ (.refl _) (by simp)
              cases hstate : u.state with
              | checking => exact absurd hstate hchecking
              | done => exact .inl hstate
              | failed => exact .inr hstate
              | stale => exact absurd hstate hstale

end Walks

/-! ### The end of a walk -/

section Ends

variable {check : Program Types → Path → Option ((Program Types × Bool) × List Message)}
  {files : Finset Path} {n : Nat}

/-- It is not there, or is to be read again. -/
def Unread (p : Program Types) (q : Path) : Prop := ∀ u ∈ p.units, u.path = q → u.state = .stale

open scoped Classical in
/-- How many files may still be read. -/
noncomputable def left (files : Finset Path) (p : Program Types) : Nat :=
  (files.filter p.Unread).card

theorem left_le (h : ∀ q, p'.Unread q → p.Unread q) : left files p' ≤ left files p := by
  classical
  exact Finset.card_le_card (Finset.monotone_filter_right files fun q _ => h q)

theorem left_lt (h : ∀ q, p'.Unread q → p.Unread q) (hin : path ∈ files) (hunread : p.Unread path)
    (hread : ¬p'.Unread path) : left files p' < left files p := by
  classical
  refine Finset.card_lt_card ⟨Finset.monotone_filter_right files fun q _ => h q,
    fun hsub => hread ?_⟩
  exact (Finset.mem_filter.1 (hsub (Finset.mem_filter.2 ⟨hin, hunread⟩))).2

theorem UnderCheck.read (hopen : p.UnderCheck q) : ¬p.Unread q := by
  obtain ⟨u, hu, hpath, hchecking⟩ := hopen
  intro hunread
  cases hchecking.symm.trans (hunread u hu hpath)

theorem Walk.unread (h : Walk (· = path) p p' settled) (hopen : p'.UnderCheck path) (q : Path)
    (hq : p'.Unread q) : p.Unread q := by
  intro u hu hpath
  by_contra hstale
  have hne : u.path ≠ path := by
    rintro rfl
    exact hopen.read (hpath ▸ hq)
  refine hstale (hq u (h.kept u hu hne ?_) hpath)
  rintro ⟨v, hv, hvpath⟩
  exact hstale (h.unmet v hv u hu hvpath.symm)

/-- It answers where so few files may still be read. -/
def Total (files : Finset Path) (n : Nat)
    (check : Program Types → Path → Option ((Program Types × Bool) × List Message)) : Prop :=
  ∀ p path, (p.units.map LhatUnit.path).Nodup → path ∈ files → left files p < n →
    ∃ answer, check p path = some answer

theorem runChecking_ends (hcheck : Answers env check) (htotal : Total files n check)
    (checking : Checking Types) (hasks : ∀ target, checking.Asks target → target ∈ files)
    (hp : (p.units.map LhatUnit.path).Nodup) (hopen : p.UnderCheck path) (hleft : left files p < n)
    : ∃ answer, runCheckingSaid check env path checking p = some answer := by
  induction checking generalizing p with
  | done types => exact ⟨_, rfl⟩
  | ask target next ih =>
    obtain ⟨⟨⟨p₁, found⟩, said₁⟩, hone⟩ := htotal p target hp (hasks _ .here) hleft
    obtain ⟨f, hresolved, hf⟩ := resolveRequire_noted env p₁ path target found
    obtain ⟨settled, hran, -⟩ := (hcheck hp hone).ran hp hopen hf (rfl : cyclesIn [] = [])
    have hopen₁ := hran.opened hopen
    obtain ⟨answer, hrest⟩ := ih (p₁.resolveRequire env path target found).2
      (fun other hother => hasks _ (.later _ hother)) hran.walk.distinct hopen₁
      (Nat.lt_of_le_of_lt (left_le (hran.walk.unread hopen₁)) hleft)
    rw [runCheckingSaid, hone]
    dsimp only
    rw [hresolved, hrest]
    exact ⟨_, rfl⟩

theorem runBinary_ends (hcheck : Answers env check) (htotal : Total files n check)
    (requires : List Path) (hasks : ∀ target ∈ requires, target ∈ files)
    (hp : (p.units.map LhatUnit.path).Nodup) (hopen : p.UnderCheck path) (hleft : left files p < n)
    : ∃ answer, runBinarySaid check env path requires p = some answer := by
  induction requires generalizing p with
  | nil => exact ⟨_, rfl⟩
  | cons target rest ih =>
    obtain ⟨⟨⟨p₁, found⟩, said₁⟩, hone⟩ := htotal p target hp (hasks _
      (List.mem_cons_self ..)) hleft
    rw [runBinarySaid, hone]
    cases found with
    | false => exact ⟨_, rfl⟩
    | true =>
      obtain ⟨f, hnoted, hf⟩ := noted_edge env p₁ path target
      obtain ⟨settled, hran, -⟩ := (hcheck hp hone).ran hp hopen hf (rfl : cyclesIn [] = [])
      have hopen₁ := hran.opened hopen
      dsimp only
      split
      · split
        · exact ⟨_, rfl⟩
        · obtain ⟨answer, hrest⟩ := ih (fun other hother => hasks _
            (List.mem_cons_of_mem _ hother))
            hran.walk.distinct hopen₁
            (Nat.lt_of_le_of_lt (left_le (hran.walk.unread hopen₁)) hleft)
          rw [hnoted, hrest]
          exact ⟨_, rfl⟩
      · exact ⟨_, rfl⟩

/-- What a text of the files may ask for is one of them. -/
def Holds (env : Env Types) (files : Finset Path) : Prop :=
  ∀ path ∈ files, ∀ text, env.read path = some text → ∀ target, text.content.Asks target →
    target ∈ files

theorem loadInto_ends (hcheck : Answers env check) (htotal : Total files n check)
    (hfiles : Holds env files) (hp : (p.units.map LhatUnit.path).Nodup)
    (hbegun : Walk (· = path) p p₁ []) (hold : p.Unread path) (hin : path ∈ files)
    (hu : u ∈ p₁.units) (hpath : u.path = path) (hleft : left files p < n + 1) :
    ∃ answer, p₁.loadIntoSaid check env path = some answer := by
  unfold loadIntoSaid
  generalize hread : p₁.modify path (fun u =>
    { u with state := .checking, version := u.version + 1, asked := [] }) = p₂
  have hbegun₂ : Walk (· = path) p p₂ [] := by
    rw [← hread]
    exact hbegun.trans hp (.modify (fun _ => rfl) hbegun.distinct)
  have hopen : p₂.UnderCheck path := by
    rw [← hread]
    exact ⟨_, mem_modify_self hu hpath, hpath, rfl⟩
  have hleft₂ : left files p₂ < n := by
    have := left_lt (hbegun₂.unread hopen) hin hold hopen.read
    omega
  cases hfile : env.read path with
  | none => exact ⟨_, rfl⟩
  | some text =>
    dsimp only
    generalize hhashed : p₂.modify path (fun u => { u with sourceHash := text.hash }) = p₃
    have hran₃ : Ran env path p₂ p₃ [] [] [] := by
      rw [← hhashed]
      exact .marked hbegun₂.distinct fun _ => ⟨rfl, rfl, rfl, rfl⟩
    have hopen₃ := hran₃.opened hopen
    have hleft₃ := Nat.lt_of_le_of_lt (left_le (hran₃.walk.unread hopen₃)) hleft₂
    have hasks := hfiles path hin text hfile
    cases hcontent : text.content with
    | source checking =>
      rw [hcontent] at hasks
      dsimp only
      generalize hloaded : p₃.modify path (fun u => { u with loaded := true }) = p₄
      have hmark : Ran env path p₃ p₄ [] [] [] := by
        rw [← hloaded]
        exact .marked hran₃.walk.distinct fun _ => ⟨rfl, rfl, rfl, rfl⟩
      have hopen₄ := hmark.opened hopen₃
      obtain ⟨answer, hrun⟩ := runChecking_ends hcheck htotal checking hasks hmark.walk.distinct
        hopen₄ (Nat.lt_of_le_of_lt (left_le (hmark.walk.unread hopen₄)) hleft₃)
      rw [hrun]
      exact ⟨_, rfl⟩
    | binary requires types sound =>
      rw [hcontent] at hasks
      dsimp only
      obtain ⟨answer, hrun⟩ := runBinary_ends hcheck htotal requires hasks hran₃.walk.distinct
        hopen₃ hleft₃
      rw [hrun]
      exact ⟨_, rfl⟩

theorem checkPath_ends (hfiles : Holds env files) (stack : Nat) :
    Total files stack (checkPathSaid env stack) := by
  induction stack with
  | zero =>
    intro p path _ _ hleft
    cases hleft
  | succ stack ih =>
    intro p path hp hin hleft
    rw [checkPathSaid]
    cases hfind : p.findUnit path with
    | none =>
      have hadded := Walk.added hp hfind
      obtain ⟨answer, hload⟩ := loadInto_ends (checkPath_answered env stack) ih hfiles hp hadded
        (fun t ht hpath => absurd hpath (findUnit_none hfind t ht)) hin
          (List.mem_cons_self ..) rfl
        hleft
      dsimp only
      rw [hload]
      exact ⟨_, rfl⟩
    | some u =>
      obtain ⟨hu, hpath⟩ := findUnit_some hfind
      dsimp only
      split
      · exact ⟨_, rfl⟩
      · split
        · next hstale =>
            obtain ⟨answer, hload⟩ := loadInto_ends (checkPath_answered env stack) ih hfiles hp
              (.refl _ hp) (fun t ht htpath => by
                rwa [eq_of_path hp ht hu (htpath.trans hpath.symm)]) hin hu hpath hleft
            rw [hload]
            exact ⟨_, rfl⟩
        · exact ⟨_, rfl⟩

end Ends

/-! ### The order -/

/-- It was asked for, and stood when the unit that asked was settled. -/
def Heeded (p : Program Types) (settled : List (LhatUnit Types)) (path target : Path) : Prop :=
  ∃ before u after, settled = before ++ u :: after ∧ u.path = path ∧
    target ∈ u.asked.map Prod.fst ∧ target ∈ p.standing ∪ paths before

theorem Walk.acyclic (h : Walk (fun _ => False) p p' settled) (q : Path) :
    ¬TransGen (Heeded p settled) q q := by
  have hstep : ∀ {path target : Path}, Heeded p settled path target →
      path ∈ settled.map LhatUnit.path ∧ (target ∈ settled.map LhatUnit.path →
        (settled.map LhatUnit.path).idxOf target < (settled.map LhatUnit.path).idxOf path) := by
    rintro path target ⟨before, u, after, rfl, rfl, -, hstands⟩
    have hmap : (before ++ u :: after).map LhatUnit.path =
        before.map LhatUnit.path ++ u.path :: after.map LhatUnit.path := by simp
    refine ⟨by simp, fun htarget => ?_⟩
    rcases hstands with hold | ⟨v, hv, rfl⟩
    · obtain ⟨v, hv, rfl⟩ := List.mem_map.1 htarget
      exact absurd ⟨v, hv, rfl⟩ (h.met hold)
    · have hin : v.path ∈ before.map LhatUnit.path := List.mem_map_of_mem hv
      have hout : u.path ∉ before.map LhatUnit.path := by
        have honce := h.once
        rw [hmap] at honce
        exact fun hbefore => (List.nodup_append.1 honce).2.2 _ hbefore _ (List.mem_cons_self ..) rfl
      rw [hmap, List.idxOf_append_of_mem hin, List.idxOf_append_of_notMem hout,
        List.idxOf_cons_self,
        Nat.add_zero]
      exact List.idxOf_lt_length_iff.2 hin
  have hchain : ∀ {target : Path}, TransGen (Heeded p settled) q target →
      target ∈ settled.map LhatUnit.path →
        (settled.map LhatUnit.path).idxOf target < (settled.map LhatUnit.path).idxOf q := by
    intro target hchain
    induction hchain with
    | single hone => exact (hstep hone).2
    | tail _ hone ih =>
      intro htarget
      exact ((hstep hone).2 htarget).trans (ih (hstep hone).1)
  intro hcycle
  have hin : q ∈ settled.map LhatUnit.path := by
    cases TransGen.head'_iff.1 hcycle with
    | intro _ hfirst => exact (hstep hfirst.1).1
  exact Nat.lt_irrefl _ (hchain hcycle hin)

/-- A walk at its end. Each unit was read once, after what it was answered about; a cycle was
reported for each `require^` that was not answered, which does close one, and without these
no cycle is left. -/
structure Orders (env : Env Types) (p p' : Program Types) (root : Path)
    (settled : List (LhatUnit Types)) (said : List Message) : Prop where
  walk : Walk (fun _ => False) p p' settled
  rooted : root ∈ p'.standing
  closed : ∀ q, ¬p'.UnderCheck q
  reached : ∀ u ∈ settled, ReflTransGen (Among settled) root u.path
  cycles : (cyclesIn said).Perm (closings p.standing settled)
  closes : Each (fun stands u => ∀ ask ∈ u.asked, ask.1 ∉ stands →
    ReflTransGen (Among settled) ask.1 u.path) p.standing settled
  acyclic : ∀ q, ¬TransGen (Heeded p settled) q q
  verdicts : Each (fun stands u => u.state = .failed ↔ Refused env p' stands u) p.standing settled

/-- Of finitely many files, the walk from one comes to its end. -/
theorem checkPath_orders {files : Finset Path} {root : Path} (hfiles : Holds env files)
    (hp : (p.units.map LhatUnit.path).Nodup) (hclosed : ∀ q, ¬p.UnderCheck q) (hroot :
    root ∈ files) :
    ∃ p' settled said, Orders env p p' root settled said ∧ ∀ stack, files.card < stack →
      p.checkPathSaid env stack root = some ((p', true), said) ∧
      p.checkPath env stack root = some (p', true) := by
  have hleft : left files p < files.card + 1 := by
    classical
    exact Nat.lt_succ_of_le (Finset.card_filter_le _ _)
  obtain ⟨⟨⟨p', found⟩, said⟩, hrun⟩ := checkPath_ends hfiles _ p root hp hroot hleft
  cases checkPath_answered env _ hp hrun with
  | closed hopen _ => exact absurd hopen (hclosed root)
  | @met settled _ hstands hwalk hjudged hcycles hreach =>
    have hnone : ∀ q, ¬p'.UnderCheck q := by
      rintro q ⟨u, hu, hpath, hchecking⟩
      rcases hwalk.rest u hu id with hin | hold
      · exact not_stands hchecking (hwalk.stands u hin)
      · exact hclosed q ⟨u, hold, hpath, hchecking⟩
    refine ⟨p', settled, said, ⟨hwalk, hstands, hnone, hreach, hcycles, ?_, hwalk.acyclic,
      hjudged.verdicts⟩, fun stack hstack => ?_⟩
    · exact hjudged.waits.imp fun stood u _ _ hwaits ask hask hnot =>
        (hwaits ask hask hnot).resolve_left (hclosed _)
    · have hdeep := checkPath_deeper env (Nat.succ_le_of_lt hstack) p root _ hrun
      refine ⟨hdeep, ?_⟩
      rw [checkPath_said]
      dsimp only
      rw [hdeep, Option.map_some]

/-- `a` requires `b`, which requires `a` and a file that is not there. -/
def ringEnv : Env Unit where
  read path :=
    if path = "a" then some ⟨1, .source (.ask "b" fun _ => .done ())⟩
    else if path = "b" then some ⟨2, .source (.ask "a" fun _ => .ask "c" fun _ => .done ())⟩
    else none
  grows _ _ := true

theorem ringEnv_holds : Holds ringEnv {"a", "b", "c"} := by
  intro path hpath text hread target hasks
  simp only [ringEnv] at hread
  split at hread
  · cases hread
    cases hasks with
    | here => decide
    | later _ hmore => cases hmore
  · split at hread
    · cases hread
      cases hasks with
      | here => decide
      | later _ hmore =>
        cases hmore with
        | here => decide
        | later _ hmore => cases hmore
    · cases hread

theorem checkPath_orders_ring : ∃ p' settled said, Orders ringEnv {} p' "a" settled said ∧
    cyclesIn said = ["a"] := by
  obtain ⟨p', settled, said, horders, hrun⟩ :=
    @checkPath_orders Unit ringEnv {} _ _ ringEnv_holds List.nodup_nil (fun q ⟨_, hu,
      _⟩ => by cases hu)
      (by decide : ("a" : Path) ∈ ({"a", "b", "c"} : Finset Path))
  refine ⟨p', settled, said, horders, ?_⟩
  have hsaid : (checkPathSaid ringEnv 4 {} "a").map (fun answer => cyclesIn answer.2) =
      some ["a"] := by decide
  rw [(hrun 4 (by decide)).1] at hsaid
  exact Option.some.inj hsaid

/-- A unit is ready, and one it requires is not. -/
theorem ready_without : (({} : Program Unit).checkPath ringEnv 4 "a").map (fun answer =>
    decide (∃ u ∈ answer.1.units, u.state = .done ∧ ∃ ask ∈ u.asked,
      ¬∃ t ∈ answer.1.units, t.path = ask.1 ∧ t.state = .done)) = some true := by
  decide_cbv

end Program

end Lhat.Reload
