import Lhat.Reload.Checks
import Mathlib.Data.Set.Insert

/-!
# What a walk reports

The walk of `check_path`, with the diagnostics it leaves on the way: a file that cannot be read,
a `require^` that meets a unit still being checked, and one that joins a text and a binary unit.
What the reader of a binary unit says of its bytes is left out. Without the messages it is the
walk of before (`checkPath_said`), and a deeper stack answers no differently (`checkPath_deeper`).
-/

namespace Lhat.Reload

/-- What `report` is handed. -/
inductive Message where
  | cannotRead (path : Path)
  | cycle (path : Path)
  | mixed (path : Path)
deriving DecidableEq

namespace Program

variable {Types : Type}

/-- The report of `resolve_require` on a unit that was found. -/
def requireSaid (p : Program Types) (target : Path) (found : Bool) : List Message :=
  match p.findUnit target with
  | some u => if found = true ∧ u.state = .done ∧ u.binary = true then [.mixed target] else []
  | none => []

section Reading

variable (check : Program Types → Path → Option ((Program Types × Bool) × List Message))
  (env : Env Types)

def runCheckingSaid (requiring : Path) :
    Checking Types → Program Types → Option ((Program Types × Types) × List Message)
  | .done types, p => some ((p, types), [])
  | .ask target next, p =>
    match check p target with
    | none => none
    | some ((p, found), said) =>
      let answer := p.resolveRequire env requiring target found
      (runCheckingSaid requiring (next answer.2) answer.1).map fun (left, more) =>
        (left, said ++ p.requireSaid target found ++ more)

def runBinarySaid (requiring : Path) :
    List Path → Program Types → Option ((Program Types × Bool) × List Message)
  | [], p => some ((p, true), [])
  | target :: rest, p =>
    match check p target with
    | none => none
    | some ((p, false), said) => some ((p.note requiring target, false), said)
    | some ((p, true), said) =>
      let p := (p.note requiring target).rememberEdge env requiring target
      match p.findUnit target with
      | some u =>
        if u.state = .done ∧ u.binary = false then some ((p, false), said ++ [.mixed target])
        else (runBinarySaid requiring rest p).map fun (left, more) => (left, said ++ more)
      | none => some ((p, false), said)

/-- `load_into`. -/
def loadIntoSaid (path : Path) (p : Program Types) : Option (Program Types × List Message) :=
  let p := p.modify path fun u =>
    { u with state := .checking, version := u.version + 1, asked := [] }
  match env.read path with
  | none => some (p.modify path fun u => { u with state := .failed }, [.cannotRead path])
  | some text =>
    let p := p.modify path fun u => { u with sourceHash := text.hash }
    match text.content with
    | .source checking =>
      (runCheckingSaid check env path checking
        (p.modify path fun u => { u with loaded := true })).map fun ((p, types), said) =>
          (p.modify path fun u => { u with types := some types, state := .done }, said)
    | .binary requires types sound =>
      (runBinarySaid check env path requires p).map fun ((p, ok), said) =>
        (if ok && sound then
          { p with bodies := p.bodies + 1 }.modify path fun u =>
            { u with
              binary := true
              loaded := true
              body := some p.bodies
              types := some types
              state := .done }
        else p.modify path fun u => { u with state := .failed }, said)

end Reading

/-- `check_path`, with so much of the stack left. -/
def checkPathSaid (env : Env Types) :
    Nat → Program Types → Path → Option ((Program Types × Bool) × List Message)
  | 0, _, _ => none
  | stack + 1, p, path =>
    match p.findUnit path with
    | some u =>
      if u.state = .checking then some (({ p with cycles := p.cycles + 1 }, false), [.cycle path])
      else if u.state = .stale then
        (p.loadIntoSaid (checkPathSaid env stack) env path).map fun (p, said) => ((p, true), said)
      else some ((p, true), [])
    | none =>
      ({ p with units := ({ path := path } : LhatUnit Types) :: p.units }.loadIntoSaid
        (checkPathSaid env stack) env path).map fun (p, said) => ((p, true), said)

/-! ### The messages left out -/

section Forgetting

variable {check : Program Types → Path → Option ((Program Types × Bool) × List Message)}
  {env : Env Types}

theorem runChecking_said (requiring : Path) (checking : Checking Types) (p : Program Types) :
    runChecking (fun p path => (check p path).map Prod.fst) env requiring checking p =
      (runCheckingSaid check env requiring checking p).map Prod.fst := by
  induction checking generalizing p with
  | done types => rfl
  | ask target next ih =>
    rw [runChecking, runCheckingSaid]
    cases hcheck : check p target with
    | none => rfl
    | some answer =>
      obtain ⟨⟨p', found⟩, said⟩ := answer
      simp only [Option.map_some, ih, Option.map_map]
      rfl

theorem runBinary_said (requiring : Path) (requires : List Path) (p : Program Types) :
    runBinary (fun p path => (check p path).map Prod.fst) env requiring requires p =
      (runBinarySaid check env requiring requires p).map Prod.fst := by
  induction requires generalizing p with
  | nil => rfl
  | cons target rest ih =>
    rw [runBinary, runBinarySaid]
    cases hcheck : check p target with
    | none => rfl
    | some answer =>
      obtain ⟨⟨p', found⟩, said⟩ := answer
      cases found with
      | false => rfl
      | true =>
        simp only [Option.map_some]
        cases hfind : ((p'.note requiring target).rememberEdge env requiring target).findUnit
            target with
        | none => rfl
        | some u =>
          dsimp only
          by_cases htext : u.state = .done ∧ u.binary = false
          · rw [if_pos htext, if_pos htext]
            rfl
          · rw [if_neg htext, if_neg htext, ih, Option.map_map]
            rfl

theorem loadInto_said (path : Path) (p : Program Types) :
    loadInto (fun p path => (check p path).map Prod.fst) env path p =
      (loadIntoSaid check env path p).map Prod.fst := by
  unfold loadInto loadIntoSaid
  cases hread : env.read path with
  | none => rfl
  | some text =>
    dsimp only
    cases hcontent : text.content with
    | source checking =>
      dsimp only
      rw [runChecking_said]
      cases runCheckingSaid check env path checking _ with
      | none => rfl
      | some left => rfl
    | binary requires types sound =>
      dsimp only
      rw [runBinary_said]
      cases runBinarySaid check env path requires _ with
      | none => rfl
      | some left =>
        simp only [Option.map_some]
        split <;> rfl

theorem checkPath_said (env : Env Types) (stack : Nat) :
    checkPath env stack = fun p path => (checkPathSaid env stack p path).map Prod.fst := by
  induction stack with
  | zero => rfl
  | succ stack ih =>
    funext p path
    rw [checkPath, checkPathSaid, ih]
    cases hfind : p.findUnit path with
    | none =>
      dsimp only
      rw [loadInto_said, Option.map_map, Option.map_map]
      rfl
    | some u =>
      dsimp only
      by_cases hchecking : u.state = .checking
      · rw [if_pos hchecking, if_pos hchecking]
        rfl
      · rw [if_neg hchecking, if_neg hchecking]
        by_cases hstale : u.state = .stale
        · rw [if_pos hstale, if_pos hstale, loadInto_said, Option.map_map, Option.map_map]
          rfl
        · rw [if_neg hstale, if_neg hstale]
          rfl

end Forgetting

/-! ### A deeper stack -/

section Deeper

variable {check check' : Program Types → Path → Option ((Program Types × Bool) × List Message)}
  {env : Env Types}

section

variable (hdeeper : ∀ p path answer, check p path = some answer → check' p path = some answer)
include hdeeper

theorem runChecking_deeper
    {requiring : Path} (checking : Checking Types) {p : Program Types} {answer}
    (h : runCheckingSaid check env requiring checking p = some answer) :
    runCheckingSaid check' env requiring checking p = some answer := by
  induction checking generalizing p answer with
  | done types => exact h
  | ask target next ih =>
    rw [runCheckingSaid] at h ⊢
    cases hcheck : check p target with
    | none => simp [hcheck] at h
    | some answered =>
      rw [hcheck] at h
      rw [hdeeper _ _ _ hcheck]
      obtain ⟨left, hrun, rfl⟩ := Option.map_eq_some_iff.1 h
      dsimp only
      rw [ih _ hrun, Option.map_some]

theorem runBinary_deeper
    {requiring : Path} (requires : List Path) {p : Program Types} {answer}
    (h : runBinarySaid check env requiring requires p = some answer) :
    runBinarySaid check' env requiring requires p = some answer := by
  induction requires generalizing p answer with
  | nil => exact h
  | cons target rest ih =>
    rw [runBinarySaid] at h ⊢
    cases hcheck : check p target with
    | none => simp [hcheck] at h
    | some answered =>
      obtain ⟨⟨p', found⟩, said⟩ := answered
      rw [hcheck] at h
      rw [hdeeper _ _ _ hcheck]
      cases found with
      | false => exact h
      | true =>
        dsimp only at h ⊢
        split at h
        · split at h
          · rwa [if_pos (by assumption)]
          · rw [if_neg (by assumption)]
            obtain ⟨left, hrun, rfl⟩ := Option.map_eq_some_iff.1 h
            rw [ih hrun, Option.map_some]
        · exact h

theorem loadInto_deeper
    {path : Path} {p : Program Types} {answer} (h : loadIntoSaid check env path p = some answer) :
    loadIntoSaid check' env path p = some answer := by
  unfold loadIntoSaid at h ⊢
  dsimp only at h ⊢
  split at h
  · exact h
  · split at h
    · obtain ⟨left, hrun, rfl⟩ := Option.map_eq_some_iff.1 h
      rw [runChecking_deeper hdeeper _ hrun, Option.map_some]
    · obtain ⟨left, hrun, rfl⟩ := Option.map_eq_some_iff.1 h
      rw [runBinary_deeper hdeeper _ hrun, Option.map_some]

end

theorem checkPath_deeper (env : Env Types) {stack stack' : Nat} (hle : stack ≤ stack')
    (p : Program Types) (path : Path) (answer) (h : checkPathSaid env stack p path = some answer) :
    checkPathSaid env stack' p path = some answer := by
  induction stack generalizing stack' p path answer with
  | zero => cases h
  | succ stack ih =>
    obtain ⟨stack', rfl⟩ := Nat.exists_eq_succ_of_ne_zero (by omega : stack' ≠ 0)
    have hdeeper := ih (by omega : stack ≤ stack')
    rw [checkPathSaid] at h ⊢
    cases hfind : p.findUnit path with
    | none =>
      rw [hfind] at h
      obtain ⟨left, hload, rfl⟩ := Option.map_eq_some_iff.1 h
      dsimp only
      rw [loadInto_deeper hdeeper hload, Option.map_some]
    | some u =>
      rw [hfind] at h
      dsimp only at h ⊢
      split at h
      · rw [if_pos (by assumption)]
        exact h
      · rw [if_neg (by assumption)]
        split at h
        · rw [if_pos (by assumption)]
          obtain ⟨left, hload, rfl⟩ := Option.map_eq_some_iff.1 h
          rw [loadInto_deeper hdeeper hload, Option.map_some]
        · rw [if_neg (by assumption)]
          exact h

end Deeper

end Program

end Lhat.Reload

/-!
# One walk over the units

A walk from a unit settles units one after the other: the unit itself last, and each after
those it was answered about. `Walk` says what becomes of the program, and the rest is said of
the units in the order they were settled in, each with what stood by then (`Each`): what it
asked for and did not stand was reported as a cycle, and whether it failed hangs on its own
file. The walk ends when the files that can be asked for are finitely many (`checkPath_walks`).
-/

namespace Lhat.Reload

namespace Program

open Relation

variable {Types : Type} {env : Env Types} {p p' p₁ p₂ : Program Types} {u t : LhatUnit Types}
  {path target q : Path}

/-! ### Units in the order they were settled in -/

/-- The paths of units that were read, whatever came of it. -/
def standing (p : Program Types) : Set Path := {q | ∃ u ∈ p.units, u.path = q ∧ u.Stands}

/-- A unit that is being checked. -/
def UnderCheck (p : Program Types) (path : Path) : Prop :=
  ∃ u ∈ p.units, u.path = path ∧ u.state = .checking

def paths (units : List (LhatUnit Types)) : Set Path := {q | ∃ u ∈ units, u.path = q}

/-- Of each unit in turn, with what stood when it was settled. -/
def Each (P : Set Path → LhatUnit Types → Prop) : Set Path → List (LhatUnit Types) → Prop
  | _, [] => True
  | stands, u :: rest => P stands u ∧ Each P (insert u.path stands) rest

open scoped Classical in
/-- What one unit asked for that did not stand. -/
noncomputable def missed (stands : Set Path) (asks : List (Path × Nat)) : List Path :=
  (asks.map Prod.fst).filter fun target => decide (target ∉ stands)

/-- What the units asked for that did not stand when they were settled. -/
noncomputable def closings : Set Path → List (LhatUnit Types) → List Path
  | _, [] => []
  | stands, u :: rest => missed stands u.asked ++ closings (insert u.path stands) rest

/-- One of the units asked for another. -/
def Among (units : List (LhatUnit Types)) (path target : Path) : Prop :=
  ∃ u ∈ units, u.path = path ∧ target ∈ u.asked.map Prod.fst

section Lists

variable {units more : List (LhatUnit Types)} {stands : Set Path}
  {P Q : Set Path → LhatUnit Types → Prop}

theorem insert_union_paths (stands : Set Path) (u : LhatUnit Types) (rest : List (LhatUnit Types)) :
    insert u.path stands ∪ paths rest = stands ∪ paths (u :: rest) := by
  ext q
  simp only [Set.mem_union, Set.mem_insert_iff, paths, Set.mem_ofPred_eq, List.mem_cons,
    exists_eq_or_imp]
  constructor
  · rintro ((rfl | h) | h)
    · exact .inr (.inl rfl)
    · exact .inl h
    · exact .inr (.inr h)
  · rintro (h | rfl | h)
    · exact .inl (.inr h)
    · exact .inl (.inl rfl)
    · exact .inr h

theorem paths_append : (paths (units ++ more) : Set Path) = paths units ∪ paths more := by
  ext q
  simp only [paths, Set.mem_ofPred_eq, List.mem_append, Set.mem_union, or_and_right, exists_or]

theorem paths_nil : (paths ([] : List (LhatUnit Types)) : Set Path) = ∅ := by
  ext q
  simp only [paths, Set.mem_ofPred_eq, List.not_mem_nil, false_and, exists_false,
    Set.mem_empty_iff_false]

theorem each_append : Each P stands (units ++ more) ↔
    Each P stands units ∧ Each P (stands ∪ paths units) more := by
  induction units generalizing stands with
  | nil => simp [Each, paths_nil]
  | cons u rest ih => simp only [List.cons_append, Each, ih, insert_union_paths, and_assoc]

theorem Each.imp (h : Each P stands units)
    (himp : ∀ stood u, u ∈ units → stood ⊆ stands ∪ paths units → P stood u → Q stood u) :
    Each Q stands units := by
  induction units generalizing stands with
  | nil => trivial
  | cons u rest ih =>
    refine ⟨himp _ _ (List.mem_cons_self ..) Set.subset_union_left h.1,
      ih h.2 fun stood v hv hle => ?_⟩
    rw [insert_union_paths] at hle
    exact himp stood v (List.mem_cons_of_mem _ hv) hle

theorem closings_append : closings stands (units ++ more) =
    closings stands units ++ closings (stands ∪ paths units) more := by
  induction units generalizing stands with
  | nil => simp [closings, paths_nil]
  | cons u rest ih =>
    simp only [List.cons_append, closings, ih, insert_union_paths, List.append_assoc]

theorem missed_append (asks later : List (Path × Nat)) :
    missed stands (asks ++ later) = missed stands asks ++ missed stands later := by
  simp only [missed, List.map_append, List.filter_append]

theorem missed_congr {stood : Set Path} {asks : List (Path × Nat)}
    (h : ∀ ask ∈ asks, ask.1 ∈ stands ↔ ask.1 ∈ stood) : missed stands asks = missed stood asks :=
    by
  refine List.filter_congr fun target htarget => ?_
  obtain ⟨ask, hask, rfl⟩ := List.mem_map.1 htarget
  rw [decide_eq_decide, h ask hask]

theorem Among.mono (hle : ∀ u ∈ units, u ∈ more) (h : Among units path target) :
    Among more path target := by
  obtain ⟨u, hu, hrest⟩ := h
  exact ⟨u, hle u hu, hrest⟩

theorem reach_mono (hle : ∀ u ∈ units, u ∈ more) (h : ReflTransGen (Among units) path target) :
    ReflTransGen (Among more) path target := by
  have hmore : Among units ≤ Among more := fun _ _ hasked => Among.mono hle hasked
  exact ReflTransGen.mono hmore _ _ h

end Lists

/-! ### What becomes of the program -/

/-- The units that were settled stand, each read once; the others are as they were. Some are
left out of account. -/
structure Walk (but : Path → Prop) (p p' : Program Types) (settled : List (LhatUnit Types)) :
    Prop where
  distinct : (p'.units.map LhatUnit.path).Nodup
  once : (settled.map LhatUnit.path).Nodup
  here : ∀ u ∈ settled, u ∈ p'.units
  stands : ∀ u ∈ settled, u.Stands
  read : ∀ u ∈ settled, u.version = p.versionOf u.path + 1
  unmet : ∀ u ∈ settled, ∀ t ∈ p.units, t.path = u.path → t.state = .stale
  apart : ∀ u ∈ settled, ¬but u.path
  kept : ∀ t ∈ p.units, ¬but t.path → t.path ∉ paths settled → t ∈ p'.units
  rest : ∀ t ∈ p'.units, ¬but t.path → t ∈ settled ∨ t ∈ p.units

section Walk

variable {but : Path → Prop} {settled later : List (LhatUnit Types)}

theorem versionOf_eq (hdistinct : (p.units.map LhatUnit.path).Nodup) (hu : u ∈ p.units) :
    p.versionOf u.path = u.version := by
  rw [versionOf, findUnit_eq hdistinct hu]

theorem versionOf_none (h : ∀ u ∈ p.units, u.path ≠ path) : p.versionOf path = 0 := by
  cases hfind : p.findUnit path with
  | none => rw [versionOf, hfind]
  | some u =>
    obtain ⟨hu, hpath⟩ := findUnit_some hfind
    exact absurd hpath (h u hu)

theorem Walk.of_none (hdistinct : (p'.units.map LhatUnit.path).Nodup)
    (hkept : ∀ t ∈ p.units, ¬but t.path → t ∈ p'.units)
    (hrest : ∀ t ∈ p'.units, ¬but t.path → t ∈ p.units) : Walk but p p' [] where
  distinct := hdistinct
  once := List.nodup_nil
  here _ h := nomatch h
  stands _ h := nomatch h
  read _ h := nomatch h
  unmet _ h := nomatch h
  apart _ h := nomatch h
  kept t ht hbut _ := hkept t ht hbut
  rest t ht hbut := .inr (hrest t ht hbut)

theorem Walk.refl (but : Path → Prop) (hdistinct : (p.units.map LhatUnit.path).Nodup) :
    Walk but p p [] :=
  .of_none hdistinct (fun _ ht _ => ht) fun _ ht _ => ht

section

variable (h : Walk but p p' settled)
include h

theorem Walk.weaken {but' : Path → Prop} (hle : ∀ q, but q → but' q)
    (hapart : ∀ u ∈ settled, ¬but' u.path) : Walk but' p p' settled :=
  { h with
    apart := hapart
    kept := fun t ht hbut => h.kept t ht fun hb => hbut (hle _ hb)
    rest := fun t ht hbut => h.rest t ht fun hb => hbut (hle _ hb) }

theorem Walk.mem_standing (hbut : ¬but q) :
    q ∈ p'.standing ↔ q ∈ p.standing ∨ q ∈ paths settled := by
  constructor
  · rintro ⟨t, ht, rfl, hstands⟩
    rcases h.rest t ht hbut with hin | hold
    · exact .inr ⟨t, hin, rfl⟩
    · exact .inl ⟨t, hold, rfl, hstands⟩
  · rintro (⟨t, ht, rfl, hstands⟩ | ⟨u, hu, rfl⟩)
    · refine ⟨t, h.kept t ht hbut ?_, rfl, hstands⟩
      rintro ⟨u, hu, hpath⟩
      have hstale := h.unmet u hu t ht hpath.symm
      simp [LhatUnit.Stands, hstale] at hstands
    · exact ⟨u, h.here u hu, rfl, h.stands u hu⟩

theorem Walk.open_apart (hopen : UnderCheck p q) : q ∉ paths settled :=
    by
  rintro ⟨u, hu, rfl⟩
  obtain ⟨t, ht, hpath, hchecking⟩ := hopen
  cases hchecking.symm.trans (h.unmet u hu t ht hpath)

theorem Walk.versionOf (hp : (p.units.map LhatUnit.path).Nodup)
    (hbut : ¬but q) (hq : q ∉ paths settled) : p'.versionOf q = p.versionOf q := by
  by_cases hin : ∃ t ∈ p.units, t.path = q
  · obtain ⟨t, ht, rfl⟩ := hin
    rw [versionOf_eq hp ht, versionOf_eq h.distinct (h.kept t ht hbut hq)]
  · rw [versionOf_none fun t ht hpath => hin ⟨t, ht, hpath⟩, versionOf_none]
    rintro t ht rfl
    rcases h.rest t ht hbut with hsettled | hold
    · exact hq ⟨t, hsettled, rfl⟩
    · exact hin ⟨t, hold, rfl⟩

end

theorem Walk.trans (h : Walk but p p₁ settled) (hp : (p.units.map LhatUnit.path).Nodup)
    (h' : Walk but p₁ p₂ later) : Walk but p p₂ (settled ++ later) := by
  -- what was settled is not met again
  have hmet : ∀ u ∈ settled, u.path ∉ paths later := by
    rintro u hu ⟨v, hv, hpath⟩
    have hstale := h'.unmet v hv u (h.here u hu) hpath.symm
    have hstands := h.stands u hu
    simp [LhatUnit.Stands, hstale] at hstands
  have hnew : ∀ v ∈ later, v.path ∉ paths settled := by
    rintro v hv ⟨u, hu, hpath⟩
    exact hmet u hu ⟨v, hv, hpath.symm⟩
  refine ⟨h'.distinct, ?_, fun u hu => ?_, fun u hu => ?_, fun u hu => ?_,
    fun u hu t ht hpath => ?_,
    fun u hu => ?_, fun t ht hbut hnot => ?_, fun t ht hbut => ?_⟩
  · rw [List.map_append]
    refine List.Nodup.append h.once h'.once fun q hq hq' => ?_
    obtain ⟨u, hu, rfl⟩ := List.mem_map.1 hq
    obtain ⟨v, hv, hpath⟩ := List.mem_map.1 hq'
    exact hmet u hu ⟨v, hv, hpath⟩
  · rcases List.mem_append.1 hu with hu | hu
    · exact h'.kept u (h.here u hu) (h.apart u hu) (hmet u hu)
    · exact h'.here u hu
  · exact (List.mem_append.1 hu).elim (h.stands u) (h'.stands u)
  · rcases List.mem_append.1 hu with hu | hu
    · exact h.read u hu
    · rw [h'.read u hu, h.versionOf hp (h'.apart u hu) (hnew u hu)]
  · rcases List.mem_append.1 hu with hu | hu
    · exact h.unmet u hu t ht hpath
    · exact h'.unmet u hu t (h.kept t ht (hpath ▸ h'.apart u hu) (hpath ▸ hnew u hu)) hpath
  · exact (List.mem_append.1 hu).elim (h.apart u) (h'.apart u)
  · rw [paths_append, Set.mem_union, not_or] at hnot
    exact h'.kept t (h.kept t ht hbut hnot.1) hbut hnot.2
  · rcases h'.rest t ht hbut with hin | hmid
    · exact .inl (List.mem_append_right _ hin)
    · exact (h.rest t hmid hbut).imp_left (List.mem_append_left _)

theorem Walk.modify {f : LhatUnit Types → LhatUnit Types} (hf : ∀ u, (f u).path = u.path)
    (hdistinct : (p.units.map LhatUnit.path).Nodup) : Walk (· = path) p (p.modify path f) [] := by
  refine .of_none (by rwa [map_path_modify hf]) (fun t ht hne => mem_modify_of_ne ht hne)
    fun t ht hne => ?_
  obtain ⟨ht, -⟩ | ⟨v, -, hv, rfl⟩ := of_mem_modify ht
  · exact ht
  · exact absurd ((hf v).trans hv) hne

end Walk

end Program

end Lhat.Reload
