import Lhat.Task.Ledger
import Mathlib.Data.List.Perm.Basic

/-!
# The steps keep the ledgers fair
-/

namespace Lhat.Tasks

variable {j owes : Nat} {a b : Caller} {f : Task → Task} {overParked : Bool} {after : After}
variable {w w' : World} {p p' : Pool} {i : Nat} {t u : TaskId}

/-- What a step does that no ledger sees. -/
structure Quiet (w w' : World) : Prop where
  ring : w'.pool.queue.Denotes w'.pool.queued
  place : ∀ t, w'.pool.place t = w.pool.place t
  owes : ∀ t, w'.pool.owes t = w.pool.owes t
  refuses : ∀ t, w'.pool.refuses t = w.pool.refuses t
  makes : ∀ t, w'.pool.makes t = w.pool.makes t
  tasks : ∀ t, (w'.tasks t).holds = (w.tasks t).holds ∧ (w'.tasks t).freed = (w.tasks t).freed ∧
    (w'.tasks t).finished = (w.tasks t).finished ∧ (w'.tasks t).taken = (w.tasks t).taken
  made : w'.made = w.made
  wrappers : w'.wrappers = w.wrappers
  trees : w'.trees = w.trees
  handed : w'.handed = w.handed
  ended : w'.ended = w.ended
  delivered : w'.delivered = w.delivered

theorem Quiet.ledger (h : Quiet w w') (t : TaskId) : w'.ledger t = w.ledger t := by
  obtain ⟨hholds, hfreed, hfinished, htaken⟩ := h.tasks t
  simp only [World.ledger, h.place, h.owes, h.refuses, h.makes, h.made, h.wrappers, h.trees,
    h.handed, h.ended, h.delivered, hholds, hfreed, hfinished, htaken]

theorem Inv.quiet (hw : Inv w) (h : Quiet w w') : Inv w' :=
  ⟨h.ring, fun t => (h.ledger t).symm ▸ hw.fair t⟩

theorem Inv.moved (hw : Inv w) (hring : w'.pool.queue.Denotes w'.pool.queued) (u : TaskId)
    (hothers : ∀ t, t ≠ u → w'.ledger t = w.ledger t) (hone : (w'.ledger u).Fair) : Inv w' := by
  refine ⟨hring, fun t => ?_⟩
  by_cases ht : t = u
  · rw [ht]
    exact hone
  · rw [hothers t ht]
    exact hw.fair t

/-! ### The parts of a step -/

namespace Quiet

theorem refl (hw : Inv w) : Quiet w w where
  ring := hw.ring
  place _ := rfl
  owes _ := rfl
  refuses _ := rfl
  makes _ := rfl
  tasks _ := ⟨rfl, rfl, rfl, rfl⟩
  made := rfl
  wrappers := rfl
  trees := rfl
  handed := rfl
  ended := rfl
  delivered := rfl

theorem setWorker {a b : Worker} (hw : Inv w) (h : w.pool.workers[i]? = some a)
    (hworks : ∀ t, b.works t = a.works t) (howes : ∀ t, b.owes t = a.owes t) :
    Quiet w (w.setWorker i b) :=
  { refl hw with
    ring := hw.ring
    place := fun t => by
      have := Pool.setWorker_place (b := b) (t := t) h
      rw [hworks] at this
      exact Nat.add_right_cancel this
    owes := fun t => by
      have := Pool.setWorker_owes (b := b) (t := t) h
      rw [howes] at this
      exact Nat.add_right_cancel this
    refuses := fun _ => rfl
    makes := fun _ => rfl }

theorem setCaller (hw : Inv w) (h : w.pool.callers[i]? = some a)
    (hdrops : ∀ t, b.drops t = a.drops t) (howes : ∀ t, b.owes t = a.owes t)
    (hrefuses : ∀ t, b.refuses t = a.refuses t) (hmakes : ∀ t, b.makes t = a.makes t) :
    Quiet w (w.setCaller i b) :=
  { refl hw with
    ring := hw.ring
    place := fun t => by
      have := Pool.setCaller_place (b := b) (t := t) h
      rw [hdrops] at this
      exact Nat.add_right_cancel this
    owes := fun t => by
      have := Pool.setCaller_owes (b := b) (t := t) h
      rw [howes] at this
      exact Nat.add_right_cancel this
    refuses := fun t => by
      have := Pool.setCaller_refuses (b := b) (t := t) h
      rw [hrefuses] at this
      exact Nat.add_right_cancel this
    makes := fun t => by
      have := Pool.setCaller_makes (b := b) (t := t) h
      rw [hmakes] at this
      exact Nat.add_right_cancel this }

theorem modify (hw : Inv w)
    (hf : (f (w.tasks u)).holds = (w.tasks u).holds ∧ (f (w.tasks u)).freed = (w.tasks u).freed ∧
      (f (w.tasks u)).finished = (w.tasks u).finished ∧
      (f (w.tasks u)).taken = (w.tasks u).taken) : Quiet w (w.modify u f) :=
  { refl hw with
    ring := hw.ring
    place := fun _ => rfl
    owes := fun _ => rfl
    refuses := fun _ => rfl
    makes := fun _ => rfl
    tasks := fun t => by
      by_cases ht : t = u
      · subst ht
        simpa [World.modify] using hf
      · simp [World.modify, ht] }

theorem puts {a : Worker} (hw : Inv w) (h : w.pool.workers[i]? = some a)
    (hworks : ∀ t, a.works t = decide (u = t)) (howes : ∀ t, a.owes t = false)
    (hputs : Pool.Puts w.pool p' u) : Quiet w ({ w with pool := p' }.setWorker i .idle) := by
  have hworker : p'.workers[i]? = some a := by rw [hputs.workers, h]
  refine { refl hw with
    ring := hputs.ring
    place := fun t => ?_
    owes := fun t => ?_
    refuses := fun t => ?_
    makes := fun t => ?_ }
  · have hset := Pool.setWorker_place (b := .idle) (t := t) hworker
    rw [hputs.place, hworks] at hset
    have hidle : (Worker.idle.works t).toNat = 0 := rfl
    change (p'.setWorker i .idle).place t = _
    omega
  · have hset := Pool.setWorker_owes (b := .idle) (t := t) hworker
    rw [howes] at hset
    change (p'.setWorker i .idle).owes t = _
    simp only [Pool.owes, hputs.workers, hputs.callers] at hset ⊢
    exact hset
  · change (p'.callers).countP _ = _
    rw [hputs.callers]
    rfl
  · change (p'.callers).countP _ = _
    rw [hputs.callers]
    rfl

end Quiet

/-! ### Steps about one task -/

theorem ledger_modify_ne (ht : t ≠ u) : (w.modify u f).ledger t = w.ledger t := by
  simp only [World.ledger, World.modify, Function.update_of_ne ht]
  rfl

theorem ledger_letGo (w : World) (u : TaskId) : (w.letGo u).ledger u =
    { w.ledger u with
      holds := (w.ledger u).holds - 1
      freed := (w.ledger u).freed || decide ((w.ledger u).holds - 1 ≤ 0) } := by
  simp only [World.ledger, World.letGo, World.modify, Function.update_self]
  rfl

theorem ledger_retain (w : World) (u : TaskId) : (w.retain u).ledger u =
    { w.ledger u with holds := (w.ledger u).holds + 1 } := by
  simp only [World.ledger, World.retain, World.modify, Function.update_self]
  rfl

theorem Inv.letGo (hw : Inv w) (hring : w'.pool.queue.Denotes w'.pool.queued)
    (hothers : ∀ t, t ≠ u → w'.ledger t = w.ledger t) {live trees refuses makes : Nat}
    (hone : w'.ledger u = { w.ledger u with
      live := live, trees := trees, owes := owes, refuses := refuses, makes := makes })
    (howes : owes ≤ (w.ledger u).owes) (hrefuses : refuses ≤ (w.ledger u).refuses)
    (hmakes : makes ≤ (w.ledger u).makes)
    (hless : live + trees + owes + refuses + makes + 1 = (w.ledger u).live + (w.ledger u).trees +
      (w.ledger u).owes + (w.ledger u).refuses + (w.ledger u).makes) : Inv (w'.letGo u) := by
  refine hw.moved hring u (fun t ht => (ledger_modify_ne ht).trans (hothers t ht)) ?_
  refine (hw.fair u).loses ?_
  rw [ledger_letGo, hone]
  refine ⟨rfl, rfl, rfl, rfl, rfl, ?_, rfl, howes, hrefuses, hmakes, rfl, rfl, rfl⟩
  simp only [Ledger.named]
  omega

theorem ledger_setWorker {a b : Worker} (h : w.pool.workers[i]? = some a) (t : TaskId) :
    ∃ place owes, (w.setWorker i b).ledger t = { w.ledger t with place := place, owes := owes } ∧
      place + (a.works t).toNat = (w.ledger t).place + (b.works t).toNat ∧
      owes + (a.owes t).toNat = (w.ledger t).owes + (b.owes t).toNat :=
  ⟨_, _, rfl, Pool.setWorker_place h, Pool.setWorker_owes h⟩

theorem ledger_setCaller (h : w.pool.callers[i]? = some a) (t : TaskId) :
    ∃ place owes refuses makes, (w.setCaller i b).ledger t =
        { w.ledger t with place := place, owes := owes, refuses := refuses, makes := makes } ∧
      place + (a.drops t).toNat = (w.ledger t).place + (b.drops t).toNat ∧
      owes + (a.owes t).toNat = (w.ledger t).owes + (b.owes t).toNat ∧
      refuses + (a.refuses t).toNat = (w.ledger t).refuses + (b.refuses t).toNat ∧
      makes + (a.makes t).toNat = (w.ledger t).makes + (b.makes t).toNat :=
  ⟨_, _, _, _, rfl, Pool.setCaller_place h, Pool.setCaller_owes h, Pool.setCaller_refuses h,
    Pool.setCaller_makes h⟩

theorem Ledger.eq_of_counts {l : Ledger} {place : Nat} (hplace : place = l.place)
    (howes : owes = l.owes) : { l with place := place, owes := owes } = l := by
  subst hplace howes
  rfl

theorem Inv.letGo_worker (hw : Inv w) (h : w.pool.workers[i]? = some (.finished u)) :
    Inv ((w.letGo u).setWorker i .idle) := by
  have hmoved := fun t => ledger_setWorker (b := .idle) h t
  obtain ⟨place, owes, hone, hplace, howes⟩ := hmoved u
  simp [Worker.works, Worker.owes] at hplace howes
  refine Inv.letGo hw (show (w.setWorker i .idle).pool.queue.Denotes _ from hw.ring)
    (fun t ht => ?_) (hone.trans (by rw [hplace])) (by omega) le_rfl le_rfl (by omega)
  obtain ⟨place', owes', hother, hplace', howes'⟩ := hmoved t
  simp [Worker.works, Worker.owes, Ne.symm ht] at hplace' howes'
  rw [hother, Ledger.eq_of_counts hplace' howes']

theorem Inv.letGo_caller (hw : Inv w) (h : w.pool.callers[i]? = some a)
    (hb : ∀ t, b.drops t = false ∧ b.owes t = false ∧ b.refuses t = false ∧ b.makes t = false)
    (hdrops : ∀ t, a.drops t = false)
    (hhas : ∀ t, (a.owes t).toNat + (a.refuses t).toNat + (a.makes t).toNat =
      (decide (t = u)).toNat) : Inv ((w.letGo u).setCaller i b) := by
  have hmoved := fun t => ledger_setCaller (b := b) h t
  have hzero : (false : Bool).toNat = 0 := rfl
  obtain ⟨place, owes, refuses, makes, hone, hplace, howes, hrefuses, hmakes⟩ := hmoved u
  obtain ⟨hb₁, hb₂, hb₃, hb₄⟩ := hb u
  have hhasu := hhas u
  rw [decide_eq_true rfl, Bool.toNat_true] at hhasu
  rw [hb₁, hdrops u] at hplace
  rw [hb₂] at howes
  rw [hb₃] at hrefuses
  rw [hb₄] at hmakes
  have hplace : place = (w.ledger u).place := by omega
  refine Inv.letGo hw (show (w.setCaller i b).pool.queue.Denotes _ from hw.ring) (fun t ht => ?_)
    (hone.trans (by rw [hplace])) (by omega) (by omega) (by omega) (by omega)
  obtain ⟨place', owes', refuses', makes', hother, hplace', howes', hrefuses', hmakes'⟩ := hmoved t
  obtain ⟨hb₁, hb₂, hb₃, hb₄⟩ := hb t
  have hhast := hhas t
  rw [decide_eq_false ht, hzero] at hhast
  rw [hb₁, hdrops t] at hplace'
  rw [hb₂] at howes'
  rw [hb₃] at hrefuses'
  rw [hb₄] at hmakes'
  rw [hother]
  ext <;> simp only <;> omega

theorem ledger_wrappers_ne {x y : Wrapper} (h : w.wrappers[j]? = some x)
    (hx : x.task = u) (hy : y.task = u) (ht : t ≠ u) :
    ({ w with wrappers := w.wrappers.set j y } : World).ledger t = w.ledger t := by
  have hset := countP_set_add (b := y) h fun x => x.task = t && !x.released
  have hsame : ∀ z : Wrapper, z.task = u → (decide (z.task = t) && !z.released) = false := by
    rintro z rfl
    simp [Ne.symm ht]
  rw [hsame x hx, hsame y hy] at hset
  simp only [World.ledger]
  rw [Nat.add_right_cancel hset]

theorem Inv.giveBack (hw : Inv w) (h : w.wrappers[j]? = some ⟨u, false⟩) :
    Inv (w.giveBack j u) := by
  have hset : ((w.wrappers.set j ⟨u, true⟩).countP fun x => x.task = u && !x.released) + 1 =
      w.wrappers.countP fun x => x.task = u && !x.released := by
    have := countP_set_add (b := (⟨u, true⟩ : Wrapper)) h fun x => x.task = u && !x.released
    simpa only [decide_true, Bool.not_false, Bool.not_true, Bool.and_true, Bool.and_false,
      Bool.toNat_true, Bool.toNat_false, Nat.add_zero] using this
  refine @Inv.letGo (w.ledger u).owes w { w with wrappers := w.wrappers.set j ⟨u, true⟩ } u hw
    hw.ring (fun t ht => ledger_wrappers_ne h rfl rfl ht) _ (w.ledger u).trees
    (w.ledger u).refuses (w.ledger u).makes rfl le_rfl le_rfl le_rfl ?_
  change ((w.wrappers.set j ⟨u, true⟩).countP fun x => x.task = u && !x.released) + _ + _ + _ + _
    + 1 = (w.wrappers.countP fun x => x.task = u && !x.released) + _ + _ + _ + _
  omega

theorem count_eraseIdx {l : List TaskId} (h : l[j]? = some u) (t : TaskId) :
    (l.eraseIdx j).count t + (decide (u = t)).toNat = l.count t := by
  obtain ⟨hj, rfl⟩ := List.getElem?_eq_some_iff.mp h
  have hperm := (List.getElem_cons_eraseIdx_perm hj).count_eq t
  rw [List.count_cons] at hperm
  rw [← hperm]
  by_cases ht : l[j] = t <;> simp [ht]

theorem Inv.freeTree (hw : Inv w) (h : w.trees[j]? = some u) :
    Inv ({ w with trees := w.trees.eraseIdx j }.letGo u) := by
  have hcount := count_eraseIdx h
  refine @Inv.letGo (w.ledger u).owes w { w with trees := w.trees.eraseIdx j } u hw hw.ring
    (fun t ht => ?_) (w.ledger u).live _ (w.ledger u).refuses (w.ledger u).makes rfl le_rfl le_rfl
    le_rfl ?_
  · have := hcount t
    rw [decide_eq_false (Ne.symm ht)] at this
    simp only [World.ledger]
    rw [← this]
    rfl
  · have := hcount u
    rw [decide_eq_true rfl, Bool.toNat_true] at this
    change _ + (w.trees.eraseIdx j).count u + _ + _ + _ + 1 = _ + w.trees.count u + _ + _ + _
    omega

theorem Inv.ends (hw : Inv w) (hring : w'.pool.queue.Denotes w'.pool.queued)
    (hothers : ∀ t, t ≠ u → w'.ledger t = w.ledger t) {place : Nat}
    (hone : w'.ledger u = { w.ledger u with place := place, owes := owes })
    (hplace : place + 1 = (w.ledger u).place) (howes : owes = (w.ledger u).owes + 1) :
    Inv (w'.finish u) := by
  have hended : ∀ t, (w'.finish u).ledger t = { w'.ledger t with
      ended := (w'.ledger t).ended + (decide (u = t)).toNat
      finished := (w'.ledger t).finished || decide (u = t) } := by
    intro t
    simp only [World.ledger, World.finish, World.modify, count_snoc]
    by_cases ht : t = u
    · subst ht
      simp
      rfl
    · simp [ht, Ne.symm ht]
      rfl
  refine hw.moved hring u (fun t ht => ?_) ?_
  · rw [hended, decide_eq_false (Ne.symm ht), Bool.or_false, hothers t ht]
    rfl
  · rw [hended, decide_eq_true rfl, Bool.or_true, hone, howes]
    exact (hw.fair u).ends hplace

theorem Inv.finish (hw : Inv w) (h : w.pool.workers[i]? = some (.concluded u)) :
    Inv ((w.finish u).setWorker i (.finished u)) := by
  have hmoved := fun t => ledger_setWorker (b := .finished u) h t
  obtain ⟨place, owes, hone, hplace, howes⟩ := hmoved u
  simp [Worker.works, Worker.owes] at hplace howes
  refine @Inv.ends owes w (w.setWorker i (.finished u)) u hw hw.ring (fun t ht => ?_) place hone
    hplace howes
  obtain ⟨place', owes', hother, hplace', howes'⟩ := hmoved t
  simp [Worker.works, Worker.owes, Ne.symm ht] at hplace' howes'
  rw [hother, Ledger.eq_of_counts hplace' howes']

theorem Inv.finishDropped (hw : Inv w)
    (h : w.pool.callers[i]? = some (.dropping u overParked after)) :
    Inv ((w.finish u).setCaller i (.dropped u overParked after)) := by
  have hmoved := fun t => ledger_setCaller (b := .dropped u overParked after) h t
  obtain ⟨place, owes, refuses, makes, hone, hplace, howes, hrefuses, hmakes⟩ := hmoved u
  simp [Caller.drops, Caller.owes, Caller.refuses, Caller.makes] at hplace howes hrefuses hmakes
  refine @Inv.ends owes w (w.setCaller i (.dropped u overParked after)) u hw hw.ring
    (fun t ht => ?_) place (hone.trans (by rw [hrefuses, hmakes])) hplace howes
  obtain ⟨place', owes', refuses', makes', hother, hplace', howes', hrefuses', hmakes'⟩ := hmoved t
  simp [Caller.drops, Caller.owes, Ne.symm ht] at hplace' howes'
  simp [Caller.refuses, Caller.makes] at hrefuses' hmakes'
  rw [hother, hplace', howes', hrefuses', hmakes']

theorem ledger_retain_ne (ht : t ≠ u) : (w.retain u).ledger t = w.ledger t := ledger_modify_ne ht

theorem Inv.carry (hw : Inv w) (h : w.wrappers[j]? = some ⟨u, false⟩) :
    Inv ({ w with trees := w.trees ++ [u] }.retain u) := by
  have htrees : ∀ t, ({ w with trees := w.trees ++ [u] } : World).ledger t =
      { w.ledger t with trees := (w.ledger t).trees + (decide (u = t)).toNat } := fun t => by
    simp only [World.ledger, count_snoc]
  have hlive : 0 < (w.ledger u).live := by
    refine List.countP_pos_iff.mpr ⟨_, List.mem_of_getElem? h, ?_⟩
    simp
  refine @Inv.moved w _ hw hw.ring u (fun t ht => ?_) ?_
  · rw [ledger_retain_ne ht, htrees, decide_eq_false (Ne.symm ht)]
    rfl
  · rw [ledger_retain, htrees, decide_eq_true rfl]
    refine (hw.fair u).gains ?_ rfl
    unfold Ledger.named
    omega

theorem ledger_wrapOne (w : World) (u t : TaskId) : (w.wrapOne u).ledger t =
    { w.ledger t with live := (w.ledger t).live + (decide (u = t)).toNat } := by
  simp only [World.ledger, World.wrapOne, List.countP_append, List.countP_singleton]
  by_cases ht : u = t
  · simp [ht]
    rfl
  · simp [ht]
    rfl

theorem Inv.rebuild (hw : Inv w) (h : w.trees[j]? = some u) : Inv ((w.wrapOne u).retain u) := by
  have htrees : 0 < (w.ledger u).trees := List.count_pos_iff.mpr (List.mem_of_getElem? h)
  refine @Inv.moved w _ hw hw.ring u (fun t ht => ?_) ?_
  · rw [ledger_retain_ne ht, ledger_wrapOne, decide_eq_false (Ne.symm ht)]
    rfl
  · rw [ledger_retain, ledger_wrapOne, decide_eq_true rfl]
    refine (hw.fair u).gains ?_ ?_
    · unfold Ledger.named
      omega
    · exact Nat.add_right_comm ..

theorem Inv.make (hw : Inv w) (h : w.pool.callers[i]? = some .idle) :
    Inv ({ w with
      made := w.made + 1
      tasks := Function.update w.tasks w.made {} }.setCaller i (.making w.made)) := by
  have hset := fun t => ledger_setCaller (b := .making w.made) h t
  refine @Inv.moved w _ hw hw.ring w.made (fun t ht => ?_) ?_
  · obtain ⟨place, owes, refuses, makes, hone, hplace, howes, hrefuses, hmakes⟩ := hset t
    simp [Caller.drops, Caller.owes] at hplace howes
    simp [Caller.refuses, Caller.makes, Ne.symm ht] at hrefuses hmakes
    rw [hplace, howes, hrefuses, hmakes] at hone
    refine Eq.trans ?_ hone
    have hborn : t < w.made + 1 ↔ t < w.made :=
      ⟨fun h => Nat.lt_of_le_of_ne (Nat.le_of_lt_succ h) ht, Nat.lt_succ_of_lt⟩
    ext
    · exact decide_eq_decide.mpr hborn
    all_goals simp only [World.ledger, World.setCaller, Function.update_of_ne ht]
  · have hborn : (w.ledger w.made).born = false := decide_eq_false (Nat.lt_irrefl _)
    obtain ⟨place, owes, refuses, makes, hone, hplace, howes, hrefuses, hmakes⟩ := hset w.made
    simp [Caller.drops, Caller.owes] at hplace howes
    simp [Caller.refuses, Caller.makes] at hrefuses hmakes
    rw [hplace, howes, hrefuses, hmakes] at hone
    have hmade := (hw.fair w.made).makes hborn
    convert hmade using 1
    have hone' := Ledger.ext_iff.mp hone
    simp only [World.ledger, World.setCaller, Function.update_self] at hone' ⊢
    simp [hone']

theorem Inv.await (hw : Inv w) (hborn : u < w.made) : Inv (w.await u) := by
  unfold World.await
  split
  · exact hw
  · rename_i htaken
    refine @Inv.moved w _ hw hw.ring u (fun t ht => ?_) ?_
    · rw [ledger_modify_ne ht]
      simp only [World.ledger, count_snoc, decide_eq_false (Ne.symm ht)]
      rfl
    · convert (hw.fair u).takes (decide_eq_true hborn) (Bool.eq_false_iff.mpr htaken) using 1
      simp only [World.ledger, World.modify, Function.update_self, count_snoc, decide_true,
        Bool.toNat_true]
      rfl

/-- The call of `async` is over: the wrapper is answered, and the queue has taken the task or
has not. -/
theorem Inv.submitted (hw : Inv w) (hring : w'.pool.queue.Denotes w'.pool.queued) (u : TaskId)
    (queued : Bool)
    (hledger : ∀ t, ∃ makes, makes + (decide (u = t)).toNat = (w.ledger t).makes ∧
      w'.ledger t = { w.ledger t with
        holds := (w.ledger t).holds + (decide (u = t)).toNat
        live := (w.ledger t).live + (decide (u = t)).toNat
        makes := makes
        place := (w.ledger t).place + (queued && decide (u = t)).toNat
        handed := (w.ledger t).handed + (queued && decide (u = t)).toNat
        refuses := (w.ledger t).refuses + (!queued && decide (u = t)).toNat }) : Inv w' := by
  refine hw.moved hring u (fun t ht => ?_) ?_
  · obtain ⟨makes, hmakes, hone⟩ := hledger t
    rw [decide_eq_false (Ne.symm ht), Bool.toNat_false, Nat.add_zero] at hmakes
    rw [hone, hmakes, decide_eq_false (Ne.symm ht)]
    ext <;> simp
  · obtain ⟨makes, hmakes, hone⟩ := hledger u
    rw [decide_eq_true rfl] at hmakes hone
    rw [Bool.and_true, Bool.and_true] at hone
    rw [hone]
    exact (hw.fair u).submits hmakes queued

theorem ledger_held (w : World) (u t : TaskId) : ((w.wrapOne u).retain u).ledger t =
    { w.ledger t with
      holds := (w.ledger t).holds + (decide (u = t)).toNat
      live := (w.ledger t).live + (decide (u = t)).toNat } := by
  by_cases ht : t = u
  · subst ht
    rw [ledger_retain, ledger_wrapOne, decide_eq_true rfl]
    rfl
  · rw [ledger_retain_ne ht, ledger_wrapOne, decide_eq_false (Ne.symm ht)]
    ext <;> simp

theorem Inv.submit (hw : Inv w) (h : w.pool.callers[i]? = some (.wrapped u)) (grows : Bool) :
    Inv (w.submit i u grows) := by
  unfold World.submit
  dsimp only
  split
  · rename_i pool hpush
    have hputs : Pool.Puts w.pool pool u := by
      split at hpush
      · exact Pool.Puts.queuePush hw.ring hpush
      · cases hpush
    have hcaller : pool.callers[i]? = some (.wrapped u) := by rw [hputs.callers, h]
    refine hw.submitted hputs.ring u true fun t => ?_
    have htaken : ({ (w.wrapOne u).retain u with
        pool := pool, handed := w.handed ++ [u] } : World).ledger t =
        { ((w.wrapOne u).retain u).ledger t with
          place := (w.ledger t).place + (decide (u = t)).toNat
          handed := (w.ledger t).handed + (decide (u = t)).toNat } := by
      ext <;> try rfl
      · exact hputs.place t
      · simp only [World.ledger, Pool.owes, hputs.workers, hputs.callers]
        rfl
      · simp only [World.ledger, Pool.refuses, hputs.callers]
        rfl
      · simp only [World.ledger, Pool.makes, hputs.callers]
        rfl
      · exact count_snoc ..
    obtain ⟨place, owes, refuses, makes, hone, hplace, howes, hrefuses, hmakes⟩ :=
      ledger_setCaller (w := { (w.wrapOne u).retain u with
        pool := pool, handed := w.handed ++ [u] }) (b := .idle) hcaller t
    rw [htaken, ledger_held] at hone hplace howes hrefuses hmakes
    simp [Caller.drops, Caller.owes] at hplace howes
    simp [Caller.refuses, Caller.makes] at hrefuses hmakes
    refine ⟨makes, hmakes, hone.trans ?_⟩
    rw [hplace, howes, hrefuses]
    ext <;> simp
  · refine hw.submitted hw.ring u false fun t => ?_
    obtain ⟨place, owes, refuses, makes, hone, hplace, howes, hrefuses, hmakes⟩ :=
      ledger_setCaller (w := (w.wrapOne u).retain u) (b := .refused u) h t
    rw [ledger_held] at hone hplace howes hrefuses hmakes
    simp [Caller.drops, Caller.owes] at hplace howes
    simp [Caller.refuses, Caller.makes] at hrefuses hmakes
    refine ⟨makes, hmakes, hone.trans ?_⟩
    rw [hplace, howes, hrefuses]
    ext <;> simp

/-! ### Steps that no ledger sees -/

theorem afterTurn_kept (meets : Meets) (task : Task) :
    (afterTurn meets task).2.holds = task.holds ∧ (afterTurn meets task).2.freed = task.freed ∧
      (afterTurn meets task).2.finished = task.finished ∧
      (afterTurn meets task).2.taken = task.taken := by
  unfold afterTurn
  split
  · exact ⟨rfl, rfl, rfl, rfl⟩
  · split
    · split <;> exact ⟨rfl, rfl, rfl, rfl⟩
    · split
      · exact ⟨rfl, rfl, rfl, rfl⟩
      · dsimp only
        split
        all_goals
          split
          · exact ⟨rfl, rfl, rfl, rfl⟩
          · split <;> exact ⟨rfl, rfl, rfl, rfl⟩
  · exact ⟨rfl, rfl, rfl, rfl⟩

theorem taskTurn_kept (meets : Meets) (task : Task) :
    (taskTurn meets task).2.holds = task.holds ∧ (taskTurn meets task).2.freed = task.freed ∧
      (taskTurn meets task).2.finished = task.finished ∧
      (taskTurn meets task).2.taken = task.taken := by
  unfold taskTurn
  split
  · unfold taskBegin
    dsimp only
    split
    · exact ⟨rfl, rfl, rfl, rfl⟩
    · split <;> exact afterTurn_kept ..
  · exact afterTurn_kept ..
  · exact afterTurn_kept ..
  · exact ⟨rfl, rfl, rfl, rfl⟩

theorem taskConclude_kept (detaching : Detaching) (task : Task) :
    (taskConclude detaching task).holds = task.holds ∧
      (taskConclude detaching task).freed = task.freed ∧
      (taskConclude detaching task).finished = task.finished ∧
      (taskConclude detaching task).taken = task.taken := by
  unfold taskConclude
  split
  · cases detaching <;> exact ⟨rfl, rfl, rfl, rfl⟩
  · exact ⟨rfl, rfl, rfl, rfl⟩

theorem Inv.works {a : Worker} (hw : Inv w) (h : w.pool.workers[i]? = some a) (b : Worker)
    (hworks : ∀ t, b.works t = a.works t) (howes : ∀ t, b.owes t = a.owes t) (f : Task → Task)
    (hf : ∀ task, (f task).holds = task.holds ∧ (f task).freed = task.freed ∧
      (f task).finished = task.finished ∧ (f task).taken = task.taken) :
    Inv ((w.modify u f).setWorker i b) := by
  have hmodified := hw.quiet (Quiet.modify hw (hf (w.tasks u)))
  have hworker : (w.modify u f).pool.workers[i]? = some a := h
  exact hmodified.quiet (Quiet.setWorker hmodified hworker hworks howes)

theorem Inv.file {step : StepResult} (hw : Inv w) (h : w.pool.workers[i]? = some (.turned u step))
    (grows : Bool) : Inv (w.file i u step grows) := by
  unfold World.file
  split
  · exact hw.quiet (Quiet.setWorker hw h (fun _ => rfl) fun _ => rfl)
  · split
    · rename_i pool hfile
      exact hw.quiet (Quiet.puts hw h (fun _ => rfl) (fun _ => rfl)
        (Pool.Puts.file hw.ring hfile))
    · exact hw.works h (.ending u) (fun _ => rfl) (fun _ => rfl)
        (fun t => { t with status := .suspended }) fun _ => ⟨rfl, rfl, rfl, rfl⟩

theorem Inv.take (hw : Inv w) (h : w.pool.workers[i]? = some .idle)
    (hpop : w.pool.queuePop = some (u, p')) :
    Inv ({ w with pool := p' }.setWorker i (.holding u)) := by
  obtain ⟨hputs, hring⟩ := Pool.Puts.queuePop hw.ring hpop
  have hworker : p'.workers[i]? = some .idle := by rw [← hputs.workers, h]
  refine hw.quiet { Quiet.refl hw with
    ring := hring
    place := fun t => ?_
    owes := fun t => ?_
    refuses := fun t => ?_
    makes := fun t => ?_ }
  · have hset := Pool.setWorker_place (b := .holding u) (t := t) hworker
    have hplace := hputs.place t
    simp [Worker.works] at hset
    change (p'.setWorker i (.holding u)).place t = _
    omega
  · have hset := Pool.setWorker_owes (b := .holding u) (t := t) hworker
    simp [Worker.owes] at hset
    refine hset.trans ?_
    simp only [Pool.owes, hputs.workers, hputs.callers]
  · change p'.callers.countP _ = w.pool.callers.countP _
    rw [hputs.callers]
  · change p'.callers.countP _ = w.pool.callers.countP _
    rw [hputs.callers]

theorem Inv.drops (hw : Inv w)
    (h : w.pool.callers[i]? = some (.stopping overParked after)) (hputs : Pool.Puts p' w.pool u)
    (hring : p'.queue.Denotes p'.queued)
    (hf : ∀ task, (f task).holds = task.holds ∧ (f task).freed = task.freed ∧
      (f task).finished = task.finished ∧ (f task).taken = task.taken) :
    Inv (({ w with pool := p' }.modify u f).setCaller i (.dropping u overParked after)) := by
  have hcaller : p'.callers[i]? = some (.stopping overParked after) := by
    rw [← hputs.callers, h]
  have hset : Quiet w ({ w with pool := p' }.setCaller i (.dropping u overParked after)) := by
    refine { Quiet.refl hw with
      ring := hring
      place := fun t => ?_
      owes := fun t => ?_
      refuses := fun t => ?_
      makes := fun t => ?_ }
    · have hset := Pool.setCaller_place (b := .dropping u overParked after) (t := t) hcaller
      have hplace := hputs.place t
      simp [Caller.drops] at hset
      change (p'.setCaller i (.dropping u overParked after)).place t = _
      omega
    · have hset := Pool.setCaller_owes (b := .dropping u overParked after) (t := t) hcaller
      refine hset.trans ?_
      simp only [Pool.owes, hputs.workers, hputs.callers]
      rfl
    · have hset := Pool.setCaller_refuses (b := .dropping u overParked after) (t := t) hcaller
      refine hset.trans ?_
      simp only [Pool.refuses, hputs.callers]
      rfl
    · have hset := Pool.setCaller_makes (b := .dropping u overParked after) (t := t) hcaller
      refine hset.trans ?_
      simp only [Pool.makes, hputs.callers]
      rfl
  have hdropping := hw.quiet hset
  exact hdropping.quiet (Quiet.modify hdropping (hf _))

theorem unpark (hw : Inv w) (h : w.pool.parked.getLast? = some u) :
    Pool.Puts { w.pool with parked := w.pool.parked.dropLast } w.pool u := by
  obtain ⟨l, hl⟩ := List.getLast?_eq_some_iff.mp h
  refine ⟨hw.ring, fun t => ?_, rfl, rfl⟩
  have hcount := count_snoc l u t
  change w.pool.queued.count t + w.pool.parked.count t + _ + _ =
    w.pool.queued.count t + w.pool.parked.dropLast.count t + _ + _ + _
  rw [hl, List.dropLast_concat]
  dsimp only
  omega

theorem Inv.setCaller (hw : Inv w) (h : w.pool.callers[i]? = some a)
    (hb : ∀ t, b.drops t = a.drops t ∧ b.owes t = a.owes t ∧ b.refuses t = a.refuses t ∧
      b.makes t = a.makes t) : Inv (w.setCaller i b) :=
  hw.quiet (Quiet.setCaller hw h (fun t => (hb t).1) (fun t => (hb t).2.1)
    (fun t => (hb t).2.2.1) fun t => (hb t).2.2.2)

theorem stopped_has (after : After) (t : TaskId) :
    (World.stopped after).drops t = false ∧ (World.stopped after).owes t = false ∧
      (World.stopped after).refuses t = false ∧ (World.stopped after).makes t = false := by
  cases after <;> exact ⟨rfl, rfl, rfl, rfl⟩

theorem Inv.drain (hw : Inv w) (h : w.pool.callers[i]? = some (.stopping overParked after)) :
    Inv (w.drain i overParked after) := by
  unfold World.drain
  split
  · rename_i hover
    subst hover
    split
    · rename_i u hlast
      exact hw.drops h (unpark hw hlast) hw.ring fun _ => ⟨rfl, rfl, rfl, rfl⟩
    · exact hw.setCaller h (stopped_has after)
  · rename_i hover
    have hover := Bool.eq_false_iff.mpr hover
    subst hover
    split
    · rename_i u pool hpop
      obtain ⟨hputs, hring⟩ := Pool.Puts.queuePop hw.ring hpop
      exact hw.drops h hputs hring fun _ => ⟨rfl, rfl, rfl, rfl⟩
    · exact hw.setCaller h fun _ => ⟨rfl, rfl, rfl, rfl⟩

theorem Inv.setRunning (hw : Inv w) (running : Bool) :
    Inv { w with pool := { w.pool with running := running } } :=
  hw.quiet { Quiet.refl hw with
    ring := hw.ring
    place := fun _ => rfl
    owes := fun _ => rfl
    refuses := fun _ => rfl
    makes := fun _ => rfl }

theorem Inv.stop (hw : Inv w) (h : w.pool.callers[i]? = some a)
    (ha : ∀ t, a.drops t = false ∧ a.owes t = false ∧ a.refuses t = false ∧ a.makes t = false)
    (after : After) : Inv (w.stop i after) := by
  have hnone : ∀ b : Caller, (∀ t, b.drops t = false ∧ b.owes t = false ∧ b.refuses t = false ∧
      b.makes t = false) → ∀ t, b.drops t = a.drops t ∧ b.owes t = a.owes t ∧
      b.refuses t = a.refuses t ∧ b.makes t = a.makes t := by
    intro b hb t
    obtain ⟨ha₁, ha₂, ha₃, ha₄⟩ := ha t
    rw [ha₁, ha₂, ha₃, ha₄]
    exact hb t
  unfold World.stop
  split
  · exact (hw.setRunning false).setCaller h (hnone _ fun _ => ⟨rfl, rfl, rfl, rfl⟩)
  · exact hw.setCaller h (hnone _ (stopped_has after))

theorem Inv.moveReady (hw : Inv w) (stays grows : TaskId → Bool) :
    Inv (w.moveReady stays grows) := by
  rcases hmoved : Pool.moveEach stays grows w.pool.parked w.pool with ⟨kept, p'⟩
  obtain ⟨hring, hp, hcount⟩ := Pool.moveEach_place stays grows _ hw.ring hmoved
  have hready : w.pool.moveReady stays grows = { p' with parked := kept } := by
    rw [Pool.moveReady, hmoved]
  have hpool : (w.moveReady stays grows).pool = { p' with parked := kept } := hready
  have hworkers : p'.workers = w.pool.workers := by rw [hp]
  have hcallers : p'.callers = w.pool.callers := by rw [hp]
  refine hw.quiet { Quiet.refl hw with
    ring := ?_
    place := fun t => ?_
    owes := fun t => ?_
    refuses := fun t => ?_
    makes := fun t => ?_
    tasks := fun t => ?_ }
  · rw [hpool]
    exact hring
  · rw [hpool]
    have := hcount t
    change p'.queued.count t + kept.count t + p'.workers.countP _ + p'.callers.countP _ = _
    rw [hworkers, hcallers]
    simp only [Pool.place]
    omega
  · rw [hpool]
    simp only [Pool.owes, hworkers, hcallers]
  · rw [hpool]
    simp only [Pool.refuses, hcallers]
  · rw [hpool]
    simp only [Pool.makes, hcallers]
  · unfold World.moveReady
    dsimp only
    split <;> exact ⟨rfl, rfl, rfl, rfl⟩

theorem Inv.spawned (hw : Inv w) :
    Inv { w with pool := { w.pool with workers := w.pool.workers ++ [Worker.idle] } } :=
  hw.quiet { Quiet.refl hw with
    ring := hw.ring
    place := fun t => by
      simp [Pool.place, Pool.queued, List.countP_append, Worker.works]
    owes := fun t => by
      simp [Pool.owes, List.countP_append, Worker.owes]
    refuses := fun _ => rfl
    makes := fun _ => rfl }

theorem Inv.called (hw : Inv w) :
    Inv { w with pool := { w.pool with callers := w.pool.callers ++ [Caller.idle] } } :=
  hw.quiet { Quiet.refl hw with
    ring := hw.ring
    place := fun t => by
      simp [Pool.place, Pool.queued, List.countP_append, Caller.drops]
    owes := fun t => by
      simp [Pool.owes, List.countP_append, Caller.owes]
    refuses := fun t => by
      simp [Pool.refuses, List.countP_append, Caller.refuses]
    makes := fun t => by
      simp [Pool.makes, List.countP_append, Caller.makes] }

end Lhat.Tasks
