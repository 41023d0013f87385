import Lhat.Channel.Basic
import Mathlib.Data.List.Nodup
import Mathlib.Data.List.Perm.Basic

/-!
# Waits that are told

A wait that was armed through the channel stands on its list until a push takes it off, and
that push tells it. A supply puts an item in as well and takes no wait off the list.
-/

namespace Lhat.Channels

open World

variable {i p : Nat} {w : World} {a : AsyncModule}

/-! ### The table of waits -/

namespace AsyncModule

/-- Waits were taken out of the table or came ready, and nothing else happened to it. -/
structure Settles (a a' : AsyncModule) : Prop where
  nextId : a'.nextId = a.nextId
  once : (a.waits.map Waiting.id).Nodup → (a'.waits.map Waiting.id).Nodup
  waits : ∀ wait ∈ a'.waits, ∃ before ∈ a.waits, before.id = wait.id ∧
    (wait.ready = false → before = wait)

variable {a : AsyncModule}

theorem Settles.refl (a : AsyncModule) : Settles a a :=
  ⟨rfl, id, fun wait h => ⟨wait, h, rfl, fun _ => rfl⟩⟩

theorem remove_perm (hi : i < a.waits.length) : (a.remove i).waits.Perm (a.waits.eraseIdx i) := by
  obtain ⟨init, last, hsnoc⟩ : ∃ init last, a.waits = init ++ [last] := by
    rcases List.eq_nil_or_concat a.waits with hnil | ⟨init, last, hsnoc⟩
    · rw [hnil] at hi
      exact absurd hi (Nat.not_lt_zero _)
    · exact ⟨init, last, hsnoc.trans (List.concat_eq_append ..)⟩
  rw [hsnoc, List.length_append, List.length_singleton] at hi
  unfold remove
  rw [hsnoc, List.getLast?_concat]
  dsimp only
  rcases Nat.lt_or_ge i init.length with hlt | hge
  · rw [List.set_append_left _ _ hlt, List.dropLast_concat, List.eraseIdx_append_of_lt_length hlt]
    exact (List.set_perm_cons_eraseIdx hlt last).trans (List.perm_append_singleton _ _).symm
  · have heq : i = init.length := by omega
    rw [List.set_append_right _ _ hge, List.eraseIdx_append_of_length_le hge, heq, Nat.sub_self]
    simp

theorem settles_remove (hi : i < a.waits.length) : Settles a (a.remove i) := by
  have hperm := remove_perm hi
  refine ⟨?_, fun honce => ?_, fun wait hwait => ?_⟩
  · unfold remove
    split <;> rfl
  · exact (hperm.map Waiting.id).nodup_iff.mpr
      (honce.sublist ((List.eraseIdx_sublist ..).map Waiting.id))
  · exact ⟨wait, List.mem_of_mem_eraseIdx (hperm.mem_iff.mp hwait), rfl, fun _ => rfl⟩

theorem settles_takeReady (m : Nat) (now : Int) : Settles a (a.takeReady m now) := by
  unfold takeReady
  split
  · exact .refl a
  · rename_i i hfind
    exact settles_remove (List.findIdx?_eq_some_iff_getElem.mp hfind).1

theorem settles_takeThis (m : Nat) (now : Int) (id : Nat) : Settles a (a.takeThis m now id).2 := by
  unfold takeThis
  split
  · exact .refl a
  · rename_i i hfind
    split
    · exact settles_remove (List.findIdx?_eq_some_iff_getElem.mp hfind).1
    · exact .refl a

theorem settles_drop (m id : Nat) : Settles a (a.drop m id) := by
  unfold drop
  split
  · exact .refl a
  · rename_i i hfind
    exact settles_remove (List.findIdx?_eq_some_iff_getElem.mp hfind).1

theorem mem_modify {waits : List Waiting} {wait : Waiting}
    (h : wait ∈ waits.modify i fun wait => { wait with ready := true }) :
    ∃ j before, waits[j]? = some before ∧
      wait = if i = j then { before with ready := true } else before := by
  obtain ⟨j, hj⟩ := List.mem_iff_getElem?.mp h
  rw [List.getElem?_modify] at hj
  obtain ⟨before, hbefore, heq⟩ := Option.map_eq_some_iff.mp hj
  refine ⟨j, before, hbefore, heq.symm.trans ?_⟩
  split <;> rfl

theorem settles_complete (id : Nat) : Settles a (a.complete id) := by
  unfold complete
  split
  · exact .refl a
  · rename_i i hfind
    have hsame : (a.waits.modify i fun wait => { wait with ready := true }).map Waiting.id =
        a.waits.map Waiting.id := by
      refine List.ext_getElem? fun j => ?_
      rw [List.getElem?_map, List.getElem?_map, List.getElem?_modify]
      cases a.waits[j]? with
      | none => rfl
      | some wait => by_cases hj : i = j <;> simp [hj]
    refine ⟨rfl, fun honce => hsame ▸ honce, fun wait hwait => ?_⟩
    obtain ⟨j, before, hbefore, rfl⟩ := mem_modify hwait
    refine ⟨before, List.mem_of_getElem? hbefore, ?_, fun hready => ?_⟩
    · split <;> rfl
    · split at hready
      · cases hready
      · rename_i hne
        rw [if_neg hne]

theorem ready_of_complete {id : Nat} (honce : (a.waits.map Waiting.id).Nodup) {wait : Waiting}
    (hwait : wait ∈ (a.complete id).waits) (hid : wait.id = id) : wait.ready = true := by
  unfold complete at hwait
  split at hwait
  · rename_i hnone
    have := List.findIdx?_eq_none_iff.mp hnone wait hwait
    simp [hid] at this
  · rename_i i hfind
    obtain ⟨hi, hat, -⟩ := List.findIdx?_eq_some_iff_getElem.mp hfind
    obtain ⟨j, before, hbefore, rfl⟩ := mem_modify hwait
    obtain ⟨hj, rfl⟩ := List.getElem?_eq_some_iff.mp hbefore
    split at hid
    · rename_i heq
      rw [if_pos heq]
    · rename_i hne
      have hi' : i < (a.waits.map Waiting.id).length := by simpa using hi
      have hj' : j < (a.waits.map Waiting.id).length := by simpa using hj
      have heq : (a.waits.map Waiting.id)[i] = (a.waits.map Waiting.id)[j] := by
        rw [List.getElem_map, List.getElem_map, hid]
        simpa using hat
      exact absurd (honce.getElem_inj_iff.mp heq) hne

end AsyncModule

/-! ### Who tells a wait -/

/-- Nothing is left to be told. -/
def Doing.silent : Doing → Bool
  | .telling (_ :: _) => false
  | _ => true

namespace World

theorem setAsync_self : (w.setAsync p a).async p = a :=
  Function.update_self ..

theorem setAsync_ne {q : Nat} (h : q ≠ p) : (w.setAsync p a).async q = w.async q :=
  Function.update_of_ne h ..

/-- The wait is on the list and nothing was pushed since it was armed. -/
def Listed (w : World) (waiter : Waiter) (armedAt : Nat) : Prop :=
  waiter ∈ w.channel.waiters ∧ armedAt = w.pushed.length

/-- Some machine has taken the wait off the list and has still to tell it. -/
def Told (w : World) (waiter : Waiter) : Prop :=
  ∃ m waiters, w.doing m = .telling waiters ∧ waiter ∈ waiters

theorem Told.does {waiter : Waiter} (h : w.Told waiter) {m : Nat}
    (hsilent : (w.doing m).silent = true) (d : Doing) : (w.does m d).Told waiter := by
  obtain ⟨m', waiters, hdoing, hin⟩ := h
  refine ⟨m', waiters, ?_, hin⟩
  by_cases heq : m' = m
  · rw [← heq, hdoing] at hsilent
    cases waiters with
    | nil => cases hin
    | cons waiter waiters => cases hsilent
  · rw [← hdoing]
    exact Function.update_of_ne heq ..

end World

theorem popLocked_waiters (c : Channel) : c.popLocked.2.waiters = c.waiters := by
  unfold Channel.popLocked
  split <;> rfl

theorem popAll_waiters (n : Nat) (c : Channel) : (c.popAll n).2.waiters = c.waiters := by
  induction n generalizing c with
  | zero => rfl
  | succ n ih => exact (ih _).trans (popLocked_waiters c)

structure Heeded (w : World) : Prop where
  fresh : ∀ p, ∀ wait ∈ (w.async p).waits, wait.id < (w.async p).nextId
  once : ∀ p, ((w.async p).waits.map Waiting.id).Nodup
  armed : ∀ x n, (x, n) ∈ w.armed → x.id < (w.async x.waits).nextId
  heeded : ∀ x n, (x, n) ∈ w.armed → ∀ wait ∈ (w.async x.waits).waits, wait.id = x.id →
    wait.ready = false → w.Listed x n ∨ w.Told x

namespace Heeded

variable {w : World} {m : Nat}

theorem start : Heeded .start :=
  ⟨fun _ _ h => (nomatch h), fun _ => .nil, fun _ _ h => (nomatch h), fun _ _ h => (nomatch h)⟩

section

variable (h : Heeded w)
include h

theorem settles {w' : World}
    (hasync : ∀ p, (w.async p).Settles (w'.async p)) (harmed : w'.armed = w.armed)
    (hheeded : ∀ x n, (x, n) ∈ w.armed → ∀ wait ∈ (w'.async x.waits).waits, wait.id = x.id →
      wait.ready = false → w.Listed x n ∨ w.Told x → w'.Listed x n ∨ w'.Told x) : Heeded w' where
  fresh := by
    intro p wait hwait
    obtain ⟨before, hbefore, hid, -⟩ := (hasync p).waits wait hwait
    rw [(hasync p).nextId, ← hid]
    exact h.fresh p before hbefore
  once := fun p => (hasync p).once (h.once p)
  armed := by
    intro x n hx
    rw [(hasync x.waits).nextId]
    exact h.armed x n (harmed ▸ hx)
  heeded := by
    intro x n hx wait hwait hid hready
    rw [harmed] at hx
    obtain ⟨before, hbefore, -, hsame⟩ := (hasync x.waits).waits wait hwait
    rw [hsame hready] at hbefore
    exact hheeded x n hx wait hwait hid hready (h.heeded x n hx wait hbefore hid hready)

theorem setAsync (ha : (w.async p).Settles a) : Heeded (w.setAsync p a) := by
  refine h.settles (fun q => ?_) rfl fun _ _ _ _ _ _ _ => id
  by_cases hq : q = p
  · rw [hq, setAsync_self]
    exact ha
  · rw [setAsync_ne hq]
    exact .refl _

theorem does (hsilent : (w.doing m).silent = true) (d : Doing) :
    Heeded (w.does m d) :=
  h.settles (fun _ => .refl _) rfl fun _ _ _ _ _ _ _ => Or.imp id fun htold => htold.does hsilent d

theorem congr (w' : World) (hasync : w'.async = w.async)
    (harmed : w'.armed = w.armed) (hwaiters : w'.channel.waiters = w.channel.waiters)
    (hpushed : w'.pushed = w.pushed) (hdoing : w'.doing = w.doing) : Heeded w' := by
  refine h.settles (fun p => hasync ▸ .refl _) harmed fun x n _ _ _ _ _ => ?_
  unfold World.Listed World.Told
  rw [hwaiters, hpushed, hdoing]
  exact id

theorem addWait (p : Nat) (owner : Option Nat) (timed : Bool) (dueMs : Int) :
    Heeded (w.setAsync p ((w.async p).addWait owner timed dueMs)) where
  fresh := by
    intro q wait hwait
    by_cases hq : q = p
    · rw [hq, setAsync_self] at hwait ⊢
      rcases List.mem_append.mp hwait with hold | hnew
      · exact Nat.lt_succ_of_lt (h.fresh p wait hold)
      · rw [List.mem_singleton.mp hnew]
        exact Nat.lt_succ_self _
    · rw [setAsync_ne hq] at hwait ⊢
      exact h.fresh q wait hwait
  once := by
    intro q
    by_cases hq : q = p
    · rw [hq, setAsync_self, AsyncModule.addWait, List.map_append]
      refine List.nodup_append.mpr ⟨h.once p, by simp, fun i hi j hj => ?_⟩
      obtain ⟨wait, hwait, rfl⟩ := List.mem_map.mp hi
      rw [List.mem_singleton.mp hj]
      exact Nat.ne_of_lt (h.fresh p wait hwait)
    · rw [setAsync_ne hq]
      exact h.once q
  armed := by
    intro x n hx
    by_cases hq : x.waits = p
    · rw [hq, setAsync_self]
      exact Nat.lt_succ_of_lt (hq ▸ h.armed x n hx)
    · rw [setAsync_ne hq]
      exact h.armed x n hx
  heeded := by
    intro x n hx wait hwait hid hready
    by_cases hq : x.waits = p
    · rw [hq, setAsync_self] at hwait
      rcases List.mem_append.mp hwait with hold | hnew
      · exact h.heeded x n hx wait (hq ▸ hold) hid hready
      · have hfresh := h.armed x n hx
        rw [List.mem_singleton.mp hnew] at hid
        rw [hq, ← hid] at hfresh
        exact absurd hfresh (Nat.lt_irrefl _)
    · rw [setAsync_ne hq] at hwait
      exact h.heeded x n hx wait hwait hid hready

theorem arm {x : Waiter} {c : Channel} (hid : x.id < (w.async x.waits).nextId)
    (hkept : ∀ y ∈ w.channel.waiters, y ∈ c.waiters)
    (hx : x ∈ c.waiters ∨ ∀ wait ∈ (w.async x.waits).waits, wait.id = x.id → wait.ready = true) :
    Heeded { w with channel := c, armed := w.armed ++ [(x, w.pushed.length)] } := by
  refine ⟨h.fresh, h.once, fun y n hy => ?_, fun y n hy wait hwait hwid hready => ?_⟩
  · rcases List.mem_append.mp hy with hy | hy
    · exact h.armed y n hy
    · cases List.mem_singleton.mp hy
      exact hid
  · rcases List.mem_append.mp hy with hy | hy
    · exact (h.heeded y n hy wait hwait hwid hready).imp (fun hl => ⟨hkept y hl.1, hl.2⟩) id
    · cases List.mem_singleton.mp hy
      rcases hx with hlisted | hallready
      · exact .inl ⟨hlisted, rfl⟩
      · rw [hallready wait hwait hwid] at hready
        cases hready

theorem armWait (waits : Option Nat) (grows remembered : Bool) :
    Heeded (w.armWait m waits grows remembered) := by
  unfold World.armWait
  split
  · exact h
  · rename_i p
    split
    · have hadded := h.addWait p (some m) false 0
      have hlt : (w.async p).nextId < ((w.async p).addWait (some m) false 0).nextId :=
        Nat.lt_succ_self _
      dsimp only
      split
      · refine hadded.arm (x := ⟨p, (w.async p).nextId⟩) ?_
          (fun y hy => List.mem_append_left _ hy)
          (.inl (List.mem_append_right _ (List.mem_singleton_self _)))
        rw [setAsync_self]
        exact hlt
      · have hcompleted : Heeded (w.setAsync p
            (((w.async p).addWait (some m) false 0).complete (w.async p).nextId)) := by
          have := hadded.setAsync (p := p) (AsyncModule.settles_complete (w.async p).nextId)
          rw [setAsync_self] at this
          unfold World.setAsync at this ⊢
          rwa [Function.update_idem] at this
        refine hcompleted.arm (x := ⟨p, (w.async p).nextId⟩) (c := w.channel) ?_ (fun y => id)
          (.inr fun wait hwait hid => ?_)
        · rw [setAsync_self, (AsyncModule.settles_complete _).nextId]
          exact hlt
        · rw [setAsync_self] at hwait
          have honce := hadded.once p
          rw [setAsync_self] at honce
          exact AsyncModule.ready_of_complete honce hwait hid
    · exact h

theorem take (hsilent : (w.doing m).silent = true) (c : Channel)
    (pushed : List Carried) :
    Heeded ({ w with channel := c, pushed := pushed }.does m (.telling w.channel.waiters)) := by
  refine h.settles (fun _ => .refl _) rfl fun x n _ _ _ _ _ hheeded => .inr ?_
  rcases hheeded with ⟨hin, -⟩ | htold
  · exact ⟨m, w.channel.waiters, Function.update_self .., hin⟩
  · exact htold.does hsilent _

theorem tell {x : Waiter} {waiters : List Waiter}
    (hdoing : w.doing m = .telling (x :: waiters)) :
    Heeded ((w.setAsync x.waits ((w.async x.waits).complete x.id)).does m (.telling waiters)) := by
  refine h.settles (fun p => ?_) rfl fun y n _ wait hwait hid hready => Or.imp id ?_
  · by_cases hp : p = x.waits
    · rw [hp]
      exact (setAsync_self (w := w)).symm ▸ AsyncModule.settles_complete x.id
    · exact (setAsync_ne (w := w) hp).symm ▸ .refl _
  · rintro ⟨m', waiters', hdoing', hin⟩
    by_cases hm : m' = m
    · rw [hm, hdoing] at hdoing'
      cases hdoing'
      rcases List.mem_cons.mp hin with rfl | hin
      · rw [show ((w.setAsync y.waits ((w.async y.waits).complete y.id)).does m
          (.telling waiters)).async y.waits = _ from setAsync_self] at hwait
        rw [AsyncModule.ready_of_complete (h.once y.waits) hwait hid] at hready
        cases hready
      · exact ⟨m, waiters, Function.update_self .., hin⟩
    · exact ⟨m', waiters', (Function.update_of_ne hm ..).trans hdoing', hin⟩

section

variable (hsilent : (w.doing m).silent = true)
include hsilent

theorem refuse (item : Carried) :
    Heeded (w.refuse m item) :=
  (h.congr { w with released := w.released ++ [item] } rfl rfl rfl rfl rfl).does hsilent
    .idle

theorem push (item : Carried) (grows : Bool) :
    Heeded (w.push m item grows) := by
  unfold World.push
  split
  · exact h.refuse hsilent item
  · rename_i id pushed hpush
    obtain ⟨items, -, heq⟩ := Option.map_eq_some_iff.mp hpush
    cases heq
    exact h.take hsilent _ _

theorem supply {item : Carried} {grows : Bool}
    (hnone : (w.channel.items.makeRoom grows).isSome → w.channel.waiters = []) :
    Heeded (w.supply m item grows) := by
  unfold World.supply
  split
  · exact h.refuse hsilent item
  · rename_i id pushed hpush
    obtain ⟨items, hroom, heq⟩ := Option.map_eq_some_iff.mp hpush
    cases heq
    refine h.settles (fun _ => .refl _) rfl fun x n _ _ _ _ _ hheeded => .inr ?_
    rcases hheeded with ⟨hin, -⟩ | htold
    · rw [hnone (by rw [hroom]; rfl)] at hin
      cases hin
    · exact htold.does hsilent _

theorem pop {otherwise : World → World}
    (hother : Heeded (otherwise w)) : Heeded (w.pop m otherwise) := by
  unfold World.pop
  split
  · exact hother
  · rename_i item popped hpop
    have hwaiters : popped.waiters = w.channel.waiters := by
      have := popLocked_waiters w.channel
      rwa [hpop] at this
    refine (h.congr { w with channel := popped, left := w.left ++ [(item, .handed m)] }
      rfl rfl hwaiters rfl rfl).does hsilent _

end

end

end Heeded

/-- A supply that gets room for its item finds no wait on the list. -/
def Heard (w : World) : Move → Prop
  | .supply _ grows => (w.channel.items.makeRoom grows).isSome → w.channel.waiters = []
  | _ => True

variable {waitsOf : Nat → Option Nat} {w w' : World} {move : Move}

theorem Heeded.step (h : Heeded w) (hheard : Heard w move) (hstep : Step waitsOf w move w') :
    Heeded w' := by
  cases hstep with
  | carry supplies hdoing =>
    exact (h.congr { w with carried := w.carried + 1 } rfl rfl rfl rfl rfl).does
      (by rw [hdoing]; rfl) _
  | push grows hdoing _ => exact h.push (by rw [hdoing]; rfl) _ grows
  | supply grows hdoing _ => exact h.supply (by rw [hdoing]; rfl) hheard
  | tell hdoing => exact h.tell hdoing
  | told hdoing => exact h.does (by rw [hdoing]; rfl) _
  | settle hdoing _ _ => exact h.does (by rw [hdoing]; rfl) _
  | giveUp hdoing =>
    refine h.does ?_ _
    rcases hdoing with hdoing | ⟨item, id, hdoing⟩ <;> rw [hdoing] <;> rfl
  | pop hdoing _ => exact h.pop (by rw [hdoing]; rfl) h
  | demands hdoing => exact h.does (by rw [hdoing]; rfl) _
  | demand hdoing _ =>
    refine h.pop (by rw [hdoing]; rfl) ?_
    split
    · exact h.does (by rw [hdoing]; rfl) _
    · exact h
  | @rebuild m item hdoing =>
    exact (h.congr { w with released := w.released ++ [item] } rfl rfl rfl rfl rfl).does
      (by rw [hdoing]; rfl) _
  | look _ _ => exact h
  | clear _ _ => exact h.congr _ rfl rfl (popAll_waiters _ _) rfl rfl
  | atomic _ _ => exact h.congr _ rfl rfl rfl rfl rfl
  | leaveAtomic _ _ => exact h.congr _ rfl rfl rfl rfl rfl
  | awaitable grows remembered _ _ =>
    unfold World.awaitable
    split
    · exact h.armWait _ grows remembered
    · exact h
  | takeStep grows remembered hdoing _ =>
    exact h.pop (by rw [hdoing]; rfl) (h.armWait _ grows remembered)
  | arm owner timed dueMs => exact h.addWait _ owner timed dueMs
  | drop id _ => exact h.setAsync (AsyncModule.settles_drop _ id)
  | wait now _ => exact h.setAsync (AsyncModule.settles_takeReady _ now)
  | complete id => exact h.setAsync (AsyncModule.settles_complete id)
  | afterTurn now id _ hdoing =>
    exact (h.setAsync (AsyncModule.settles_takeThis _ now id)).does
      (show (w.doing _).silent = true by rw [hdoing]; rfl) _
  | park filed hdoing => exact h.does (by rw [hdoing]; rfl) _
  | moveReady now grows _ hdoing =>
    exact (h.setAsync (AsyncModule.settles_takeThis _ now _)).does
      (show (w.doing _).silent = true by rw [hdoing]; rfl) _
  | free hdoing _ =>
    exact (h.take (by rw [hdoing]; rfl) w.channel.takeWaiters.2 w.pushed).congr _ rfl rfl rfl rfl rfl

/-- What a job that waits for the channel can rely on. -/
structure Wakes (w : World) : Prop where
  /-- A wait that was armed through the channel and is not ready is on the list, and nothing was
  pushed since, or a machine that took it off has still to tell it. -/
  told : ∀ x n, (x, n) ∈ w.armed → ∀ wait ∈ (w.async x.waits).waits, wait.id = x.id →
    wait.ready = false →
    (x ∈ w.channel.waiters ∧ n = w.pushed.length) ∨
      ∃ m waiters, w.doing m = .telling waiters ∧ x ∈ waiters
  /-- Where all was told, no job is parked on a wait that was armed before something was pushed
  and is not ready. -/
  unparked : (∀ m waiters, w.doing m ≠ .telling waiters) →
    ∀ m id x n, w.doing m = .parked id → (x, n) ∈ w.armed → x.id = id → n < w.pushed.length →
      ∀ wait ∈ (w.async x.waits).waits, wait.id = id → wait.ready = true

/-- No wake-up is lost as long as no supply finds a wait on the list. -/
theorem Reached.wakes (h : Reached waitsOf Heard w) : Wakes w := by
  have hheeded : Heeded w := by
    induction h with
    | start => exact .start
    | step _ hstep hheard ih => exact ih.step hheard hstep
  refine ⟨hheeded.heeded, fun htold m id x n _ hx hid hlater wait hwait hwid => ?_⟩
  by_contra hnot
  rcases hheeded.heeded x n hx wait hwait (hwid.trans hid.symm) (Bool.eq_false_iff.mpr hnot) with
    ⟨-, hnow⟩ | ⟨m', waiters, hdoing, -⟩
  · exact Nat.ne_of_lt hlater hnow
  · exact htold m' waiters hdoing

/-- A job is parked on an empty channel and woken by a push. -/
theorem wakes_pushed : ∃ w, Wakes w ∧ w.doing 0 = .parked 1 ∧ w.pushed = [0] ∧
    ((w.async 0).waits.map Waiting.ready) = [true] := by
  have hstart : Reached (fun _ => some 0) Heard .start := .start
  have harmed := hstart.step (.awaitable (m := 0) true true rfl rfl) trivial
  have hyielded := harmed.step (.afterTurn (m := 0) 0 1 rfl rfl) trivial
  have hparked := hyielded.step (.park (m := 0) true rfl) trivial
  have hcarried := hparked.step (.carry (m := 1) false rfl) trivial
  have hpushed := hcarried.step (.push (m := 1) true rfl rfl) trivial
  have htold := hpushed.step (.tell (m := 1) rfl) trivial
  exact ⟨_, Reached.wakes htold, rfl, rfl, rfl⟩

/-- A job is parked on an empty channel, and a supply puts an item in. -/
theorem not_wakes_supplied : ∃ w, Reached (fun _ => some 0) (fun _ _ => True) w ∧
    (∀ m waiters, w.doing m ≠ .telling waiters) ∧ ¬ Wakes w := by
  have hstart : Reached (fun _ => some 0) (fun _ _ => True) .start := .start
  have harmed := hstart.step (.awaitable (m := 0) true true rfl rfl) trivial
  have hyielded := harmed.step (.afterTurn (m := 0) 0 1 rfl rfl) trivial
  have hparked := hyielded.step (.park (m := 0) true rfl) trivial
  have hcarried := hparked.step (.carry (m := 1) true rfl) trivial
  have hsupplied := hcarried.step (.supply (m := 1) true rfl rfl) trivial
  refine ⟨_, hsupplied, (and_iff_left_of_imp fun hsilent h => ?_).mpr fun m waiters hdoing => ?_⟩
  · have := h.unparked hsilent 0 1 ⟨0, 1⟩ 0 rfl (by decide) rfl (by decide)
      ⟨1, 0, false, false, some 0⟩ (by decide) rfl
    cases this
  · match m, hdoing with
    | 0, hdoing => cases hdoing
    | 1, hdoing => cases hdoing
    | m + 2, hdoing => cases hdoing

end Lhat.Channels
