import Lhat.Collector.Cycle
import Lhat.Finally.Steps

/-!
# Cleanups and the collector

The collector's own model shows what is only allowed here: the coroutines it finds
white are each there once, and none of them waits already. What it then puts on its list
is what the machine of the cleanups puts on its own.
-/

namespace Lhat.Finally

open Gc.Machine (followRoots owesAt heldBack finishMarking)

variable {m : Machine} {g g' : Gc.Machine} {name : Address → Nat}

/-- The machine of the cleanups follows that of the collector, each coroutine under its
name. -/
structure Follows (name : Address → Nat) (g : Gc.Machine) (m : Machine) : Prop where
  names : Function.Injective name
  pending : m.pendingDispose = g.pendingDispose.map name
  /-- A body has a state and cleanups. -/
  body : ∀ a o co, g.object a = some o → o.payload = .coroutine co → co.source = .body →
    ∃ c, m.coroutines[name a]? = some c ∧ c.state = co.state ∧
      c.cleanups.length = co.cleanupCount

theorem holdPendingDisposals_eq {white : List Nat}
    (h : ∀ co ∈ white, ∃ c, m.coroutines[co]? = some c ∧ Machine.carries c = true) :
    m.holdPendingDisposals white =
      { m with pendingDispose := white.reverse ++ m.pendingDispose } := by
  induction white generalizing m with
  | nil => rfl
  | cons co white ih =>
    obtain ⟨c, hc, hcarries⟩ := h co List.mem_cons_self
    have hhold : m.hold co = { m with pendingDispose := co :: m.pendingDispose } := by
      simp [Machine.hold, hc, hcarries]
    have hothers : ∀ d ∈ white, ∃ c, (m.hold co).coroutines[d]? = some c ∧
        Machine.carries c = true := by
      rw [hhold]
      exact fun d hd => h d (List.mem_cons_of_mem _ hd)
    have hrest := ih hothers
    rw [Machine.holdPendingDisposals, List.foldl_cons]
    rw [Machine.holdPendingDisposals] at hrest
    rw [hrest, hhold]
    simp

theorem Follows.carries (hf : Follows name g m) (hmarks : Gc.Machine.Marks g g') {a : Address}
    (howes : g'.owesAt a = true) :
    ∃ c, m.coroutines[name a]? = some c ∧ Machine.carries c = true := by
  obtain ⟨o', ho', -, hpayload⟩ := Gc.Machine.owesAt_eq_true.mp howes
  obtain ⟨o, ho, hsame, -⟩ := hmarks.before ho'
  cases hco : o'.payload with
  | coroutine co =>
    rw [hco] at hpayload
    simp only [Gc.Payload.owes, Bool.and_eq_true, decide_eq_true_eq, bne_iff_ne] at hpayload
    obtain ⟨⟨hbody, hsuspended⟩, hcount⟩ := hpayload
    obtain ⟨c, hc, hstate, hlength⟩ := hf.body a o co ho (hsame ▸ hco) hbody
    refine ⟨c, hc, ?_⟩
    rw [← hlength] at hcount
    simp [Machine.carries, hstate, hsuspended, List.length_pos_iff.mp (Nat.pos_of_ne_zero hcount)]
  | _ => simp [hco, Gc.Payload.owes] at hpayload

theorem Follows.finishMarking (hf : Follows name g m) (hm : g.Marking 0 []) (hb : g.Base)
    (hnodup : g.pendingDispose.Nodup) :
    m.White ((g.objects.filter g.followRoots.owesAt).map name) ∧
      Follows name g.finishMarking
        (m.holdPendingDisposals ((g.objects.filter g.followRoots.owesAt).map name)) := by
  have hfinished := hm.finishMarking hb
  have hback : g.heldBack.map name =
      ((g.objects.filter g.followRoots.owesAt).map name).reverse := by
    rw [heldBack, List.map_reverse]
  have hlist := hfinished.nodup hnodup
  rw [hfinished.pending, List.nodup_append] at hlist
  obtain ⟨hheld, -, hapart⟩ := hlist
  have hcarries : ∀ co ∈ (g.objects.filter g.followRoots.owesAt).map name,
      ∃ c, m.coroutines[co]? = some c ∧ Machine.carries c = true := by
    intro co hco
    obtain ⟨a, ha, rfl⟩ := List.mem_map.mp hco
    exact hf.carries (hm.followRoots hb).1 (List.mem_filter.mp ha).2
  refine ⟨⟨?_, ?_⟩, hf.names, ?_, ?_⟩
  · rw [← List.nodup_reverse, ← hback]
    exact hheld.map hf.names
  · intro co hco hpending
    obtain ⟨a, ha, rfl⟩ := List.mem_map.mp hco
    rw [hf.pending, List.mem_map] at hpending
    obtain ⟨b, hb', hname⟩ := hpending
    refine hapart a ?_ b hb' (hf.names hname).symm
    rw [heldBack]
    exact List.mem_reverse.mpr ha
  · rw [holdPendingDisposals_eq hcarries, hfinished.pending, List.map_append, hback, hf.pending]
  · intro a o' co ho' hco hbody
    obtain ⟨o, ho, hsame, -⟩ := hfinished.marks.before ho'
    rw [holdPendingDisposals_eq hcarries]
    exact hf.body a o co ho (hsame ▸ hco) hbody

end Lhat.Finally
