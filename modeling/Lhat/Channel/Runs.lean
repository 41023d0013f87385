import Lhat.Channel.Queue

/-!
# A channel is a queue

Every step of every machine keeps what stands in the queue in order. The number that a push
answers has 64 bits and is read as a signed one, so it tells the items apart as long as fewer
than 2^63 of them were pushed.
-/

namespace Lhat.Channels

open World

variable {waitsOf : Nat → Option Nat} {meets : World → Move → Prop} {w w' : World} {move : Move}
  {queue : List Carried}

theorem not_freed {m : Nat} (h : w.enters m) : w.freed = false := by
  rw [enters, Bool.and_eq_true, Bool.not_eq_true'] at h
  exact h.1

theorem Kept.step (h : Kept w queue) (hstep : Step waitsOf w move w') : ∃ queue', Kept w' queue' := by
  cases hstep with
  | carry supplies _ => exact ⟨queue, h.carry supplies⟩
  | push grows hdoing henters => exact h.push hdoing (not_freed henters) grows
  | supply grows hdoing henters => exact h.supply hdoing (not_freed henters) grows
  | @tell m waiter waiters _ =>
    have hset : Kept (w.setAsync waiter.waits ((w.async waiter.waits).complete waiter.id)) queue :=
      { h with }
    exact ⟨queue, hset.does rfl rfl rfl⟩
  | told _ => exact ⟨queue, h.does rfl rfl rfl⟩
  | settle _ _ _ => exact ⟨queue, h.does rfl rfl rfl⟩
  | giveUp _ => exact ⟨queue, h.does rfl rfl rfl⟩
  | pop _ henters => exact h.pop (not_freed henters) fun hempty => ⟨[], hempty⟩
  | demands _ => exact ⟨queue, h.does rfl rfl rfl⟩
  | demand _ henters =>
    refine h.pop (not_freed henters) fun hempty => ⟨[], ?_⟩
    split
    · exact hempty.does rfl rfl rfl
    · exact hempty
  | rebuild hdoing => exact ⟨queue, h.rebuild hdoing⟩
  | look _ _ => exact ⟨queue, h⟩
  | clear _ henters => exact ⟨[], h.clear (not_freed henters)⟩
  | atomic _ _ => exact ⟨queue, { h with }⟩
  | leaveAtomic _ _ => exact ⟨queue, { h with }⟩
  | awaitable grows remembered _ _ =>
    unfold World.awaitable
    split
    · exact ⟨queue, h.armWait _ grows remembered⟩
    · exact ⟨queue, h⟩
  | takeStep grows remembered _ henters =>
    exact h.pop (not_freed henters) fun hempty => ⟨[], hempty.armWait _ grows remembered⟩
  | arm _ _ _ => exact ⟨queue, { h with }⟩
  | drop _ _ => exact ⟨queue, { h with }⟩
  | wait _ _ => exact ⟨queue, { h with }⟩
  | complete _ => exact ⟨queue, { h with }⟩
  | @afterTurn m waits now id _ _ =>
    have hset : Kept (w.setAsync waits ((w.async waits).takeThis m now id).2) queue := { h with }
    unfold World.afterTurn
    dsimp only
    split <;> exact ⟨queue, hset.does rfl rfl rfl⟩
  | park filed _ =>
    cases filed <;> exact ⟨queue, h.does rfl rfl rfl⟩
  | @moveReady m id waits now grows _ _ =>
    have hset : Kept (w.setAsync waits ((w.async waits).takeThis m now id).2) queue := { h with }
    unfold World.moveReady
    dsimp only
    split
    · exact ⟨queue, hset.does rfl rfl rfl⟩
    · split <;> exact ⟨queue, hset.does rfl rfl rfl⟩
  | free _ hfreed => exact ⟨queue, h.free hfreed⟩

theorem Reached.kept (h : Reached waitsOf meets w) : ∃ queue, Kept w queue := by
  induction h with
  | start => exact ⟨[], .start⟩
  | step _ hstep _ ih =>
    obtain ⟨queue, hkept⟩ := ih
    exact hkept.step hstep

/-- What a channel is to those who share it. -/
structure IsQueue (w : World) : Prop where
  /-- What left the queue and what stands in it is what was pushed, in this order. -/
  order : w.gone ++ w.contents = w.pushed
  /-- An item leaves once, handed to one machine or cleared by one, and not while it stands in
  the queue. -/
  leavesOnce : w.gone.Nodup ∧ ∀ item ∈ w.gone, item ∉ w.contents
  /-- No item is freed twice, and none while it stands in the queue of a channel that is still
  there or while the machine it was handed to rebuilds it. -/
  freedOnce : w.released.Nodup ∧
    (∀ item ∈ w.released, item ∈ w.contents → w.freed = true) ∧
    ∀ m item, w.doing m = .rebuilding item → (item, .handed m) ∈ w.left ∧ item ∉ w.released
  /-- A push answers how many items were pushed. -/
  sent : w.channel.sent = UInt64.ofNat w.pushed.length
  received : w.channel.received = w.channel.sent - UInt64.ofNat w.channel.items.count
  hasRead : w.pushed.length < 2 ^ 63 → ∀ id : Int64, 0 < id → w.channel.hasRead id →
    ∃ item ∈ w.gone, w.pushed[id.toNatClampNeg - 1]? = some item
  /-- A supply that has its number and would answer true. -/
  supplied : w.pushed.length < 2 ^ 63 → ∀ m item id, w.doing m = .supplied item id →
    id ≤ w.channel.received → item ∈ w.gone
  ring : w.channel.items.Denotes w.contents

namespace Kept

theorem length (h : Kept w queue) : w.pushed.length = w.gone.length + queue.length := by
  rw [← h.parts, List.length_append]

theorem getElem?_gone (h : Kept w queue) {i : Nat} (hi : i < w.gone.length) :
    ∃ item ∈ w.gone, w.pushed[i]? = some item := by
  refine ⟨w.gone[i], List.getElem_mem hi, ?_⟩
  rw [← h.parts, List.getElem?_append_left hi, List.getElem?_eq_getElem hi]

theorem toNat_received (h : Kept w queue) (hfew : w.pushed.length < 2 ^ 63) :
    w.channel.received.toNat = w.gone.length := by
  have hlength := h.length
  rw [h.received, UInt64.toNat_ofNat', Nat.mod_eq_of_lt (by omega)]

theorem queued (h : Kept w queue) : IsQueue w where
  order := h.contents ▸ h.parts
  leavesOnce := by
    have hnodup := h.nodup
    rw [← h.parts] at hnodup
    exact ⟨(List.nodup_append.mp hnodup).1, fun item hgone => h.contents ▸ h.disjoint hgone⟩
  freedOnce := by
    refine ⟨h.releasedOnce, fun item hreleased hin => ?_, fun m item hdoing => ?_⟩
    · by_contra hnot
      exact h.unreleased (Bool.eq_false_iff.mpr hnot) item (h.contents ▸ hin) hreleased
    · exact h.took m item (by rw [hdoing]; rfl)
  sent := h.sent
  received := by
    rw [h.received, h.sent, h.denotes.count, h.length, UInt64.ofNat_add, UInt64.add_sub_cancel]
  hasRead := by
    intro hfew id hpos hread
    have hnot : ¬ id ≤ 0 := Int64.not_le.mpr hpos
    rw [Channel.hasRead, decide_eq_false hnot, Bool.false_or, decide_eq_true_eq,
      UInt64.le_iff_toNat_le, Int64.toNat_toUInt64_of_le (Int64.le_of_lt hpos),
      h.toNat_received hfew] at hread
    have hone : 0 < id.toNatClampNeg := by
      rw [Int64.toNatClampNeg]
      have := Int64.lt_iff_toInt_lt.mp hpos
      simp only [Int64.toInt_zero] at this
      omega
    exact h.getElem?_gone (by omega)
  supplied := by
    intro hfew m item id hdoing hle
    obtain ⟨i, hi, rfl⟩ := h.awaited m item id (by rw [hdoing]; rfl)
    have hlt : i < w.pushed.length := (List.getElem?_eq_some_iff.mp hi).1
    rw [UInt64.le_iff_toNat_le, h.toNat_received hfew, UInt64.toNat_ofNat',
      Nat.mod_eq_of_lt (by omega)] at hle
    obtain ⟨item', hgone, hsame⟩ := h.getElem?_gone hle
    rw [hi, Option.some_inj] at hsame
    exact hsame ▸ hgone
  ring := h.contents ▸ h.denotes

end Kept

/-- Whatever the machines do, in whatever order, the channel is a queue. -/
theorem Reached.isQueue (h : Reached waitsOf (fun _ _ => True) w) : IsQueue w := by
  obtain ⟨queue, hkept⟩ := h.kept
  exact hkept.queued

/-- A value is pushed and popped. -/
theorem isQueue_popped : ∃ w, IsQueue w ∧ w.gone = [0] ∧ w.contents = [] := by
  have hstart : Reached (fun _ => none) (fun _ _ => True) .start := .start
  have hcarried := hstart.step (.carry (m := 0) false rfl) trivial
  have hpushed := hcarried.step (.push (m := 0) true rfl rfl) trivial
  have htold := hpushed.step (.told (m := 0) rfl) trivial
  have hpopped := htold.step (.pop (m := 0) rfl rfl) trivial
  exact ⟨_, Reached.isQueue hpopped, rfl, rfl⟩

/-! ### Numbers that are no number of an item -/

/-- The machine 0 may do what it wants. -/
structure Quiet (w : World) : Prop where
  idle : w.doing 0 = .idle
  unfreed : w.freed = false
  owner : w.channel.atomicOwner = none
  waiters : w.channel.waiters = []

theorem Quiet.enters (h : Quiet w) : w.enters 0 = true := by
  simp [World.enters, Channel.enters, h.unfreed, h.owner]

theorem pushLocked_isSome (c : Channel) (item : Carried) : (c.pushLocked item true).isSome := by
  rw [Channel.pushLocked, Option.isSome_map, Ring.makeRoom]
  split <;> rfl

theorem Quiet.push (h : Quiet w) (hreached : Reached waitsOf (fun _ _ => True) w) :
    ∃ w', Reached waitsOf (fun _ _ => True) w' ∧ Quiet w' ∧ w'.pushed = w.pushed ++ [w.carried] ∧
      w'.gone = w.gone := by
  have hcarried := hreached.step (.carry false h.idle) trivial
  have hpushed := hcarried.step (.push true does_self h.enters) trivial
  obtain ⟨⟨id, c⟩, hsome⟩ := Option.isSome_iff_exists.mp (pushLocked_isSome w.channel w.carried)
  obtain ⟨items, -, hsame⟩ := Option.map_eq_some_iff.mp hsome
  cases hsame
  have hworld : ({ w with carried := w.carried + 1 }.does 0 (.pushing w.carried)).push 0 w.carried
      true = { w.does 0 (.pushing w.carried) with
        channel := { w.channel with
          items := items.enqueue w.carried, sent := w.channel.sent + 1, waiters := [] }
        carried := w.carried + 1
        pushed := w.pushed ++ [w.carried] }.does 0 (.telling []) := by
    unfold World.push
    simp only [World.does, hsome, Channel.takeWaiters, h.waiters]
  have htold := hpushed.step (.told (by
    show World.doing (World.push _ 0 w.carried true) 0 = _
    rw [if_neg Bool.false_ne_true, hworld, does_self])) trivial
  refine ⟨_, htold, ⟨does_self, ?_, ?_, ?_⟩, ?_, ?_⟩
  all_goals rw [if_neg Bool.false_ne_true, hworld]
  · exact h.unfreed
  · exact h.owner
  · rfl
  · rfl
  · rfl

theorem Quiet.pop (h : Quiet w) (hreached : Reached waitsOf (fun _ _ => True) w)
    {item : Carried} (hkept : Kept w (item :: queue)) :
    ∃ w', Reached waitsOf (fun _ _ => True) w' ∧ Quiet w' ∧ w'.pushed = w.pushed ∧
      w'.gone = w.gone ++ [item] := by
  have hpopped := hreached.step (.pop h.idle h.enters) trivial
  have hworld : w.pop 0 id = { w with
      channel := { w.channel with
        items := w.channel.items.dequeue, received := w.channel.received + 1 }
      left := w.left ++ [(item, Leaving.handed 0)] }.does 0 (.rebuilding item) := by
    unfold World.pop
    rw [Channel.popLocked_cons hkept.denotes]
  rw [hworld] at hpopped
  refine ⟨_, hpopped.step (.rebuild does_self) trivial, ⟨does_self, h.unfreed, h.owner, h.waiters⟩,
    rfl, List.map_append⟩

theorem exists_popped (waitsOf : Nat → Option Nat) (n : Nat) : ∃ w, Reached waitsOf (fun _ _ => True) w ∧ Quiet w ∧
    w.pushed.length = n ∧ w.gone.length = n := by
  induction n with
  | zero => exact ⟨.start, .start, ⟨rfl, rfl, rfl, rfl⟩, rfl, rfl⟩
  | succ n ih =>
    obtain ⟨w, hreached, hquiet, hpushed, hgone⟩ := ih
    obtain ⟨w₁, hreached₁, hquiet₁, hpushed₁, hgone₁⟩ := hquiet.push hreached
    obtain ⟨queue, hkept⟩ := hreached₁.kept
    have hlength := hkept.length
    rw [hpushed₁, hgone₁, List.length_append, hpushed, hgone, List.length_singleton] at hlength
    obtain ⟨item, rfl⟩ : ∃ item, queue = [item] := List.length_eq_one_iff.mp (by omega)
    obtain ⟨w₂, hreached₂, hquiet₂, hpushed₂, hgone₂⟩ := hquiet₁.pop hreached₁ hkept
    refine ⟨w₂, hreached₂, hquiet₂, ?_, ?_⟩
    · rw [hpushed₂, hpushed₁, List.length_append, hpushed, List.length_singleton]
    · rw [hgone₂, hgone₁, List.length_append, hgone, List.length_singleton]

/-- Zero is read of a channel that nothing was pushed to, and the number of the 2^63rd item is
read while it stands in the queue. -/
theorem hasRead_of_nothing :
    (Channel.new.hasRead 0 = true ∧ World.start.pushed = []) ∧
      ∃ w, Reached (fun _ => none) (fun _ _ => True) w ∧ w.pushed.length = 2 ^ 63 ∧
        w.channel.hasRead w.channel.sent.toInt64 = true ∧
          ∃ item, w.pushed.getLast? = some item ∧ item ∉ w.gone := by
  refine ⟨⟨rfl, rfl⟩, ?_⟩
  obtain ⟨w, hreached, hquiet, hpushed, hgone⟩ := exists_popped (fun _ => none) (2 ^ 63 - 1)
  obtain ⟨w', hreached', -, hpushed', hgone'⟩ := hquiet.push hreached
  obtain ⟨queue, hkept⟩ := hreached'.kept
  have hlength : w'.pushed.length = 2 ^ 63 := by
    rw [hpushed', List.length_append, hpushed, List.length_singleton,
      Nat.sub_add_cancel Nat.one_le_two_pow]
  refine ⟨w', hreached', hlength, ?_, w.carried, by rw [hpushed', List.getLast?_concat], ?_⟩
  · have hneg : (UInt64.ofNat (2 ^ 63)).toInt64 ≤ 0 := by decide
    rw [hkept.sent, hlength, Channel.hasRead, decide_eq_true hneg, Bool.true_or]
  · obtain ⟨queue₀, hkept₀⟩ := hreached.kept
    rw [hgone']
    exact fun hin => Nat.lt_irrefl _ (hkept₀.made _ (hkept₀.gone_pushed hin))

end Lhat.Channels
