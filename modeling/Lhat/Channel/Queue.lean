import Lhat.Channel.Basic
import Mathlib.Data.List.Nodup

/-!
# What stands in the queue

What was pushed has left the queue or stands in it, in this order. A carried value is in one
place at a time: with the machine that brings it, in the queue, with the machine it was handed
to, or freed.
-/

namespace Lhat.Channels

variable {d : Doing} {x : Carried} {w : World} {m : Nat}
variable {c c' : Channel} {queue : List Carried}

theorem ofNat_succ (n : Nat) : UInt64.ofNat n + 1 = UInt64.ofNat (n + 1) := by
  rw [UInt64.ofNat_add]
  rfl

theorem nodup_snoc {l : List Carried} (h : l.Nodup) (hx : x ∉ l) : (l ++ [x]).Nodup := by
  rw [← List.concat_eq_append]
  exact List.Nodup.concat hx h

namespace Channel

theorem pushLocked_denotes (h : c.items.Denotes queue) {item : Carried} {grows : Bool}
    {id : UInt64} (hpush : c.pushLocked item grows = some (id, c')) :
    c'.items.Denotes (queue ++ [item]) ∧ id = c.sent + 1 ∧ c'.sent = c.sent + 1 ∧
      c'.received = c.received := by
  obtain ⟨items, hroom, heq⟩ := Option.map_eq_some_iff.mp hpush
  cases heq
  obtain ⟨hsame, hlt⟩ := h.makeRoom hroom
  exact ⟨hsame.enqueue hlt item, rfl, rfl, rfl⟩

theorem popLocked_nil (h : c.items.Denotes []) : c.popLocked = (none, c) :=
  if_pos h.count

theorem popLocked_cons {item : Carried} (h : c.items.Denotes (item :: queue)) :
    c.popLocked = (some item, { c with items := c.items.dequeue, received := c.received + 1 }) := by
  rw [popLocked, if_neg (by simp [h.count]), h.first]
  rfl

theorem popAll_denotes (h : c.items.Denotes queue) :
    ∃ items : Ring Carried, items.Denotes [] ∧ c.popAll queue.length =
      (queue, { c with items := items, received := c.received + UInt64.ofNat queue.length }) := by
  induction queue generalizing c with
  | nil =>
    refine ⟨c.items, h, ?_⟩
    rw [List.length_nil, popAll]
    simp
  | cons item rest ih =>
    obtain ⟨items, hempty, hrest⟩ :=
      ih (c := { c with items := c.items.dequeue, received := c.received + 1 }) h.dequeue
    refine ⟨items, hempty, ?_⟩
    rw [List.length_cons, popAll, popLocked_cons h]
    dsimp only
    rw [hrest, ← ofNat_succ, UInt64.add_assoc, UInt64.add_comm 1]
    rfl

theorem clearLocked_denotes (h : c.items.Denotes queue) :
    ∃ items : Ring Carried, items.Denotes [] ∧
      c.clearLocked = (queue, { c with items := items, received := c.sent }) := by
  obtain ⟨items, hempty, hall⟩ := popAll_denotes h
  refine ⟨items, hempty, ?_⟩
  rw [clearLocked, h.count, hall]

end Channel

/-! ### Places -/

/-- The carried value that a machine brings to the channel. -/
def Doing.brings : Doing → Option Carried
  | .pushing item | .supplying item => some item
  | _ => none

/-- The carried value that a machine has taken off the channel. -/
def Doing.took : Doing → Option Carried
  | .rebuilding item => some item
  | _ => none

/-- The item that a machine waits for, and its number. -/
def Doing.awaits : Doing → Option (Carried × UInt64)
  | .supplied item id => some (item, id)
  | _ => none

namespace World

/-- What the ring says. -/
def contents (w : World) : List Carried :=
  (List.range w.channel.items.count).filterMap w.channel.items.item

/-- The items that left the queue, in this order. -/
def gone (w : World) : List Carried := w.left.map Prod.fst

theorem mem_gone {how : Leaving} (h : (x, how) ∈ w.left) : x ∈ w.gone :=
  List.mem_map_of_mem h

theorem does_self : (w.does m d).doing m = d :=
  Function.update_self ..

theorem does_ne {m' : Nat} (h : m' ≠ m) : (w.does m d).doing m' = w.doing m' :=
  Function.update_of_ne h ..

theorem other_of_does {α : Type} {f : Doing → Option α} {m' : Nat} {y : α} (hnone : f d = none)
    (hsome : f ((w.does m d).doing m') = some y) : m' ≠ m ∧ f (w.doing m') = some y := by
  by_cases heq : m' = m
  · rw [heq, does_self, hnone] at hsome
    cases hsome
  · rw [does_ne heq] at hsome
    exact ⟨heq, hsome⟩

end World

open World

structure Kept (w : World) (queue : List Carried) : Prop where
  denotes : w.channel.items.Denotes queue
  parts : w.gone ++ queue = w.pushed
  sent : w.channel.sent = UInt64.ofNat w.pushed.length
  received : w.channel.received = UInt64.ofNat w.gone.length
  nodup : w.pushed.Nodup
  made : ∀ x ∈ w.pushed, x < w.carried
  releasedMade : ∀ x ∈ w.released, x < w.carried
  releasedOnce : w.released.Nodup
  unreleased : w.freed = false → ∀ x ∈ queue, x ∉ w.released
  brought : ∀ m x, (w.doing m).brings = some x → x < w.carried ∧ x ∉ w.pushed ∧ x ∉ w.released
  broughtOnce : ∀ m m' x, (w.doing m).brings = some x → (w.doing m').brings = some x → m = m'
  took : ∀ m x, (w.doing m).took = some x → (x, .handed m) ∈ w.left ∧ x ∉ w.released
  tookOnce : ∀ m m' x, (w.doing m).took = some x → (w.doing m').took = some x → m = m'
  awaited : ∀ m x id, (w.doing m).awaits = some (x, id) →
    ∃ i, w.pushed[i]? = some x ∧ id = UInt64.ofNat (i + 1)

namespace Kept

variable {w : World} {m : Nat} {item : Carried}

theorem start : Kept .start [] where
  denotes := .empty
  parts := rfl
  sent := rfl
  received := rfl
  nodup := .nil
  made := fun _ h => nomatch h
  releasedMade := fun _ h => nomatch h
  releasedOnce := .nil
  unreleased := fun _ _ h => nomatch h
  brought := fun _ _ h => nomatch h
  broughtOnce := fun _ _ _ h => nomatch h
  took := fun _ _ h => nomatch h
  tookOnce := fun _ _ _ h => nomatch h
  awaited := fun _ _ _ h => nomatch h

section

variable (h : Kept w queue)
include h

theorem contents : w.contents = queue := h.denotes.eq

theorem disjoint (hgone : x ∈ w.gone) : x ∉ queue := by
  have hnodup := h.nodup
  rw [← h.parts] at hnodup
  exact fun hqueue => (List.nodup_append.mp hnodup).2.2 x hgone x hqueue rfl

theorem released_queue (hfreed : w.freed = false) : (w.released ++ queue).Nodup := by
  have hnodup := h.nodup
  rw [← h.parts] at hnodup
  refine List.nodup_append.mpr ⟨h.releasedOnce, (List.nodup_append.mp hnodup).2.1, ?_⟩
  rintro x hx y hy rfl
  exact h.unreleased hfreed x hy hx

theorem gone_pushed (hgone : x ∈ w.gone) : x ∈ w.pushed :=
  h.parts ▸ List.mem_append_left _ hgone

theorem does (hbrings : d.brings = none) (htook : d.took = none)
    (hawaits : d.awaits = none) : Kept (w.does m d) queue := by
  exact { h with
    brought := fun m' x hx => h.brought m' x (other_of_does hbrings hx).2
    broughtOnce := fun m₁ m₂ x h₁ h₂ =>
      h.broughtOnce m₁ m₂ x (other_of_does hbrings h₁).2 (other_of_does hbrings h₂).2
    took := fun m' x hx => h.took m' x (other_of_does htook hx).2
    tookOnce := fun m₁ m₂ x h₁ h₂ =>
      h.tookOnce m₁ m₂ x (other_of_does htook h₁).2 (other_of_does htook h₂).2
    awaited := fun m' x id hx => h.awaited m' x id (other_of_does hawaits hx).2 }

theorem carry (supplies : Bool) :
    Kept ({ w with carried := w.carried + 1 }.does m
      (if supplies then .supplying w.carried else .pushing w.carried)) queue := by
  have hbrings : (if supplies then Doing.supplying w.carried else .pushing w.carried).brings =
      some w.carried := by
    cases supplies <;> rfl
  have htook : (if supplies then Doing.supplying w.carried else .pushing w.carried).took = none := by
    cases supplies <;> rfl
  have hawaits : (if supplies then Doing.supplying w.carried else .pushing w.carried).awaits =
      none := by
    cases supplies <;> rfl
  generalize (if supplies then Doing.supplying w.carried else .pushing w.carried) = d at *
  have hfresh : w.carried ∉ w.pushed ∧ w.carried ∉ w.released :=
    ⟨fun hx => Nat.lt_irrefl _ (h.made _ hx), fun hx => Nat.lt_irrefl _ (h.releasedMade _ hx)⟩
  have hnew : ∀ m' x, (({ w with carried := w.carried + 1 }.does m d).doing m').brings = some x →
      m' = m ∧ x = w.carried ∨ m' ≠ m ∧ (w.doing m').brings = some x := by
    intro m' x hx
    by_cases heq : m' = m
    · rw [heq, does_self, hbrings] at hx
      cases hx
      exact .inl ⟨heq, rfl⟩
    · rw [does_ne heq] at hx
      exact .inr ⟨heq, hx⟩
  exact { h with
    made := fun x hx => Nat.lt_succ_of_lt (h.made x hx)
    releasedMade := fun x hx => Nat.lt_succ_of_lt (h.releasedMade x hx)
    brought := by
      intro m' x hx
      rcases hnew m' x hx with ⟨-, rfl⟩ | ⟨-, hold⟩
      · exact ⟨Nat.lt_succ_self _, hfresh⟩
      · exact ⟨Nat.lt_succ_of_lt (h.brought m' x hold).1, (h.brought m' x hold).2⟩
    broughtOnce := by
      intro m₁ m₂ x h₁ h₂
      rcases hnew m₁ x h₁ with ⟨hm₁, hx⟩ | ⟨-, hold₁⟩
      · rcases hnew m₂ x h₂ with ⟨hm₂, -⟩ | ⟨-, hold₂⟩
        · rw [hm₁, hm₂]
        · exact absurd (hx ▸ (h.brought m₂ x hold₂).1) (Nat.lt_irrefl _)
      · rcases hnew m₂ x h₂ with ⟨-, hx⟩ | ⟨-, hold₂⟩
        · exact absurd (hx ▸ (h.brought m₁ x hold₁).1) (Nat.lt_irrefl _)
        · exact h.broughtOnce m₁ m₂ x hold₁ hold₂
    took := fun m' x hx => h.took m' x (other_of_does htook hx).2
    tookOnce := fun m₁ m₂ x h₁ h₂ =>
      h.tookOnce m₁ m₂ x (other_of_does htook h₁).2 (other_of_does htook h₂).2
    awaited := fun m' x id hx => h.awaited m' x id (other_of_does hawaits hx).2 }

theorem release {items : List Carried} {freed : Bool} (hnone : d.brings = none)
    (htook : d.took = none) (hawaits : d.awaits = none) (hmade : ∀ x ∈ items, x < w.carried)
    (honce : (w.released ++ items).Nodup)
    (hqueue : freed = false → w.freed = false ∧ ∀ x ∈ queue, x ∉ items)
    (hothers : ∀ m' x, m' ≠ m →
      (w.doing m').brings = some x ∨ (w.doing m').took = some x → x ∉ items) :
    Kept ({ w with freed := freed, released := w.released ++ items }.does m d) queue := by
  exact { h with
    releasedMade := fun x hx => (List.mem_append.mp hx).elim (h.releasedMade x) (hmade x)
    releasedOnce := honce
    unreleased := fun hfreed x hx hin => (List.mem_append.mp hin).elim
      (h.unreleased (hqueue hfreed).1 x hx) ((hqueue hfreed).2 x hx)
    brought := fun m' x hx => by
      obtain ⟨hne, hx⟩ := other_of_does hnone hx
      obtain ⟨hxmade, hxpushed, hxreleased⟩ := h.brought m' x hx
      exact ⟨hxmade, hxpushed, fun hin =>
        (List.mem_append.mp hin).elim hxreleased (hothers m' x hne (.inl hx))⟩
    broughtOnce := fun m₁ m₂ x h₁ h₂ =>
      h.broughtOnce m₁ m₂ x (other_of_does hnone h₁).2 (other_of_does hnone h₂).2
    took := fun m' x hx => by
      obtain ⟨hne, hx⟩ := other_of_does htook hx
      obtain ⟨hxleft, hxreleased⟩ := h.took m' x hx
      exact ⟨hxleft, fun hin =>
        (List.mem_append.mp hin).elim hxreleased (hothers m' x hne (.inr hx))⟩
    tookOnce := fun m₁ m₂ x h₁ h₂ =>
      h.tookOnce m₁ m₂ x (other_of_does htook h₁).2 (other_of_does htook h₂).2
    awaited := fun m' x id hx => h.awaited m' x id (other_of_does hawaits hx).2 }

theorem refuse (hbrings : (w.doing m).brings = some item) :
    Kept (w.refuse m item) queue := by
  obtain ⟨hmade, hpushed, hreleased⟩ := h.brought m item hbrings
  have hqueue : item ∉ queue := fun hx => hpushed (h.parts ▸ List.mem_append_right _ hx)
  refine h.release rfl rfl rfl (fun x hx => List.mem_singleton.mp hx ▸ hmade)
    (nodup_snoc h.releasedOnce hreleased)
    (fun hfreed => ⟨hfreed, fun x hx hin => hqueue (List.mem_singleton.mp hin ▸ hx)⟩) ?_
  rintro m' x hne (hx | hx) hin
  · exact hne (h.broughtOnce m' m item (List.mem_singleton.mp hin ▸ hx) hbrings)
  · obtain rfl := List.mem_singleton.mp hin
    exact hpushed (h.gone_pushed (mem_gone (h.took m' x hx).1))

theorem enqueue (hbrings : (w.doing m).brings = some item)
    (hfreed : w.freed = false) {c : Channel} (hdenotes : c.items.Denotes (queue ++ [item]))
    (hsent : c.sent = w.channel.sent + 1) (hreceived : c.received = w.channel.received)
    (hnone : d.brings = none) (htook : d.took = none)
    (hawaits : ∀ x id, d.awaits = some (x, id) → x = item ∧ id = w.channel.sent + 1) :
    Kept ({ w with channel := c, pushed := w.pushed ++ [item] }.does m d) (queue ++ [item]) := by
  obtain ⟨hmade, hpushed, hreleased⟩ := h.brought m item hbrings
  have hlength : c.sent = UInt64.ofNat (w.pushed ++ [item]).length := by
    rw [hsent, h.sent, List.length_append, ofNat_succ]
    rfl
  exact {
    denotes := hdenotes
    parts := by
      show w.gone ++ (queue ++ [item]) = w.pushed ++ [item]
      rw [← h.parts, List.append_assoc]
    sent := hlength
    received := hreceived.trans h.received
    nodup := nodup_snoc h.nodup hpushed
    made := by
      intro x hx
      rcases List.mem_append.mp hx with hx | hx
      · exact h.made x hx
      · exact List.mem_singleton.mp hx ▸ hmade
    releasedMade := h.releasedMade
    releasedOnce := h.releasedOnce
    unreleased := by
      intro _ x hx
      rcases List.mem_append.mp hx with hx | hx
      · exact h.unreleased hfreed x hx
      · exact List.mem_singleton.mp hx ▸ hreleased
    brought := by
      intro m' x hx
      obtain ⟨hne, hx⟩ := other_of_does hnone hx
      obtain ⟨hxmade, hxpushed, hxreleased⟩ := h.brought m' x hx
      refine ⟨hxmade, fun hin => ?_, hxreleased⟩
      rcases List.mem_append.mp hin with hin | hin
      · exact hxpushed hin
      · exact hne (h.broughtOnce m' m item (List.mem_singleton.mp hin ▸ hx) hbrings)
    broughtOnce := fun m₁ m₂ x h₁ h₂ =>
      h.broughtOnce m₁ m₂ x (other_of_does hnone h₁).2 (other_of_does hnone h₂).2
    took := fun m' x hx => h.took m' x (other_of_does htook hx).2
    tookOnce := fun m₁ m₂ x h₁ h₂ =>
      h.tookOnce m₁ m₂ x (other_of_does htook h₁).2 (other_of_does htook h₂).2
    awaited := by
      intro m' x id hx
      by_cases heq : m' = m
      · rw [heq, does_self] at hx
        obtain ⟨rfl, rfl⟩ := hawaits x id hx
        exact ⟨w.pushed.length, by simp [World.does], by rw [h.sent, ofNat_succ]⟩
      · rw [does_ne heq] at hx
        obtain ⟨i, hi, hid⟩ := h.awaited m' x id hx
        exact ⟨i, List.getElem?_append_left (List.getElem?_eq_some_iff.mp hi).1 ▸ hi, hid⟩ }

theorem push (hdoing : w.doing m = .pushing item) (hfreed : w.freed = false)
    (grows : Bool) : ∃ queue', Kept (w.push m item grows) queue' := by
  have hbrings : (w.doing m).brings = some item := by
    rw [hdoing]
    rfl
  unfold World.push
  split
  · exact ⟨queue, h.refuse hbrings⟩
  · rename_i id pushed hpush
    obtain ⟨hdenotes, -, hsent, hreceived⟩ := Channel.pushLocked_denotes h.denotes hpush
    exact ⟨_, h.enqueue hbrings hfreed hdenotes hsent hreceived rfl rfl fun _ _ hx => nomatch hx⟩

theorem supply (hdoing : w.doing m = .supplying item)
    (hfreed : w.freed = false) (grows : Bool) : ∃ queue', Kept (w.supply m item grows) queue' := by
  have hbrings : (w.doing m).brings = some item := by
    rw [hdoing]
    rfl
  unfold World.supply
  split
  · exact ⟨queue, h.refuse hbrings⟩
  · rename_i id pushed hpush
    obtain ⟨hdenotes, hid, hsent, hreceived⟩ := Channel.pushLocked_denotes h.denotes hpush
    refine ⟨_, h.enqueue hbrings hfreed hdenotes hsent hreceived ?_ ?_ fun x id' hx => ?_⟩
    · split <;> rfl
    · split <;> rfl
    · split at hx
      · cases hx
      · cases hx
        exact ⟨rfl, hid⟩

end

theorem hand (h : Kept w (item :: queue)) {c : Channel} (hfreed : w.freed = false)
    (hdenotes : c.items.Denotes queue) (hsent : c.sent = w.channel.sent)
    (hreceived : c.received = w.channel.received + 1) :
    Kept ({ w with channel := c, left := w.left ++ [(item, Leaving.handed m)] }.does m
      (.rebuilding item)) queue := by
  have hgone : ({ w with channel := c, left := w.left ++ [(item, Leaving.handed m)] }.does m
      (.rebuilding item)).gone = w.gone ++ [item] := List.map_append
  have hnot : item ∉ w.gone := fun hx => h.disjoint hx List.mem_cons_self
  have hnew : ∀ m' x, (({ w with
      channel := c, left := w.left ++ [(item, Leaving.handed m)] }.does m
      (.rebuilding item)).doing m').took = some x →
      m' = m ∧ x = item ∨ (w.doing m').took = some x := by
    intro m' x hx
    by_cases heq : m' = m
    · rw [heq, does_self] at hx
      cases hx
      exact .inl ⟨heq, rfl⟩
    · rw [does_ne heq] at hx
      exact .inr hx
  exact { h with
    denotes := hdenotes
    parts := by
      rw [hgone, List.append_assoc]
      exact h.parts
    sent := hsent.trans h.sent
    received := by
      rw [hgone, List.length_append]
      show c.received = UInt64.ofNat (w.gone.length + 1)
      rw [hreceived, h.received, ofNat_succ]
    unreleased := fun hfreed x hx => h.unreleased hfreed x (List.mem_cons_of_mem _ hx)
    brought := fun m' x hx => h.brought m' x (other_of_does rfl hx).2
    broughtOnce := fun m₁ m₂ x h₁ h₂ =>
      h.broughtOnce m₁ m₂ x (other_of_does rfl h₁).2 (other_of_does rfl h₂).2
    took := by
      intro m' x hx
      rcases hnew m' x hx with ⟨rfl, rfl⟩ | hold
      · exact ⟨List.mem_append_right _ (List.mem_singleton_self _),
          h.unreleased hfreed x List.mem_cons_self⟩
      · exact ⟨List.mem_append_left _ (h.took m' x hold).1, (h.took m' x hold).2⟩
    tookOnce := by
      intro m₁ m₂ x h₁ h₂
      rcases hnew m₁ x h₁ with ⟨hm₁, hx⟩ | hold₁
      · rcases hnew m₂ x h₂ with ⟨hm₂, -⟩ | hold₂
        · rw [hm₁, hm₂]
        · exact absurd (hx ▸ mem_gone (h.took m₂ x hold₂).1) hnot
      · rcases hnew m₂ x h₂ with ⟨-, hx⟩ | hold₂
        · exact absurd (hx ▸ mem_gone (h.took m₁ x hold₁).1) hnot
        · exact h.tookOnce m₁ m₂ x hold₁ hold₂
    awaited := fun m' x id hx => h.awaited m' x id (other_of_does rfl hx).2 }

theorem pop (h : Kept w queue) (hfreed : w.freed = false) {otherwise : World → World}
    (hother : Kept w [] → ∃ queue', Kept (otherwise w) queue') :
    ∃ queue', Kept (w.pop m otherwise) queue' := by
  unfold World.pop
  cases queue with
  | nil =>
    rw [Channel.popLocked_nil h.denotes]
    exact hother h
  | cons item rest =>
    rw [Channel.popLocked_cons h.denotes]
    exact ⟨rest, h.hand hfreed h.denotes.dequeue rfl rfl⟩

theorem clear (h : Kept w queue) (hfreed : w.freed = false) : Kept (w.clear m) [] := by
  obtain ⟨items, hempty, hclear⟩ := Channel.clearLocked_denotes h.denotes
  have hgone : (w.clear m).gone = w.pushed := by
    have hitems : (queue.map fun item => (item, Leaving.cleared m)).map Prod.fst = queue := by
      simp [Function.comp_def]
    unfold World.clear World.gone
    rw [hclear]
    dsimp only
    rw [List.map_append, hitems]
    exact h.parts
  have hworld : w.clear m = { w with
      channel := { w.channel with items := items, received := w.channel.sent }
      left := w.left ++ queue.map fun item => (item, Leaving.cleared m)
      released := w.released ++ queue } := by
    unfold World.clear
    rw [hclear]
  have hreleased : (w.clear m).released = w.released ++ queue := by rw [hworld]
  have hleft : (w.clear m).left = w.left ++ queue.map fun item => (item, Leaving.cleared m) := by
    rw [hworld]
  have hdoing : (w.clear m).doing = w.doing := by rw [hworld]
  have hpushed : (w.clear m).pushed = w.pushed := by rw [hworld]
  have hcarried : (w.clear m).carried = w.carried := by rw [hworld]
  have hqueue : ∀ x ∈ queue, x ∈ w.pushed := fun x hx => h.parts ▸ List.mem_append_right _ hx
  exact {
    denotes := by rw [hworld]; exact hempty
    parts := by rw [List.append_nil, hgone, hpushed]
    sent := by rw [hpushed, hworld]; exact h.sent
    received := by rw [hgone, hworld]; exact h.sent
    nodup := hpushed ▸ h.nodup
    made := by rw [hpushed, hcarried]; exact h.made
    releasedMade := by
      rw [hreleased, hcarried]
      intro x hx
      rcases List.mem_append.mp hx with hx | hx
      · exact h.releasedMade x hx
      · exact h.made x (hqueue x hx)
    releasedOnce := hreleased ▸ h.released_queue hfreed
    unreleased := fun _ _ hx => nomatch hx
    brought := by
      rw [hdoing, hpushed, hcarried, hreleased]
      intro m' x hx
      obtain ⟨hmade, hxpushed, hxreleased⟩ := h.brought m' x hx
      refine ⟨hmade, hxpushed, fun hin => ?_⟩
      rcases List.mem_append.mp hin with hin | hin
      · exact hxreleased hin
      · exact hxpushed (hqueue x hin)
    broughtOnce := by rw [hdoing]; exact h.broughtOnce
    took := by
      rw [hdoing, hleft, hreleased]
      intro m' x hx
      obtain ⟨hxleft, hxreleased⟩ := h.took m' x hx
      refine ⟨List.mem_append_left _ hxleft, fun hin => ?_⟩
      rcases List.mem_append.mp hin with hin | hin
      · exact hxreleased hin
      · exact h.disjoint (mem_gone hxleft) hin
    tookOnce := by rw [hdoing]; exact h.tookOnce
    awaited := by rw [hdoing, hpushed]; exact h.awaited }

theorem rebuild (h : Kept w queue) (hdoing : w.doing m = .rebuilding item) :
    Kept ({ w with released := w.released ++ [item] }.does m .idle) queue := by
  have htook : (w.doing m).took = some item := by
    rw [hdoing]
    rfl
  obtain ⟨hleft, hreleased⟩ := h.took m item htook
  have hgone : item ∈ w.gone := mem_gone hleft
  refine h.release rfl rfl rfl
    (fun x hx => List.mem_singleton.mp hx ▸ h.made item (h.gone_pushed hgone))
    (nodup_snoc h.releasedOnce hreleased)
    (fun hfreed => ⟨hfreed, fun x hx hin =>
      h.disjoint hgone (List.mem_singleton.mp hin ▸ hx)⟩) ?_
  rintro m' x hne (hx | hx) hin
  · exact (h.brought m' x hx).2.1 (h.gone_pushed (List.mem_singleton.mp hin ▸ hgone))
  · exact hne (h.tookOnce m' m item (List.mem_singleton.mp hin ▸ hx) htook)

theorem free (h : Kept w queue) (hfreed : w.freed = false) : Kept (w.free m) queue := by
  have hqueue : ∀ x ∈ queue, x ∈ w.pushed := fun x hx => h.parts ▸ List.mem_append_right _ hx
  have hreleased : Kept ({ w with freed := true, released := w.released ++ queue }.does m
      (.telling w.channel.takeWaiters.1)) queue := by
    refine h.release rfl rfl rfl (fun x hx => h.made x (hqueue x hx)) (h.released_queue hfreed)
      nofun ?_
    rintro m' x - (hx | hx) hin
    · exact (h.brought m' x hx).2.1 (hqueue x hin)
    · exact h.disjoint (mem_gone (h.took m' x hx).1) hin
  unfold World.free
  rw [show (List.range w.channel.items.count).filterMap w.channel.items.item = queue from
    h.denotes.eq]
  exact { hreleased with }

theorem armWait (h : Kept w queue) (waits : Option Nat) (grows remembered : Bool) :
    Kept (w.armWait m waits grows remembered) queue := by
  unfold World.armWait
  split
  · exact h
  · split
    · dsimp only
      split
      · exact { h with }
      · exact { h with }
    · exact h

end Kept

end Lhat.Channels
