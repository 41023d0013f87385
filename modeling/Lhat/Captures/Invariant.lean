import Lhat.Captures.Basic
import Lhat.Foundation.Descending

/-!
# Where captured places stand

Every capture that is of a register is below every frame that stands above the frame of that
register. That is what the order of the open list is good for: what a frame takes from the front
of it, as it leaves or is suspended, is what is captured of that frame and of no other.
-/

namespace Lhat.Captures

/-! ### Registers among the frames -/

section

variable {frames rest : List Frame} {frame : Frame} {activation : Activation} {register : Nat}

theorem placeAmong_cons_self :
    placeAmong (frame :: rest) frame.activation register =
      some (.slot (frame.base + register)) := by
  unfold placeAmong
  rw [List.find?_cons_of_pos (by simp)]

theorem placeAmong_cons_ne (h : frame.activation ≠ activation) :
    placeAmong (frame :: rest) activation register = placeAmong rest activation register := by
  unfold placeAmong
  rw [List.find?_cons_of_neg (by simpa using h)]

theorem placeAmong_absent (h : activation ∉ frames.map Frame.activation) :
    placeAmong frames activation register = placeAmong [] activation register := by
  induction frames with
  | nil => rfl
  | cons frame frames ih =>
    rw [List.map_cons, List.mem_cons, not_or] at h
    rw [placeAmong_cons_ne (Ne.symm h.1), ih h.2]

theorem placeAmong_standing (h : frame ∈ frames) (hnodup : (frames.map Frame.activation).Nodup) :
    placeAmong frames frame.activation register = some (.slot (frame.base + register)) := by
  induction frames with
  | nil => cases h
  | cons top frames ih =>
    rw [List.map_cons, List.nodup_cons] at hnodup
    rcases List.mem_cons.mp h with rfl | h
    · exact placeAmong_cons_self
    · rw [placeAmong_cons_ne fun he => hnodup.1 (he ▸ List.mem_map_of_mem h), ih h hnodup.2]

end

namespace Machine

variable {m : Machine} {homes : Nat → Option Home} {u : Nat}

/-- What a costate keeps of a coroutine that was not running. -/
structure Keeps (m : Machine) (homes : Nat → Option Home) (entry : CostateEntry) : Prop where
  idle : entry.state ≠ .running
  ascending : entry.captures.Pairwise fun c c' => c.2 < c'.2
  nodup : (entry.captures.map Prod.fst).Nodup
  known : ∀ c ∈ entry.captures, c.1 < m.upvalueCount
  bodies : entry.coroutine < m.coroutineCount
  /-- What was captured of a coroutine is captured of that coroutine or of nothing. -/
  same : ∀ c ∈ entry.captures, ∀ activation register,
    homes c.1 = some (.bound activation register) → activation = .body entry.coroutine

/-- The frames stand on one another, each for an activation of its own. -/
structure Stacked (m : Machine) : Prop where
  nodup : (m.frames.map Frame.activation).Nodup
  numbered : ∀ frame ∈ m.frames, ∀ call, frame.activation = .frame call → call < m.calls
  running : ∀ frame ∈ m.frames, ∀ co, frame.activation = .body co →
    co < m.coroutineCount ∧ (m.coroutines co).state = .running
  session : ∀ frame ∈ m.frames, frame.activation = .session → frame.base = 0
  bottom : m.frames.Pairwise fun frame _ => frame.activation ≠ .session
  kept : ∀ frame ∈ m.frames, frame.activation ≠ .session → frame.kept = 0
  rising : m.frames.Pairwise fun frame below => below.base ≤ frame.base

/-- The invariant of a run. -/
structure Inv (m : Machine) (homes : Nat → Option Home) : Prop where
  captured : m.Captured homes
  stacked : m.Stacked
  housed : ∀ u, m.locations u = none ↔ homes u = none
  known : ∀ u, homes u ≠ none → u < m.upvalueCount
  bodies : ∀ u co register, homes u = some (.bound (.body co) register) → co < m.coroutineCount
  above : ∀ u activation register place, homes u = some (.bound activation register) →
    m.locations u = some (.slot place) →
      ∀ frame ∈ m.frames.takeWhile fun frame => frame.activation ≠ activation, place < frame.base
  costates : ∀ entries ∈ m.costates, ∀ entry ∈ entries, m.Keeps homes entry
  owned : ∀ entries ∈ m.costates, ∀ entry ∈ entries, ∀ entries' ∈ m.costates, ∀ entry' ∈ entries',
    ∀ u, u ∈ entry.captures.map Prod.fst → u ∈ entry'.captures.map Prod.fst →
      entry.coroutine = entry'.coroutine

theorem Stacked.along {m' : Machine} (h : m.Stacked) (hframes : m'.frames = m.frames)
    (hcalls : m'.calls = m.calls) (hcount : m.coroutineCount ≤ m'.coroutineCount)
    (hstate : ∀ co, Activation.body co ∈ m.frames.map Frame.activation → co < m.coroutineCount →
      (m.coroutines co).state = .running → (m'.coroutines co).state = .running) :
    m'.Stacked := by
  obtain ⟨hnodup, hnumbered, hrunning, hsession, hbottom, hkept, hrising⟩ := h
  refine ⟨?_, ?_, ?_, ?_, ?_, ?_, ?_⟩ <;> rw [hframes]
  · exact hnodup
  · rw [hcalls]
    exact hnumbered
  · intro frame hframe co hbody
    obtain ⟨hlt, hrun⟩ := hrunning frame hframe co hbody
    exact ⟨Nat.lt_of_lt_of_le hlt hcount,
      hstate co (hbody ▸ List.mem_map_of_mem hframe) hlt hrun⟩
  · exact hsession
  · exact hbottom
  · exact hkept
  · exact hrising

theorem offset_slot {place : Nat} (h : m.locations u = some (.slot place)) :
    m.offset u = place := by
  unfold offset
  rw [h]

theorem offset_saved {co offset : Nat} (h : m.locations u = some (.saved co offset)) :
    m.offset u = offset := by
  unfold Machine.offset
  rw [h]

namespace Inv

theorem slot_home (hi : m.Inv homes) {place : Nat} (h : m.locations u = some (.slot place)) :
    ∃ activation register, homes u = some (.bound activation register) ∧
      m.place activation register = some (.slot place) := by
  rcases hhome : homes u with _ | ⟨activation, register⟩ | v
  · cases h.symm.trans ((hi.housed u).mpr hhome)
  · exact ⟨activation, register, rfl, ((hi.captured.bound u _ _ hhome).2.symm.trans h)⟩
  · cases h.symm.trans (hi.captured.free u v hhome)

theorem saved_home (hi : m.Inv homes) {co offset : Nat}
    (h : m.locations u = some (.saved co offset)) :
    homes u = some (.bound (.body co) offset) ∧
      Activation.body co ∉ m.frames.map Frame.activation := by
  rcases hhome : homes u with _ | ⟨activation, register⟩ | v
  · cases h.symm.trans ((hi.housed u).mpr hhome)
  · have hplace : placeAmong m.frames activation register = some (.saved co offset) :=
      (hi.captured.bound u _ _ hhome).2.symm.trans h
    have habsent : activation ∉ m.frames.map Frame.activation := by
      intro hin
      obtain ⟨frame, hframe, rfl⟩ := List.mem_map.mp hin
      rw [placeAmong_standing hframe hi.stacked.nodup] at hplace
      cases hplace
    rw [placeAmong_absent habsent] at hplace
    cases activation with
    | session => cases hplace
    | frame call => cases hplace
    | body co' =>
      cases hplace
      exact ⟨rfl, habsent⟩
  · cases h.symm.trans (hi.captured.free u v hhome)

theorem top_home (hi : m.Inv homes) {frame : Frame} {rest : List Frame} {place : Nat}
    (hframes : m.frames = frame :: rest) (h : m.locations u = some (.slot place))
    (hbase : frame.base ≤ place) :
    ∃ register, homes u = some (.bound frame.activation register) ∧
      place = frame.base + register := by
  obtain ⟨activation, register, hhome, hplace⟩ := hi.slot_home h
  by_cases he : frame.activation = activation
  · subst he
    rw [Machine.place, hframes, placeAmong_cons_self] at hplace
    cases hplace
    exact ⟨register, hhome, rfl⟩
  · have hlt := hi.above u activation register place hhome h frame (by
      rw [hframes, List.takeWhile_cons_of_pos (by simpa using he)]
      exact List.mem_cons_self)
    exact absurd hlt (Nat.not_lt.mpr hbase)

theorem top_location (hi : m.Inv homes) {frame : Frame} {rest : List Frame} {register : Nat}
    (hframes : m.frames = frame :: rest) (h : homes u = some (.bound frame.activation register)) :
    m.locations u = some (.slot (frame.base + register)) := by
  rw [(hi.captured.bound u _ _ h).2, Machine.place, hframes, placeAmong_cons_self]

end Inv

/-! ### Captures that are given up -/

section

variable {gone : Activation → Nat → Bool} {activation : Activation} {register : Nat}

theorem release_bound (h : m.release homes gone u = some (.bound activation register)) :
    homes u = some (.bound activation register) ∧ gone activation register = false := by
  unfold release at h
  split at h
  · rename_i activation' register' hhome
    split at h
    · obtain ⟨location, -, he⟩ := Option.map_eq_some_iff.mp h
      cases he
    · rename_i hstays
      rw [hhome] at h
      cases h
      exact ⟨hhome, Bool.eq_false_iff.mpr hstays⟩
  · rename_i hother
    exact absurd h (hother activation register)

theorem release_free {v : LhatValue} (h : m.release homes gone u = some (.free v)) :
    homes u = some (.free v) ∨
      ∃ activation register location, homes u = some (.bound activation register) ∧
        gone activation register = true ∧ m.place activation register = some location ∧
          v = m.get location := by
  unfold release at h
  split at h
  · rename_i activation register hhome
    split at h
    · rename_i hgone
      obtain ⟨location, hplace, he⟩ := Option.map_eq_some_iff.mp h
      cases he
      exact Or.inr ⟨activation, register, location, hhome, hgone, hplace, rfl⟩
    · exact Or.inl h
  · exact Or.inl h

theorem Inv.release_none (hi : m.Inv homes) : m.release homes gone u = none ↔ homes u = none := by
  unfold release
  rcases hhome : homes u with _ | ⟨activation, register⟩ | v
  · simp
  · have hplace := hi.captured.bound u _ _ hhome
    dsimp only
    split
    · rw [← hplace.2]
      obtain ⟨location, hlocation⟩ := Option.isSome_iff_exists.mp hplace.1
      rw [hlocation]
      exact ⟨nofun, nofun⟩
    · exact Iff.rfl
  · simp

end

theorem closeIntoCell_back {going : List Nat} {location : Location}
    (h : (m.closeIntoCell going).locations u = some location)
    (hnot : ∀ v, location ≠ .closed v) : u ∉ going ∧ m.locations u = some location := by
  unfold closeIntoCell at h
  dsimp only at h
  split at h
  · obtain ⟨before, -, he⟩ := Option.map_eq_some_iff.mp h
    exact absurd he.symm (hnot _)
  · rename_i hin
    exact ⟨hin, h⟩

theorem Inv.closing (hi : m.Inv homes) {going rest : List Nat} {gone : Activation → Nat → Bool}
    (hsub : rest.Sublist m.openUpvalues)
    (hrest : ∀ u, u ∈ rest ↔ u ∈ m.openUpvalues ∧ u ∉ going)
    (hopen : ∀ u ∈ going, u ∈ m.openUpvalues)
    (hgone : ∀ u activation register, homes u = some (.bound activation register) →
      (gone activation register = true ↔ u ∈ going)) :
    { m.closeIntoCell going with openUpvalues := rest }.Inv (m.release homes gone) := by
  let m' : Machine := { m.closeIntoCell going with openUpvalues := rest }
  have hstay : ∀ u, u ∉ going → m'.locations u = m.locations u := fun u hu => if_neg hu
  have hwent : ∀ u, u ∈ going →
      m'.locations u = (m.locations u).map fun location => .closed (m.get location) :=
    fun u hu => if_pos hu
  have hoffset : ∀ u, u ∉ going → m'.offset u = m.offset u := by
    intro u hu
    unfold offset
    rw [hstay u hu]
  have hsaved : ∀ u co, u ∈ (m.coroutines co).openUpvalues → u ∉ going := by
    intro u co hu hin
    obtain ⟨offset, hoff⟩ := (hi.captured.carried u co).mp hu
    obtain ⟨place, hplace⟩ := (hi.captured.opened u).mp (hopen u hin)
    cases hoff.symm.trans hplace
  have hback : ∀ u location, m'.locations u = some location → (∀ v, location ≠ .closed v) →
      u ∉ going ∧ m.locations u = some location := fun u location h hnot =>
    closeIntoCell_back h hnot
  have hbound : ∀ u activation register,
      m.release homes gone u = some (.bound activation register) →
        homes u = some (.bound activation register) ∧ u ∉ going := by
    intro u activation register h
    obtain ⟨hhome, hstays⟩ := release_bound h
    exact ⟨hhome, fun hin => Bool.eq_false_iff.mp hstays ((hgone u _ _ hhome).mpr hin)⟩
  refine ⟨⟨?_, ?_, ?_, ?_, ?_, ?_⟩,
    hi.stacked.along rfl rfl (Nat.le_refl _) fun _ _ _ h => h, ?_, ?_, ?_, ?_, ?_, hi.owned⟩
  · refine (hi.captured.descending.sublist hsub).imp_of_mem fun {u w} hu hw h => ?_
    rw [hoffset u ((hrest u).mp hu).2, hoffset w ((hrest w).mp hw).2]
    exact h
  · intro co
    refine (hi.captured.ascending co).imp_of_mem fun {u w} hu hw h => ?_
    rw [hoffset u (hsaved u co hu), hoffset w (hsaved w co hw)]
    exact h
  · intro u
    refine (hrest u).trans ⟨?_, ?_⟩
    · rintro ⟨hu, hin⟩
      rw [hstay u hin]
      exact (hi.captured.opened u).mp hu
    · rintro ⟨place, h⟩
      obtain ⟨hin, hbefore⟩ := hback u _ h nofun
      exact ⟨(hi.captured.opened u).mpr ⟨place, hbefore⟩, hin⟩
  · intro u co
    refine (hi.captured.carried u co).trans ⟨?_, ?_⟩
    · rintro ⟨offset, h⟩
      have hin := hsaved u co ((hi.captured.carried u co).mpr ⟨offset, h⟩)
      exact ⟨offset, (hstay u hin).trans h⟩
    · rintro ⟨offset, h⟩
      exact ⟨offset, (hback u _ h nofun).2⟩
  · intro u activation register h
    obtain ⟨hhome, hin⟩ := hbound u _ _ h
    rw [hstay u hin]
    exact hi.captured.bound u _ _ hhome
  · intro u v h
    rcases release_free h with hhome | ⟨activation, register, location, hhome, hg, hplace, rfl⟩
    · have hclosed := hi.captured.free u v hhome
      have hin : u ∉ going := by
        intro hin
        obtain ⟨place, hslot⟩ := (hi.captured.opened u).mp (hopen u hin)
        cases hclosed.symm.trans hslot
      rw [hstay u hin]
      exact hclosed
    · rw [hwent u ((hgone u _ _ hhome).mp hg), (hi.captured.bound u _ _ hhome).2, hplace]
      rfl
  · intro u
    rw [hi.release_none, ← hi.housed u]
    by_cases hin : u ∈ going
    · rw [hwent u hin, Option.map_eq_none_iff]
    · rw [hstay u hin]
  · intro u h
    exact hi.known u fun hnone => h (hi.release_none.mpr hnone)
  · exact fun u co register h => hi.bodies u co register (hbound u _ _ h).1
  · intro u activation register place h hplace
    exact hi.above u activation register place (hbound u _ _ h).1 (hback u _ hplace nofun).2
  · intro entries hentries entry hentry
    have hk := hi.costates entries hentries entry hentry
    exact ⟨hk.idle, hk.ascending, hk.nodup, hk.known, hk.bodies,
      fun c hc activation register h => hk.same c hc activation register (hbound c.1 _ _ h).1⟩

end Machine

end Lhat.Captures
