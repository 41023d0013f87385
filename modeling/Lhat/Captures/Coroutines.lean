import Lhat.Captures.Frames

/-!
# Captures that travel

A `yield^` takes what is captured of the frame into the coroutine with its registers, and a
resume brings both back. A costate keeps the captures of a suspended frame and gives them back.
-/

namespace Lhat.Captures.Machine

variable {m : Machine} {homes : Nat → Option Home} {u co : Nat} {frame : Frame}
  {rest : List Frame}

theorem activation_of_coroutine (h : frame.coroutine = some co) : frame.activation = .body co := by
  unfold Frame.coroutine at h
  split at h
  · rename_i co' hbody
    cases h
    exact hbody
  · cases h
  · cases h

section

variable (hi : m.Inv homes)
include hi

theorem Inv.running_empty
    (h : Activation.body co ∈ m.frames.map Frame.activation) :
    (m.coroutines co).openUpvalues = [] := by
  refine List.eq_nil_iff_forall_not_mem.mpr fun u hu => ?_
  obtain ⟨offset, hsaved⟩ := (hi.captured.carried u co).mp hu
  exact (hi.saved_home hsaved).2 h

theorem Inv.not_standing (h : (m.coroutines co).state ≠ .running) :
    Activation.body co ∉ m.frames.map Frame.activation := by
  intro hin
  obtain ⟨f, hf, he⟩ := List.mem_map.mp hin
  exact h (hi.stacked.running f hf co he).2

/-! ### Suspending -/

theorem Inv.yields (hframes : m.frames = frame :: rest)
    (hbody : frame.activation = .body co) : (m.yield frame co).Inv homes := by
  let going := m.openUpvalues.takeWhile fun u => frame.base ≤ m.offset u
  let m' := m.yield frame co
  have hdown := hi.captured.descending
  have hstanding : Activation.body co ∈ m.frames.map Frame.activation := by
    rw [hframes, List.map_cons, hbody]
    exact List.mem_cons_self
  have hempty := hi.running_empty hstanding
  have hnodup := hi.stacked.nodup
  rw [hframes, List.map_cons, List.nodup_cons, hbody] at hnodup
  -- what goes is what is captured of the frame
  have hgoing : ∀ u, u ∈ going ↔ ∃ r, homes u = some (.bound (.body co) r) := by
    intro u
    rw [mem_takeWhile_descending hdown]
    constructor
    · rintro ⟨hopen, hle⟩
      obtain ⟨place, hplace⟩ := (hi.captured.opened u).mp hopen
      rw [offset_slot hplace] at hle
      obtain ⟨r, hhome, -⟩ := hi.top_home hframes hplace hle
      exact ⟨r, hbody ▸ hhome⟩
    · rintro ⟨r, hhome⟩
      have hplace := hi.top_location hframes (hbody.symm ▸ hhome)
      refine ⟨(hi.captured.opened u).mpr ⟨_, hplace⟩, ?_⟩
      rw [offset_slot hplace]
      exact Nat.le_add_right _ _
  have hstay : ∀ u, u ∉ going → m'.locations u = m.locations u := fun u hu => if_neg hu
  have hwent : ∀ u ∈ going, m'.locations u = some (.saved co (m.offset u - frame.base)) :=
    fun u hu => if_pos hu
  have hoffset : ∀ u, u ∉ going → m'.offset u = m.offset u := by
    intro u hu
    unfold offset
    rw [hstay u hu]
  have hreg : ∀ u r, homes u = some (.bound (.body co) r) →
      m'.locations u = some (.saved co r) := by
    intro u r h
    have hplace := hi.top_location hframes (hbody.symm ▸ h)
    rw [hwent u ((hgoing u).mpr ⟨r, h⟩), offset_slot hplace, Nat.add_sub_cancel_left]
  have hnotbody : ∀ u activation r, homes u = some (.bound activation r) → u ∉ going →
      frame.activation ≠ activation := by
    rintro u activation r h hin rfl
    exact hin ((hgoing u).mpr ⟨r, hbody ▸ h⟩)
  have hsavedstay : ∀ u co', u ∈ (m.coroutines co').openUpvalues → u ∉ going := by
    intro u co' hu hin
    obtain ⟨offset, hsaved⟩ := (hi.captured.carried u co').mp hu
    obtain ⟨place, hplace⟩ := (hi.captured.opened u).mp ((mem_takeWhile_descending hdown).mp hin).1
    cases hsaved.symm.trans hplace
  have hhere : (m'.coroutines co).openUpvalues = going.reverse := by
    show (Function.update m.coroutines co _ co).openUpvalues = _
    rw [Function.update_self]
    exact (congrArg (going.reverse ++ ·) hempty).trans (List.append_nil _)
  have hthere : ∀ co', co' ≠ co → m'.coroutines co' = m.coroutines co' :=
    fun co' hne => Function.update_of_ne hne ..
  have htail : m'.frames = rest := by
    show m.frames.tail = rest
    rw [hframes]
    rfl
  refine ⟨⟨?_, ?_, ?_, ?_, ?_, ?_⟩, ?_, ?_, hi.known, hi.bodies, ?_, ?_, hi.owned⟩
  · refine (hdown.sublist (List.dropWhile_suffix _).sublist).imp_of_mem fun {u w} hu hw h => ?_
    have hout : ∀ u, u ∈ m.openUpvalues.dropWhile (fun u => frame.base ≤ m.offset u) →
        u ∉ going := fun u hu hin =>
      Nat.not_le.mpr ((mem_dropWhile_descending hdown).mp hu).2
        ((mem_takeWhile_descending hdown).mp hin).2
    rw [hoffset u (hout u hu), hoffset w (hout w hw)]
    exact h
  · intro co'
    by_cases hne : co' = co
    · subst hne
      rw [hhere, List.pairwise_reverse]
      refine (hdown.sublist (List.takeWhile_sublist _)).imp_of_mem fun {u w} hu hw h => ?_
      rw [offset_saved (hwent u hu), offset_saved (hwent w hw)]
      exact Nat.sub_lt_sub_right ((mem_takeWhile_descending hdown).mp hw).2 h
    · rw [hthere co' hne]
      refine (hi.captured.ascending co').imp_of_mem fun {u w} hu hw h => ?_
      rw [hoffset u (hsavedstay u co' hu), hoffset w (hsavedstay w co' hw)]
      exact h
  · intro u
    show u ∈ m.openUpvalues.dropWhile _ ↔ _
    rw [mem_dropWhile_descending hdown]
    constructor
    · rintro ⟨hopen, hlt⟩
      obtain ⟨place, hplace⟩ := (hi.captured.opened u).mp hopen
      have hin : u ∉ going := fun hin =>
        Nat.not_le.mpr hlt ((mem_takeWhile_descending hdown).mp hin).2
      exact ⟨place, (hstay u hin).trans hplace⟩
    · rintro ⟨place, hplace⟩
      have hin : u ∉ going := by
        intro hin
        cases (hwent u hin).symm.trans hplace
      rw [hstay u hin] at hplace
      have hopen := (hi.captured.opened u).mpr ⟨place, hplace⟩
      refine ⟨hopen, Nat.not_le.mp fun hle => hin ?_⟩
      exact (mem_takeWhile_descending hdown).mpr ⟨hopen, hle⟩
  · intro u co'
    by_cases hne : co' = co
    · subst hne
      rw [hhere, List.mem_reverse]
      refine ⟨fun hin => ⟨_, hwent u hin⟩, ?_⟩
      rintro ⟨offset, hsaved⟩
      by_contra hin
      rw [hstay u hin] at hsaved
      exact (hi.saved_home hsaved).2 hstanding
    · rw [hthere co' hne, hi.captured.carried u co']
      constructor
      · rintro ⟨offset, hsaved⟩
        have hin := hsavedstay u co' ((hi.captured.carried u co').mpr ⟨offset, hsaved⟩)
        exact ⟨offset, (hstay u hin).trans hsaved⟩
      · rintro ⟨offset, hsaved⟩
        have hin : u ∉ going := by
          intro hin
          cases (hwent u hin).symm.trans hsaved
          exact hne rfl
        exact ⟨offset, (hstay u hin).symm.trans hsaved⟩
  · intro u activation r h
    show _ ∧ _ = placeAmong m'.frames activation r
    rw [htail]
    by_cases hin : u ∈ going
    · obtain ⟨r', hhome⟩ := (hgoing u).mp hin
      cases hhome.symm.trans h
      rw [hreg u r hhome, placeAmong_absent hnodup.1]
      exact ⟨rfl, rfl⟩
    · obtain ⟨hsome, hplace⟩ := hi.captured.bound u _ _ h
      rw [Machine.place, hframes, placeAmong_cons_ne (hnotbody u _ _ h hin)] at hplace
      rw [hstay u hin]
      exact ⟨hsome, hplace⟩
  · intro u v h
    have hclosed := hi.captured.free u v h
    have hin : u ∉ going := by
      intro hin
      obtain ⟨r, hhome⟩ := (hgoing u).mp hin
      cases hhome.symm.trans h
    rw [hstay u hin]
    exact hclosed
  · refine (hi.stacked.tail hframes).along htail rfl (Nat.le_refl _) fun co' hin _ hrunning => ?_
    have hne : co' ≠ co := by
      rintro rfl
      exact hnodup.1 hin
    rw [hthere co' hne]
    exact hrunning
  · intro u
    by_cases hin : u ∈ going
    · obtain ⟨r, hhome⟩ := (hgoing u).mp hin
      rw [hwent u hin, hhome]
      simp
    · rw [hstay u hin]
      exact hi.housed u
  · intro u activation r place h hplace
    rw [htail]
    have hin : u ∉ going := by
      intro hin
      cases (hwent u hin).symm.trans hplace
    rw [hstay u hin] at hplace
    have hbefore := hi.above u activation r place h hplace
    rw [hframes, List.takeWhile_cons_of_pos (by simpa using hnotbody u _ _ h hin)] at hbefore
    exact fun f hf => hbefore f (List.mem_cons_of_mem _ hf)
  · intro entries hentries entry hentry
    obtain ⟨hidle, hup, hnd, hk, hb, hsame⟩ := hi.costates entries hentries entry hentry
    exact ⟨hidle, hup, hnd, hk, hb, hsame⟩

theorem Inv.yield : (m.act .yield).Inv (m.homes homes .yield) := by
  simp only [Machine.act, Machine.homes]
  split
  · rename_i frame rest hframes
    split
    · rename_i co hco
      exact hi.yields hframes (activation_of_coroutine hco)
    · exact hi
  · exact hi

/-! ### Taking up again -/

theorem Inv.enters {base : Nat} (hco : m.resumable co = true)
    (hbase : m.base ≤ base) (hclear : ∀ u ∈ m.openUpvalues, m.offset u < base) :
    (m.vmEnterFrame co base).Inv homes := by
  let going := (m.coroutines co).openUpvalues
  let m' := m.vmEnterFrame co base
  obtain ⟨hlt, hidle⟩ := idle_of_resumable hco
  have habsent := hi.not_standing hidle
  have hsaved : ∀ u r, homes u = some (.bound (.body co) r) →
      m.locations u = some (.saved co r) := by
    intro u r h
    rw [(hi.captured.bound u _ _ h).2, Machine.place, placeAmong_absent habsent]
    rfl
  -- what comes back is what is captured of the coroutine
  have hgoing : ∀ u, u ∈ going ↔ ∃ r, homes u = some (.bound (.body co) r) := by
    intro u
    refine (hi.captured.carried u co).trans ⟨?_, ?_⟩
    · exact Exists.imp fun _ hplace => (hi.saved_home hplace).1
    · exact Exists.imp (hsaved u)
  have hopen : ∀ u ∈ m.openUpvalues, u ∉ going := by
    intro u hu hin
    obtain ⟨place, hplace⟩ := (hi.captured.opened u).mp hu
    obtain ⟨offset, hoff⟩ := (hi.captured.carried u co).mp hin
    cases hplace.symm.trans hoff
  have hstay : ∀ u, u ∉ going → m'.locations u = m.locations u := fun u hu => if_neg hu
  have hwent : ∀ u ∈ going, m'.locations u = some (.slot (base + m.offset u)) :=
    fun u hu => if_pos hu
  have hoffset : ∀ u, u ∉ going → m'.offset u = m.offset u := by
    intro u hu
    unfold offset
    rw [hstay u hu]
  have hreg : ∀ u r, homes u = some (.bound (.body co) r) →
      m'.locations u = some (.slot (base + r)) := by
    intro u r h
    rw [hwent u ((hgoing u).mpr ⟨r, h⟩), offset_saved (hsaved u r h)]
  have hother : ∀ u activation r, homes u = some (.bound activation r) → u ∉ going →
      Activation.body co ≠ activation := by
    rintro u activation r h hin rfl
    exact hin ((hgoing u).mpr ⟨r, h⟩)
  have hhere : m'.coroutines co =
      { m.coroutines co with state := .running, openUpvalues := [] } := by
    show Function.update (Function.update m.coroutines co _) co _ co = _
    rw [Function.update_self]
    show { Function.update m.coroutines co _ co with state := CoroutineState.running } = _
    rw [Function.update_self]
    rfl
  have hthere : ∀ co', co' ≠ co → m'.coroutines co' = m.coroutines co' := by
    intro co' hne
    show Function.update (Function.update m.coroutines co _) co _ co' = _
    rw [Function.update_of_ne hne, Function.update_of_ne hne]
  have hframes : m'.frames = { base, activation := .body co } :: m.frames := rfl
  let top : Frame := { base, activation := .body co }
  have htop : ∀ r, placeAmong (top :: m.frames) top.activation r = some (.slot (top.base + r)) :=
    fun r => placeAmong_cons_self
  refine ⟨⟨?_, ?_, ?_, ?_, ?_, ?_⟩, ?_, ?_, hi.known, hi.bodies, ?_, ?_, hi.owned⟩
  · refine List.pairwise_append.mpr ⟨?_, ?_, ?_⟩
    · refine List.pairwise_reverse.mpr
        ((hi.captured.ascending co).imp_of_mem fun {u w} hu hw h => ?_)
      rw [offset_slot (hwent u hu), offset_slot (hwent w hw)]
      exact Nat.add_lt_add_left h base
    · refine hi.captured.descending.imp_of_mem fun {u w} hu hw h => ?_
      rw [hoffset u (hopen u hu), hoffset w (hopen w hw)]
      exact h
    · intro u hu w hw
      rw [offset_slot (hwent u (List.mem_reverse.mp hu)), hoffset w (hopen w hw)]
      exact Nat.lt_add_right _ (hclear w hw)
  · intro co'
    by_cases hne : co' = co
    · subst hne
      rw [hhere]
      exact List.Pairwise.nil
    · rw [hthere co' hne]
      refine (hi.captured.ascending co').imp_of_mem fun {u w} hu hw h => ?_
      have hout : ∀ u ∈ (m.coroutines co').openUpvalues, u ∉ going := by
        intro u hu hin
        obtain ⟨offset, hoff⟩ := (hi.captured.carried u co').mp hu
        obtain ⟨r, hhome⟩ := (hgoing u).mp hin
        cases hoff.symm.trans (hsaved u r hhome)
        exact hne rfl
      rw [hoffset u (hout u hu), hoffset w (hout w hw)]
      exact h
  · intro u
    show u ∈ going.reverse ++ m.openUpvalues ↔ _
    rw [List.mem_append, List.mem_reverse]
    by_cases hin : u ∈ going
    · exact ⟨fun _ => ⟨_, hwent u hin⟩, fun _ => Or.inl hin⟩
    · rw [hstay u hin, ← hi.captured.opened u]
      exact ⟨fun h => h.resolve_left hin, Or.inr⟩
  · intro u co'
    by_cases hne : co' = co
    · subst hne
      rw [hhere]
      refine ⟨fun h => absurd h List.not_mem_nil, ?_⟩
      rintro ⟨offset, hoff⟩
      by_cases hin : u ∈ going
      · cases (hwent u hin).symm.trans hoff
      · rw [hstay u hin] at hoff
        exact absurd ((hi.captured.carried u co').mpr ⟨offset, hoff⟩) hin
    · rw [hthere co' hne, hi.captured.carried u co']
      by_cases hin : u ∈ going
      · obtain ⟨r, hhome⟩ := (hgoing u).mp hin
        rw [hsaved u r hhome, hwent u hin]
        constructor
        · rintro ⟨_, he⟩
          cases he
          exact absurd rfl hne
        · rintro ⟨_, he⟩
          cases he
      · rw [hstay u hin]
  · intro u activation r h
    show _ ∧ _ = placeAmong m'.frames activation r
    rw [hframes]
    by_cases hin : u ∈ going
    · obtain ⟨r', hhome⟩ := (hgoing u).mp hin
      cases hhome.symm.trans h
      rw [hreg u r hhome]
      exact ⟨rfl, (htop r).symm⟩
    · rw [hstay u hin, placeAmong_cons_ne (hother u _ _ h hin)]
      exact hi.captured.bound u _ _ h
  · intro u v h
    have hin : u ∉ going := by
      intro hin
      obtain ⟨r, hhome⟩ := (hgoing u).mp hin
      cases hhome.symm.trans h
    rw [hstay u hin]
    exact hi.captured.free u v h
  · refine hi.stacked.push hframes habsent (by simp) (Nat.le_refl _) ?_ (Nat.le_refl _) ?_ (by simp)
      (fun _ => rfl) hbase
    · intro co' he
      cases he
      exact ⟨hlt, by rw [hhere]⟩
    · intro co' hrunning
      have hne : co' ≠ co := by
        rintro rfl
        exact hidle hrunning
      rw [hthere co' hne]
      exact hrunning
  · intro u
    by_cases hin : u ∈ going
    · obtain ⟨r, hhome⟩ := (hgoing u).mp hin
      rw [hwent u hin, hhome]
      simp
    · rw [hstay u hin]
      exact hi.housed u
  · intro u activation r place h hplace
    rw [hframes]
    by_cases hin : u ∈ going
    · obtain ⟨r', hhome⟩ := (hgoing u).mp hin
      cases hhome.symm.trans h
      simp [List.takeWhile_cons_of_neg]
    · rw [hstay u hin] at hplace
      rw [List.takeWhile_cons_of_pos (by simpa using hother u _ _ h hin)]
      refine List.forall_mem_cons.mpr ⟨?_, hi.above u activation r place h hplace⟩
      have hlow := hclear u ((hi.captured.opened u).mpr ⟨place, hplace⟩)
      rwa [offset_slot hplace] at hlow
  · intro entries hentries entry hentry
    obtain ⟨hidle, hup, hnd, hk, hb, hsame⟩ := hi.costates entries hentries entry hentry
    exact ⟨hidle, hup, hnd, hk, hb, hsame⟩

theorem Inv.resume (co above : Nat) (hclear : m.Clear (.resume co above)) :
    (m.act (.resume co above)).Inv (m.homes homes (.resume co above)) := by
  show (if m.resumable co then m.vmEnterFrame co (m.base + above) else m).Inv homes
  split
  · rename_i hco
    exact hi.enters hco (Nat.le_add_right _ _) hclear
  · exact hi

theorem Inv.dispose (co above : Nat) (hclear : m.Clear (.dispose co above)) :
    (m.act (.dispose co above)).Inv (m.homes homes (.dispose co above)) :=
  hi.enters hclear.1 (Nat.le_add_right _ _) hclear.2

end

end Lhat.Captures.Machine
