import Lhat.Captures.Invariant

/-!
# What one move keeps

One lemma for each operation of the machine: where the captures are of goes with where they are.
-/

namespace Lhat.Captures.Machine

variable {m : Machine} {homes : Nat → Option Home} {u : Nat} {frame : Frame} {rest : List Frame}

/-! ### Closing -/

theorem Inv.vmCloseUpvalues (hi : m.Inv homes) {above : Nat} {gone : Activation → Nat → Bool}
    (hgone : ∀ u activation register, homes u = some (.bound activation register) →
      (gone activation register = true ↔
        ∃ place, m.locations u = some (.slot place) ∧ above ≤ place)) :
    (m.vmCloseUpvalues above).Inv (m.release homes gone) := by
  have hdown := hi.captured.descending
  refine hi.closing (List.dropWhile_suffix _).sublist ?_ ?_ ?_
  · intro u
    rw [mem_dropWhile_descending hdown, mem_takeWhile_descending hdown, not_and, Nat.not_le]
    exact ⟨fun ⟨hu, hlt⟩ => ⟨hu, fun _ => hlt⟩, fun ⟨hu, hlt⟩ => ⟨hu, hlt hu⟩⟩
  · exact fun u hu => ((mem_takeWhile_descending hdown).mp hu).1
  · intro u activation register h
    rw [hgone u activation register h, mem_takeWhile_descending hdown, hi.captured.opened u]
    constructor
    · rintro ⟨place, hplace, hle⟩
      exact ⟨⟨place, hplace⟩, (offset_slot hplace).symm ▸ hle⟩
    · rintro ⟨⟨place, hplace⟩, hle⟩
      exact ⟨place, hplace, offset_slot hplace ▸ hle⟩

theorem Inv.top_above (hi : m.Inv homes) (hframes : m.frames = frame :: rest)
    {activation : Activation} {register a : Nat} (h : homes u = some (.bound activation register)) :
    (frame.activation = activation ∧ a ≤ register) ↔
      ∃ place, m.locations u = some (.slot place) ∧ frame.base + a ≤ place := by
  constructor
  · rintro ⟨rfl, hle⟩
    exact ⟨frame.base + register, hi.top_location hframes h, Nat.add_le_add_left hle _⟩
  · rintro ⟨place, hplace, hle⟩
    obtain ⟨r, hhome, rfl⟩ := hi.top_home hframes hplace (Nat.le_of_add_right_le hle)
    cases hhome.symm.trans h
    exact ⟨rfl, Nat.le_of_add_le_add_left hle⟩

theorem base_cons (hframes : m.frames = frame :: rest) : m.base = frame.base := by
  unfold base
  rw [hframes]
  rfl

theorem current_cons (hframes : m.frames = frame :: rest) : m.current = some frame.activation := by
  unfold current
  rw [hframes]
  rfl

theorem current_nil (hframes : m.frames = []) : m.current = none := by
  unfold current
  rw [hframes]
  rfl

theorem release_nothing {gone : Activation → Nat → Bool}
    (h : ∀ activation register, gone activation register = false) :
    m.release homes gone = homes := by
  funext u
  unfold release
  split
  · rename_i activation register hhome
    exact if_neg (Bool.eq_false_iff.mp (h activation register))
  · rfl

theorem Inv.close (hi : m.Inv homes) (register : Nat) :
    (m.act (.close register)).Inv (m.homes homes (.close register)) := by
  show (if m.frames.isEmpty then m else m.vmCloseUpvalues (m.base + register)).Inv
    (m.release homes fun activation r => m.current = some activation && decide (register ≤ r))
  cases hframes : m.frames with
  | nil =>
    rw [release_nothing fun activation r => by rw [current_nil hframes]; rfl]
    exact hi
  | cons frame rest =>
    rw [base_cons hframes]
    refine hi.vmCloseUpvalues fun u activation r h => ?_
    rw [current_cons hframes, ← hi.top_above hframes h]
    simp

theorem Inv.closeOne (hi : m.Inv homes) (register : Nat) :
    (m.act (.closeOne register)).Inv (m.homes homes (.closeOne register)) := by
  show (if m.frames.isEmpty then m else m.vmCloseOneUpvalue (m.base + register)).Inv
    (m.release homes fun activation r => m.current = some activation && decide (r = register))
  cases hframes : m.frames with
  | nil =>
    rw [release_nothing fun activation r => by rw [current_nil hframes]; rfl]
    exact hi
  | cons frame rest =>
    rw [base_cons hframes, current_cons hframes]
    refine hi.closing List.filter_sublist ?_ (fun u hu => (List.mem_filter.mp hu).1) ?_
    · intro u
      rw [List.mem_filter, List.mem_filter]
      simp only [decide_eq_true_eq, not_and]
      exact ⟨fun ⟨hu, hne⟩ => ⟨hu, fun _ => hne⟩, fun ⟨hu, hne⟩ => ⟨hu, hne hu⟩⟩
    · intro u activation r h
      rw [List.mem_filter, hi.captured.opened u]
      simp only [Bool.and_eq_true, decide_eq_true_eq, Option.some.injEq]
      constructor
      · rintro ⟨rfl, rfl⟩
        have hplace := hi.top_location hframes h
        exact ⟨⟨_, hplace⟩, offset_slot hplace⟩
      · rintro ⟨⟨place, hplace⟩, hat⟩
        rw [offset_slot hplace] at hat
        obtain ⟨r', hhome, hr⟩ :=
          hi.top_home hframes hplace (hat ▸ Nat.le_add_right frame.base register)
        cases hhome.symm.trans h
        exact ⟨rfl, Nat.add_left_cancel (hr.symm.trans hat)⟩

/-! ### Capturing -/

theorem Inv.captureNew (hi : m.Inv homes) (hframes : m.frames = frame :: rest) {register : Nat}
    {above link : List Nat} (hopen : m.openUpvalues = above ++ link)
    (habove : ∀ u ∈ above, frame.base + register < m.offset u)
    (hlink : ∀ u ∈ link, m.offset u < frame.base + register) :
    Inv
      { m with
        locations :=
          Function.update m.locations m.upvalueCount (some (.slot (frame.base + register)))
        upvalueCount := m.upvalueCount + 1
        openUpvalues := above ++ m.upvalueCount :: link }
      (Function.update homes m.upvalueCount (some (.bound frame.activation register))) := by
  let m' : Machine :=
    { m with
      locations :=
        Function.update m.locations m.upvalueCount (some (.slot (frame.base + register)))
      upvalueCount := m.upvalueCount + 1
      openUpvalues := above ++ m.upvalueCount :: link }
  have hfresh : homes m.upvalueCount = none := by
    by_contra hsome
    exact Nat.lt_irrefl _ (hi.known _ hsome)
  have hnone := (hi.housed _).mpr hfresh
  have hhere : m'.locations m.upvalueCount = some (.slot (frame.base + register)) :=
    Function.update_self ..
  have hother : ∀ u, u ≠ m.upvalueCount → m'.locations u = m.locations u :=
    fun u hu => Function.update_of_ne hu ..
  have hne : ∀ u location, m.locations u = some location → u ≠ m.upvalueCount := by
    rintro u location h rfl
    cases hnone.symm.trans h
  have hoffset : ∀ u location, m.locations u = some location → m'.offset u = m.offset u := by
    intro u location h
    unfold offset
    rw [hother u (hne u _ h)]
  have hopened : ∀ u ∈ m.openUpvalues, m'.offset u = m.offset u := by
    intro u hu
    obtain ⟨place, hplace⟩ := (hi.captured.opened u).mp hu
    exact hoffset u _ hplace
  have hnew : m'.offset m.upvalueCount = frame.base + register := offset_slot hhere
  have hhome : ∀ u activation r,
      Function.update homes m.upvalueCount (some (.bound frame.activation register)) u =
        some (.bound activation r) → u ≠ m.upvalueCount → homes u = some (.bound activation r) := by
    intro u activation r h hu
    rwa [Function.update_of_ne hu] at h
  have hdown := hi.captured.descending
  rw [hopen] at hdown
  have hup : ∀ u ∈ above, u ∈ m.openUpvalues := fun u hu => hopen ▸ List.mem_append_left _ hu
  have hun : ∀ u ∈ link, u ∈ m.openUpvalues := fun u hu => hopen ▸ List.mem_append_right _ hu
  obtain ⟨hdabove, hdlink, hdcross⟩ := List.pairwise_append.mp hdown
  refine ⟨⟨?_, ?_, ?_, ?_, ?_, ?_⟩,
    hi.stacked.along rfl rfl (Nat.le_refl _) fun _ _ _ h => h, ?_, ?_, ?_, ?_, ?_, hi.owned⟩
  · refine List.pairwise_append.mpr ⟨?_, List.pairwise_cons.mpr ⟨?_, ?_⟩, ?_⟩
    · refine hdabove.imp_of_mem fun {u w} hu hw h => ?_
      rw [hopened u (hup u hu), hopened w (hup w hw)]
      exact h
    · intro w hw
      rw [hopened w (hun w hw), hnew]
      exact hlink w hw
    · refine hdlink.imp_of_mem fun {u w} hu hw h => ?_
      rw [hopened u (hun u hu), hopened w (hun w hw)]
      exact h
    · intro u hu w hw
      rw [hopened u (hup u hu)]
      rcases List.mem_cons.mp hw with rfl | hw
      · rw [hnew]
        exact habove u hu
      · rw [hopened w (hun w hw)]
        exact hdcross u hu w hw
  · intro co
    refine (hi.captured.ascending co).imp_of_mem fun {u w} hu hw h => ?_
    obtain ⟨_, hu'⟩ := (hi.captured.carried u co).mp hu
    obtain ⟨_, hw'⟩ := (hi.captured.carried w co).mp hw
    rw [hoffset u _ hu', hoffset w _ hw']
    exact h
  · intro u
    by_cases hu : u = m.upvalueCount
    · subst hu
      exact ⟨fun _ => ⟨_, hhere⟩, fun _ => List.mem_append_right _ List.mem_cons_self⟩
    · rw [hother u hu, ← hi.captured.opened u, hopen]
      simp [hu]
  · intro u co
    rw [hi.captured.carried u co]
    by_cases hu : u = m.upvalueCount
    · subst hu
      rw [hnone, hhere]
      exact ⟨fun ⟨_, h⟩ => (nomatch h), fun ⟨_, h⟩ => (nomatch h)⟩
    · rw [hother u hu]
  · intro u activation r h
    by_cases hu : u = m.upvalueCount
    · subst hu
      rw [Function.update_self] at h
      cases h
      rw [hhere]
      refine ⟨rfl, ?_⟩
      show _ = placeAmong m.frames _ _
      rw [hframes, placeAmong_cons_self]
    · rw [hother u hu]
      exact hi.captured.bound u _ _ (hhome u _ _ h hu)
  · intro u v h
    by_cases hu : u = m.upvalueCount
    · subst hu
      rw [Function.update_self] at h
      cases h
    · rw [Function.update_of_ne hu] at h
      rw [hother u hu]
      exact hi.captured.free u v h
  · intro u
    by_cases hu : u = m.upvalueCount
    · subst hu
      rw [hhere, Function.update_self]
      exact ⟨nofun, nofun⟩
    · rw [hother u hu, Function.update_of_ne hu]
      exact hi.housed u
  · intro u h
    by_cases hu : u = m.upvalueCount
    · exact hu ▸ Nat.lt_succ_self _
    · rw [Function.update_of_ne hu] at h
      exact Nat.lt_succ_of_lt (hi.known u h)
  · intro u co r h
    by_cases hu : u = m.upvalueCount
    · subst hu
      rw [Function.update_self] at h
      have hbody : frame.activation = .body co := (Home.bound.inj (Option.some.inj h)).1
      exact (hi.stacked.running frame (hframes ▸ List.mem_cons_self) co hbody).1
    · exact hi.bodies u co r (hhome u _ _ h hu)
  · intro u activation r place h hplace
    by_cases hu : u = m.upvalueCount
    · subst hu
      rw [Function.update_self] at h
      cases h
      show ∀ frame' ∈ m.frames.takeWhile _, _
      rw [hframes, List.takeWhile_cons_of_neg (by simp)]
      nofun
    · rw [hother u hu] at hplace
      exact hi.above u _ _ _ (hhome u _ _ h hu) hplace
  · intro entries hentries entry hentry
    have hk := hi.costates entries hentries entry hentry
    refine ⟨hk.idle, hk.ascending, hk.nodup, fun c hc => Nat.lt_succ_of_lt (hk.known c hc),
      hk.bodies, fun c hc activation r h => ?_⟩
    exact hk.same c hc _ _ (hhome c.1 _ _ h (Nat.ne_of_lt (hk.known c hc)))

theorem Inv.found (hi : m.Inv homes) (hframes : m.frames = frame :: rest) (register : Nat)
    {link : List Nat}
    (hlink : link = m.openUpvalues.dropWhile fun u => frame.base + register + 1 ≤ m.offset u) :
    (link.head?.any fun u => m.offset u = frame.base + register) = true ↔
      ∃ u, homes u = some (.bound frame.activation register) := by
  have hmem : ∀ u, u ∈ link ↔ u ∈ m.openUpvalues ∧ m.offset u < frame.base + register + 1 := by
    intro u
    rw [hlink]
    exact mem_dropWhile_descending hi.captured.descending
  have hdown : link.Pairwise fun u w => m.offset w < m.offset u := by
    rw [hlink]
    exact hi.captured.descending.sublist (List.dropWhile_suffix _).sublist
  cases link with
  | nil =>
    refine ⟨nofun, fun ⟨u, hu⟩ => ?_⟩
    have hplace := hi.top_location hframes hu
    have hin := (hmem u).mpr ⟨(hi.captured.opened u).mpr ⟨_, hplace⟩, by
      rw [offset_slot hplace]
      exact Nat.lt_succ_self _⟩
    cases hin
  | cons w link =>
    rw [List.head?_cons, Option.any_some, decide_eq_true_eq]
    constructor
    · intro hat
      obtain ⟨place, hplace⟩ :=
        (hi.captured.opened w).mp ((hmem w).mp List.mem_cons_self).1
      rw [offset_slot hplace] at hat
      obtain ⟨r, hhome, hr⟩ :=
        hi.top_home hframes hplace (hat ▸ Nat.le_add_right frame.base register)
      have hsame : r = register := Nat.add_left_cancel (hr.symm.trans hat)
      exact ⟨w, hsame ▸ hhome⟩
    · rintro ⟨u, hu⟩
      have hplace := hi.top_location hframes hu
      have hin := (hmem u).mpr ⟨(hi.captured.opened u).mpr ⟨_, hplace⟩, by
        rw [offset_slot hplace]
        exact Nat.lt_succ_self _⟩
      rcases List.mem_cons.mp hin with rfl | hin
      · exact offset_slot hplace
      · have hlt := (List.pairwise_cons.mp hdown).1 u hin
        rw [offset_slot hplace] at hlt
        exact absurd ((hmem w).mp List.mem_cons_self).2 (Nat.not_lt.mpr hlt)

theorem Inv.closure (hi : m.Inv homes) (register : Nat) :
    (m.act (.closure register)).Inv (m.homes homes (.closure register)) := by
  show (if m.frames.isEmpty then m else m.vmCapture (m.base + register)).Inv _
  cases hframes : m.frames with
  | nil =>
    unfold Machine.homes
    rw [current_nil hframes]
    exact hi
  | cons frame rest =>
    unfold Machine.homes
    rw [base_cons hframes, current_cons hframes]
    have hfound := hi.found hframes register rfl
    have hany : ((List.range m.upvalueCount).any fun u =>
        homes u = some (.bound frame.activation register)) = true ↔
          ∃ u, homes u = some (.bound frame.activation register) := by
      rw [List.any_eq_true]
      constructor
      · exact fun ⟨u, _, hu⟩ => ⟨u, of_decide_eq_true hu⟩
      · intro ⟨u, hu⟩
        exact ⟨u, List.mem_range.mpr (hi.known u (by rw [hu]; nofun)), decide_eq_true hu⟩
    unfold vmCapture
    dsimp only [List.isEmpty_cons]
    by_cases hshared : ∃ u, homes u = some (.bound frame.activation register)
    · rw [if_neg Bool.false_ne_true, if_pos (hfound.mpr hshared), if_pos (hany.mpr hshared)]
      exact hi
    · rw [if_neg Bool.false_ne_true, if_neg (mt hfound.mp hshared), if_neg (mt hany.mp hshared)]
      have hdown := hi.captured.descending
      refine hi.captureNew hframes List.takeWhile_append_dropWhile.symm ?_ ?_
      · exact fun u hu => ((mem_takeWhile_descending hdown).mp hu).2
      · intro u hu
        obtain ⟨hopen, hlt⟩ := (mem_dropWhile_descending hdown).mp hu
        refine Nat.lt_of_le_of_ne (Nat.le_of_lt_succ hlt) fun hat => hshared ?_
        obtain ⟨place, hplace⟩ := (hi.captured.opened u).mp hopen
        rw [offset_slot hplace] at hat
        obtain ⟨r, hhome, hr⟩ :=
          hi.top_home hframes hplace (hat ▸ Nat.le_add_right frame.base register)
        have hsame : r = register := Nat.add_left_cancel (hr.symm.trans hat)
        exact ⟨u, hsame ▸ hhome⟩

/-! ### Registers and what is in them -/

theorem offset_congr {m' : Machine} (h : m'.locations = m.locations) : m'.offset = m.offset := by
  funext u
  unfold offset
  rw [h]

theorem Inv.along {m' : Machine} (hi : m.Inv homes) (hlocations : m'.locations = m.locations)
    (hcount : m'.upvalueCount = m.upvalueCount) (hopen : m'.openUpvalues = m.openUpvalues)
    (hlists : ∀ co, (m'.coroutines co).openUpvalues = (m.coroutines co).openUpvalues)
    (hcoroutines : m.coroutineCount ≤ m'.coroutineCount) (hframes : m'.frames = m.frames)
    (hstacked : m'.Stacked) (hcostates : m'.costates = m.costates) : m'.Inv homes := by
  obtain ⟨⟨hdescending, hascending, hopened, hcarried, hbound, hfree⟩, -, hhoused, hknown, hbodies,
    habove, hkeeps, howned⟩ := hi
  have hoffset := offset_congr hlocations
  refine ⟨⟨?_, ?_, ?_, ?_, ?_, ?_⟩, hstacked, ?_, ?_, ?_, ?_, ?_, ?_⟩
  · rw [hopen, hoffset]
    exact hdescending
  · intro co
    rw [hlists, hoffset]
    exact hascending co
  · rw [hopen, hlocations]
    exact hopened
  · intro u co
    rw [hlists, hlocations]
    exact hcarried u co
  · unfold place
    rw [hlocations, hframes]
    exact hbound
  · rw [hlocations]
    exact hfree
  · rw [hlocations]
    exact hhoused
  · rw [hcount]
    exact hknown
  · exact fun u co register h => Nat.lt_of_lt_of_le (hbodies u co register h) hcoroutines
  · rw [hlocations, hframes]
    exact habove
  · rw [hcostates]
    intro entries hentries entry hentry
    obtain ⟨hidle, hup, hnodup, hk, hb, hsame⟩ := hkeeps entries hentries entry hentry
    exact ⟨hidle, hup, hnodup, hcount ▸ hk, Nat.lt_of_lt_of_le hb hcoroutines, hsame⟩
  · rw [hcostates]
    exact howned

theorem Inv.setSlots (hi : m.Inv homes) (slots : Nat → LhatValue) :
    { m with slots }.Inv homes :=
  hi.along rfl rfl rfl (fun _ => rfl) (Nat.le_refl _) rfl
    (hi.stacked.along rfl rfl (Nat.le_refl _) fun _ _ _ h => h) rfl

theorem Inv.setCoroutine (hi : m.Inv homes) {co : Nat} {c : LhatCoroutine}
    (hlist : c.openUpvalues = (m.coroutines co).openUpvalues)
    (hstate : Activation.body co ∈ m.frames.map Frame.activation →
      (m.coroutines co).state = .running → c.state = .running) :
    (m.setCoroutine co c).Inv homes := by
  have hat : ∀ co', co' ≠ co → (m.setCoroutine co c).coroutines co' = m.coroutines co' :=
    fun co' hne => Function.update_of_ne hne ..
  have hhere : (m.setCoroutine co c).coroutines co = c := Function.update_self ..
  refine hi.along rfl rfl rfl ?_ (Nat.le_refl _) rfl ?_ rfl
  · intro co'
    by_cases hne : co' = co
    · subst hne
      rw [hhere, hlist]
    · rw [hat co' hne]
  · refine hi.stacked.along rfl rfl (Nat.le_refl _) fun co' hbody _ hrunning => ?_
    by_cases hne : co' = co
    · subst hne
      rw [hhere]
      exact hstate hbody hrunning
    · rw [hat co' hne]
      exact hrunning

theorem placeAmong_ne_closed {frames : List Frame} {activation : Activation} {register : Nat}
    {v : LhatValue} : placeAmong frames activation register ≠ some (.closed v) := by
  unfold placeAmong
  split
  · nofun
  · split <;> nofun

theorem Inv.closed_home (hi : m.Inv homes) {w : LhatValue}
    (h : m.locations u = some (.closed w)) : homes u = some (.free w) := by
  rcases hhome : homes u with _ | ⟨activation, register⟩ | v
  · cases h.symm.trans ((hi.housed u).mpr hhome)
  · exact absurd ((hi.captured.bound u _ _ hhome).2.symm.trans h) placeAmong_ne_closed
  · cases h.symm.trans (hi.captured.free u v hhome)
    rfl

theorem Inv.setClosed (hi : m.Inv homes) {w : LhatValue} (h : m.locations u = some (.closed w))
    (v : LhatValue) :
    { m with locations := Function.update m.locations u (some (.closed v)) }.Inv
      (Function.update homes u (some (.free v))) := by
  let m' : Machine := { m with locations := Function.update m.locations u (some (.closed v)) }
  have hhere : m'.locations u = some (.closed v) := Function.update_self ..
  have hother : ∀ w, w ≠ u → m'.locations w = m.locations w :=
    fun w hne => Function.update_of_ne hne ..
  have hoffset : m'.offset = m.offset := by
    funext w
    unfold offset
    by_cases hne : w = u
    · subst hne
      rw [hhere, h]
    · rw [hother w hne]
  have hsame : ∀ w location, (∀ v, location ≠ .closed v) →
      (m'.locations w = some location ↔ m.locations w = some location) := by
    intro w location hnot
    by_cases hne : w = u
    · subst hne
      rw [hhere, h]
      exact ⟨fun he => absurd (Option.some.inj he).symm (hnot v),
        fun he => absurd (Option.some.inj he).symm (hnot _)⟩
    · rw [hother w hne]
  have hhome : ∀ w activation register,
      Function.update homes u (some (.free v)) w = some (.bound activation register) →
        w ≠ u ∧ homes w = some (.bound activation register) := by
    intro w activation register hw
    by_cases hne : w = u
    · subst hne
      rw [Function.update_self] at hw
      cases hw
    · exact ⟨hne, by rwa [Function.update_of_ne hne] at hw⟩
  refine ⟨⟨?_, ?_, ?_, ?_, ?_, ?_⟩,
    hi.stacked.along rfl rfl (Nat.le_refl _) fun _ _ _ h => h, ?_, ?_, ?_, ?_, ?_, hi.owned⟩
  · show m.openUpvalues.Pairwise fun u w => m'.offset w < m'.offset u
    rw [hoffset]
    exact hi.captured.descending
  · intro co
    show (m.coroutines co).openUpvalues.Pairwise fun u w => m'.offset u < m'.offset w
    rw [hoffset]
    exact hi.captured.ascending co
  · intro w
    exact (hi.captured.opened w).trans (exists_congr fun place => (hsame w (.slot place) nofun).symm)
  · intro w co
    exact (hi.captured.carried w co).trans (exists_congr fun offset =>
      (hsame w (.saved co offset) nofun).symm)
  · intro w activation register hw
    obtain ⟨hne, hbound⟩ := hhome w _ _ hw
    rw [hother w hne]
    exact hi.captured.bound w _ _ hbound
  · intro w v' hw
    by_cases hne : w = u
    · subst hne
      rw [Function.update_self] at hw
      cases hw
      exact hhere
    · rw [Function.update_of_ne hne] at hw
      rw [hother w hne]
      exact hi.captured.free w v' hw
  · intro w
    by_cases hne : w = u
    · subst hne
      rw [hhere, Function.update_self]
      exact ⟨nofun, nofun⟩
    · rw [hother w hne, Function.update_of_ne hne]
      exact hi.housed w
  · intro w hw
    by_cases hne : w = u
    · subst hne
      exact hi.known w (by rw [hi.closed_home h]; nofun)
    · rw [Function.update_of_ne hne] at hw
      exact hi.known w hw
  · exact fun w co register hw => hi.bodies w co register (hhome w _ _ hw).2
  · intro w activation register place hw hplace
    exact hi.above w activation register place (hhome w _ _ hw).2
      ((hsame w (.slot place) nofun).mp hplace)
  · intro entries hentries entry hentry
    have hk := hi.costates entries hentries entry hentry
    exact ⟨hk.idle, hk.ascending, hk.nodup, hk.known, hk.bodies,
      fun c hc activation register hw => hk.same c hc _ _ (hhome c.1 _ _ hw).2⟩

theorem Inv.setUpvalue (hi : m.Inv homes) (u : Nat) (v : LhatValue) :
    (m.act (.setUpvalue u v)).Inv (m.homes homes (.setUpvalue u v)) := by
  unfold act Machine.homes
  dsimp only
  rcases hlocation : m.locations u with _ | ⟨place⟩ | ⟨co, offset⟩ | ⟨w⟩
  · rw [(hi.housed u).mp hlocation]
    exact hi
  · obtain ⟨activation, register, hhome, -⟩ := hi.slot_home hlocation
    rw [hhome]
    exact hi.setSlots _
  · rw [(hi.saved_home hlocation).1]
    exact hi.setCoroutine rfl fun _ h => h
  · rw [hi.closed_home hlocation]
    exact hi.setClosed hlocation v

theorem idle_of_resumable {co : Nat} (h : m.resumable co = true) :
    co < m.coroutineCount ∧ (m.coroutines co).state ≠ .running := by
  obtain ⟨hlt, hstate⟩ := Bool.and_eq_true_iff.mp h
  refine ⟨of_decide_eq_true hlt, fun hrunning => ?_⟩
  rw [hrunning] at hstate
  cases hstate

theorem Inv.finish (hi : m.Inv homes) (co : Nat) :
    (m.act (.finish co)).Inv (m.homes homes (.finish co)) := by
  show (if m.resumable co then m.setCoroutine co { m.coroutines co with state := .done }
    else m).Inv homes
  split
  · rename_i h
    exact hi.setCoroutine rfl fun _ hrunning => absurd hrunning (idle_of_resumable h).2
  · exact hi

theorem Inv.new_empty (hi : m.Inv homes) {co : Nat} (h : m.coroutineCount ≤ co) :
    (m.coroutines co).openUpvalues = [] := by
  refine List.eq_nil_iff_forall_not_mem.mpr fun u hu => ?_
  obtain ⟨offset, hsaved⟩ := (hi.captured.carried u co).mp hu
  exact absurd (hi.bodies u co offset (hi.saved_home hsaved).1) (Nat.not_lt.mpr h)

theorem Inv.coroutineNew (hi : m.Inv homes) (registers : List LhatValue) :
    (m.act (.coroutineNew registers)).Inv (m.homes homes (.coroutineNew registers)) := by
  have hat : ∀ co, co ≠ m.coroutineCount →
      (m.act (.coroutineNew registers)).coroutines co = m.coroutines co :=
    fun co hne => Function.update_of_ne hne ..
  have hhere : (m.act (.coroutineNew registers)).coroutines m.coroutineCount = { registers } :=
    Function.update_self ..
  refine hi.along rfl rfl rfl ?_ (Nat.le_succ _) rfl ?_ rfl
  · intro co
    by_cases hne : co = m.coroutineCount
    · subst hne
      rw [hhere, hi.new_empty (Nat.le_refl _)]
    · rw [hat co hne]
  · refine hi.stacked.along rfl rfl (Nat.le_succ _) fun co _ hlt hrunning => ?_
    rw [hat co (Nat.ne_of_lt hlt)]
    exact hrunning

end Lhat.Captures.Machine
