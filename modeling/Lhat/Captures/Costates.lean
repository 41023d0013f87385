import Lhat.Captures.Coroutines

/-!
# Captures in costates

A costate has a copy of what a coroutine saved, and of which captures were of it. Loading one
lets go of the captures that the coroutine got since, and takes the others back, wherever they
are by then.
-/

namespace Lhat.Captures.Machine

variable {co register : Nat} {entry : CostateEntry} {entries : List CostateEntry}
  {captures : List (Nat × Nat)}
variable {m : Machine} {homes : Nat → Option Home} {u : Nat}

/-! ### Saving -/

theorem mem_save {chain : List Nat}
    (h : entries ∈ (m.vmCoroutineSave chain).costates) :
    entries ∈ m.costates ∨
      ∀ entry ∈ entries, ∃ co ∈ chain, entry = { coroutine := co
                                                 state := (m.coroutines co).state
                                                 registers := (m.coroutines co).registers
                                                 captures := (m.coroutines co).openUpvalues.map
                                                   fun u => (u, m.offset u) } := by
  rcases List.mem_append.mp h with h | h
  · exact Or.inl h
  · rw [List.mem_singleton.mp h]
    refine Or.inr fun entry hentry => ?_
    obtain ⟨co, hco, rfl⟩ := List.mem_map.mp hentry
    exact ⟨co, hco, rfl⟩

theorem captures_fst {c : LhatCoroutine} :
    (c.openUpvalues.map fun u => (u, m.offset u)).map Prod.fst = c.openUpvalues := by
  rw [List.map_map]
  exact List.map_id' _

theorem Inv.carried_home (hi : m.Inv homes) (h : u ∈ (m.coroutines co).openUpvalues) :
    ∃ register, homes u = some (.bound (.body co) register) := by
  obtain ⟨offset, hsaved⟩ := (hi.captured.carried u co).mp h
  exact ⟨offset, (hi.saved_home hsaved).1⟩

theorem idle_iff :
    m.idle co = true ↔ co < m.coroutineCount ∧ (m.coroutines co).state ≠ .running := by
  unfold idle
  rw [Bool.and_eq_true, decide_eq_true_eq, decide_eq_true_eq]

theorem Inv.saves (hi : m.Inv homes) {chain : List Nat} (hidle : ∀ co ∈ chain, m.idle co = true) :
    (m.vmCoroutineSave chain).Inv homes := by
  have hcostates := hi.costates
  have howned := hi.owned
  obtain ⟨⟨hdescending, hascending, hopened, hcarried, hbound, hfree⟩, hstacked, hhoused, hknown,
    hbodies, habove, -, -⟩ := id hi
  refine ⟨⟨hdescending, hascending, hopened, hcarried, hbound, hfree⟩,
    hstacked.along rfl rfl (Nat.le_refl _) fun _ _ _ h => h, hhoused, hknown, hbodies, habove,
    ?_, ?_⟩
  · intro entries hentries entry hentry
    rcases mem_save hentries with hold | hnew
    · obtain ⟨hidle, hup, hnd, hk, hb, hsame⟩ := hcostates entries hold entry hentry
      exact ⟨hidle, hup, hnd, hk, hb, hsame⟩
    · obtain ⟨co, hco, rfl⟩ := hnew entry hentry
      obtain ⟨hlt, hnot⟩ := idle_iff.mp (hidle co hco)
      refine ⟨hnot, List.pairwise_map.mpr (hascending co), ?_, ?_, hlt, ?_⟩
      · rw [captures_fst]
        refine (hascending co).imp fun {u w} h => ?_
        rintro rfl
        exact Nat.lt_irrefl _ h
      · intro c hc
        obtain ⟨u, hu, rfl⟩ := List.mem_map.mp hc
        obtain ⟨r, hhome⟩ := hi.carried_home hu
        exact hknown u (by rw [hhome]; nofun)
      · intro c hc activation register h
        obtain ⟨u, hu, rfl⟩ := List.mem_map.mp hc
        obtain ⟨r, hhome⟩ := hi.carried_home hu
        cases hhome.symm.trans h
        rfl
  · -- what is captured of a coroutine now is in no entry of another one
    have hcross : ∀ entries ∈ m.costates, ∀ entry ∈ entries, ∀ co u,
        u ∈ entry.captures.map Prod.fst → u ∈ (m.coroutines co).openUpvalues →
          entry.coroutine = co := by
      intro entries hentries entry hentry co u hu hin
      obtain ⟨c, hc, rfl⟩ := List.mem_map.mp hu
      obtain ⟨r, hhome⟩ := hi.carried_home hin
      cases (hcostates entries hentries entry hentry).same c hc _ _ hhome
      rfl
    intro entries hentries entry hentry entries' hentries' entry' hentry' u hu hu'
    rcases mem_save hentries with hold | hnew
    · rcases mem_save hentries' with hold' | hnew'
      · exact howned entries hold entry hentry entries' hold' entry' hentry' u hu hu'
      · obtain ⟨co, -, rfl⟩ := hnew' entry' hentry'
        rw [captures_fst] at hu'
        exact hcross entries hold entry hentry co u hu hu'
    · obtain ⟨co, -, rfl⟩ := hnew entry hentry
      rw [captures_fst] at hu
      rcases mem_save hentries' with hold' | hnew'
      · exact (hcross entries' hold' entry' hentry' co u hu' hu).symm
      · obtain ⟨co', -, rfl⟩ := hnew' entry' hentry'
        rw [captures_fst] at hu'
        obtain ⟨r, hhome⟩ := hi.carried_home hu
        obtain ⟨r', hhome'⟩ := hi.carried_home hu'
        cases hhome.symm.trans hhome'
        rfl

theorem Inv.save (hi : m.Inv homes) (chain : List Nat) :
    (m.act (.save chain)).Inv (m.homes homes (.save chain)) := by
  show (if chain.all m.idle then m.vmCoroutineSave chain else m).Inv homes
  split
  · rename_i h
    exact hi.saves (List.all_eq_true.mp h)
  · exact hi

/-! ### Loading -/

theorem lookup_of_mem (hnodup : (captures.map Prod.fst).Nodup) (h : (u, register) ∈ captures) :
    captures.lookup u = some register := by
  induction captures with
  | nil => cases h
  | cons c captures ih =>
    rw [List.map_cons, List.nodup_cons] at hnodup
    rcases List.mem_cons.mp h with rfl | h
    · exact List.lookup_cons_self
    · have hne : (u == c.1) = false := by
        refine beq_eq_false_iff_ne.mpr fun he => hnodup.1 ?_
        exact he ▸ List.mem_map_of_mem h
      rw [List.lookup_cons, hne]
      exact ih hnodup.2 h

theorem mem_of_lookup (h : captures.lookup u = some register) : (u, register) ∈ captures := by
  obtain ⟨before, after, rfl, -⟩ := List.lookup_eq_some_iff.mp h
  exact List.mem_append_right _ List.mem_cons_self

theorem not_mem_of_lookup (h : captures.lookup u = none) : u ∉ captures.map Prod.fst := by
  intro hin
  obtain ⟨c, hc, rfl⟩ := List.mem_map.mp hin
  simpa using List.lookup_eq_none_iff.mp h c hc

theorem Inv.idle_location (hi : m.Inv homes) (hidle : m.idle co = true)
    (h : homes u = some (.bound (.body co) register)) :
    m.locations u = some (.saved co register) := by
  rw [(hi.captured.bound u _ _ h).2, Machine.place,
    placeAmong_absent (hi.not_standing (idle_iff.mp hidle).2)]
  rfl

theorem Inv.kept_location (hi : m.Inv homes) {location : Location}
    (hk : m.Keeps homes entry) (hidle : m.idle entry.coroutine = true)
    (hu : u ∈ entry.captures.map Prod.fst) (h : m.locations u = some location) :
    (∃ offset, location = .saved entry.coroutine offset) ∨ ∃ v, location = .closed v := by
  obtain ⟨c, hc, rfl⟩ := List.mem_map.mp hu
  cases location with
  | closed v => exact Or.inr ⟨v, rfl⟩
  | saved co offset =>
    cases hk.same c hc _ _ (hi.saved_home h).1
    exact Or.inl ⟨offset, rfl⟩
  | slot place =>
    obtain ⟨activation, register, hslot, -⟩ := hi.slot_home h
    cases hk.same c hc _ _ hslot
    cases (hi.idle_location hidle hslot).symm.trans h

theorem Inv.loadEntry_cases (hi : m.Inv homes) (hidle : m.idle entry.coroutine = true) (u : Nat) :
    (∃ r, (u, r) ∈ entry.captures ∧
      (m.loadEntry entry).locations u = some (.saved entry.coroutine r) ∧
      m.loadHomes homes entry u = some (.bound (.body entry.coroutine) r)) ∨
    (u ∉ entry.captures.map Prod.fst ∧ ∃ r v,
      homes u = some (.bound (.body entry.coroutine) r) ∧
      (m.loadEntry entry).locations u = some (.closed v) ∧
      m.loadHomes homes entry u = some (.free v)) ∨
    (u ∉ entry.captures.map Prod.fst ∧
      (∀ r, homes u ≠ some (.bound (.body entry.coroutine) r)) ∧
      (m.loadEntry entry).locations u = m.locations u ∧
      m.loadHomes homes entry u = homes u) := by
  unfold Machine.loadEntry loadHomes
  dsimp only
  cases hu : entry.captures.lookup u with
  | some r => exact Or.inl ⟨r, mem_of_lookup hu, rfl, rfl⟩
  | none =>
    have hnot := not_mem_of_lookup hu
    dsimp only
    by_cases hbound : ∃ r, homes u = some (.bound (.body entry.coroutine) r)
    · obtain ⟨r, hhome⟩ := hbound
      have hlocation := hi.idle_location hidle hhome
      have hin : u ∈ (m.coroutines entry.coroutine).openUpvalues :=
        (hi.captured.carried u _).mpr ⟨r, hlocation⟩
      refine Or.inr (Or.inl ⟨hnot, r, m.get (.saved entry.coroutine r), hhome, ?_, ?_⟩)
      · unfold closeIntoCell
        dsimp only
        rw [if_pos (List.mem_filter.mpr ⟨hin, decide_eq_true hnot⟩), hlocation]
        rfl
      · unfold release
        rw [hhome]
        dsimp only
        rw [if_pos (decide_eq_true rfl), ← (hi.captured.bound u _ _ hhome).2, hlocation]
        rfl
    · refine Or.inr (Or.inr ⟨hnot, not_exists.mp hbound, ?_, ?_⟩)
      · exact if_neg fun h => hbound (hi.carried_home (List.mem_filter.mp h).1)
      · unfold release
        rcases hhome : homes u with _ | ⟨activation, register⟩ | v
        · rfl
        · refine if_neg fun he => hbound ⟨register, ?_⟩
          rw [hhome, of_decide_eq_true he]
        · rfl

theorem Inv.loads (hi : m.Inv homes) (hentries : entries ∈ m.costates) (hentry : entry ∈ entries)
    (hidle : m.idle entry.coroutine = true) :
    (m.loadEntry entry).Inv (m.loadHomes homes entry) := by
  let co := entry.coroutine
  let m' := m.loadEntry entry
  let homes' := m.loadHomes homes entry
  have hk := hi.costates entries hentries entry hentry
  have hcases := hi.loadEntry_cases hidle
  have hhere : m'.coroutines co =
      { state := entry.state
        registers := entry.registers
        openUpvalues := entry.captures.map Prod.fst } := Function.update_self ..
  have hthere : ∀ co', co' ≠ co → m'.coroutines co' = m.coroutines co' :=
    fun co' hne => Function.update_of_ne hne ..
  -- what was captured and is not the coroutine's stays where it is
  have hstay : ∀ u location, m.locations u = some location →
      (∀ offset, location ≠ .saved co offset) → (∀ v, location ≠ .closed v) →
        m'.locations u = m.locations u := by
    intro u location hlocation hsaved hclosed
    rcases hcases u with ⟨r, hin, -, -⟩ | ⟨-, r, v, hhome, -, -⟩ | ⟨-, -, he, -⟩
    · rcases hi.kept_location hk hidle (List.mem_map_of_mem hin) hlocation with
        ⟨offset, he⟩ | ⟨v, he⟩
      · exact absurd he (hsaved offset)
      · exact absurd he (hclosed v)
    · exact absurd (Option.some.inj (hlocation.symm.trans (hi.idle_location hidle hhome)))
        (hsaved r)
    · exact he
  have hoffset : ∀ u, m'.locations u = m.locations u → m'.offset u = m.offset u := by
    intro u he
    unfold offset
    rw [he]
  have hslot : ∀ u place, m'.locations u = some (.slot place) ↔
      m.locations u = some (.slot place) := by
    intro u place
    refine ⟨fun h => ?_, fun h => (hstay u _ h (by simp) (by simp)).trans h⟩
    rcases hcases u with ⟨r, -, he, -⟩ | ⟨-, r, v, -, he, -⟩ | ⟨-, -, he, -⟩
    · cases he.symm.trans h
    · cases he.symm.trans h
    · exact he.symm.trans h
  have hbound : ∀ u activation register, homes' u = some (.bound activation register) →
      activation ≠ .body co → homes u = some (.bound activation register) := by
    intro u activation register h hne
    rcases hcases u with ⟨r, -, -, he⟩ | ⟨-, r, v, -, -, he⟩ | ⟨-, -, -, he⟩
    · cases he.symm.trans h
      exact absurd rfl hne
    · cases he.symm.trans h
    · exact he.symm.trans h
  refine ⟨⟨?_, ?_, ?_, ?_, ?_, ?_⟩, ?_, ?_, ?_, ?_, ?_, ?_, hi.owned⟩
  · have hopen : ∀ u ∈ m.openUpvalues, m'.offset u = m.offset u := by
      intro u hu
      obtain ⟨place, hplace⟩ := (hi.captured.opened u).mp hu
      exact hoffset u (hstay u _ hplace (by simp) (by simp))
    refine hi.captured.descending.imp_of_mem fun {u w} hu hw h => ?_
    rw [hopen u hu, hopen w hw]
    exact h
  · intro co'
    by_cases hne : co' = co
    · subst hne
      rw [hhere]
      refine List.pairwise_map.mpr (hk.ascending.imp_of_mem fun {c c'} hc hc' h => ?_)
      have hat : ∀ c ∈ entry.captures, m'.offset c.1 = c.2 := by
        intro c hc
        have hback : m'.locations c.1 = some (.saved co c.2) := by
          simp only [m', loadEntry, lookup_of_mem hk.nodup hc]
          rfl
        exact offset_saved hback
      rw [hat c hc, hat c' hc']
      exact h
    · rw [hthere co' hne]
      have hsaved : ∀ u ∈ (m.coroutines co').openUpvalues, m'.offset u = m.offset u := by
        intro u hu
        obtain ⟨offset, hoff⟩ := (hi.captured.carried u co').mp hu
        refine hoffset u (hstay u _ hoff (fun _ he => ?_) (by simp))
        cases he
        exact hne rfl
      refine (hi.captured.ascending co').imp_of_mem fun {u w} hu hw h => ?_
      rw [hsaved u hu, hsaved w hw]
      exact h
  · intro u
    exact (hi.captured.opened u).trans (exists_congr fun place => (hslot u place).symm)
  · intro u co'
    by_cases hne : co' = co
    · subst hne
      rw [hhere]
      rcases hcases u with ⟨r, hin, he, -⟩ | ⟨hnot, r, v, -, he, -⟩ | ⟨hnot, hhome, he, -⟩
      · exact ⟨fun _ => ⟨r, he⟩, fun _ => List.mem_map_of_mem hin⟩
      · refine ⟨fun h => absurd h hnot, ?_⟩
        rintro ⟨_, h⟩
        cases he.symm.trans h
      · refine ⟨fun h => absurd h hnot, ?_⟩
        rintro ⟨offset, h⟩
        exact absurd (hi.saved_home (he.symm.trans h)).1 (hhome offset)
    · rw [hthere co' hne, hi.captured.carried u co']
      constructor
      · rintro ⟨offset, hoff⟩
        refine ⟨offset, (hstay u _ hoff (fun _ he => ?_) (by simp)).trans hoff⟩
        cases he
        exact hne rfl
      · rintro ⟨offset, hoff⟩
        rcases hcases u with ⟨r, -, he, -⟩ | ⟨-, r, v, -, he, -⟩ | ⟨-, -, he, -⟩
        · cases he.symm.trans hoff
          exact absurd rfl hne
        · cases he.symm.trans hoff
        · exact ⟨offset, he.symm.trans hoff⟩
  · intro u activation register h
    rcases hcases u with ⟨r, -, hat, he⟩ | ⟨-, r, v, -, -, he⟩ | ⟨-, -, hat, he⟩
    · cases he.symm.trans h
      rw [hat]
      refine ⟨rfl, ?_⟩
      show _ = placeAmong m.frames _ _
      rw [placeAmong_absent (hi.not_standing (idle_iff.mp hidle).2)]
      rfl
    · cases he.symm.trans h
    · rw [hat]
      exact hi.captured.bound u _ _ (he.symm.trans h)
  · intro u v h
    rcases hcases u with ⟨r, -, -, he⟩ | ⟨-, r, v', -, hat, he⟩ | ⟨-, -, hat, he⟩
    · cases he.symm.trans h
    · cases he.symm.trans h
      exact hat
    · rw [hat]
      exact hi.captured.free u v (he.symm.trans h)
  · refine hi.stacked.along rfl rfl (Nat.le_refl _) fun co' _ _ hrunning => ?_
    have hne : co' ≠ co := by
      rintro rfl
      exact (idle_iff.mp hidle).2 hrunning
    rw [hthere co' hne]
    exact hrunning
  · intro u
    rcases hcases u with ⟨r, -, hat, he⟩ | ⟨-, r, v, -, hat, he⟩ | ⟨-, -, hat, he⟩
    · rw [hat, he]
      simp
    · rw [hat, he]
      simp
    · rw [hat, he]
      exact hi.housed u
  · intro u h
    rcases hcases u with ⟨r, hin, -, -⟩ | ⟨-, r, v, hhome, -, -⟩ | ⟨-, -, -, he⟩
    · exact hk.known (u, r) hin
    · exact hi.known u (by simp [hhome])
    · rw [he] at h
      exact hi.known u h
  · intro u co' register h
    by_cases hne : co' = co
    · subst hne
      exact (idle_iff.mp hidle).1
    · exact hi.bodies u co' register (hbound u _ _ h fun he => hne (Activation.body.inj he))
  · intro u activation register place h hplace
    have hbefore := (hslot u place).mp hplace
    refine hi.above u activation register place (hbound u _ _ h ?_) hbefore
    rintro rfl
    rcases hcases u with ⟨r, -, hat, -⟩ | ⟨-, r, v, -, hat, -⟩ | ⟨-, hhome, -, he⟩
    · cases hat.symm.trans hplace
    · cases hat.symm.trans hplace
    · exact hhome register (he.symm.trans h)
  · intro entries' hentries' entry' hentry'
    obtain ⟨hstate, hup, hnd, hknown, hb, hsame⟩ := hi.costates entries' hentries' entry' hentry'
    refine ⟨hstate, hup, hnd, hknown, hb, fun c hc activation register h => ?_⟩
    rcases hcases c.1 with ⟨r, hin, -, he⟩ | ⟨-, r, v, -, -, he⟩ | ⟨-, -, -, he⟩
    · cases he.symm.trans h
      have hfirst : c.1 ∈ entry.captures.map Prod.fst := List.mem_map.mpr ⟨_, hin, rfl⟩
      rw [hi.owned entries hentries entry hentry entries' hentries' entry' hentry' c.1 hfirst
        (List.mem_map_of_mem hc)]
    · cases he.symm.trans h
    · exact hsame c hc _ _ (he.symm.trans h)

theorem idle_loadEntry (hk : entry.state ≠ .running)
    (h : m.idle co = true) : (m.loadEntry entry).idle co = true := by
  obtain ⟨hlt, hstate⟩ := idle_iff.mp h
  refine idle_iff.mpr ⟨hlt, ?_⟩
  show (Function.update m.coroutines entry.coroutine _ co).state ≠ .running
  by_cases hne : co = entry.coroutine
  · rw [hne, Function.update_self]
    exact hk
  · rw [Function.update_of_ne hne]
    exact hstate

theorem Inv.loadAll (hi : m.Inv homes) {l : List CostateEntry}
    (hentries : entries ∈ m.costates) (hl : ∀ entry ∈ l, entry ∈ entries)
    (hidle : ∀ entry ∈ l, m.idle entry.coroutine = true) :
    (l.foldl Machine.loadEntry m).Inv
      (l.foldl (fun s entry => (s.1.loadEntry entry, s.1.loadHomes s.2 entry)) (m, homes)).2 := by
  induction l generalizing m homes with
  | nil => exact hi
  | cons entry l ih =>
    obtain ⟨hentry, hrest⟩ := List.forall_mem_cons.mp hl
    obtain ⟨hfirst, hothers⟩ := List.forall_mem_cons.mp hidle
    have hstate := (hi.costates entries hentries entry hentry).idle
    exact ih (hi.loads hentries hentry hfirst) hentries hrest
      fun e he => idle_loadEntry hstate (hothers e he)

theorem Inv.load (hi : m.Inv homes) (state : Nat) :
    (m.act (.load state)).Inv (m.homes homes (.load state)) := by
  unfold act Machine.homes
  dsimp only
  cases hat : m.costates[state]? with
  | none => exact hi
  | some entries =>
    dsimp only
    split
    · rename_i h
      exact hi.loadAll (List.mem_of_getElem? hat) (fun _ he => he) (List.all_eq_true.mp h)
    · exact hi

end Lhat.Captures.Machine

/-!
# Runs

Captured places are what they are of for as long as every frame is put above what is captured.
-/

namespace Lhat.Captures

namespace Machine

variable {m : Machine} {homes : Nat → Option Home}

theorem Inv.start : ({} : Machine).Inv fun _ => none := by
  refine ⟨⟨List.Pairwise.nil, fun _ => List.Pairwise.nil, ?_, ?_, nofun, nofun⟩,
    ⟨List.nodup_nil, nofun, nofun, nofun, List.Pairwise.nil, nofun, List.Pairwise.nil⟩,
    fun _ => ⟨fun _ => rfl, fun _ => rfl⟩, fun _ h => absurd rfl h, nofun, nofun, nofun, nofun⟩
  · exact fun _ => ⟨nofun, fun ⟨_, h⟩ => (nomatch h)⟩
  · exact fun _ _ => ⟨nofun, fun ⟨_, h⟩ => (nomatch h)⟩

theorem Inv.act (hi : m.Inv homes) (move : Move) (hclear : m.Clear move) :
    (m.act move).Inv (m.homes homes move) := by
  cases move with
  | call above laid => exact hi.call above laid hclear
  | set register v => exact hi.setSlots _
  | closure register => exact hi.closure register
  | setUpvalue u v => exact hi.setUpvalue u v
  | close register => exact hi.close register
  | closeOne register => exact hi.closeOne register
  | ret => exact hi.ret
  | tailCall laid => exact hi.tailCall laid
  | coroutineNew registers => exact hi.coroutineNew registers
  | resume co above => exact hi.resume co above hclear
  | dispose co above => exact hi.dispose co above hclear
  | finish co => exact hi.finish co
  | yield => exact hi.yield
  | save chain => exact hi.save chain
  | load state => exact hi.load state
  | reset reserved => exact hi.reset reserved hclear
  | unit kept => exact hi.unit kept
  | abandon depth => exact hi.abandon depth

instance (m : Machine) (move : Move) : Decidable (m.Clear move) :=
  match move with
  | .call above _ | .resume _ above =>
    inferInstanceAs (Decidable (∀ u ∈ m.openUpvalues, m.offset u < m.base + above))
  | .dispose co above =>
    inferInstanceAs (Decidable (m.resumable co = true ∧
      ∀ u ∈ m.openUpvalues, m.offset u < m.base + above))
  | .reset reserved =>
    inferInstanceAs (Decidable (∀ frame ∈ m.frames,
      frame.activation ≠ .session → reserved ≤ frame.base))
  | .set _ _ | .closure _ | .setUpvalue _ _ | .close _ | .closeOne _ | .ret | .tailCall _
  | .coroutineNew _ | .finish _ | .yield | .save _ | .load _ | .unit _ | .abandon _ =>
    inferInstanceAs (Decidable True)

end Machine

namespace Run

/-- Every frame is put above what is captured when it is put there. -/
def Clears : Run → List Move → Prop
  | _, [] => True
  | r, move :: moves => r.machine.Clear move ∧ (r.act move).Clears moves

instance decidableClears : (r : Run) → (moves : List Move) → Decidable (r.Clears moves)
  | _, [] => isTrue trivial
  | r, move :: moves =>
    have := decidableClears (r.act move) moves
    inferInstanceAs (Decidable (r.machine.Clear move ∧ (r.act move).Clears moves))

theorem inv_after {r : Run} {moves : List Move} (hi : r.machine.Inv r.homes)
    (h : r.Clears moves) : (moves.foldl act r).machine.Inv (moves.foldl act r).homes := by
  induction moves generalizing r with
  | nil => exact hi
  | cons move moves ih => exact ih (hi.act move h.1) h.2

/-- Every capture of a register reads and writes that register, in the frame that stands for it
or among what a coroutine saved, and the last value of it once the frame is gone. -/
theorem captured_after (moves : List Move) (h : Clears {} moves) :
    (after moves).machine.Captured (after moves).homes :=
  (inv_after Machine.Inv.start h).captured

/-- A body captures its register, is suspended, and comes back elsewhere. -/
theorem captured_after_moved :
    (after
      [.unit 0, .coroutineNew [.nil, .nil], .resume 0 1, .set 1 (.integer 7), .closure 1, .yield,
        .call 2 [], .resume 0 3, .setUpvalue 0 (.integer 8), .yield, .save [0], .setUpvalue 0 (.integer 9),
        .load 0, .resume 0 2, .ret]).machine.Captured
      (after
        [.unit 0, .coroutineNew [.nil, .nil], .resume 0 1, .set 1 (.integer 7), .closure 1, .yield,
          .call 2 [], .resume 0 3, .setUpvalue 0 (.integer 8), .yield, .save [0],
          .setUpvalue 0 (.integer 9), .load 0, .resume 0 2, .ret]).homes :=
  captured_after _ (by decide)

/-- A loop was left by `break^` with register 3 of its block captured. The next call is put over
it, and what the capture holds then is what that call left in its own register. -/
theorem not_captured_overlaid : ¬ ∀ moves, (after moves).machine.Captured (after moves).homes := by
  intro h
  have hbound := (h [.unit 0, .call 1 [], .set 3 (.integer 1), .closure 3, .call 3 [],
    .set 0 (.integer 9), .ret]).bound 0 (.frame 0) 3 (by decide)
  revert hbound
  decide

end Run

end Lhat.Captures
