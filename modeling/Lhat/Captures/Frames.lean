import Lhat.Captures.Moves

/-!
# Frames that come and go

A frame that is entered stands above what is captured. One that leaves has closed what is
captured of it. A `yield^` takes it along and a resume brings it back.
-/

namespace Lhat.Captures.Machine

variable {m m' : Machine} {homes : Nat → Option Home} {u : Nat} {frame : Frame}
  {rest : List Frame}

/-! ### Entering -/

theorem Stacked.le_base (h : m.Stacked) : ∀ frame ∈ m.frames, frame.base ≤ m.base := by
  unfold base
  intro frame hframe
  have hrising := h.rising
  cases hframes : m.frames with
  | nil =>
    rw [hframes] at hframe
    cases hframe
  | cons top rest =>
    rw [hframes] at hframe hrising
    rcases List.mem_cons.mp hframe with rfl | hframe
    · exact Nat.le_refl _
    · exact (List.pairwise_cons.mp hrising).1 frame hframe

theorem Stacked.push (h : m.Stacked) (hframes : m'.frames = frame :: m.frames)
    (hnew : frame.activation ∉ m.frames.map Frame.activation)
    (hcall : ∀ call, frame.activation = .frame call → call < m'.calls) (hcalls : m.calls ≤ m'.calls)
    (hbody : ∀ co, frame.activation = .body co →
      co < m'.coroutineCount ∧ (m'.coroutines co).state = .running)
    (hcount : m.coroutineCount ≤ m'.coroutineCount)
    (hstate : ∀ co, (m.coroutines co).state = .running → (m'.coroutines co).state = .running)
    (hsession : frame.activation = .session → frame.base = 0 ∧ m.frames = [])
    (hkept : frame.activation ≠ .session → frame.kept = 0) (hbase : m.base ≤ frame.base) :
    m'.Stacked := by
  refine ⟨?_, ?_, ?_, ?_, ?_, ?_, ?_⟩ <;> rw [hframes]
  · rw [List.map_cons]
    exact List.nodup_cons.mpr ⟨hnew, h.nodup⟩
  · refine List.forall_mem_cons.mpr ⟨hcall, fun f hf call he => ?_⟩
    exact Nat.lt_of_lt_of_le (h.numbered f hf call he) hcalls
  · refine List.forall_mem_cons.mpr ⟨hbody, fun f hf co he => ?_⟩
    obtain ⟨hlt, hrunning⟩ := h.running f hf co he
    exact ⟨Nat.lt_of_lt_of_le hlt hcount, hstate co hrunning⟩
  · exact List.forall_mem_cons.mpr ⟨fun he => (hsession he).1, h.session⟩
  · refine List.pairwise_cons.mpr ⟨fun f hf he => ?_, h.bottom⟩
    rw [(hsession he).2] at hf
    cases hf
  · exact List.forall_mem_cons.mpr ⟨hkept, h.kept⟩
  · exact List.pairwise_cons.mpr
      ⟨fun f hf => Nat.le_trans (h.le_base f hf) hbase, h.rising⟩

theorem Inv.push (hi : m.Inv homes) {frames : List Frame} {calls : Nat}
    (hframes : frames = frame :: m.frames)
    (hstacked : { m with frames, calls }.Stacked)
    (hself : ∀ u register, homes u = some (.bound frame.activation register) →
      m.place frame.activation register = some (.slot (frame.base + register)))
    (hclear : ∀ u activation register place, homes u = some (.bound activation register) →
      m.locations u = some (.slot place) → frame.activation ≠ activation → place < frame.base) :
    { m with frames, calls }.Inv homes := by
  subst hframes
  obtain ⟨⟨hdescending, hascending, hopened, hcarried, hbound, hfree⟩, -, hhoused, hknown, hbodies,
    habove, hkeeps, howned⟩ := hi
  refine ⟨⟨hdescending, hascending, hopened, hcarried, ?_, hfree⟩, hstacked, hhoused, hknown,
    hbodies, ?_, ?_, howned⟩
  · intro u activation register h
    refine ⟨(hbound u _ _ h).1, (hbound u _ _ h).2.trans ?_⟩
    by_cases he : frame.activation = activation
    · subst he
      exact (hself u register h).trans placeAmong_cons_self.symm
    · exact (placeAmong_cons_ne he).symm
  · intro u activation register place h hplace
    by_cases he : frame.activation = activation
    · rw [List.takeWhile_cons_of_neg (by simpa using he)]
      nofun
    · rw [List.takeWhile_cons_of_pos (by simpa using he)]
      exact List.forall_mem_cons.mpr
        ⟨hclear u _ _ _ h hplace he, habove u activation register place h hplace⟩
  · intro entries hentries entry hentry
    obtain ⟨hidle, hup, hnodup, hk, hb, hsame⟩ := hkeeps entries hentries entry hentry
    exact ⟨hidle, hup, hnodup, hk, hb, hsame⟩

theorem Inv.not_new_call (hi : m.Inv homes) {register : Nat} :
    homes u ≠ some (.bound (.frame m.calls) register) := by
  intro h
  obtain ⟨hsome, hplace⟩ := hi.captured.bound u _ _ h
  have habsent : Activation.frame m.calls ∉ m.frames.map Frame.activation := by
    intro hin
    obtain ⟨f, hf, he⟩ := List.mem_map.mp hin
    exact Nat.lt_irrefl _ (hi.stacked.numbered f hf _ he)
  rw [hplace, Machine.place, placeAmong_absent habsent] at hsome
  cases hsome

theorem Inv.call (hi : m.Inv homes) (above : Nat) (laid : List LhatValue)
    (hclear : m.Clear (.call above laid)) :
    (m.act (.call above laid)).Inv (m.homes homes (.call above laid)) := by
  have hlaid : (m.lay (m.base + above) laid).Inv homes := hi.setSlots _
  refine hlaid.push rfl (hlaid.stacked.push rfl ?_ ?_ (Nat.le_succ _) nofun (Nat.le_refl _)
    (fun _ h => h) nofun (fun _ => rfl) (Nat.le_add_right _ _)) ?_ ?_
  · intro hin
    obtain ⟨f, hf, he⟩ := List.mem_map.mp hin
    exact Nat.lt_irrefl _ (hi.stacked.numbered f hf _ he)
  · intro call he
    cases he
    exact Nat.lt_succ_self _
  · exact fun u register h => absurd h hi.not_new_call
  · intro u activation register place h hplace _
    have hslot : m.locations u = some (.slot place) := hplace
    have hlt := hclear u ((hi.captured.opened u).mpr ⟨place, hslot⟩)
    rwa [offset_slot hslot] at hlt

theorem Inv.unit (hi : m.Inv homes) (kept : Nat) :
    (m.act (.unit kept)).Inv (m.homes homes (.unit kept)) := by
  show (if m.frames.isEmpty then { m with frames := [{ base := 0, activation := .session, kept }] }
    else m).Inv homes
  split
  · rename_i hempty
    have hnone : m.frames = [] := List.isEmpty_iff.mp hempty
    have hplace : ∀ register, m.place .session register = some (.slot (0 + register)) := by
      intro register
      unfold place
      rw [hnone, Nat.zero_add]
      rfl
    have hframes : [{ base := 0, activation := Activation.session, kept }] =
        ({ base := 0, activation := .session, kept } : Frame) :: m.frames := by rw [hnone]
    refine hi.push hframes (hi.stacked.push hframes ?_ nofun (Nat.le_refl _) nofun (Nat.le_refl _)
      (fun _ h => h) (fun _ => ⟨rfl, hnone⟩) (fun h => absurd rfl h) ?_)
      (fun u register _ => hplace register) ?_
    · rw [hnone]
      nofun
    · unfold base
      rw [hnone]
      exact Nat.le_refl _
    · intro u activation register place h hslot hne
      have hat := (hi.captured.bound u _ _ h).2
      rw [hslot, Machine.place, hnone] at hat
      cases activation with
      | session => exact absurd rfl hne
      | frame call => cases hat
      | body co => cases hat
  · exact hi

/-! ### Leaving -/

theorem Stacked.tail (h : m.Stacked) (hframes : m.frames = frame :: rest) :
    { m with frames := rest }.Stacked := by
  obtain ⟨hnodup, hnumbered, hrunning, hsession, hbottom, hkept, hrising⟩ := h
  rw [hframes] at hnodup hnumbered hrunning hsession hbottom hkept hrising
  rw [List.map_cons] at hnodup
  exact ⟨(List.nodup_cons.mp hnodup).2, fun f hf => hnumbered f (List.mem_cons_of_mem _ hf),
    fun f hf => hrunning f (List.mem_cons_of_mem _ hf),
    fun f hf => hsession f (List.mem_cons_of_mem _ hf), (List.pairwise_cons.mp hbottom).2,
    fun f hf => hkept f (List.mem_cons_of_mem _ hf), (List.pairwise_cons.mp hrising).2⟩

theorem Inv.pop (hi : m.Inv homes) (hframes : m.frames = frame :: rest)
    (hgone : ∀ u register, homes u = some (.bound frame.activation register) →
      frame.activation = .session) : { m with frames := rest }.Inv homes := by
  have hstacked := hi.stacked
  obtain ⟨⟨hdescending, hascending, hopened, hcarried, hbound, hfree⟩, -, hhoused, hknown, hbodies,
    habove, hkeeps, howned⟩ := hi
  refine ⟨⟨hdescending, hascending, hopened, hcarried, ?_, hfree⟩, hstacked.tail hframes, hhoused,
    hknown, hbodies, ?_, ?_, howned⟩
  · intro u activation register h
    refine ⟨(hbound u _ _ h).1, (hbound u _ _ h).2.trans ?_⟩
    show placeAmong m.frames activation register = placeAmong rest activation register
    rw [hframes]
    by_cases he : frame.activation = activation
    · subst he
      have hsession := hgone u register h
      have hnodup := hstacked.nodup
      rw [hframes, List.map_cons, List.nodup_cons] at hnodup
      have hbase := hstacked.session frame (hframes ▸ List.mem_cons_self) hsession
      rw [placeAmong_cons_self, placeAmong_absent hnodup.1, hsession, hbase, Nat.zero_add]
      rfl
    · exact placeAmong_cons_ne he
  · intro u activation register place h hplace
    by_cases he : frame.activation = activation
    · subst he
      have hbottom := hstacked.bottom
      rw [hframes, List.pairwise_cons] at hbottom
      intro f hf
      exact absurd (hgone u register h) (hbottom.1 f ((List.takeWhile_sublist _).subset hf))
    · have hbefore := habove u activation register place h hplace
      rw [hframes, List.takeWhile_cons_of_pos (by simpa using he)] at hbefore
      exact fun f hf => hbefore f (List.mem_cons_of_mem _ hf)
  · intro entries hentries entry hentry
    obtain ⟨hidle, hup, hnodup, hk, hb, hsame⟩ := hkeeps entries hentries entry hentry
    exact ⟨hidle, hup, hnodup, hk, hb, hsame⟩

theorem vmCloseUpvalues_frames {above : Nat} : (m.vmCloseUpvalues above).frames = m.frames := rfl

section

variable (hi : m.Inv homes)
include hi

theorem Inv.leaves (hframes : m.frames = frame :: rest) :
    { m.vmCloseUpvalues (frame.base + frame.kept) with frames := rest }.Inv
      (m.release homes fun activation r =>
        frame.activation = activation && decide (frame.kept ≤ r)) := by
  have hclosed : (m.vmCloseUpvalues (frame.base + frame.kept)).Inv
      (m.release homes fun activation r =>
        frame.activation = activation && decide (frame.kept ≤ r)) :=
    hi.vmCloseUpvalues fun u activation r h => by
      rw [← hi.top_above hframes h]
      simp
  refine hclosed.pop hframes fun u r h => ?_
  by_contra hne
  have hstays := (release_bound h).2
  rw [hi.stacked.kept frame (hframes ▸ List.mem_cons_self) hne] at hstays
  simp at hstays

theorem Inv.ret : (m.act .ret).Inv (m.homes homes .ret) := by
  unfold act Machine.homes
  cases hframes : m.frames with
  | nil => exact hi
  | cons frame rest =>
    have hleft := hi.leaves hframes
    have htail : m.frames.tail = rest := by rw [hframes]; rfl
    dsimp only
    unfold leave
    dsimp only
    rw [vmCloseUpvalues_frames, htail]
    split
    · rename_i co hco
      refine hleft.setCoroutine rfl fun hin => ?_
      have hbody : frame.activation = .body co := by
        unfold Frame.coroutine at hco
        split at hco
        · rename_i co' hbody
          cases hco
          exact hbody
        · cases hco
        · cases hco
      have hnodup := hi.stacked.nodup
      rw [hframes, List.map_cons, List.nodup_cons, hbody] at hnodup
      exact absurd hin hnodup.1
    · exact hleft

theorem Inv.tailCall (laid : List LhatValue) :
    (m.act (.tailCall laid)).Inv (m.homes homes (.tailCall laid)) := by
  unfold act Machine.homes
  cases hframes : m.frames with
  | nil => exact hi
  | cons frame rest =>
    dsimp only
    split
    · rename_i hplain
      have hleft := hi.leaves hframes
      rw [hplain.2] at hleft
      have hgone : (m.release homes fun activation r =>
          frame.activation = activation && decide (0 ≤ r)) =
            m.release homes fun activation _ => frame.activation = activation := by
        simp
      rw [hgone] at hleft
      have hlaid := hleft.setSlots ((m.vmCloseUpvalues frame.base).lay frame.base laid).slots
      have hrest : ({ m with frames := rest } : Machine).base ≤ frame.base := by
        have hrising := hi.stacked.rising
        rw [hframes, List.pairwise_cons] at hrising
        unfold base
        cases rest with
        | nil => exact Nat.zero_le _
        | cons f rest => exact hrising.1 f List.mem_cons_self
      have hframes' : ({ base := frame.base, activation := .frame m.calls } : Frame) ::
          m.frames.tail = { base := frame.base, activation := .frame m.calls } :: rest := by
        rw [hframes]
        rfl
      refine hlaid.push hframes' (hlaid.stacked.push hframes' ?_ ?_ (Nat.le_succ _) nofun
        (Nat.le_refl _) (fun _ h => h) nofun (fun _ => rfl) hrest) ?_ ?_
      · intro hin
        obtain ⟨f, hf, he⟩ := List.mem_map.mp hin
        exact Nat.lt_irrefl _
          (hi.stacked.numbered f (hframes ▸ List.mem_cons_of_mem _ hf) _ he)
      · intro call he
        cases he
        exact Nat.lt_succ_self _
      · exact fun u register h => absurd (release_bound h).1 hi.not_new_call
      · intro u activation register place h hplace _
        obtain ⟨hhome, hstays⟩ := release_bound h
        have hne : frame.activation ≠ activation := of_decide_eq_false hstays
        have hslot : m.locations u = some (.slot place) :=
          (closeIntoCell_back hplace nofun).2
        refine hi.above u activation register place hhome hslot frame ?_
        rw [hframes, List.takeWhile_cons_of_pos (by simpa using hne)]
        exact List.mem_cons_self
    · exact hi

/-! ### Frames that are given up -/

theorem Inv.drop {above : List Frame} (hframes : m.frames = above ++ rest)
    (hgone : ∀ frame ∈ above, ∀ u register,
      homes u = some (.bound frame.activation register) → frame.activation = .session) :
    { m with frames := rest }.Inv homes := by
  induction above generalizing m with
  | nil =>
    have hsame : { m with frames := rest } = m := by
      rw [List.nil_append] at hframes
      rw [← hframes]
    rw [hsame]
    exact hi
  | cons frame above ih =>
    obtain ⟨hfirst, hothers⟩ := List.forall_mem_cons.mp hgone
    have hframes' : m.frames = frame :: (above ++ rest) := hframes
    exact ih (m := { m with frames := above ++ rest }) (hi.pop hframes' hfirst) rfl hothers

theorem Inv.where_bound {activation : Activation} {register : Nat}
    (h : homes u = some (.bound activation register)) :
    (∃ frame ∈ m.frames, frame.activation = activation ∧
      m.locations u = some (.slot (frame.base + register))) ∨
    (activation ∉ m.frames.map Frame.activation ∧
      ((activation = .session ∧ m.locations u = some (.slot register)) ∨
        ∃ co, activation = .body co ∧ m.locations u = some (.saved co register))) := by
  obtain ⟨hsome, hplace⟩ := hi.captured.bound u _ _ h
  by_cases hin : activation ∈ m.frames.map Frame.activation
  · obtain ⟨frame, hframe, rfl⟩ := List.mem_map.mp hin
    exact Or.inl ⟨frame, hframe, rfl,
      hplace.trans (placeAmong_standing hframe hi.stacked.nodup)⟩
  · refine Or.inr ⟨hin, ?_⟩
    rw [Machine.place, placeAmong_absent hin] at hplace
    cases activation with
    | session => exact Or.inl ⟨rfl, hplace⟩
    | frame call =>
      rw [hplace] at hsome
      cases hsome
    | body co => exact Or.inr ⟨co, rfl, hplace⟩

theorem Inv.reset_release (reserved : Nat) (hclear : m.Clear (.reset reserved))
    {gone : Activation → Nat → Bool} (hsession : ∀ r, gone .session r = decide (reserved ≤ r))
    (hframe : ∀ call r, gone (.frame call) r = true)
    (hbody : ∀ co r, gone (.body co) r =
      m.frames.any fun frame => frame.activation = Activation.body co) :
    (m.act (.reset reserved)).Inv (m.release homes gone) := by
  -- of a frame that stands everything goes but what the next unit keeps of the session
  have hstands : ∀ frame ∈ m.frames, ∀ r, frame.activation ≠ .session →
      gone frame.activation r = true := by
    intro frame hmem r hne
    cases he : frame.activation with
    | session => exact absurd he hne
    | frame call => exact hframe call r
    | body co => exact (hbody co r).trans (List.any_eq_true.mpr ⟨frame, hmem, by simpa using he⟩)
  have hgone : ∀ u activation r, homes u = some (.bound activation r) →
      (gone activation r = true ↔
        ∃ place, m.locations u = some (.slot place) ∧ reserved ≤ place) := by
    intro u activation r h
    rcases hi.where_bound h with ⟨frame, hframe, rfl, hplace⟩ | ⟨habsent, hplace⟩
    · rw [hplace]
      by_cases hfirst : frame.activation = .session
      · rw [hfirst, hi.stacked.session frame hframe hfirst, Nat.zero_add, hsession]
        simp
      · refine ⟨fun _ => ⟨_, rfl, ?_⟩, fun _ => hstands frame hframe r hfirst⟩
        exact Nat.le_trans (hclear frame hframe hfirst) (Nat.le_add_right _ _)
    · rcases hplace with ⟨rfl, hplace⟩ | ⟨co, rfl, hplace⟩
      · rw [hplace, hsession]
        simp
      · rw [hplace]
        have hnone : gone (.body co) r = false := by
          rw [hbody]
          refine List.any_eq_false.mpr fun frame hmem he => habsent ?_
          rw [← of_decide_eq_true he]
          exact List.mem_map_of_mem hmem
        rw [hnone]
        refine ⟨fun h => absurd h Bool.false_ne_true, ?_⟩
        rintro ⟨_, he, _⟩
        cases he
  have hclosed := hi.vmCloseUpvalues hgone
  have hframes : (m.vmCloseUpvalues reserved).frames = m.frames ++ [] :=
    (List.append_nil _).symm
  have hempty := hclosed.drop hframes fun frame hframe u r h => by
    by_contra hne
    have hstays := (release_bound h).2
    rw [hstands frame hframe r hne] at hstays
    cases hstays
  exact hempty.setSlots _

theorem Inv.reset (reserved : Nat) (hclear : m.Clear (.reset reserved)) :
    (m.act (.reset reserved)).Inv (m.homes homes (.reset reserved)) :=
  hi.reset_release reserved hclear (fun _ => rfl) (fun _ _ => rfl) fun _ _ => rfl

end

theorem split_reverse {frames : List Frame} {depth : Nat} (h : frames.reverse[depth]? = some frame)
    : ∃ initial below, frames = initial ++ frame :: below ∧ below.length = depth := by
  obtain ⟨hlt, hget⟩ := List.getElem?_eq_some_iff.mp h
  have hsplit := List.take_append_drop depth frames.reverse
  rw [List.drop_eq_getElem_cons hlt, hget] at hsplit
  refine ⟨(frames.reverse.drop (depth + 1)).reverse, (frames.reverse.take depth).reverse, ?_, ?_⟩
  · have hback := congrArg List.reverse hsplit
    rw [List.reverse_append, List.reverse_reverse, List.reverse_cons, List.append_assoc] at hback
    exact hback.symm
  · rw [List.length_reverse, List.length_take, Nat.min_eq_left (Nat.le_of_lt hlt)]

theorem Inv.abandon (hi : m.Inv homes) (depth : Nat) :
    (m.act (.abandon depth)).Inv (m.homes homes (.abandon depth)) := by
  unfold act Machine.homes
  dsimp only
  cases hat : m.frames.reverse[depth]? with
  | none => exact hi
  | some frame =>
    dsimp only
    by_cases hsession : frame.activation = .session
    · rw [if_pos hsession, if_pos hsession]
      exact hi
    rw [if_neg hsession, if_neg hsession]
    -- the frames above the depth, the last of which is the one the host began with
    obtain ⟨initial, below, hsplit, hlength⟩ := split_reverse hat
    have hdrop : m.frames.length - depth = (initial ++ [frame]).length := by
      rw [hsplit, List.length_append, List.length_append, List.length_cons, hlength]
      simp only [List.length_singleton]
      omega
    have hframes : m.frames = (initial ++ [frame]) ++ below := by
      rw [hsplit, List.append_assoc]
      rfl
    have htake : m.frames.take (m.frames.length - depth) = initial ++ [frame] := by
      rw [hdrop, hframes, List.take_left']
      rfl
    have hrest : m.frames.drop (m.frames.length - depth) = below := by
      rw [hdrop, hframes, List.drop_left']
      rfl
    rw [htake]
    unfold Machine.abandon
    dsimp only
    rw [vmCloseUpvalues_frames, hrest]
    let gone : Activation → Nat → Bool := fun activation _ =>
      (initial ++ [frame]).any fun f => f.activation = activation
    have hgone : ∀ u activation r, homes u = some (.bound activation r) →
        (gone activation r = true ↔
          ∃ place, m.locations u = some (.slot place) ∧ frame.base ≤ place) := by
      intro u activation r h
      constructor
      · intro hin
        obtain ⟨f, hf, he⟩ := List.any_eq_true.mp hin
        have hfin : f ∈ m.frames := hframes ▸ List.mem_append_left _ hf
        have hplace : placeAmong m.frames f.activation r = some (.slot (f.base + r)) :=
          placeAmong_standing hfin hi.stacked.nodup
        rw [of_decide_eq_true he] at hplace
        refine ⟨f.base + r, (hi.captured.bound u _ _ h).2.trans hplace, ?_⟩
        have hrising := hi.stacked.rising
        rw [hsplit, List.pairwise_append] at hrising
        rcases List.mem_append.mp hf with hf | hf
        · exact Nat.le_trans (hrising.2.2 f hf frame List.mem_cons_self) (Nat.le_add_right _ _)
        · rw [List.mem_singleton.mp hf]
          exact Nat.le_add_right _ _
      · rintro ⟨place, hplace, hle⟩
        by_contra hnot
        have hne : ∀ f ∈ initial ++ [frame], f.activation ≠ activation :=
          fun f hf he => hnot (List.any_eq_true.mpr ⟨f, hf, decide_eq_true he⟩)
        refine absurd (hi.above u activation r place h hplace frame ?_) (Nat.not_lt.mpr hle)
        rw [hframes, List.takeWhile_append_of_pos fun f hf => by simpa using hne f hf]
        exact List.mem_append_left _ (List.mem_append_right _ List.mem_cons_self)
    refine (hi.vmCloseUpvalues hgone).drop hframes fun f hf u r h => ?_
    have hstays := (release_bound h).2
    have hin : gone f.activation r = true := List.any_eq_true.mpr ⟨f, hf, decide_eq_true rfl⟩
    rw [hin] at hstays
    cases hstays

end Lhat.Captures.Machine
