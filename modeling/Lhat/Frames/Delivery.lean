import Lhat.Frames.Basic
import Mathlib.Data.List.Basic

/-!
# What a frame hands on

A frame that was called owes its caller what it answered, a frame called for a comparison
what the comparison makes of that, and a frame that disposes of a coroutine owes `nil^`.
-/

namespace Lhat.Frames

variable {e : Entry} {f : Frame} {d : Nat}
variable (judges : Judges)

/-- The answer that is owed for a frame, before a comparison reads it. -/
def Entry.given (e : Entry) : Answer :=
  if e.purpose = .disposal ∨ e.drops = true then .nil else e.answered

/-- What is owed for a frame. Nothing but its entry and its answer decides it. -/
def Entry.Owes (e : Entry) : Delivery → Prop
  | .host answer => answer = e.given
  | .slots into reserved answer =>
    into = e.result ∧ reserved = e.prepared ∧
      answer = match e.purpose with
        | .comparison op equal => (judges.derived op equal e.given.head).map .value
        | _ => some e.given

variable {judges}

theorem Entry.Owes.call (hcall : e.purpose = .call) {into reserved : Nat}
    {answer : Answer} (hinto : into = e.result) (hreserved : reserved = e.prepared)
    (hanswer : answer = e.given) : e.Owes judges (.slots into reserved (some answer)) := by
  refine ⟨hinto, hreserved, ?_⟩
  rw [hcall, hanswer]

variable (judges)

/-- A frame holds what its entry says. -/
structure Frame.Matches (f : Frame) (e : Entry) : Prop where
  result : f.result = e.result
  prepared : f.prepared = e.prepared
  drops : f.dropAnswer = e.drops
  disposing : f.disposing = decide (e.purpose = .disposal)
  answer : f.answer = if e.purpose = .disposal then .nil else e.answered
  kept : f.coroutine ≠ none → e.drops = false
  carried : e.purpose = .disposal → f.coroutine ≠ none
  called : e.purpose = .call → f.derive = none
  compared : ∀ op equal, e.purpose = .comparison op equal →
    f.derive = some op ∧ f.deriveEqual = equal ∧ f.coroutine = none

theorem Frame.Matches.purpose_call (h : f.Matches e)
    (hco : f.coroutine = none) (hderive : f.derive = none) : e.purpose = .call := by
  cases hpurpose : e.purpose with
  | call => rfl
  | disposal => exact absurd hco (h.carried hpurpose)
  | comparison op equal =>
    rw [(h.compared op equal hpurpose).1] at hderive
    cases hderive

theorem Frame.Matches.given (h : f.Matches e) :
    (if f.dropAnswer then Answer.nil else f.answer) = e.given := by
  unfold Entry.given
  rw [h.drops, h.answer]
  by_cases hdisposal : e.purpose = .disposal
  · rw [if_pos hdisposal, if_pos (Or.inl hdisposal), ite_self]
  · rw [if_neg hdisposal]
    simp only [hdisposal, false_or]

namespace Machine

/-- The frames of a machine hold what their entries say. A frame that the hot loop entered
holds only the places of its answer yet. -/
structure Sound (m : Machine) : Prop where
  bases_le : ∀ b ∈ m.bases, b ≤ m.frameCount
  descending : m.bases.Pairwise (· ≥ ·)
  hot : ∀ d, m.hot = some d → m.baseDepth < d ∧ d ≤ m.frameCount
  written : ∀ i, i < m.frameCount → (∀ d, m.hot = some d → i < d) →
    (m.frames i).Matches (m.entries i)
  pending : ∀ i, i < m.frameCount → ∀ d, m.hot = some d → d ≤ i →
    m.entries i =
      { purpose := .call, result := (m.frames i).result, prepared := (m.frames i).prepared }
  clean : ∀ i, i < m.frameCount → (m.entries i).purpose = .disposal →
    i ∈ m.bases ∨ (m.frames i).derive = none
  handed : ∀ p ∈ m.log, p.1.Owes judges p.2

variable {judges} {m : Machine}

theorem Sound.empty : Sound judges {} := by
  refine ⟨?_, List.Pairwise.nil, ?_, ?_, ?_, ?_, ?_⟩
  · intro b hb
    cases hb
  · intro d hd
    cases hd
  · intro i hi
    exact absurd hi (Nat.not_lt_zero i)
  · intro i hi
    exact absurd hi (Nat.not_lt_zero i)
  · intro i hi
    exact absurd hi (Nat.not_lt_zero i)
  · intro p hp
    cases hp

section

variable (h : Sound judges m)
include h

theorem Sound.base_le {b : Nat} (hb : b ∈ m.bases) : b ≤ m.baseDepth := by
  have hdesc := h.descending
  unfold baseDepth
  cases hbases : m.bases with
  | nil => rw [hbases] at hb; cases hb
  | cons first rest =>
    rw [hbases] at hb hdesc
    rcases List.mem_cons.mp hb with rfl | hrest
    · exact Nat.le_refl _
    · exact (List.pairwise_cons.mp hdesc).1 b hrest

theorem Sound.push (hhot : m.hot = none)
    (hmatch : f.Matches e)
    (hclean : e.purpose = .disposal → m.frameCount ∈ m.bases ∨ f.derive = none) :
    Sound judges (m.push f e) where
  bases_le b hb := Nat.le_succ_of_le (h.bases_le b hb)
  descending := h.descending
  hot d hd := by
    have : m.hot = some d := hd
    rw [hhot] at this
    cases this
  written i hi _ := by
    show (Function.update m.frames m.frameCount f i).Matches
      (Function.update m.entries m.frameCount e i)
    by_cases hlast : i = m.frameCount
    · subst hlast
      rw [Function.update_self, Function.update_self]
      exact hmatch
    · rw [Function.update_of_ne hlast, Function.update_of_ne hlast]
      refine h.written i (Nat.lt_of_le_of_ne (Nat.le_of_lt_succ hi) hlast) ?_
      intro d hd
      rw [hhot] at hd
      cases hd
  pending i _ d hd := by
    have : m.hot = some d := hd
    rw [hhot] at this
    cases this
  clean i hi := by
    show (Function.update m.entries m.frameCount e i).purpose = _ → i ∈ m.bases ∨
      (Function.update m.frames m.frameCount f i).derive = none
    by_cases hlast : i = m.frameCount
    · subst hlast
      rw [Function.update_self, Function.update_self]
      exact hclean
    · rw [Function.update_of_ne hlast, Function.update_of_ne hlast]
      exact h.clean i (Nat.lt_of_le_of_ne (Nat.le_of_lt_succ hi) hlast)
  handed := h.handed

theorem Sound.setFrame (hhot : m.hot = none)
    (hmatch : f.Matches e) (hpurpose : e.purpose = m.entry.purpose)
    (hderive : f.derive = m.frame.derive) : Sound judges (m.setFrame f e) where
  bases_le := h.bases_le
  descending := h.descending
  hot := h.hot
  written i hi _ := by
    show (Function.update m.frames (m.frameCount - 1) f i).Matches
      (Function.update m.entries (m.frameCount - 1) e i)
    by_cases htop : i = m.frameCount - 1
    · subst htop
      rw [Function.update_self, Function.update_self]
      exact hmatch
    · rw [Function.update_of_ne htop, Function.update_of_ne htop]
      refine h.written i hi ?_
      intro d hd
      rw [hhot] at hd
      cases hd
  pending i _ d hd := by
    have : m.hot = some d := hd
    rw [hhot] at this
    cases this
  clean i hi := by
    show (Function.update m.entries (m.frameCount - 1) e i).purpose = _ → i ∈ m.bases ∨
      (Function.update m.frames (m.frameCount - 1) f i).derive = none
    by_cases htop : i = m.frameCount - 1
    · subst htop
      rw [Function.update_self, Function.update_self, hpurpose, hderive]
      exact h.clean _ hi
    · rw [Function.update_of_ne htop, Function.update_of_ne htop]
      exact h.clean i hi
  handed := h.handed

theorem Sound.popTo (hrun : m.baseDepth < m.frameCount)
    {delivery : Delivery} (howes : e.Owes judges delivery) {hot : Option Nat}
    (hhot : ∀ d, hot = some d → (m.pop e delivery).baseDepth < d ∧ d ≤ m.frameCount - 1)
    (hsame : ∀ i, i < m.frameCount - 1 →
      ((∃ d, hot = some d ∧ d ≤ i) ↔ ∃ d, m.hot = some d ∧ d ≤ i)) :
    Sound judges { m.pop e delivery with hot } := by
  have hfewer : m.frameCount - 1 < m.frameCount := by omega
  have hsub : ∀ b ∈ (m.pop e delivery).bases, b ∈ m.bases := by
    intro b hb
    unfold Machine.pop at hb
    dsimp only at hb
    split at hb
    · exact List.mem_of_mem_tail hb
    · exact hb
  refine ⟨?_, ?_, hhot, ?_, ?_, ?_, ?_⟩
  · intro b hb
    have := h.base_le (hsub b hb)
    show b ≤ m.frameCount - 1
    omega
  · unfold Machine.pop
    dsimp only
    split
    · exact h.descending.tail
    · exact h.descending
  · intro i hi hd
    refine h.written i (Nat.lt_trans hi hfewer) fun d hdm => Nat.lt_of_not_le fun hle => ?_
    obtain ⟨d', hd', hle'⟩ := (hsame i hi).mpr ⟨d, hdm, hle⟩
    exact absurd (hd d' hd') (Nat.not_lt.mpr hle')
  · intro i hi d hd hle
    obtain ⟨d', hd', hle'⟩ := (hsame i hi).mp ⟨d, hd, hle⟩
    exact h.pending i (Nat.lt_trans hi hfewer) d' hd' hle'
  · intro i hi hpurpose
    have hi' : i < m.frameCount - 1 := hi
    refine (h.clean i (Nat.lt_trans hi' hfewer) hpurpose).imp ?_ id
    intro hmem
    unfold Machine.pop
    dsimp only
    split
    · rename_i hbase
      cases hbases : m.bases with
      | nil => rw [hbases] at hmem; cases hmem
      | cons first rest =>
        rw [hbases] at hmem
        unfold baseDepth at hbase
        rw [hbases] at hbase
        rcases List.mem_cons.mp hmem with rfl | hrest
        · exact absurd hbase (Nat.ne_of_gt hi')
        · exact hrest
    · exact hmem
  · intro p hp
    rcases List.mem_cons.mp hp with rfl | hlog
    · exact howes
    · exact h.handed p hlog

section

variable (hhot : m.hot = none)
include hhot

theorem Sound.pop (hrun : m.baseDepth < m.frameCount) {delivery : Delivery} (howes : e.Owes judges delivery) :
    Sound judges (m.pop e delivery) := by
  have hstays : ∀ d, m.hot = some d →
      (m.pop e delivery).baseDepth < d ∧ d ≤ m.frameCount - 1 := by
    intro d hd
    rw [hhot] at hd
    cases hd
  exact h.popTo hrun howes hstays fun _ _ => Iff.rfl

theorem Sound.abandon : Sound judges m.abandon := by
  have hdepth : m.baseDepth ≤ m.frameCount := by
    unfold baseDepth
    cases hbases : m.bases with
    | nil => exact Nat.zero_le _
    | cons first rest => exact h.bases_le first (hbases ▸ List.mem_cons_self)
  refine ⟨?_, h.descending.tail, ?_, ?_, ?_, ?_, h.handed⟩
  · intro b hb
    exact h.base_le (List.mem_of_mem_tail hb)
  · intro d hd
    have : m.hot = some d := hd
    rw [hhot] at this
    cases this
  · intro i hi _
    exact h.written i (Nat.lt_of_lt_of_le hi hdepth) (fun d hd => by rw [hhot] at hd; cases hd)
  · intro i _ d hd
    have : m.hot = some d := hd
    rw [hhot] at this
    cases this
  · intro i hi hpurpose
    have hi' : i < m.baseDepth := hi
    refine (h.clean i (Nat.lt_of_lt_of_le hi' hdepth) hpurpose).imp ?_ id
    intro hmem
    show i ∈ m.bases.tail
    unfold baseDepth at hi'
    cases hbases : m.bases with
    | nil => rw [hbases] at hmem; cases hmem
    | cons first rest =>
      rw [hbases] at hmem hi'
      rcases List.mem_cons.mp hmem with rfl | hrest
      · exact absurd hi' (Nat.lt_irrefl _)
      · exact hrest

theorem Sound.vmPushFrame (base result prepared : Nat) :
    Sound judges (m.vmPushFrame base result prepared) := by
  refine h.push hhot ?_ nofun
  exact ⟨rfl, rfl, rfl, rfl, rfl, fun _ => rfl, nofun, fun _ => rfl, nofun⟩

theorem Sound.callOperator (base result : Nat)
    (derive : Option Comparison) (deriveEqual : Bool) :
    Sound judges (m.callOperator base result derive deriveEqual) := by
  cases derive with
  | none =>
    refine h.push hhot ?_ nofun
    exact ⟨rfl, rfl, rfl, rfl, rfl, fun _ => rfl, nofun, fun _ => rfl, nofun⟩
  | some op =>
    refine h.push hhot ?_ nofun
    refine ⟨rfl, rfl, rfl, rfl, rfl, fun _ => rfl, nofun, nofun, fun op' equal hpurpose => ?_⟩
    cases hpurpose
    exact ⟨rfl, rfl, rfl⟩

theorem Sound.vmEnterResumeFrame
    (co base result prepared cleanupCount : Nat) :
    Sound judges (m.vmEnterResumeFrame co base result prepared cleanupCount) := by
  refine h.push hhot ?_ nofun
  exact ⟨rfl, rfl, rfl, rfl, rfl, fun _ => rfl, nofun, fun _ => rfl, nofun⟩

theorem Sound.vmEnterDisposalFrame
    (hslot : m.frameCount ∈ m.bases ∨ m.slot.derive = none) (co base result cleanupCount : Nat) :
    Sound judges (m.vmEnterDisposalFrame co base result cleanupCount) := by
  refine h.push hhot ?_ fun _ => hslot
  exact ⟨rfl, rfl, rfl, rfl, rfl, fun _ => rfl, fun _ => nofun, nofun, nofun⟩

theorem Sound.top (hrun : m.baseDepth < m.frameCount) :
    m.frame.Matches m.entry :=
  h.written _ (by omega) (fun d hd => by rw [hhot] at hd; cases hd)

theorem Sound.leave
    (hrun : m.baseDepth < m.frameCount) (swept : Bool) : Sound judges (m.leave judges swept) := by
  have htop := h.top hhot hrun
  have hgiven := htop.given
  unfold Machine.leave
  dsimp only
  rw [hgiven]
  split
  · split
    · exact h
    · exact h.pop hhot hrun rfl
  rename_i habove
  have hhigh : m.frameCount - 1 ∉ m.bases := by
    intro hmem
    have := h.base_le hmem
    omega
  have hclean : m.entry.purpose = .disposal → m.frame.derive = none := fun hpurpose =>
    (h.clean _ (by omega) hpurpose).resolve_left hhigh
  split
  · rename_i hderive
    refine h.pop hhot hrun ⟨htop.result, htop.prepared, ?_⟩
    split
    · rename_i op equal hpurpose
      rw [(htop.compared op equal hpurpose).1] at hderive
      cases hderive
    · rfl
  · rename_i op hderive
    have hread : m.entry.purpose = .comparison op m.frame.deriveEqual := by
      cases hpurpose : m.entry.purpose with
      | call => rw [htop.called hpurpose] at hderive; cases hderive
      | disposal => rw [hclean hpurpose] at hderive; cases hderive
      | comparison op' equal =>
        obtain ⟨hop, hequal, -⟩ := htop.compared op' equal hpurpose
        rw [hop] at hderive
        rw [Option.some.inj hderive, hequal]
    split
    · rename_i value hvalue
      refine h.pop hhot hrun ⟨htop.result, htop.prepared, ?_⟩
      rw [hread]
      exact (congrArg (Option.map Answer.value) hvalue).symm
    · rename_i hvalue
      have howes : m.entry.Owes judges (.slots m.frame.result m.frame.prepared none) := by
        refine ⟨htop.result, htop.prepared, ?_⟩
        rw [hread]
        exact (congrArg (Option.map Answer.value) hvalue).symm
      exact (h.pop hhot hrun howes).abandon hhot

theorem Sound.drain
    (hrun : m.baseDepth < m.frameCount) (swept : Bool) : Sound judges (m.drain judges swept) := by
  have htop := h.top hhot hrun
  unfold Machine.drain
  split
  · refine h.setFrame hhot ?_ rfl rfl
    exact { htop with }
  split
  · exact h
  · exact h.leave hhot hrun swept

theorem Sound.ret (hrun : m.baseDepth < m.frameCount)
    {answer : Answer} (hdisposing : m.frame.disposing = true → answer = .nil) (plain swept : Bool) :
    Sound judges (m.ret judges answer plain swept) := by
  have htop := h.top hhot hrun
  have hanswer : answer = if m.entry.purpose = .disposal then .nil else answer := by
    split
    · rename_i hpurpose
      exact hdisposing (by rw [htop.disposing]; exact decide_eq_true hpurpose)
    · rfl
  have hslow : Sound judges ((m.setFrame
      { m.frame with drainTarget := 0, returning := true, answer }
      { m.entry with answered := answer }).drain judges swept) := by
    have hmatch : { m.frame with drainTarget := 0, returning := true, answer }.Matches
        { m.entry with answered := answer } := { htop with answer := hanswer }
    exact (h.setFrame hhot hmatch rfl rfl).drain hhot hrun swept
  unfold Machine.ret
  dsimp only
  split
  · rename_i value
    split
    · rename_i hordinary
      obtain ⟨-, -, -, hco, hderive, -⟩ := hordinary
      have hcall : m.entry.purpose = .call := htop.purpose_call hco hderive
      have hgiven : (if m.frame.dropAnswer then Answer.nil else .value value) =
          Entry.given { m.entry with answered := .value value } := by
        unfold Entry.given
        rw [htop.drops, hcall]
        simp only [reduceCtorEq, false_or]
      exact h.pop hhot hrun (Entry.Owes.call (e := { m.entry with answered := .value value })
        hcall htop.result htop.prepared hgiven)
    · exact hslow
  · exact hslow

theorem Sound.yield (hrun : m.baseDepth < m.frameCount)
    (answer : Answer) : Sound judges (m.yield answer) := by
  have htop := h.top hhot hrun
  unfold Machine.yield
  split
  · exact h.abandon hhot
  rename_i hbody
  rw [not_or] at hbody
  have hcall : m.entry.purpose = .call := by
    cases hpurpose : m.entry.purpose with
    | call => rfl
    | disposal =>
      have hdisposing := htop.disposing
      rw [hpurpose] at hdisposing
      exact absurd hdisposing hbody.2
    | comparison op equal => exact absurd (htop.compared op equal hpurpose).2.2 hbody.1
  have hgiven : answer = Entry.given { m.entry with answered := answer } := by
    unfold Entry.given
    rw [hcall, htop.kept hbody.1]
    simp only [reduceCtorEq, Bool.false_eq_true, or_self, if_false]
  split
  · exact h.pop hhot hrun hgiven
  · exact h.pop hhot hrun (Entry.Owes.call (e := { m.entry with answered := answer })
      hcall htop.result htop.prepared hgiven)

theorem Sound.tailCall
    (hrun : m.baseDepth < m.frameCount) (base result prepared : Nat) (drop kept : Bool) :
    Sound judges (m.tailCall base result prepared drop kept) := by
  have htop := h.top hhot hrun
  unfold Machine.tailCall
  split
  · rename_i hreuse
    have hmatch : { m.frame with
          returning := false, dropAnswer := m.frame.dropAnswer || drop }.Matches
        { m.entry with drops := m.entry.drops || drop } :=
      { htop with
        drops := by rw [htop.drops]
        kept := fun hco => absurd hreuse.2.1 hco }
    exact h.setFrame hhot hmatch rfl rfl
  · exact h.vmPushFrame hhot base result prepared

/-! ### The hot loop -/

theorem Sound.hotLoop
    (hrun : m.baseDepth < m.frameCount) : Sound judges { m with hot := some m.frameCount } := by
  refine ⟨h.bases_le, h.descending, ?_, ?_, ?_, h.clean, h.handed⟩
  · intro d hd
    cases hd
    exact ⟨hrun, Nat.le_refl _⟩
  · intro i hi _
    exact h.written i hi (fun d hd => by rw [hhot] at hd; cases hd)
  · intro i hi d hd hle
    cases hd
    exact absurd hi (Nat.not_lt.mpr hle)

end

theorem Sound.hotCall (hhot : m.hot = some d)
    (base result prepared : Nat) : Sound judges (m.hotCall base result prepared) := by
  obtain ⟨hbase, hdepth⟩ := h.hot d hhot
  refine ⟨?_, h.descending, ?_, ?_, ?_, ?_, h.handed⟩
  · intro b hb
    exact Nat.le_succ_of_le (h.bases_le b hb)
  · intro d' hd'
    obtain ⟨hbase', hdepth'⟩ := h.hot d' hd'
    exact ⟨hbase', Nat.le_succ_of_le hdepth'⟩
  · intro i _ hd
    have hlow : i < m.frameCount := Nat.lt_of_lt_of_le (hd d hhot) hdepth
    have hwritten := h.written i hlow hd
    show (Function.update m.frames m.frameCount _ i).Matches
      (Function.update m.entries m.frameCount _ i)
    rw [Function.update_of_ne (Nat.ne_of_lt hlow), Function.update_of_ne (Nat.ne_of_lt hlow)]
    exact hwritten
  · intro i hi d' hd' hle
    unfold Machine.hotCall Machine.push
    dsimp only
    by_cases hlast : i = m.frameCount
    · subst hlast
      rw [Function.update_self, Function.update_self]
    · rw [Function.update_of_ne hlast, Function.update_of_ne hlast]
      exact h.pending i (Nat.lt_of_le_of_ne (Nat.le_of_lt_succ hi) hlast) d' hd' hle
  · intro i hi
    unfold Machine.hotCall Machine.push
    dsimp only
    by_cases hlast : i = m.frameCount
    · subst hlast
      rw [Function.update_self]
      exact nofun
    · rw [Function.update_of_ne hlast, Function.update_of_ne hlast]
      exact h.clean i (Nat.lt_of_le_of_ne (Nat.le_of_lt_succ hi) hlast)

theorem Sound.vmHotLeave (hhot : m.hot = some d) :
    Sound judges (m.vmHotLeave d) := by
  refine ⟨h.bases_le, h.descending, nofun, ?_, nofun, ?_, h.handed⟩
  · intro i hi _
    unfold Machine.vmHotLeave
    dsimp only
    split
    · rename_i hnew
      rw [h.pending i hi d hhot hnew.1]
      exact ⟨rfl, rfl, rfl, rfl, rfl, fun _ => rfl, nofun, fun _ => rfl, nofun⟩
    · rename_i hold
      refine h.written i hi fun d' hd' => ?_
      rw [hhot] at hd'
      cases hd'
      exact Nat.lt_of_not_le fun hle => hold ⟨hle, hi⟩
  · intro i hi hpurpose
    refine (h.clean i hi hpurpose).imp id ?_
    intro hderive
    unfold Machine.vmHotLeave
    dsimp only
    split
    · rfl
    · exact hderive

theorem Sound.hotReturn (hhot : m.hot = some d) (answer : Answer)
    (plain : Bool) : Sound judges (m.hotReturn d answer plain) := by
  obtain ⟨hbase, hdepth⟩ := h.hot d hhot
  unfold Machine.hotReturn
  dsimp only
  split
  · rename_i value
    split
    · exact h.vmHotLeave hhot
    rename_i hordinary
    rw [not_or, not_or, not_or, Nat.not_le] at hordinary
    obtain ⟨hrun, -, hopen, -⟩ := hordinary
    have htop : m.frameCount - 1 < m.frameCount := by omega
    have howes : Entry.Owes judges { m.entry with answered := .value value }
        (.slots m.frame.result m.frame.prepared (some (if decide (d < m.frameCount) = false ∧
          m.frame.dropAnswer = true then .nil else .value value))) := by
      by_cases hpending : d < m.frameCount
      · -- the hot loop entered the frame itself
        have hentry : m.entry = _ := h.pending _ htop d hhot (by omega)
        rw [hentry, decide_eq_true hpending]
        exact Entry.Owes.call rfl rfl rfl rfl
      · have hmatch : m.frame.Matches m.entry := h.written _ htop fun d' hd' => by
          rw [hhot] at hd'
          cases hd'
          omega
        have hopen' : ¬ (m.frame.cleanupCount ≠ 0 ∨ m.frame.coroutine ≠ none ∨
            m.frame.derive ≠ none) := fun hclosed => hopen ⟨decide_eq_false hpending, hclosed⟩
        rw [not_or, not_or, not_not, not_not, not_not] at hopen'
        have hcall : m.entry.purpose = .call := hmatch.purpose_call hopen'.2.1 hopen'.2.2
        rw [decide_eq_false hpending]
        refine Entry.Owes.call (e := { m.entry with answered := .value value }) hcall hmatch.result
          hmatch.prepared ?_
        unfold Entry.given
        rw [hmatch.drops, hcall]
        simp only [true_and, reduceCtorEq, false_or]
    refine h.popTo (by omega) howes ?_ fun i hi => ?_
    · intro d' hd'
      cases hd'
      have hbases : (m.pop { m.entry with answered := .value value } (.slots m.frame.result
          m.frame.prepared (some (if decide (d < m.frameCount) = false ∧
            m.frame.dropAnswer = true then .nil else .value value)))).baseDepth = m.baseDepth := by
        have habove : m.frameCount - 1 ≠ m.baseDepth := by omega
        unfold Machine.baseDepth Machine.pop
        exact congrArg (fun bases : List Nat => bases.headD 0) (if_neg habove)
      rw [hbases]
      exact ⟨by omega, Nat.min_le_right _ _⟩
    · constructor
      · rintro ⟨d', hd', hle⟩
        cases hd'
        exact ⟨d, hhot, by omega⟩
      · rintro ⟨d', hd', hle⟩
        rw [hhot] at hd'
        cases hd'
        exact ⟨_, rfl, by omega⟩
  · exact h.vmHotLeave hhot

end

/-! ### Runs -/

/-- A disposal is put where no comparison's frame stood last, or where the run begins, and
its frame does not come to a `RETURN` that answers. -/
def Keeps (m : Machine) : Move → Prop
  | .dispose .. => m.frameCount = m.baseDepth ∨ m.slot.derive = none
  | .ret answer _ _ => m.frame.disposing = true → answer = .nil
  | _ => True

instance (m : Machine) : DecidablePred m.Keeps
  | .dispose .. => inferInstanceAs (Decidable (m.frameCount = m.baseDepth ∨ m.slot.derive = none))
  | .ret answer _ _ => inferInstanceAs (Decidable (m.frame.disposing = true → answer = .nil))
  | .begin | .call .. | .operator .. | .resume .. | .tailCall .. | .pushCleanup | .popCleanup ..
  | .endCleanup _ | .yield _ | .fault | .hotLoop | .hotCall .. | .hotReturn .. | .hotLeave =>
    inferInstanceAs (Decidable True)

theorem Sound.begin (h : Sound judges m) (hhot : m.hot = none) :
    Sound judges { m with bases := m.frameCount :: m.bases } := by
  refine ⟨?_, List.pairwise_cons.mpr ⟨h.bases_le, h.descending⟩, ?_, h.written, h.pending, ?_,
    h.handed⟩
  · intro b hb
    rcases List.mem_cons.mp hb with rfl | hrest
    · exact Nat.le_refl _
    · exact h.bases_le b hrest
  · intro d hd
    have : m.hot = some d := hd
    rw [hhot] at this
    cases this
  · intro i hi hpurpose
    exact (h.clean i hi hpurpose).imp (List.mem_cons_of_mem _) id

theorem baseDepth_mem (h : (!m.bases.isEmpty) = true) : m.baseDepth ∈ m.bases := by
  unfold baseDepth
  cases hbases : m.bases with
  | nil => rw [hbases] at h; cases h
  | cons first rest => exact List.mem_cons_self

theorem Sound.act (h : Sound judges m) {move : Move}
    (hkeeps : m.permits move = true → m.Keeps move) : Sound judges (m.act judges move) := by
  unfold Machine.act
  split
  case isFalse => exact h
  rename_i hpermits
  have hkept := hkeeps hpermits
  have hcold : ∀ {b : Bool}, (m.hot.isNone && b) = true → m.hot = none := fun hb =>
    Option.isNone_iff_eq_none.mp (Bool.and_elim_left hb)
  have htop : (m.hot.isNone && !m.bases.isEmpty && decide (m.baseDepth < m.frameCount)) = true →
      m.hot = none ∧ m.baseDepth < m.frameCount := by
    intro hb
    rw [Bool.and_assoc] at hb
    exact ⟨hcold hb, of_decide_eq_true (Bool.and_elim_right (Bool.and_elim_right hb))⟩
  cases move with
  | begin => exact h.begin (Option.isNone_iff_eq_none.mp hpermits)
  | call base result prepared => exact h.vmPushFrame (hcold hpermits) base result prepared
  | operator base result derive deriveEqual =>
    exact h.callOperator (htop hpermits).1 base result derive deriveEqual
  | resume co base result prepared cleanupCount =>
    exact h.vmEnterResumeFrame (hcold hpermits) co base result prepared cleanupCount
  | dispose co base result cleanupCount =>
    refine h.vmEnterDisposalFrame (hcold hpermits) (hkept.imp ?_ id) co base result cleanupCount
    intro hbase
    exact hbase ▸ baseDepth_mem (Bool.and_elim_right hpermits)
  | tailCall base result prepared drop kept =>
    exact h.tailCall (htop hpermits).1 (htop hpermits).2 base result prepared drop kept
  | pushCleanup =>
    obtain ⟨hhot, hrun⟩ := htop hpermits
    have hmatch := h.top hhot hrun
    exact h.setFrame hhot
      (f := { m.frame with cleanupCount := m.frame.cleanupCount + 1 }) { hmatch with } rfl rfl
  | popCleanup a swept =>
    obtain ⟨hhot, hrun⟩ := htop hpermits
    have hmatch := h.top hhot hrun
    exact (h.setFrame hhot (f := { m.frame with drainTarget := a, returning := false })
      { hmatch with } rfl rfl).drain hhot hrun swept
  | endCleanup swept => exact h.drain (htop hpermits).1 (htop hpermits).2 swept
  | ret answer plain swept => exact h.ret (htop hpermits).1 (htop hpermits).2 hkept plain swept
  | yield answer => exact h.yield (htop hpermits).1 (htop hpermits).2 answer
  | fault => exact h.abandon (htop hpermits).1
  | hotLoop => exact h.hotLoop (htop hpermits).1 (htop hpermits).2
  | hotCall base result prepared =>
    obtain ⟨d, hd⟩ := Option.isSome_iff_exists.mp hpermits
    exact h.hotCall hd base result prepared
  | hotReturn answer plain =>
    obtain ⟨d, hd⟩ := Option.isSome_iff_exists.mp hpermits
    show Sound judges (m.hotReturn (m.hot.getD 0) answer plain)
    rw [hd]
    exact h.hotReturn hd answer plain
  | hotLeave =>
    obtain ⟨d, hd⟩ := Option.isSome_iff_exists.mp hpermits
    show Sound judges (m.vmHotLeave (m.hot.getD 0))
    rw [hd]
    exact h.vmHotLeave hd

variable (judges)

/-- Every move of a run keeps to it. -/
def KeepsAll (m : Machine) : List Move → Prop
  | [] => True
  | move :: moves => (m.permits move = true → m.Keeps move) ∧ (m.act judges move).KeepsAll moves

instance decidableKeepsAll (m : Machine) : DecidablePred (m.KeepsAll judges)
  | [] => inferInstanceAs (Decidable True)
  | move :: moves =>
    have := decidableKeepsAll (m.act judges move) moves
    inferInstanceAs (Decidable ((m.permits move = true → m.Keeps move) ∧
      (m.act judges move).KeepsAll judges moves))

variable {judges}

theorem Sound.run (h : Sound judges m) {moves : List Move} (hkeeps : m.KeepsAll judges moves) :
    Sound judges (m.run judges moves) := by
  induction moves generalizing m with
  | nil => exact h
  | cons move moves ih => exact ih (h.act hkeeps.1) hkeeps.2

/-- Where every move keeps to it, each frame hands on what is owed for it. -/
theorem hands_on_owed {judges : Judges} {moves : List Move} (hkeeps : KeepsAll judges {} moves) :
    ∀ p ∈ (run judges {} moves).log, p.1.Owes judges p.2 :=
  (Sound.empty.run hkeeps).handed

/-- The judges of a machine that holds no real number and no two strings of the same text. -/
def wholeJudges : Judges where
  lhatValueEqual left right := decide (left = right)
  vmThreeWay left right :=
    match left, right with
    | .integer i, .integer j => some (i.toInt - j.toInt)
    | _, _ => none

/-- A comparison by `op^=`, some calls, and a disposal above the same frame. -/
def comparesThenDisposes (calls : List Move) : List Move :=
  [.begin, .call 0 0 1, .operator 5 3 (some .eq) true, .ret (.value (.bool true)) false false] ++
    calls ++ [.dispose 0 5 7 1, .endCleanup false, .endCleanup false]

theorem hands_on_owed_after_call :
    (run wholeJudges {} (comparesThenDisposes
      [.call 5 3 1, .ret (.value .nil) true false])).log.length = 3 ∧
    ∀ p ∈ (run wholeJudges {} (comparesThenDisposes
      [.call 5 3 1, .ret (.value .nil) true false])).log, p.1.Owes wholeJudges p.2 :=
  ⟨by decide, hands_on_owed (by decide)⟩

/-- With nothing in between, the disposal is read as the comparison was. -/
theorem not_hands_on_owed :
    ¬ ∀ (judges : Judges) (moves : List Move),
      ∀ p ∈ (run judges {} moves).log, p.1.Owes judges p.2 := by
  intro howed
  have hdisposed := howed wholeJudges (comparesThenDisposes [])
    ({ purpose := .disposal, result := 7, prepared := 1, answered := .nil }, .slots 7 1 none)
    List.mem_cons_self
  exact absurd hdisposed.2.2 nofun

end Machine

end Lhat.Frames
