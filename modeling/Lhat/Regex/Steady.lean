import Lhat.Regex.Basic

/-!
# Patterns that the matcher covers whole

Whether a body may be empty depends on the place only by the anchors, and `^` is the one
that holds at the beginning and not later. A pattern is steady where no repeat that asks
for two rounds or more has one in its body. Then the matcher goes by all of the meaning
(`settled_of_denotes`).
-/

namespace Lhat.Regex

open CountedSteps

mutual

/-- There is a `^` in the tree. -/
def hasBol : Node → Bool
  | .bol => true
  | .seq children | .alt children => hasBolAny children
  | .rep child _ | .group _ child => hasBol child
  | .lit _ | .any | .charClass _ _ | .eol => false

def hasBolAny : List Node → Bool
  | [] => false
  | child :: rest => hasBol child || hasBolAny rest

end

mutual

/-- No repeat that asks for two rounds or more has a `^` in its body. -/
def steady : Node → Bool
  | .rep child bounds => (decide (bounds.min ≤ 1) || !hasBol child) && steady child
  | .seq children | .alt children => steadyAll children
  | .group _ child => steady child
  | .lit _ | .any | .charClass _ _ | .bol | .eol => true

def steadyAll : List Node → Bool
  | [] => true
  | child :: rest => steady child && steadyAll rest

end

variable {text : List UInt8}

/-- A step forward in the text, or none. -/
def Forward (text : List UInt8) (R : Nat → Nat → Prop) : Prop :=
  ∀ i j, R i j → i ≤ j ∧ (j ≤ text.length ∨ j = i)

theorem Forward.times {R : Nat → Nat → Prop} (hR : Forward text R) {n i j : Nat}
    (ht : Times R n i j) : i ≤ j ∧ (j ≤ text.length ∨ j = i) := by
  induction ht with
  | none => exact ⟨Nat.le_refl _, .inr rfl⟩
  | more hstep _ ih =>
    have := hR _ _ hstep
    omega

theorem Forward.settles {R : Nat → Nat → Prop} (hR : Forward text R) {least : Nat}
    {most : Option Nat} {done i j : Nat} (hs : Settles R least most done i j) :
    i ≤ j ∧ (j ≤ text.length ∨ j = i) := by
  induction hs with
  | stop _ => exact ⟨Nat.le_refl _, .inr rfl⟩
  | round _ hstep _ _ ih =>
    have := hR _ _ hstep
    omega
  | settle _ _ => exact ⟨Nat.le_refl _, .inr rfl⟩

theorem decode_width_le {pos : Nat} (hin : pos < text.length) :
    pos + (decode text pos).2 ≤ text.length := by
  unfold decode
  simp only
  split
  · exact hin
  · next hneed =>
      split
      · exact hin
      · show pos + neededBytes _ ≤ _
        omega

mutual

theorem forward_settled : ∀ n : Node, Forward text (Settled text n)
  | .lit bytes, i, j, ⟨hin, _, hj⟩ => by omega
  | .any, i, j, ⟨hin, hj⟩ => by
    have := decode_width_le hin
    omega
  | .charClass _ _, i, j, ⟨hin, _, hj⟩ => by
    have := decode_width_le hin
    omega
  | .seq children, i, j, hc => forward_settledAll children i j hc
  | .alt choices, i, j, hc => forward_settledOne choices i j hc
  | .rep child bounds, i, j, hc => Forward.settles (forward_settled child) hc
  | .group _ child, i, j, hc => forward_settled child i j hc
  | .bol, i, j, ⟨_, hj⟩ => by omega
  | .eol, i, j, ⟨_, hj⟩ => by omega

theorem forward_settledAll : ∀ children : List Node, Forward text (SettledAll text children)
  | [], i, j, hj => ⟨Nat.le_of_eq hj.symm, .inr hj⟩
  | child :: rest, i, j, ⟨l, hchild, hrest⟩ => by
    have := forward_settled child i l hchild
    have := forward_settledAll rest l j hrest
    omega

theorem forward_settledOne : ∀ choices : List Node, Forward text
    (CoversOne text (fun R bounds => Settles R bounds.min bounds.max 0) choices)
  | choice :: rest, i, j, hc => hc.elim (forward_settled choice i j) (forward_settledOne rest i j)

end

/-- A step that may stand still may do so later in the text as well. -/
def Stays (text : List UInt8) (R : Nat → Nat → Prop) : Prop :=
  ∀ i j, R i i → i ≤ j → (j ≤ text.length ∨ j = i) → R j j

theorem Stays.settles {R : Nat → Nat → Prop} (hforward : Forward text R) (hR : Stays text R)
    {least : Nat} {most : Option Nat} {done : Nat} : Stays text (Settles R least most done) := by
  intro i j hs hle hin
  rcases settles_iff.1 hs with ⟨hleast, -⟩ | ⟨hmost, k, hstep, ⟨rfl, -⟩ | ⟨hne, hrest⟩⟩
  · exact .stop hleast
  · exact .settle hmost (hR _ _ hstep hle hin)
  · -- What moved does not come back.
    have := hforward _ _ hstep
    have := hforward.settles hrest
    omega

mutual

theorem stays_settled : ∀ n : Node, hasBol n = false → Stays text (Settled text n)
  | .lit bytes, _, i, j, ⟨hin, hbytes, hi⟩, hle, hend => by
    obtain rfl : bytes = [] := List.eq_nil_of_length_eq_zero (by omega)
    refine ⟨?_, rfl, rfl⟩
    simp only [List.length_nil] at hin ⊢
    omega
  | .any, _, i, j, ⟨_, hi⟩, _, _ => by
    have := decode_width_pos text i
    omega
  | .charClass _ _, _, i, j, ⟨_, _, hi⟩, _, _ => by
    have := decode_width_pos text i
    omega
  | .seq children, hno, i, j, hc, hle, hend => stays_settledAll children hno i j hc hle hend
  | .alt choices, hno, i, j, hc, hle, hend => stays_settledOne choices hno i j hc hle hend
  | .rep child bounds, hno, i, j, hc, hle, hend =>
    Stays.settles (forward_settled child) (stays_settled child hno) i j hc hle hend
  | .group _ child, hno, i, j, hc, hle, hend => stays_settled child hno i j hc hle hend
  | .eol, _, i, j, ⟨hi, _⟩, hle, hend => ⟨by omega, rfl⟩

theorem stays_settledAll :
    ∀ children : List Node, hasBolAny children = false → Stays text (SettledAll text children)
  | [], _, _, _, _, _, _ => rfl
  | child :: rest, hno, i, j, ⟨l, hchild, hrest⟩, hle, hend => by
    obtain ⟨hno, hnone⟩ := Bool.or_eq_false_iff.1 hno
    have hto := forward_settled child i l hchild
    have hback := forward_settledAll rest l i hrest
    obtain rfl : l = i := by omega
    exact ⟨j, stays_settled child hno _ j hchild hle hend, stays_settledAll rest hnone _ j hrest hle hend⟩

theorem stays_settledOne :
    ∀ choices : List Node, hasBolAny choices = false → Stays text
      (CoversOne text (fun R bounds => Settles R bounds.min bounds.max 0) choices)
  | choice :: rest, hno, i, j, hc, hle, hend => by
    obtain ⟨hno, hnone⟩ := Bool.or_eq_false_iff.1 hno
    exact hc.imp (fun hc => stays_settled choice hno i j hc hle hend)
      fun hc => stays_settledOne rest hnone i j hc hle hend

end

theorem settles_of_repeats {child : Node} {bounds : Bounds} {i j : Nat}
    (hsteady : (decide (bounds.min ≤ 1) || !hasBol child) = true)
    (hr : Repeats (Settled text child) bounds.min bounds.max i j) :
    Settles (Settled text child) bounds.min bounds.max 0 i j := by
  rcases Bool.or_eq_true_iff.1 hsteady with hfew | hno
  · obtain ⟨n, hleast, hmost, htimes⟩ := hr
    exact .of_few (by simpa using hfew) htimes (by simpa using hleast) (by simpa using hmost)
  · refine .of_repeats (fun n i j hstill htimes => ?_) hr
    obtain ⟨hle, hend⟩ := (forward_settled child).times htimes
    exact stays_settled child (by simpa using hno) i j hstill hle hend

mutual

theorem settled_of_denotes :
    ∀ n : Node, steady n = true → ∀ i j, Denotes text n i j → Settled text n i j
  | .lit _, _, _, _, hd => hd
  | .any, _, _, _, hd => hd
  | .charClass _ _, _, _, _, hd => hd
  | .seq children, hs, i, j, hd => settledAll_of_denotes children hs i j hd
  | .alt choices, hs, i, j, hd => settledOne_of_denotes choices hs i j hd
  | .rep child bounds, hs, i, j, hd => by
    obtain ⟨hrep, hs⟩ := Bool.and_eq_true_iff.1 hs
    have hr : Repeats (Denotes text child) bounds.min bounds.max i j := hd
    exact settles_of_repeats hrep (hr.mono (settled_of_denotes child hs))
  | .group _ child, hs, i, j, hd => settled_of_denotes child hs i j hd
  | .bol, _, _, _, hd => hd
  | .eol, _, _, _, hd => hd

theorem settledAll_of_denotes :
    ∀ children : List Node, steadyAll children = true → ∀ i j,
      CoversAll text (fun R bounds => Repeats R bounds.min bounds.max) children i j →
      SettledAll text children i j
  | [], _, _, _, hd => hd
  | child :: rest, hs, i, j, ⟨l, hchild, hrest⟩ => by
    obtain ⟨hs, hall⟩ := Bool.and_eq_true_iff.1 hs
    exact ⟨l, settled_of_denotes child hs i l hchild, settledAll_of_denotes rest hall l j hrest⟩

theorem settledOne_of_denotes :
    ∀ choices : List Node, steadyAll choices = true → ∀ i j,
      CoversOne text (fun R bounds => Repeats R bounds.min bounds.max) choices i j →
      CoversOne text (fun R bounds => Settles R bounds.min bounds.max 0) choices i j
  | choice :: rest, hs, i, j, hd => by
    obtain ⟨hs, hall⟩ := Bool.and_eq_true_iff.1 hs
    exact hd.imp (settled_of_denotes choice hs i j) (settledOne_of_denotes rest hall i j)

end

end Lhat.Regex
