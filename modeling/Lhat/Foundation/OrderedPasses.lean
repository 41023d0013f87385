import Mathlib.Data.List.GetD
import Lhat.Foundation.MergePasses

/-!
# Passes that put a list in order

Where every question is answered, by one total preorder, a merge of two ordered halves
is ordered and takes what is tied from the left half first. A pass therefore doubles
the width of the ordered blocks, and among the elements tied with one it changes
nothing (`mergePasses_ordered`).
-/

namespace MergePasses

variable {α ε : Type*}

/-- The elements neither before nor after one. -/
def tied (le : α → α → Bool) (x y : α) : Bool := le x y && le y x

/-- The same elements, and those that are tied in the same order. -/
def TiesKept (le : α → α → Bool) (xs ys : List α) : Prop :=
  ∀ x, ys.filter (tied le x) = xs.filter (tied le x)

/-- Every block of a width is ordered. -/
def Runs (le : α → α → Bool) (width : Nat) (xs : List α) : Prop :=
  ∀ n, width ∣ n → (xs.extract n (n + width)).Pairwise fun x y => le x y = true

/-- Whoever is asked for an order answers by it, whichever call it is. -/
def AnswersBy (ask : Nat → α → α → Except ε Bool) (le : α → α → Bool) (among : List α) : Prop :=
  ∀ calls, ∀ x ∈ among, ∀ y ∈ among, ask calls x y = .ok (le x y)

theorem extract_cons (xs : List α) {i n : Nat} (hi : i < n) (hn : n ≤ xs.length) (blank : α) :
    xs.extract i n = xs.getD i blank :: xs.extract (i + 1) n := by
  have hlt : i < xs.length := by omega
  rw [List.extract_eq_take_drop, List.extract_eq_take_drop, List.drop_eq_getElem_cons hlt,
    List.getD_eq_getElem _ _ hlt, show n - i = n - (i + 1) + 1 by omega, List.take_succ_cons]

theorem extract_append (xs : List α) {i j n : Nat} (hij : i ≤ j) (hjn : j ≤ n) :
    xs.extract i n = xs.extract i j ++ xs.extract j n := by
  simp only [List.extract_eq_take_drop]
  rw [show n - i = (j - i) + (n - j) by omega, List.take_add, List.drop_drop,
    show i + (j - i) = j by omega]

theorem extract_end (xs : List α) {i n : Nat} (hn : xs.length ≤ n) :
    xs.extract i n = xs.drop i := by
  rw [List.extract_eq_take_drop, List.take_of_length_le]
  rw [List.length_drop]
  omega

theorem take_eq_extract (xs : List α) (n : Nat) : xs.take n = xs.extract 0 n := by
  rw [List.extract_eq_take_drop, List.drop_zero, Nat.sub_zero]

/-! ### One merge -/

section Merge

variable {ask : Nat → α → α → Except ε Bool} {le : α → α → Bool} (blank : α) {source : List α}

/-- A block is written with the merge of its two halves. -/
theorem mergeFrom_eq_merge (hask : AnswersBy ask le source) {mid hi : Nat}
    (hhi : hi ≤ source.length) (left : Nat) {i j k : Nat} (hi' : i ≤ mid) (hmid : mid ≤ j)
    (hj : j ≤ hi) (hleft : left = mid - i + (hi - j)) (calls : Nat) {target : List α}
    (hk : k + left ≤ target.length) :
    ∃ calls', mergeFrom ask blank source mid hi left i j k calls target =
      .ok (target.take k ++ List.merge (source.extract i mid) (source.extract j hi) le ++
        target.drop (k + left), calls') := by
  induction left generalizing i j k calls target with
  | zero =>
    obtain ⟨rfl, rfl⟩ : i = mid ∧ j = hi := by omega
    refine ⟨calls, ?_⟩
    simp [mergeFrom, List.extract_eq_take_drop]
  | succ left ih =>
    have hset : ∀ v, (target.set k v).take (k + 1) = target.take k ++ [v] ∧
        (target.set k v).drop (k + 1 + left) = target.drop (k + (left + 1)) := by
      intro v
      refine ⟨?_, ?_⟩
      · rw [List.take_succ_eq_append_getElem (by rw [List.length_set]; omega),
          List.getElem_set_self, List.take_set_of_le (Nat.le_refl k)]
      · rw [List.drop_set_of_lt (by omega), show k + 1 + left = k + (left + 1) by omega]
    unfold mergeFrom takeLeft
    by_cases hspent : mid ≤ i
    · -- The left half is through.
      obtain rfl : i = mid := by omega
      obtain ⟨calls', hrest⟩ := ih hi' (show i ≤ j + 1 by omega) (by omega) (by omega) calls
        (show k + 1 + left ≤ (target.set k (source.getD j blank)).length by
          rw [List.length_set]
          omega)
      refine ⟨calls', ?_⟩
      rw [if_pos hspent]
      refine hrest.trans ?_
      obtain ⟨htake, hdrop⟩ := hset (source.getD j blank)
      have hempty : source.extract i i = [] := by simp [List.extract_eq_take_drop]
      rw [htake, hdrop, hempty, List.nil_merge, List.nil_merge,
        extract_cons source (show j < hi by omega) hhi blank]
      simp
    · rw [if_neg hspent]
      have hleftCons := extract_cons source (show i < mid by omega) (by omega) blank
      by_cases hdone : hi ≤ j
      · obtain rfl : j = hi := by omega
        obtain ⟨calls', hrest⟩ := ih (show i + 1 ≤ mid by omega) hmid hj (by omega) calls
          (show k + 1 + left ≤ (target.set k (source.getD i blank)).length by
            rw [List.length_set]
            omega)
        refine ⟨calls', ?_⟩
        rw [if_pos hdone]
        refine hrest.trans ?_
        obtain ⟨htake, hdrop⟩ := hset (source.getD i blank)
        have hempty : source.extract j j = [] := by simp [List.extract_eq_take_drop]
        rw [htake, hdrop, hempty, List.merge_right, List.merge_right, hleftCons]
        simp
      · rw [if_neg hdone]
        have hrightCons := extract_cons source (show j < hi by omega) hhi blank
        have hmem : ∀ n, n < source.length → source.getD n blank ∈ source := by
          intro n hn
          rw [List.getD_eq_getElem _ _ hn]
          exact List.getElem_mem hn
        rw [hask calls _ (hmem i (by omega)) _ (hmem j (by omega))]
        cases hle : le (source.getD i blank) (source.getD j blank) with
        | true =>
          obtain ⟨calls', hrest⟩ := ih (show i + 1 ≤ mid by omega) hmid hj (by omega)
            (calls + 1) (show k + 1 + left ≤ (target.set k (source.getD i blank)).length by
              rw [List.length_set]
              omega)
          refine ⟨calls', hrest.trans ?_⟩
          obtain ⟨htake, hdrop⟩ := hset (source.getD i blank)
          rw [htake, hdrop, hleftCons, hrightCons, List.cons_merge_cons_pos le _ _ hle]
          simp
        | false =>
          obtain ⟨calls', hrest⟩ := ih hi' (show mid ≤ j + 1 by omega) (by omega) (by omega)
            (calls + 1) (show k + 1 + left ≤ (target.set k (source.getD j blank)).length by
              rw [List.length_set]
              omega)
          refine ⟨calls', hrest.trans ?_⟩
          obtain ⟨htake, hdrop⟩ := hset (source.getD j blank)
          rw [htake, hdrop, hleftCons, hrightCons,
            List.cons_merge_cons_neg le _ _ (by rw [hle]; exact Bool.false_ne_true)]
          simp

/-- The positions up to the end of a block hold the merge of two blocks of the width. -/
theorem mergeBlock_eq_merge (hask : AnswersBy ask le source) (width : Nat) {lo : Nat}
    (hlo : lo < source.length) (calls : Nat) {target : List α}
    (hlen : target.length = source.length) :
    ∃ target' calls', mergeBlock ask blank source width source.length lo calls target =
        .ok (target', calls') ∧ target'.length = source.length ∧
      target'.take (lo + 2 * width) = target.take lo ++
        List.merge (source.extract lo (lo + width))
          (source.extract (lo + width) (lo + 2 * width)) le := by
  unfold mergeBlock
  set mid := if lo + width < source.length then lo + width else source.length with hmid
  set hi := if lo + 2 * width < source.length then lo + 2 * width else source.length with hhi
  have hbounds : lo ≤ mid ∧ mid ≤ hi ∧ hi ≤ source.length := by
    split at hmid <;> split at hhi <;> omega
  obtain ⟨calls', hmerge⟩ := mergeFrom_eq_merge blank hask hbounds.2.2 (hi - lo) hbounds.1
    (Nat.le_refl mid) hbounds.2.1 (by omega) calls (show lo + (hi - lo) ≤ target.length by omega)
  have hleft : source.extract lo mid = source.extract lo (lo + width) := by
    by_cases hlt : lo + width < source.length
    · rw [hmid, if_pos hlt]
    · rw [hmid, if_neg hlt, extract_end _ (Nat.le_refl _), extract_end _ (by omega)]
  have hright : source.extract mid hi = source.extract (lo + width) (lo + 2 * width) := by
    by_cases hlt : lo + width < source.length
    · rw [hmid, if_pos hlt]
      by_cases hlt' : lo + 2 * width < source.length
      · rw [hhi, if_pos hlt']
      · rw [hhi, if_neg hlt', extract_end _ (Nat.le_refl _), extract_end _ (by omega)]
    · have hend : mid = source.length := by rw [hmid, if_neg hlt]
      rw [hend, List.extract_eq_take_drop, List.extract_eq_take_drop,
        List.drop_eq_nil_of_le (by omega), List.drop_eq_nil_of_le (by omega)]
      simp
  rw [hleft, hright] at hmerge
  set merged := List.merge (source.extract lo (lo + width))
    (source.extract (lo + width) (lo + 2 * width)) le with hmerged
  have hlength : merged.length = hi - lo := by
    rw [hmerged, List.length_merge, ← hleft, ← hright, List.extract_eq_take_drop,
      List.extract_eq_take_drop, List.length_take, List.length_take, List.length_drop,
      List.length_drop]
    omega
  rw [show lo + (hi - lo) = hi by omega] at hmerge
  refine ⟨_, calls', hmerge, ?_, ?_⟩
  · rw [List.length_append, List.length_append, hlength, List.length_take, List.length_drop, hlen]
    omega
  · have hfront : (target.take lo ++ merged).length = hi := by
      rw [List.length_append, hlength, List.length_take, hlen]
      omega
    by_cases hlt : lo + 2 * width < source.length
    · rw [List.take_append_of_le_length (by rw [hfront, hhi, if_pos hlt]),
        List.take_of_length_le (by rw [hfront, hhi, if_pos hlt])]
    · have hend : hi = source.length := by rw [hhi, if_neg hlt]
      rw [List.drop_eq_nil_of_le (by omega), List.append_nil, List.take_of_length_le]
      omega

end Merge

/-! ### What is tied keeps its order -/

section Order

variable {le : α → α → Bool}

theorem tied_refl (htotal : ∀ x y, le x y || le y x) (x : α) : tied le x x = true := by
  simpa [tied] using htotal x x

theorem filter_tied_eq_nil (htrans : ∀ x y z, le x y → le y z → le x z) {a b x : α} {xs : List α}
    (hxs : (a :: xs).Pairwise fun x y => le x y = true) (hb : tied le x b = true)
    (hab : ¬le a b = true) : (a :: xs).filter (tied le x) = [] := by
  rw [List.filter_eq_nil_iff]
  intro c hc htied
  obtain ⟨hxb, -⟩ := Bool.and_eq_true_iff.1 hb
  obtain ⟨-, hcx⟩ := Bool.and_eq_true_iff.1 htied
  have hcb : le c b = true := htrans _ _ _ hcx hxb
  rcases List.mem_cons.1 hc with rfl | hmem
  · exact hab hcb
  · exact hab (htrans _ _ _ ((List.pairwise_cons.1 hxs).1 c hmem) hcb)

theorem filter_tied_merge (htrans : ∀ x y z, le x y → le y z → le x z) (x : α) :
    ∀ xs ys : List α, xs.Pairwise (fun x y => le x y = true) →
      (List.merge xs ys le).filter (tied le x) = xs.filter (tied le x) ++ ys.filter (tied le x)
  | [], ys, _ => by rw [List.nil_merge, List.filter_nil, List.nil_append]
  | a :: xs, [], _ => by rw [List.merge_right, List.filter_nil, List.append_nil]
  | a :: xs, b :: ys, hxs => by
    by_cases hab : le a b = true
    · rw [List.cons_merge_cons_pos _ _ _ hab, List.filter_cons, List.filter_cons (x := a),
        filter_tied_merge htrans x xs (b :: ys) (List.pairwise_cons.1 hxs).2]
      split <;> rfl
    · rw [List.cons_merge_cons_neg _ _ _ hab, List.filter_cons, List.filter_cons (x := b),
        filter_tied_merge htrans x (a :: xs) ys hxs]
      by_cases hb : tied le x b = true
      · rw [if_pos hb, if_pos hb, filter_tied_eq_nil htrans hxs hb hab, List.nil_append,
          List.nil_append]
      · rw [if_neg hb, if_neg hb]

theorem TiesKept.trans {xs ys zs : List α} (h : TiesKept le xs ys) (h' : TiesKept le ys zs) :
    TiesKept le xs zs :=
  fun x => (h' x).trans (h x)

theorem TiesKept.perm [DecidableEq α] (htotal : ∀ x y, le x y || le y x) {xs ys : List α}
    (h : TiesKept le xs ys) : ys.Perm xs := by
  rw [List.perm_iff_count]
  intro x
  have hself := tied_refl htotal x
  rw [← List.count_filter hself, ← List.count_filter (l := xs) hself, h x]

/-! ### A pass -/

theorem Runs.append {width : Nat} {xs ys : List α} (hxs : Runs le width xs)
    (hdvd : width ∣ xs.length) (hys : ys.Pairwise fun x y => le x y = true) : Runs le width
    (xs ++ ys) := by
  intro n hn
  by_cases hlt : n < xs.length
  · have hle : n + width ≤ xs.length := by
      have := Nat.le_of_dvd (by omega) (Nat.dvd_sub hdvd hn)
      omega
    have hinside : (xs ++ ys).extract n (n + width) = xs.extract n (n + width) := by
      rw [List.extract_eq_take_drop, List.extract_eq_take_drop,
        List.drop_append_of_le_length (by omega), List.take_append_of_le_length
          (by rw [List.length_drop]; omega)]
    rw [hinside]
    exact hxs n hn
  · rw [List.extract_eq_take_drop, List.drop_append, List.drop_eq_nil_of_le (by omega),
      List.nil_append]
    exact (hys.sublist (List.drop_sublist _ _)).sublist (List.take_sublist _ _)

theorem Runs.pairwise {width : Nat} {xs : List α} (hruns : Runs le width xs)
    (hwidth : xs.length ≤ width) : xs.Pairwise fun x y => le x y = true := by
  have hall := hruns 0 (Nat.dvd_zero _)
  rwa [Nat.zero_add, ← take_eq_extract, List.take_of_length_le hwidth] at hall

theorem runs_one (xs : List α) : Runs le 1 xs := by
  intro n _
  rw [List.extract_eq_take_drop, Nat.add_sub_cancel_left]
  cases xs.drop n with
  | nil => exact List.Pairwise.nil
  | cons x rest => exact List.pairwise_singleton _ _

/-- What a pass has written up to a block: blocks of twice the width in order, with the
ties of what was read. -/
structure Ordering (le : α → α → Bool) (width : Nat) (source target : List α) (lo : Nat) :
    Prop where
  length : target.length = source.length
  ties : TiesKept le (source.take lo) (target.take lo)
  runs : Runs le (2 * width) (target.take lo)

section Passes

variable {ask : Nat → α → α → Except ε Bool} (blank : α) {source target : List α} {width lo : Nat}

section

variable (htrans : ∀ x y z, le x y → le y z → le x z)
include htrans

section

variable (htotal : ∀ x y, le x y || le y x)
include htotal

theorem Ordering.block (hask : AnswersBy ask le source)
    (ho : Ordering le width source target lo) (hruns : Runs le width source)
    (hdvd : 2 * width ∣ lo) (hlo : lo < source.length) (calls : Nat) :
    ∃ target' calls', mergeBlock ask blank source width source.length lo calls target =
      .ok (target', calls') ∧ Ordering le width source target' (lo + 2 * width) := by
  obtain ⟨target', calls', hrun, hlength, htake⟩ :=
    mergeBlock_eq_merge blank hask width hlo calls ho.length
  refine ⟨target', calls', hrun, hlength, fun x => ?_, ?_⟩
  · have hread : source.take (lo + 2 * width) = source.take lo ++
        (source.extract lo (lo + width) ++ source.extract (lo + width) (lo + 2 * width)) := by
      rw [← extract_append source (by omega) (by omega), take_eq_extract, take_eq_extract]
      exact extract_append source (Nat.zero_le lo) (by omega)
    rw [htake, hread, List.filter_append, List.filter_append, List.filter_append, ho.ties x,
      filter_tied_merge htrans x _ _ (hruns lo (Dvd.dvd.trans (Nat.dvd_mul_left width 2) hdvd))]
  · rw [htake]
    have hfront : (target.take lo).length = lo := by
      rw [List.length_take, ho.length]
      omega
    refine ho.runs.append (by rw [hfront]; exact hdvd) ?_
    refine List.pairwise_merge htrans htotal _ _
      (hruns lo (Dvd.dvd.trans (Nat.dvd_mul_left width 2) hdvd)) ?_
    have hsecond := hruns (lo + width)
      (Nat.dvd_add (Dvd.dvd.trans (Nat.dvd_mul_left width 2) hdvd) (Nat.dvd_refl _))
    rwa [show lo + 2 * width = lo + width + width by omega]

theorem Ordering.blocks (hask : AnswersBy ask le source)
    (hruns : Runs le width source) (n : Nat) (ho : Ordering le width source target lo)
    (hdvd : 2 * width ∣ lo) (hn : lo + n * (2 * width) < source.length + 2 * width) (calls : Nat) :
    ∃ target' calls', mergeBlocks ask blank source width source.length
        (List.range' lo n (2 * width)) calls target = .ok (target', calls') ∧
      Ordering le width source target' (lo + n * (2 * width)) := by
  induction n generalizing lo calls target with
  | zero =>
    refine ⟨target, calls, by simp [mergeBlocks], ?_⟩
    rwa [Nat.zero_mul, Nat.add_zero]
  | succ n ih =>
    rw [Nat.succ_mul] at hn
    obtain ⟨target', calls', hrun, ho'⟩ :=
      ho.block blank htrans htotal hask hruns hdvd (by omega) calls
    obtain ⟨target'', calls'', hrest, ho''⟩ :=
      ih ho' (Nat.dvd_add hdvd (Nat.dvd_refl _)) (by omega) calls'
    refine ⟨target'', calls'', ?_, ?_⟩
    · rw [List.range'_succ]
      unfold mergeBlocks
      rw [hrun]
      exact hrest
    · rwa [Nat.succ_mul, Nat.add_comm (n * _), ← Nat.add_assoc]

/-- A pass doubles the width of the ordered blocks. -/
theorem pass_ordered
    (hask : AnswersBy ask le source) (hruns : Runs le width source) (hwidth : 0 < width)
    (hlen : target.length = source.length) (calls : Nat) :
    ∃ target' calls', mergeBlocks ask blank source width source.length
        (MergePasses.blocks width source.length) calls target = .ok (target', calls') ∧
      target'.length = source.length ∧ TiesKept le source target' ∧
        Runs le (2 * width) target' := by
  have hdiv := Nat.div_add_mod (source.length + 2 * width - 1) (2 * width)
  have hmod := Nat.mod_lt (source.length + 2 * width - 1) (show 0 < 2 * width by omega)
  rw [Nat.mul_comm] at hdiv
  have hstart : Ordering le width source target 0 :=
    { length := hlen
      ties := fun x => by rw [List.take_zero, List.take_zero]
      runs := fun n _ => by simp [List.extract_eq_take_drop] }
  obtain ⟨target', calls', hrun, ho⟩ := hstart.blocks blank htrans htotal hask hruns
    ((source.length + 2 * width - 1) / (2 * width)) (Nat.dvd_zero _) (by omega) calls
  refine ⟨target', calls', hrun, ho.length, ?_, ?_⟩
  · have hties := ho.ties
    rwa [List.take_of_length_le (by omega),
      List.take_of_length_le (by rw [ho.length]; omega)] at hties
  · have hruns' := ho.runs
    rwa [List.take_of_length_le (by rw [ho.length]; omega)] at hruns'

/-- The passes come back with the list in order, and what is tied as it stood. -/
theorem mergePasses_ordered [DecidableEq α] (fuel : Nat) (hwidth : 0 < width)
    (hask : AnswersBy ask le source) (hruns : Runs le width source)
    (hlen : target.length = source.length) (hfuel : source.length ≤ 2 ^ fuel * width)
    (intoOwn : Bool) (calls : Nat) :
    ∃ ordered,
      mergePasses ask blank source.length fuel width intoOwn calls source target = .ok ordered ∧
      (ordered.Pairwise fun x y => le x y = true) ∧ TiesKept le source ordered := by
  induction fuel generalizing width intoOwn calls source target with
  | zero => exact ⟨source, rfl, hruns.pairwise (by simpa using hfuel), fun x => rfl⟩
  | succ fuel ih =>
    unfold mergePasses
    split
    · obtain ⟨target', calls', hrun, hlength, hties, hruns'⟩ :=
        pass_ordered blank htrans htotal hask hruns hwidth hlen calls
      rw [hrun]
      have hask' : AnswersBy ask le target' := fun calls x hx y hy =>
        hask calls x ((hties.perm htotal).mem_iff.1 hx) y ((hties.perm htotal).mem_iff.1 hy)
      have hwide : target'.length ≤ 2 ^ fuel * (2 * width) := by
        rw [hlength, ← Nat.mul_assoc, ← Nat.pow_succ]
        exact hfuel
      obtain ⟨ordered, hpasses, hordered, hties'⟩ := ih (by omega) hask' hruns' hlength.symm
        hwide (!intoOwn) calls'
      rw [hlength] at hpasses
      exact ⟨ordered, hpasses, hordered, hties.trans hties'⟩
    · next hwide => exact ⟨source, rfl, hruns.pairwise (by omega), fun x => rfl⟩

end

end

end Passes

end Order

end MergePasses
