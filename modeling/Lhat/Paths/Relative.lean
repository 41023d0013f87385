import Lhat.Paths.Folding
import Mathlib

/-!
# There and back

The path from one unit to another climbs out of the directories the two do not share, and
goes down into the rest (`relativePath_eq`). Read where it was written it leads back, unless
it climbs nowhere and its first segment is taken for something else: a `$` in front for the
root of the project, a `:` behind the first byte for a drive (`resolves_back_iff`).
-/

namespace Lhat.Paths

open Lexing (Text text ascii)
open Cancelling

variable {d s t : Text} {root : Text} {segs segs' : List Text}

/-! ### The directory of a unit -/

theorem directory_append (a : Text) (hs : ∀ c ∈ s, isSeparator c = false) :
    directory (a ++ s) = directory a := by
  rw [directory, directory, List.reverse_append,
    List.dropWhile_append_of_pos fun c hc => by simp [hs c (List.mem_reverse.1 hc)]]

theorem directory_slash (a : Text) : directory (a ++ [ascii '/']) = a ++ [ascii '/'] := by
  simp [directory, isSeparator_slash]

theorem dirs_append (segs segs' : List Text) : dirs (segs ++ segs') = dirs segs ++ dirs segs' :=
  List.flatMap_append

theorem dirs_cons (s : Text) (segs : List Text) : dirs (s :: segs) = s ++ ascii '/' :: dirs segs := by
  simp [dirs]

theorem directory_dirs (hroot : root = [] ∨ root = [ascii '/']) (segs : List Text) :
    directory (root ++ dirs segs) = root ++ dirs segs := by
  rcases List.eq_nil_or_concat segs with rfl | ⟨init, s, rfl⟩
  · rcases hroot with rfl | rfl <;> decide
  · have hlast : root ++ dirs (init.concat s) = (root ++ dirs init ++ s) ++ [ascii '/'] := by
      rw [List.concat_eq_append, dirs_append, dirs_cons]
      simp [dirs]
    rw [hlast, directory_slash]

theorem directory_spell (hroot : root = [] ∨ root = [ascii '/']) (hclean : ∀ s ∈ segs, Clean s) :
    directory (root ++ spell segs) = root ++ dirs segs.dropLast := by
  rcases List.eq_nil_or_concat segs with rfl | ⟨init, s, rfl⟩
  · exact directory_dirs hroot []
  · have hs : Clean s := hclean s (by simp)
    rw [List.concat_eq_append, List.dropLast_concat, spell_concat, ← List.append_assoc,
      directory_append _ hs.plain, directory_dirs hroot]

/-! ### The prefix the two have in common -/

theorem plain_ne_slash {c : UInt8} (hc : isSeparator c = false) : c ≠ ascii '/' := by
  rintro rfl
  exact absurd hc (by decide)

theorem commonPrefix_same (hd : ∀ c ∈ d, isSeparator c = false) (dir other : Text) (i common : Nat) :
    commonPrefix (d ++ ascii '/' :: dir) (d ++ ascii '/' :: other) i common =
      commonPrefix dir other (i + d.length + 1) (i + d.length + 1) := by
  induction d generalizing i with
  | nil => simp [commonPrefix, isSeparator_slash]
  | cons c d ih =>
    have hc := hd c List.mem_cons_self
    simp only [List.cons_append, commonPrefix, hc, Bool.false_and, Bool.false_eq_true, if_false,
      ne_eq, not_true_eq_false]
    rw [ih fun c hc => hd c (.tail _ hc)]
    simp only [List.length_cons]
    congr 1 <;> omega

theorem commonPrefix_stops (hd : ∀ c ∈ d, isSeparator c = false)
    (hs : ∀ c ∈ s, isSeparator c = false) {other : Text}
    (hother : other = [] ∨ d ≠ s ∧ ∃ rest, other = ascii '/' :: rest) (dir : Text) (i common : Nat) :
    (commonPrefix (d ++ ascii '/' :: dir) (s ++ other) i common).2 = common ∧
      (commonPrefix (d ++ ascii '/' :: dir) (s ++ other) i common).1 ≤ i + d.length := by
  induction d generalizing s i with
  | nil =>
    cases s with
    | nil =>
      rcases hother with rfl | ⟨hne, -⟩
      · exact ⟨rfl, Nat.le_refl _⟩
      · exact absurd rfl hne
    | cons x s =>
      have hx := hs x List.mem_cons_self
      simp [commonPrefix, hx, (plain_ne_slash hx).symm]
  | cons y d ih =>
    have hy := hd y List.mem_cons_self
    cases s with
    | nil =>
      rcases hother with rfl | ⟨-, rest, rfl⟩
      · exact ⟨rfl, Nat.le_add_right _ _⟩
      · simp [commonPrefix, hy, plain_ne_slash hy]
    | cons x s =>
      simp only [List.cons_append, commonPrefix, hy, Bool.false_and, Bool.false_eq_true, if_false]
      by_cases hxy : y = x
      · subst hxy
        simp only [ne_eq, not_true_eq_false, if_false, List.length_cons]
        obtain ⟨hcommon, hle⟩ := ih (s := s) (fun c hc => hd c (.tail _ hc))
          (fun c hc => hs c (.tail _ hc))
          (hother.imp_right fun h => ⟨fun heq => h.1 (heq ▸ rfl), h.2⟩) (i + 1)
        exact ⟨hcommon, by omega⟩
      · simp [hxy]

/-- The directory's segments are shared or its own, and what is common ends behind those that
are shared. Where it has segments of its own the loop ends before its end. -/
structure Shared (segs segs' shared own rest : List Text) (i : Nat) : Prop where
  left : segs = shared ++ own
  right : segs' = shared ++ rest
  spelled : spell segs' = dirs shared ++ spell rest
  common : (commonPrefix (dirs segs) (spell segs') i i).2 = i + (dirs shared).length
  ends : own ≠ [] → (commonPrefix (dirs segs) (spell segs') i i).1 < i + (dirs segs).length

theorem commonPrefix_whole (dir more : Text) (i common : Nat) :
    (commonPrefix dir (dir ++ more) i common).1 = i + dir.length := by
  induction dir generalizing i common with
  | nil => simp [commonPrefix]
  | cons c dir ih =>
    rw [List.cons_append, commonPrefix, List.length_cons]
    split
    · rw [ih]
      omega
    · rw [if_neg (by simp), ih]
      omega

theorem Shared.own_nil {shared own rest : List Text} {i : Nat} (h : Shared segs segs' shared own rest i)
    {more : Text} (hmore : spell segs' = dirs segs ++ more) : own = [] := by
  by_contra hown
  have hends := h.ends hown
  rw [hmore, commonPrefix_whole] at hends
  omega

theorem Shared.stopped (hd : Clean d) (hs : ∀ c ∈ s, isSeparator c = false) {other : Text}
    (hspell : spell segs' = s ++ other)
    (hother : other = [] ∨ d ≠ s ∧ ∃ rest, other = ascii '/' :: rest) (i : Nat) :
    Shared (d :: segs) segs' [] (d :: segs) segs' i := by
  obtain ⟨hcommon, hle⟩ := commonPrefix_stops hd.plain hs hother (dirs segs) i i
  rw [← hspell, ← dirs_cons] at hcommon hle
  refine ⟨rfl, rfl, rfl, hcommon, fun _ => ?_⟩
  have hlength : (dirs (d :: segs)).length = d.length + ((dirs segs).length + 1) := by
    rw [dirs_cons, List.length_append, List.length_cons]
  omega

theorem Shared.cons {t : Text} {shared own rest : List Text} {i : Nat} (hd : Clean d)
    (h : Shared segs (t :: segs') shared own rest (i + d.length + 1)) :
    Shared (d :: segs) (d :: t :: segs') (d :: shared) own rest i := by
  have hlength : ∀ segs, (dirs (d :: segs)).length = d.length + 1 + (dirs segs).length := by
    intro segs
    rw [dirs_cons, List.length_append, List.length_cons]
    omega
  have hloop := commonPrefix_same hd.plain (dirs segs) (spell (t :: segs')) i i
  rw [← dirs_cons, ← spell_cons_cons] at hloop
  refine ⟨by rw [h.left, List.cons_append], by rw [h.right, List.cons_append], ?_, ?_, ?_⟩
  · rw [spell_cons_cons, h.spelled, dirs_cons]
    simp
  · rw [hloop, h.common, hlength]
    omega
  · intro hown
    have hends := h.ends hown
    rw [hloop, hlength]
    omega

theorem commonPrefix_dirs (hclean : ∀ s ∈ segs, Clean s) (hclean' : ∀ s ∈ segs', Clean s) (i : Nat) :
    ∃ shared own rest, Shared segs segs' shared own rest i := by
  induction segs generalizing segs' i with
  | nil => exact ⟨[], [], segs', rfl, rfl, rfl, by simp [dirs, commonPrefix], by simp⟩
  | cons d segs ih =>
    have hd := hclean d List.mem_cons_self
    cases segs' with
    | nil => exact ⟨_, _, _, Shared.stopped (s := []) hd (by simp) rfl (.inl rfl) i⟩
    | cons s segs' =>
      have hs := hclean' s List.mem_cons_self
      cases segs' with
      | nil =>
        have hspell : spell [s] = s ++ [] := by simp [spell]
        exact ⟨_, _, _, Shared.stopped hd hs.plain hspell (.inl rfl) i⟩
      | cons t segs' =>
        by_cases heq : d = s
        · subst heq
          obtain ⟨shared, own, rest, h⟩ := ih (fun s hs => hclean s (.tail _ hs))
            (fun s hs => hclean' s (.tail _ hs)) (i + d.length + 1)
          exact ⟨_, _, _, h.cons hd⟩
        · exact ⟨_, _, _, Shared.stopped hd hs.plain (spell_cons_cons s t segs')
            (.inr ⟨heq, _, rfl⟩) i⟩

/-! ### The way written down -/

theorem countP_dirs (hclean : ∀ s ∈ segs, Clean s) : (dirs segs).countP isSeparator = segs.length := by
  induction segs with
  | nil => rfl
  | cons s segs ih =>
    have hs : s.countP isSeparator = 0 :=
      List.countP_eq_zero.2 fun c hc => by simp [(hclean s List.mem_cons_self).plain c hc]
    rw [dirs_cons, List.countP_append, List.countP_cons, ih fun t ht => hclean t (.tail _ ht)]
    simp [hs, isSeparator_slash]

theorem dirs_up (n : Nat) : dirs (List.replicate n up) = (List.replicate n (text "../")).flatten := by
  have hup : up ++ [ascii '/'] = text "../" := by decide_cbv
  simp [dirs, List.flatMap_replicate, hup]

theorem commonPrefix_root (hroot : root = [] ∨ root = [ascii '/']) (dir other : Text) :
    commonPrefix (root ++ dir) (root ++ other) 0 0 =
      commonPrefix dir other root.length root.length := by
  rcases hroot with rfl | rfl
  · rfl
  · simp [commonPrefix, isSeparator_slash]

theorem relativePath_eq (hroot : root = [] ∨ root = [ascii '/']) (hclean : ∀ s ∈ segs, Clean s)
    (hclean' : ∀ s ∈ segs', Clean s) :
    ∃ shared own rest, segs.dropLast = shared ++ own ∧ segs' = shared ++ rest ∧
      spell segs' = dirs shared ++ spell rest ∧
      (∀ more, spell segs' = dirs segs.dropLast ++ more → own = []) ∧
      relativePath (root ++ spell segs) (root ++ spell segs') =
        dirs (List.replicate own.length up) ++ spell rest := by
  have hdir : ∀ s ∈ segs.dropLast, Clean s := fun s hs => hclean s (List.mem_of_mem_dropLast hs)
  obtain ⟨shared, own, rest, h⟩ := commonPrefix_dirs hdir hclean' root.length
  refine ⟨shared, own, rest, h.left, h.right, h.spelled, fun _ => h.own_nil, ?_⟩
  have hown : ∀ s ∈ own, Clean s := fun s hs => hdir s (h.left ▸ List.mem_append_right _ hs)
  have hcut : (root ++ dirs segs.dropLast).drop (root.length + (dirs shared).length) = dirs own := by
    rw [h.left, dirs_append, ← List.append_assoc, List.drop_left' (by simp)]
  have hrest : (root ++ spell segs').drop (root.length + (dirs shared).length) = spell rest := by
    rw [h.spelled, ← List.append_assoc, List.drop_left' (by simp)]
  rw [relativePath, directory_spell hroot hclean, commonPrefix_root hroot]
  simp only [h.common]
  have hcommon : ∀ c : Prop, [Decidable c] →
      (if (commonPrefix (dirs segs.dropLast) (spell segs') root.length root.length).1 =
          (root ++ dirs segs.dropLast).length ∧ c then (root ++ dirs segs.dropLast).length
        else root.length + (dirs shared).length) = root.length + (dirs shared).length := by
    intro c _
    by_cases hend : own = []
    · rw [h.left, hend, List.append_nil, List.length_append, ite_self]
    · have hends := h.ends hend
      rw [if_neg fun hc => by rw [List.length_append] at hc; omega]
  rw [hcommon, hcut, hrest, countP_dirs hown, dirs_up]

/-! ### And back -/

theorem kept_dirs (hclean : ∀ s ∈ segs, Clean s) (rest : Text) :
    kept (dirs segs ++ rest) = segs ++ kept rest := by
  induction segs with
  | nil => rfl
  | cons s segs ih =>
    have hs := hclean s List.mem_cons_self
    rw [dirs_cons, List.append_assoc, List.cons_append, kept_slash, hs.kept_eq,
      ih fun t ht => hclean t (.tail _ ht)]
    rfl

theorem rootOf_dirs (hclean : ∀ s ∈ segs, Clean s) (hclean' : ∀ s ∈ segs', Clean s) :
    rootOf (dirs segs ++ spell segs') = [] := by
  cases segs with
  | nil => exact rootOf_spell hclean'
  | cons s segs =>
    have hs := hclean s List.mem_cons_self
    obtain ⟨c, rest, rfl⟩ := List.exists_cons_of_ne_nil hs.ne_nil
    simp [dirs_cons, rootOf, hs.plain c List.mem_cons_self]

theorem normalisePath_dirs (hroot : root = [] ∨ root = [ascii '/']) (hclean : ∀ s ∈ segs, Clean s)
    (hclean' : ∀ s ∈ segs', Clean s) : normalisePath (root ++ (dirs segs ++ spell segs')) =
      root ++ spell ((segs ++ segs').foldl (strike up) []).reverse := by
  have hrootOf : rootOf (root ++ (dirs segs ++ spell segs')) = root := by
    rcases hroot with rfl | rfl
    · exact rootOf_dirs hclean hclean'
    · simp [rootOf, isSeparator_slash]
  rw [normalisePath_eq, hrootOf, List.drop_left, kept_dirs hclean, kept_spell hclean']

theorem strikes_there_and_back {shared own rest : List Text} (hown : Steady (shared ++ own))
    (hrest : Steady (shared ++ rest)) :
    ((shared ++ own ++ List.replicate own.length up ++ rest).foldl (strike up) []).reverse =
      shared ++ rest := by
  have hback : (shared ++ own ++ List.replicate own.length up).foldl (strike up) [] =
      shared.foldl (strike up) [] := by
    rw [List.foldl_append, strikes_of_tail hown.names, List.reverse_append,
      ← List.length_reverse, strikes_back, strikes_of_tail hrest.of_append.names]
  rw [List.foldl_append, hback, ← List.foldl_append, hrest.strikes]

/-- The way begins in the directory of the unit it is written in, and with what is read as
something else: a `$`, or where there is a directory a byte and a `:`. -/
def Escapes (source target : Text) : Prop :=
  ∃ rest, target = directory source ++ rest ∧ (rest.head? = some (ascii '$') ∨
    directory source ≠ [] ∧ rest[1]? = some (ascii ':'))

theorem absolutePath_iff {rest : Text} (hrest : rootOf rest = []) :
    absolutePath rest = true ↔ rest[1]? = some (ascii ':') := by
  cases rest with
  | nil => simp [absolutePath]
  | cons c rest =>
    have hc : isSeparator c = false := by
      by_contra hc
      simp [rootOf, hc] at hrest
    simp [absolutePath, hc, List.head?_eq_getElem?]

theorem climbs_plain {n : Nat} (hn : n ≠ 0) (rest : Text) :
    (dirs (List.replicate n up) ++ rest).head? ≠ some (ascii '$') ∧
      absolutePath (dirs (List.replicate n up) ++ rest) = false := by
  obtain ⟨n, rfl⟩ := Nat.exists_eq_succ_of_ne_zero hn
  have hup : up = [ascii '.', ascii '.'] := by decide_cbv
  rw [List.replicate_succ, dirs_cons, hup]
  exact ⟨by simp; decide, by simp [absolutePath]; decide⟩

theorem resolves_back_iff (hroot : root = [] ∨ root = [ascii '/']) (hsource : Steady segs)
    (htarget : Steady segs') :
    (∀ projectRoot, prgResolveAgainst projectRoot (some (root ++ spell segs))
      (relativePath (root ++ spell segs) (root ++ spell segs')) = some (root ++ spell segs')) ↔
      ¬ Escapes (root ++ spell segs) (root ++ spell segs') := by
  obtain ⟨shared, own, rest, hleft, hright, hspell, hwhole, hway⟩ :=
    relativePath_eq hroot hsource.clean htarget.clean
  have hsteady : Steady (shared ++ own) := by
    rw [← hleft]
    rcases List.eq_nil_or_concat segs with rfl | ⟨init, s, rfl⟩
    · exact hsource
    · rw [List.concat_eq_append] at hsource ⊢
      rw [List.dropLast_concat]
      exact hsource.of_append
  have hrest : Steady (shared ++ rest) := hright ▸ htarget
  have hdir : directory (root ++ spell segs) = root ++ dirs (shared ++ own) := by
    rw [directory_spell hroot hsource.clean, hleft]
  -- read in the directory of the source
  have hback : normalisePath (directory (root ++ spell segs) ++
      (dirs (List.replicate own.length up) ++ spell rest)) = root ++ spell segs' := by
    have hclean : ∀ s ∈ shared ++ own ++ List.replicate own.length up, Clean s := by
      intro s hs
      rcases List.mem_append.1 hs with hs | hs
      · exact hsteady.clean s hs
      · exact List.eq_of_mem_replicate hs ▸ up_clean
    have h := normalisePath_dirs hroot hclean hrest.behind.clean
    rw [strikes_there_and_back hsteady hrest, ← hright, dirs_append] at h
    rw [hdir]
    simpa only [List.append_assoc] using h
  by_cases hown : own = []
  · subst hown
    rw [List.append_nil] at hdir
    have hway' : relativePath (root ++ spell segs) (root ++ spell segs') = spell rest := hway
    have htext : root ++ spell segs' = directory (root ++ spell segs) ++ spell rest := by
      rw [hdir, hspell, List.append_assoc]
    have hback' : normalisePath (directory (root ++ spell segs) ++ spell rest) =
        root ++ spell segs' := hback
    have habsolute := absolutePath_iff (rootOf_spell hrest.behind.clean)
    rw [hway']
    constructor
    · rintro hresolves ⟨more, hmore, hbad⟩
      obtain rfl : spell rest = more := List.append_cancel_left (htext.symm.trans hmore)
      have hnone := hresolves none
      rw [prgResolveAgainst] at hnone
      split at hnone
      · simp at hnone
      · rename_i hdollar
        obtain ⟨hne, hcolon⟩ := hbad.resolve_left hdollar
        have hself := normalisePath_steady (.inl rfl) hrest.behind
        rw [if_pos (habsolute.2 hcolon)] at hnone
        have hsame : [] ++ spell rest = directory (root ++ spell segs) ++ spell rest :=
          hself.symm.trans ((Option.some.inj hnone).trans htext)
        exact hne (List.append_cancel_right hsame).symm
    · intro hplain projectRoot
      rw [prgResolveAgainst, if_neg fun h => hplain ⟨_, htext, .inl h⟩]
      by_cases habs : absolutePath (spell rest) = true
      · have hnil : directory (root ++ spell segs) = [] := by
          by_contra hne
          exact hplain ⟨_, htext, .inr ⟨hne, habsolute.1 habs⟩⟩
        rw [hnil] at hback'
        simpa [habs] using hback'
      · simpa [habs] using hback'
  · obtain ⟨hdollar, habsolute⟩ :=
      climbs_plain (n := own.length) (by simpa using hown) (spell rest)
    refine iff_of_true (fun projectRoot => ?_) ?_
    · rw [hway, prgResolveAgainst, if_neg hdollar]
      simpa [habsolute] using hback
    · rintro ⟨more, hmore, -⟩
      rw [directory_spell hroot hsource.clean, List.append_assoc, List.append_cancel_left_eq] at hmore
      exact hown (hwhole more hmore)

/-! ### Units and their paths -/

/-- Two paths have one unit exactly where they fold to the same, but for pairs that climb to
places of one parity; a path is written as it folds exactly where it climbs once at most; and
what is recorded of one unit in another leads back to it exactly where nothing escapes. -/
theorem paths_right (p q : Text) :
    (normalisePath p = canonicalPath p ↔ (folding p).climbs ≤ 1) ∧
    normalisePath (normalisePath p) = normalisePath p ∧
    ((normalisePath p = normalisePath q → rootOf p = rootOf q ∧ folding p = folding q) ↔
      ¬ (rootOf p = rootOf q ∧ (folding p).names = (folding q).names ∧
        (folding p).climbs % 2 = (folding q).climbs % 2 ∧
        (folding p).climbs ≠ (folding q).climbs)) ∧
    (normalisePath p = p → normalisePath q = q → rootOf p = rootOf q →
      ((∀ projectRoot, prgResolveAgainst projectRoot (some p) (relativePath p q) =
        some q) ↔ ¬ Escapes p q)) := by
  refine ⟨normalisePath_canonical_iff p, normalisePath_normalisePath p, ?_,
    fun hp hq hroot => ?_⟩
  · rw [normalisePath_eq_iff]
    constructor
    · rintro h ⟨hroot, hnames, hparity, hclimbs⟩
      exact hclimbs (congrArg Left.climbs (h ⟨hroot, hnames, hparity⟩).2)
    · rintro h ⟨hroot, hnames, hparity⟩
      refine ⟨hroot, Left.ext ?_ hnames⟩
      by_contra hclimbs
      exact h ⟨hroot, hnames, hparity, hclimbs⟩
  · rw [← hp, normalisePath_left, ← hq, normalisePath_left, ← hroot]
    exact resolves_back_iff (rootOf_cases p) (written_steady p) (written_steady q)

theorem paths_right_sibling : (∀ projectRoot, prgResolveAgainst projectRoot
      (some (text "lib/a.lh")) (relativePath (text "lib/a.lh") (text "library/b.lh")) =
        some (text "library/b.lh")) ↔ ¬ Escapes (text "lib/a.lh") (text "library/b.lh") :=
  (paths_right _ _).2.2.2 (by decide_cbv) (by decide_cbv) (by decide_cbv)

/-- A second climb takes back the first, and what a `$` begins is not found again. -/
theorem climbs_lost : canonicalPath (text "../../a") = text "../../a" ∧
    normalisePath (text "../../a") = text "a" ∧ normalisePath (text "a") = text "a" ∧
    folding (text "../../a") ≠ folding (text "a") ∧
    normalisePath (text "lib/$b") = text "lib/$b" ∧
    prgResolveAgainst none (some (text "lib/a")) (relativePath (text "lib/a") (text "lib/$b")) =
      none := by
  refine ⟨by decide_cbv, by decide_cbv, by decide_cbv, ?_, by decide_cbv,
    by decide_cbv⟩
  exact fun h => absurd (congrArg Left.climbs h) (by decide_cbv)

end Lhat.Paths
