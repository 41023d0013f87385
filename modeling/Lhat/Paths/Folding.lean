import Lhat.Lexing.Token
import Lhat.Foundation.Cancelling

/-!
# Paths of units

A unit is known by its path, and two spellings of one path have to arrive at the same
string (`normalisePath`). A `require^` is written relative to the unit it stands in
(`prgResolveAgainst`), and a bytecode file records the units it needs relative to its own
(`relativePath`). A path is the bytes of a string of C. Memory is taken to be there.
-/

namespace Lhat.Paths

open Lexing (Text text ascii)

def isSeparator (c : UInt8) : Bool := c = ascii '/' || c = ascii '\\'

/-! ### One spelling -/

/-- What `normalise_path` has written, and where the segments in it start, the last one first. -/
structure Written where
  out : Text
  starts : List Nat

/-- There is nothing to add for it. -/
def passedOver (s : Text) : Bool := s = [] || s = text "."

namespace Written

/-- The separator in front of the next segment, unless one is there already. -/
def lead (root : Nat) (out : Text) : Text :=
  if root < out.length then out ++ [ascii '/'] else out

/-- A segment is read: nothing is added for an empty one or a `.`, a `..` goes back to the start
of the last one, and any other is written. -/
def segment (root : Nat) (w : Written) (s : Text) : Written :=
  if passedOver s then w
  else match w.starts with
    | start :: starts =>
      if s = text ".." then
        let out := w.out.take start
        ⟨if root < out.length then out.dropLast else out, starts⟩
      else ⟨lead root w.out ++ s, (lead root w.out).length :: start :: starts⟩
    | [] => ⟨lead root w.out ++ s, [(lead root w.out).length]⟩

end Written

/-- The text before a separator and the text behind it, as often as there is one: what the
loop reads segment after segment, the last one ended by the end of the path. -/
def segments (path : Text) : List Text := path.splitOnP isSeparator

/-- The separator a path begins with is kept, and is the floor `..` cannot step below. -/
def rootOf : Text → Text
  | [] => []
  | c :: _ => if isSeparator c then [ascii '/'] else []

/-- `normalise_path`. -/
def normalisePath (path : Text) : Text :=
  let root := (rootOf path).length
  ((segments (path.drop root)).foldl (Written.segment root) ⟨rootOf path, []⟩).out

/-! ### Against the unit that wrote it -/

/-- `absolute_path`. -/
def absolutePath : Text → Bool
  | [] => false
  | c :: rest => isSeparator c || rest.head? = some (ascii ':')

/-- Through the last separator. -/
def directory (path : Text) : Text := (path.reverse.dropWhile fun c => !isSeparator c).reverse

/-- `prg_resolve_against`. There is no project root where there is no program, or where it was
given none, and then a path that begins with `$` has no answer. -/
def prgResolveAgainst (projectRoot : Option Text) (base : Option Text) (relative : Text) :
    Option Text :=
  if relative.head? = some (ascii '$') then
    projectRoot.map fun root =>
      let joined := if root ≠ [] ∧ root.getLast? ≠ some (ascii '/') then root ++ [ascii '/'] else root
      normalisePath (joined ++ relative.drop 1)
  else
    let base := if absolutePath relative then none else base
    some (normalisePath (base.elim [] directory ++ relative))

/-! ### Relative to the unit it is written in -/

/-- The loop over the directory and the other path: how far it comes, and the common prefix cut
back to the end of a segment. -/
def commonPrefix : Text → Text → Nat → Nat → Nat × Nat
  | f :: dir, t :: other, i, common =>
    if isSeparator f && isSeparator t then commonPrefix dir other (i + 1) (i + 1)
    else if f ≠ t then (i, common)
    else commonPrefix dir other (i + 1) common
  | _, _, i, common => (i, common)

/-- `relative_path`. -/
def relativePath (source target : Text) : Text :=
  let dir := directory source
  let (i, common) := commonPrefix dir target 0 0
  let common := if i = dir.length ∧ ((target.drop i).head?.elim true isSeparator : Bool) then dir.length
    else common
  let ups := (dir.drop common).countP isSeparator
  (List.replicate ups (text "../")).flatten ++ target.drop common

example : normalisePath (text "a/./b//../c\\d") = text "a/c/d" := by decide_cbv

example : normalisePath (text "/../a") = text "/../a" := by decide_cbv

example : relativePath (text "lib/a.lh") (text "library/b.lh") = text "../library/b.lh" := by decide_cbv

end Lhat.Paths

/-!
# What a path is folded to

Of the segments of a path the empty ones and each `.` are passed over. What is written is what
is left of the others when `..` takes back whatever stands before it, a `..` that was kept
included (`normalisePath_eq`). So of the climbs of the folded path only the parity is written
(`normalisePath_left`), and a path that was written is written again as it is
(`normalisePath_normalisePath`).
-/

namespace Lhat.Paths

open Lexing (Text text ascii)
open Cancelling

variable {segs : List Text}

variable {path : Text} {stack : List Text} {s : Text}

def up : Text := text ".."

/-- The segments that are not passed over. -/
def kept (path : Text) : List Text :=
  (segments path).filter fun s => !passedOver s

/-- Segments, with a separator between them. -/
def spell (segs : List Text) : Text := [ascii '/'].intercalate segs

/-- The folding of a path: `.` and empty segments gone, each `..` against one name. -/
def folding (path : Text) : Left up := left up (kept (path.drop (rootOf path).length))

/-- The folded path, spelled. -/
def canonicalPath (path : Text) : Text := rootOf path ++ spell (folding path).word

/-- A segment that is kept and stands between separators. -/
structure Clean (s : Text) : Prop where
  ne_nil : s ≠ []
  ne_dot : s ≠ text "."
  plain : ∀ c ∈ s, isSeparator c = false

theorem isSeparator_slash : isSeparator (ascii '/') = true := by decide

theorem up_clean : Clean up := ⟨by decide +kernel, by decide +kernel, by decide +kernel⟩

/-! ### Segments and their spelling -/

theorem segments_plain (hs : ∀ c ∈ s, isSeparator c = false) : segments s = [s] :=
  List.splitOnP_eq_singleton hs

theorem segments_slash (a b : Text) : segments (a ++ ascii '/' :: b) = segments a ++ segments b :=
  List.splitOnP_append_cons a b isSeparator_slash

theorem plain_of_mem_segments (path : Text) : ∀ s ∈ segments path, ∀ c ∈ s, isSeparator c = false := by
  induction path with
  | nil =>
    intro s hs
    obtain rfl : s = [] := by simpa [segments] using hs
    simp
  | cons c path ih =>
    rw [segments, List.splitOnP_cons_eq_if_modifyHead]
    split
    · intro s hs
      rcases List.mem_cons.1 hs with rfl | hs
      · simp
      · exact ih s hs
    · rename_i hc
      cases hsegs : List.splitOnP isSeparator path with
      | nil => simp
      | cons t rest =>
        rw [segments, hsegs] at ih
        intro s hs
        rcases List.mem_cons.1 hs with rfl | hs
        · intro d hd
          rcases List.mem_cons.1 hd with rfl | hd
          · exact Bool.eq_false_of_not_eq_true hc
          · exact ih t List.mem_cons_self d hd
        · exact ih s (List.mem_cons_of_mem _ hs)

theorem kept_clean (path : Text) : ∀ s ∈ kept path, Clean s := by
  intro s hs
  obtain ⟨hmem, hkept⟩ := List.mem_filter.1 hs
  have hne : s ≠ [] ∧ s ≠ text "." := by simpa [passedOver] using hkept
  exact ⟨hne.1, hne.2, plain_of_mem_segments path s hmem⟩

theorem kept_slash (a b : Text) : kept (a ++ ascii '/' :: b) = kept a ++ kept b := by
  rw [kept, segments_slash, List.filter_append]
  rfl

theorem kept_nil : kept [] = [] := rfl

theorem Clean.kept_eq (hs : Clean s) : kept s = [s] := by
  rw [kept, segments_plain hs.plain]
  simp [passedOver, hs.ne_nil, hs.ne_dot]

theorem spell_cons_cons (s t : Text) (segs : List Text) :
    spell (s :: t :: segs) = s ++ ascii '/' :: spell (t :: segs) := by
  simp [spell, List.intercalate_cons_cons]

theorem kept_spell (hclean : ∀ s ∈ segs, Clean s) : kept (spell segs) = segs := by
  induction segs with
  | nil => rfl
  | cons s segs ih =>
    have hs := hclean s List.mem_cons_self
    cases segs with
    | nil => simpa [spell] using hs.kept_eq
    | cons t segs =>
      rw [spell_cons_cons, kept_slash, hs.kept_eq, ih fun t ht => hclean t (.tail _ ht)]
      rfl

/-- Segments, with a separator behind each. -/
def dirs (segs : List Text) : Text := segs.flatMap (· ++ [ascii '/'])

theorem spell_concat (segs : List Text) (s : Text) : spell (segs ++ [s]) = dirs segs ++ s := by
  induction segs with
  | nil => simp [spell, dirs]
  | cons t segs ih =>
    obtain ⟨u, rest, hrest⟩ : ∃ u rest, segs ++ [s] = u :: rest :=
      List.exists_cons_of_ne_nil (by simp)
    rw [List.cons_append, hrest, spell_cons_cons, ← hrest, ih]
    simp [dirs]

theorem dirs_eq (hne : segs ≠ []) : dirs segs = spell segs ++ [ascii '/'] := by
  obtain ⟨init, s, rfl⟩ := (List.eq_nil_or_concat segs).resolve_left hne
  rw [List.concat_eq_append, spell_concat]
  simp [dirs]

theorem spell_ne_nil (hclean : ∀ s ∈ segs, Clean s) (hne : segs ≠ []) : spell segs ≠ [] := by
  intro h
  have hkept := kept_spell hclean
  rw [h, kept_nil] at hkept
  exact hne hkept.symm

/-! ### The loop -/

/-- What stands written when these segments are on the stack. -/
inductive Standing (root : Text) : Written → List Text → Prop
  | root : Standing root ⟨root, []⟩ []
  | push {w : Written} {stack : List Text} {s : Text} : Standing root w stack → Clean s →
      Standing root ⟨Written.lead root.length w.out ++ s,
        (Written.lead root.length w.out).length :: w.starts⟩ (s :: stack)

namespace Standing

variable {root : Text} {w : Written}

theorem clean (h : Standing root w stack) : ∀ s ∈ stack, Clean s := by
  induction h with
  | root => simp
  | push _ hs ih => exact List.forall_mem_cons.2 ⟨hs, ih⟩

theorem out_eq (h : Standing root w stack) : w.out = root ++ spell stack.reverse := by
  induction h with
  | root => simp [spell]
  | @push w stack s hw hs ih =>
    rw [List.reverse_cons, spell_concat]
    by_cases hne : stack = []
    · subst hne
      simp [Written.lead, ih, spell, dirs]
    · have hclean : ∀ s ∈ stack.reverse, Clean s := fun s hs => hw.clean s (List.mem_reverse.1 hs)
      have hlong := List.length_pos_iff.2 (spell_ne_nil hclean (by simpa using hne))
      have hlead : root.length < w.out.length := by
        rw [ih, List.length_append]
        omega
      simp only [Written.lead, if_pos hlead]
      rw [ih, dirs_eq (by simpa using hne)]
      simp only [List.append_assoc]

theorem pop (h : Standing root w (s :: stack)) : ∃ start starts, w.starts = start :: starts ∧
    Standing root ⟨if root.length < (w.out.take start).length then (w.out.take start).dropLast
      else w.out.take start, starts⟩ stack := by
  cases h with
  | @push w _ _ hw hs =>
    refine ⟨_, _, rfl, ?_⟩
    have hout : (if root.length < (Written.lead root.length w.out).length
        then (Written.lead root.length w.out).dropLast else Written.lead root.length w.out) =
        w.out := by
      simp only [Written.lead]
      split
      · rename_i hlt
        rw [if_pos (by simp; omega), List.dropLast_concat]
      · rfl
    simp only [List.take_left, hout]
    exact hw

theorem segment (h : Standing root w stack) (hplain : ∀ c ∈ s, isSeparator c = false) :
    Standing root (w.segment root.length s)
      (if passedOver s then stack else strike up stack s) := by
  unfold Written.segment
  split
  · exact h
  · rename_i hpass
    have hne : s ≠ [] ∧ s ≠ text "." := by simpa [passedOver] using hpass
    have hs : Clean s := ⟨hne.1, hne.2, hplain⟩
    cases stack with
    | nil =>
      cases h
      simp only [strike, ne_eq, not_true_eq_false, and_false, if_false]
      exact .push .root hs
    | cons t stack =>
      obtain ⟨start, starts, hstarts, hpop⟩ := h.pop
      rw [hstarts]
      by_cases hup : s = up
      · rw [strike, if_pos ⟨hup, by simp⟩]
        simpa only [if_pos (show s = text ".." from hup), List.tail_cons] using hpop
      · rw [strike, if_neg fun h => hup h.1]
        simpa only [if_neg (show ¬ s = text ".." from hup), hstarts] using h.push hs

theorem foldl (h : Standing root w stack)
    (hplain : ∀ s ∈ segs, ∀ c ∈ s, isSeparator c = false) :
    Standing root (segs.foldl (Written.segment root.length) w)
      ((segs.filter fun s => !passedOver s).foldl (strike up) stack) := by
  induction segs generalizing w stack with
  | nil => exact h
  | cons s segs ih =>
    have hstep := h.segment (hplain s List.mem_cons_self)
    have hrest := ih hstep fun t ht => hplain t (.tail _ ht)
    rw [List.foldl_cons, List.filter_cons]
    cases hpass : passedOver s with
    | true => simpa [hpass] using hrest
    | false => simpa [hpass] using hrest

end Standing

theorem normalisePath_eq (path : Text) : normalisePath path = rootOf path ++
    spell ((kept (path.drop (rootOf path).length)).foldl (strike up) []).reverse := by
  have hroot : Standing (rootOf path) ⟨rootOf path, []⟩ [] := .root
  exact (hroot.foldl (plain_of_mem_segments (path.drop (rootOf path).length))).out_eq

/-! ### What is written of a folding -/

/-- The segments that are written. -/
def written (path : Text) : List Text :=
  List.replicate ((folding path).climbs % 2) up ++ (folding path).names.reverse

theorem normalisePath_left (path : Text) :
    normalisePath path = rootOf path ++ spell (written path) := by
  rw [normalisePath_eq, strikes_eq, List.reverse_append, List.reverse_replicate]
  rfl

/-- Segments that are written as they are read: no `..` behind the first. -/
structure Steady (segs : List Text) : Prop where
  clean : ∀ s ∈ segs, Clean s
  names : up ∉ segs.tail

theorem Steady.strikes (h : Steady segs) : (segs.foldl (strike up) []).reverse = segs := by
  rw [strikes_of_tail h.names, List.reverse_reverse]

theorem Steady.of_append {more : List Text} (h : Steady (segs ++ more)) : Steady segs := by
  refine ⟨fun s hs => h.clean s (List.mem_append_left _ hs), fun hup => h.names ?_⟩
  cases segs with
  | nil => exact absurd hup List.not_mem_nil
  | cons s segs => exact List.mem_append_left _ hup

theorem Steady.behind {more : List Text} (h : Steady (segs ++ more)) : Steady more := by
  refine ⟨fun s hs => h.clean s (List.mem_append_right _ hs), fun hup => h.names ?_⟩
  cases segs with
  | nil => exact hup
  | cons s segs => exact List.mem_append_right _ (List.mem_of_mem_tail hup)

theorem names_clean (path : Text) : ∀ s ∈ (folding path).names, Clean s :=
  fun s hs => kept_clean _ s (mem_of_mem_left hs)

theorem run_clean (n : Nat) (path : Text) :
    ∀ s ∈ List.replicate n up ++ (folding path).names.reverse, Clean s := by
  intro s hs
  rcases List.mem_append.1 hs with hs | hs
  · exact List.eq_of_mem_replicate hs ▸ up_clean
  · exact names_clean path s (List.mem_reverse.1 hs)

theorem written_steady (path : Text) : Steady (written path) := by
  have hnames : up ∉ (folding path).names.reverse := fun h =>
    (folding path).clean (List.mem_reverse.1 h)
  refine ⟨run_clean _ path, ?_⟩
  rcases Nat.mod_two_eq_zero_or_one (folding path).climbs with h | h
  · rw [written, h]
    exact fun hup => hnames (List.mem_of_mem_tail hup)
  · rw [written, h]
    exact hnames

theorem rootOf_cases (path : Text) : rootOf path = [] ∨ rootOf path = [ascii '/'] := by
  cases path with
  | nil => exact .inl rfl
  | cons c path =>
    rw [rootOf]
    split
    · exact .inr rfl
    · exact .inl rfl

theorem rootOf_spell (hclean : ∀ s ∈ segs, Clean s) : rootOf (spell segs) = [] := by
  cases segs with
  | nil => rfl
  | cons s segs =>
    have hs := hclean s List.mem_cons_self
    obtain ⟨c, rest, rfl⟩ := List.exists_cons_of_ne_nil hs.ne_nil
    have hc : isSeparator c = false := hs.plain c List.mem_cons_self
    cases segs with
    | nil => simp [spell, rootOf, hc]
    | cons t segs => simp [spell_cons_cons, rootOf, hc]

theorem rootOf_append {root : Text} (hroot : root = [] ∨ root = [ascii '/'])
    (hclean : ∀ s ∈ segs, Clean s) : rootOf (root ++ spell segs) = root := by
  rcases hroot with rfl | rfl
  · exact rootOf_spell hclean
  · simp [rootOf, isSeparator_slash]

theorem rootOf_normalisePath (path : Text) : rootOf (normalisePath path) = rootOf path := by
  rw [normalisePath_left]
  exact rootOf_append (rootOf_cases path) (written_steady path).clean

theorem normalisePath_steady {root : Text} (hroot : root = [] ∨ root = [ascii '/']) (h : Steady segs) :
    normalisePath (root ++ spell segs) = root ++ spell segs := by
  rw [normalisePath_eq, rootOf_append hroot h.clean, List.drop_left, kept_spell h.clean, h.strikes]

theorem normalisePath_normalisePath (path : Text) :
    normalisePath (normalisePath path) = normalisePath path := by
  have h := normalisePath_steady (rootOf_cases path) (written_steady path)
  rwa [← normalisePath_left] at h

theorem run_spell_inj {m n : Nat} {p q : Text}
    (h : spell (List.replicate m up ++ (folding p).names.reverse) =
      spell (List.replicate n up ++ (folding q).names.reverse)) :
    m = n ∧ (folding p).names = (folding q).names := by
  have hsegs : List.replicate m up ++ (folding p).names.reverse =
      List.replicate n up ++ (folding q).names.reverse := by
    rw [← kept_spell (run_clean m p), h, kept_spell (run_clean n q)]
  have hup : ∀ path, up ∉ (folding path).names.reverse := fun path h =>
    (folding path).clean (List.mem_reverse.1 h)
  obtain ⟨hmn, hnames⟩ := run_inj (hup p) (hup q) hsegs
  exact ⟨hmn, List.reverse_injective hnames⟩

theorem normalisePath_eq_iff (p q : Text) : normalisePath p = normalisePath q ↔
    rootOf p = rootOf q ∧ (folding p).names = (folding q).names ∧
      (folding p).climbs % 2 = (folding q).climbs % 2 := by
  constructor
  · intro h
    have hroot : rootOf p = rootOf q := by
      rw [← rootOf_normalisePath p, h, rootOf_normalisePath]
    rw [normalisePath_left, normalisePath_left, hroot, List.append_cancel_left_eq] at h
    obtain ⟨hclimbs, hnames⟩ := run_spell_inj h
    exact ⟨hroot, hnames, hclimbs⟩
  · rintro ⟨hroot, hnames, hclimbs⟩
    rw [normalisePath_left, normalisePath_left, written, written, hroot, hnames, hclimbs]

theorem normalisePath_canonical_iff (path : Text) :
    normalisePath path = canonicalPath path ↔ (folding path).climbs ≤ 1 := by
  rw [normalisePath_left, canonicalPath, List.append_cancel_left_eq, Left.word_eq]
  constructor
  · intro h
    have hclimbs := (run_spell_inj h).1
    omega
  · intro h
    rw [written, Nat.mod_eq_of_lt (by omega)]

end Lhat.Paths
