import Lhat.Compile.Chain
import Mathlib.Data.List.Forall2
import Mathlib.Data.Option.Basic

/-!
# The places of a chain

What a part of the compiler keeps, and from it what stands at the places a chain has noted once the
whole construct is emitted.
-/

namespace Lhat.Compile

open LhatOpcode Emitter

variable {k lo hi : Nat} {a b : TryContext} {places : List Nat} {xs ys : List ClausePlaces}

/-! ### Emitting and patching -/

namespace Compiler

variable {c c' c'' : Compiler}

/-- A jump that is aimed at a place. -/
def patched (i : LhatInstruction) (place target : Nat) : LhatInstruction :=
  lhatEncodeJump (lhatOp i) (lhatA i) (int32 (distance place target))

theorem patched_encodeJump (op : LhatOpcode) (a : UInt8) (offset : Int) (place target : Nat) :
    patched (lhatEncodeJump op a offset) place target =
      lhatEncodeJump op a (int32 (distance place target)) := by
  rw [patched, lhatOp_encodeJump, lhatA_encodeJump]

theorem patched_patched (i : LhatInstruction) (place target : Nat) :
    patched (patched i place target) place target = patched i place target :=
  patched_encodeJump _ _ _ _ _

/-- A jump is aimed at the place behind the code. -/
def patch (place : Nat) (c : Compiler) : Compiler := c.emits (·.lhatChunkPatchHere place)

theorem patch_code (place : Nat) (c : Compiler) :
    (c.patch place).code = match c.code[place]? with
      | none => c.code
      | some i => c.code.set place (patched i place c.here) := by
  show (c.lhatChunkPatchHere place).code = _
  unfold lhatChunkPatchHere
  cases c.code[place]? <;> rfl

@[simp] theorem patch_here (place : Nat) (c : Compiler) : (c.patch place).here = c.here := by
  show (c.patch place).code.length = c.code.length
  rw [patch_code]
  split
  · rfl
  · exact List.length_set

@[simp] theorem patch_failed (place : Nat) (c : Compiler) : (c.patch place).failed = c.failed := by
  show (c.lhatChunkPatchHere place).failed = _
  unfold lhatChunkPatchHere
  cases c.code[place]? <;> rfl

theorem patch_getElem_ne {place : Nat} (h : k ≠ place) (c : Compiler) :
    (c.patch place).code[k]? = c.code[k]? := by
  rw [patch_code]
  split
  · rfl
  · exact List.getElem?_set_ne h.symm

theorem patch_getElem_self (place : Nat) (c : Compiler) :
    (c.patch place).code[place]? = (c.code[place]?).map (patched · place c.here) := by
  rw [patch_code]
  cases hi : c.code[place]? with
  | none => exact hi
  | some i => exact List.getElem?_set_self (List.getElem?_eq_some_iff.mp hi).1

theorem prefix_set {α : Type*} {l l' : List α} {x : α} (h : l <+: l')
    (hk : l.length ≤ k) : l <+: l'.set k x := by
  obtain ⟨rest, rfl⟩ := h
  rw [List.set_append_right _ _ hk]
  exact List.prefix_append _ _

theorem prefix_getElem {α : Type*} {l l' : List α} (h : l <+: l') (hk : k < l.length) :
    l'[k]? = l[k]? := by
  obtain ⟨rest, rfl⟩ := h
  exact List.getElem?_append_left hk

/-! ### What is kept -/

theorem Gains.refl (lo hi : Nat) (context : TryContext) : Gains lo hi context context :=
  ⟨rfl, [], by simp⟩

theorem Gains.trans {mid lo' : Nat} {d : TryContext} (hab : Gains lo mid a b)
    (hbd : Gains lo' hi b d) (hlo : lo ≤ lo') (hhi : mid ≤ hi) : Gains lo hi a d := by
  obtain ⟨hab, new, hnew, hrange⟩ := hab
  obtain ⟨hbd, new', hnew', hrange'⟩ := hbd
  refine ⟨hbd.trans hab, new ++ new', by rw [hnew', hnew, List.append_assoc], fun k hk => ?_⟩
  obtain hk | hk := List.mem_append.mp hk
  · exact ⟨(hrange k hk).1, Nat.lt_of_lt_of_le (hrange k hk).2 hhi⟩
  · exact ⟨Nat.le_trans hlo (hrange' k hk).1, (hrange' k hk).2⟩

theorem Gains.mono {hi' : Nat} (h : Gains lo hi a b) (hhi : hi ≤ hi') : Gains lo hi' a b := by
  obtain ⟨hab, new, hnew, hrange⟩ := h
  exact ⟨hab, new, hnew, fun k hk => ⟨(hrange k hk).1, Nat.lt_of_lt_of_le (hrange k hk).2 hhi⟩⟩

namespace Keeps

theorem here (h : c.Keeps c') : c.here ≤ c'.here := h.code.length_le

theorem refl (c : Compiler) : c.Keeps c :=
  ⟨List.prefix_rfl, id, rfl, List.forall₂_same.mpr fun t _ => Gains.refl _ _ t⟩

section

variable (h : c.Keeps c')
include h

theorem trans (h' : c'.Keeps c'') : c.Keeps c'' where
  code := h.code.trans h'.code
  failed := h'.failed ∘ h.failed
  depth := h'.depth.trans h.depth
  trying := by
    have hboth := List.forall₂_iff_get.mp h.trying
    have hboth' := List.forall₂_iff_get.mp h'.trying
    refine List.forall₂_iff_get.mpr ⟨hboth.1.trans hboth'.1, fun i hi hi' => ?_⟩
    have hmid : i < c'.trying.length := hboth.1 ▸ hi
    exact (hboth.2 i hi hmid).trans (hboth'.2 i hmid hi') h.here h'.here

theorem extend (hcode : c.code <+: c''.code) (hhere : c'.here ≤ c''.here)
    (hfailed : c'.failed = true → c''.failed = true) (hdepth : c''.cleanupDepth = c'.cleanupDepth)
    (htrying : c''.trying = c'.trying) : c.Keeps c'' where
  code := hcode
  failed := hfailed ∘ h.failed
  depth := hdepth.trans h.depth
  trying := by
    rw [htrying]
    exact h.trying.imp fun _ _ hgains => hgains.mono hhere

theorem emit (i : LhatInstruction) : c.Keeps (c'.emits (·.emit i)) :=
  h.extend (h.code.trans (List.prefix_append _ _))
    (by simp [Compiler.here, emits, Emitter.emit]) id rfl rfl

theorem patch {place : Nat} (hplace : c.here ≤ place) :
    c.Keeps (c'.patch place) := by
  refine h.extend ?_ (Nat.le_of_eq (patch_here place c').symm) ?_ rfl rfl
  · rw [patch_code]
    split
    · exact h.code
    · exact prefix_set h.code hplace
  · rw [patch_failed]
    exact id

theorem reserve : c.Keeps c'.reserve.2 := by
  unfold Compiler.reserve
  split
  · exact h.extend h.code (Nat.le_refl c'.here) (fun _ => rfl) rfl rfl
  · exact h.extend h.code (Nat.le_refl c'.here) id rfl rfl

theorem withRegister (n : Nat) : c.Keeps { c' with nextRegister := n } :=
  h.extend h.code (Nat.le_refl c'.here) id rfl rfl

theorem compile (block : Block) : c.Keeps (block.compile c') :=
  h.trans (block.keeps c')

end

end Keeps

/-! ### All jumps of a list -/

theorem patchAll_cons (place : Nat) (rest : List Nat) (c : Compiler) :
    patchAll (place :: rest) c = patchAll rest (c.patch place) := rfl

@[simp] theorem patchAll_here (places : List Nat) (c : Compiler) :
    (patchAll places c).here = c.here := by
  induction places generalizing c with
  | nil => rfl
  | cons place rest ih => rw [patchAll_cons, ih, patch_here]

theorem Keeps.patchAll (h : c.Keeps c') (hplaces : ∀ k ∈ places, c.here ≤ k) :
    c.Keeps (patchAll places c') := by
  induction places generalizing c' with
  | nil => exact h
  | cons place rest ih =>
    exact ih (h.patch (hplaces place (by simp))) fun k hk => hplaces k (by simp [hk])

theorem patchAll_getElem_of_notMem (hk : k ∉ places)
    (c : Compiler) : (patchAll places c).code[k]? = c.code[k]? := by
  induction places generalizing c with
  | nil => rfl
  | cons place rest ih =>
    rw [List.mem_cons, not_or] at hk
    rw [patchAll_cons, ih hk.2, patch_getElem_ne hk.1]

theorem patchAll_getElem_of_mem (hk : k ∈ places) (c : Compiler) :
    (patchAll places c).code[k]? = (c.code[k]?).map (patched · k c.here) := by
  induction places generalizing c with
  | nil => simp at hk
  | cons place rest ih =>
    rw [patchAll_cons]
    by_cases hrest : k ∈ rest
    · rw [ih hrest, patch_here]
      by_cases hplace : k = place
      · subst hplace
        rw [patch_getElem_self]
        cases c.code[k]? with
        | none => rfl
        | some i => exact congrArg some (patched_patched i k c.here)
      · rw [patch_getElem_ne hplace]
    · obtain rfl : k = place := (List.mem_cons.mp hk).resolve_right hrest
      rw [patchAll_getElem_of_notMem hrest, patch_getElem_self]

end Compiler

/-! ### A clause and the clauses -/

open Compiler

/-- What stands at the places of a clause: the jump over it is aimed, and `exit` is the instruction
that leaves it. -/
structure Laid (code : List LhatInstruction) (exit : LhatInstruction) (p : ClausePlaces) :
    Prop where
  tested : ∀ q r, p.tested = some (q, r) → p.start ≤ q ∧ p.body = q + 1 ∧
    code[q]? = some (lhatEncodeJump jumpFalse r (int32 (distance q p.following)))
  otherwise : p.tested = none → p.body = p.start
  body : p.body ≤ p.ended
  left : p.leaves = true → p.following = p.ended + 1 ∧
    code[p.ended]? = some exit
  kept : p.leaves = false → p.following = p.ended
  due : p.leaves = true → p.due = true
  follows : p.following ≤ code.length

/-- The clauses stand one behind the other. -/
def Linked : Nat → List ClausePlaces → Nat → Prop
  | lo, [], hi => lo = hi
  | lo, p :: rest, hi => p.start = lo ∧ Linked p.following rest hi

theorem Laid.mono {code code' : List LhatInstruction} {exit : LhatInstruction}
    {p : ClausePlaces} (h : Laid code exit p) (hcode : code <+: code') : Laid code' exit p where
  tested q r htested := by
    obtain ⟨hstart, hbody, hat⟩ := h.tested q r htested
    exact ⟨hstart, hbody, (prefix_getElem hcode (List.getElem?_eq_some_iff.mp hat).1).trans hat⟩
  otherwise := h.otherwise
  body := h.body
  left hleaves := by
    obtain ⟨hfollowing, hat⟩ := h.left hleaves
    exact ⟨hfollowing, (prefix_getElem hcode (List.getElem?_eq_some_iff.mp hat).1).trans hat⟩
  kept := h.kept
  due := h.due
  follows := Nat.le_trans h.follows hcode.length_le

/-- The jumps noted in a list of clauses. -/
def leavings (places : List ClausePlaces) : List Nat :=
  (places.filter (·.leaves)).map (·.ended)

theorem leavings_singleton (p : ClausePlaces) :
    leavings [p] = if p.leaves = true then [p.ended] else [] := by
  unfold leavings
  cases h : p.leaves <;> simp [h]

/-- The context of the bodies has got jumps from the bodies alone. -/
def GainsFrom (places : List ClausePlaces) (context context' : TryContext) : Prop :=
  context'.caught = context.caught ∧ ∃ new, context'.jumps = context.jumps ++ new ∧
    ∀ k ∈ new, ∃ p ∈ places, p.body ≤ k ∧ k < p.ended

/-- What a chain has come to by some clauses. -/
structure Chain.Extends (chain chain' : Chain) (new : List ClausePlaces) : Prop where
  compiler : chain.compiler.Keeps chain'.compiler
  context : Option.Rel (GainsFrom new) chain.context chain'.context
  places : chain'.places = chain.places ++ new
  linked : Linked chain.compiler.here new chain'.compiler.here
  laid : ∀ p ∈ new, Laid chain'.compiler.code (lhatEncodeJump jump 0 0) p
  leaving : chain'.leaving = chain.leaving ++ leavings new

theorem Linked.append {mid : Nat} (hx : Linked lo xs mid)
    (hy : Linked mid ys hi) : Linked lo (xs ++ ys) hi := by
  induction xs generalizing lo with
  | nil => exact hx ▸ hy
  | cons p xs ih => exact ⟨hx.1, ih hx.2⟩

namespace Chain

variable {chain chain' chain'' : Chain}

theorem Extends.refl (chain : Chain) : chain.Extends chain [] where
  compiler := Keeps.refl _
  context := by
    cases chain.context with
    | none => exact .none
    | some context => exact .some ⟨rfl, [], by simp⟩
  places := (List.append_nil _).symm
  linked := rfl
  laid := by simp
  leaving := (List.append_nil _).symm

theorem GainsFrom.trans {d : TryContext} (hab : GainsFrom xs a b)
    (hbd : GainsFrom ys b d) : GainsFrom (xs ++ ys) a d := by
  obtain ⟨hab, new, hnew, hfrom⟩ := hab
  obtain ⟨hbd, new', hnew', hfrom'⟩ := hbd
  refine ⟨hbd.trans hab, new ++ new', by rw [hnew', hnew, List.append_assoc], fun k hk => ?_⟩
  obtain hk | hk := List.mem_append.mp hk
  · obtain ⟨p, hp, hrange⟩ := hfrom k hk
    exact ⟨p, List.mem_append_left _ hp, hrange⟩
  · obtain ⟨p, hp, hrange⟩ := hfrom' k hk
    exact ⟨p, List.mem_append_right _ hp, hrange⟩

theorem Extends.trans (h : chain.Extends chain' xs)
    (h' : chain'.Extends chain'' ys) : chain.Extends chain'' (xs ++ ys) where
  compiler := h.compiler.trans h'.compiler
  context := by
    obtain hx := h.context
    obtain hy := h'.context
    revert hx hy
    generalize chain.context = a, chain'.context = b, chain''.context = d
    rintro (⟨hab⟩ | _) (⟨hbd⟩ | _)
    · exact .some (GainsFrom.trans hab hbd)
    · exact .none
  places := by rw [h'.places, h.places, List.append_assoc]
  linked := h.linked.append h'.linked
  laid p hp := by
    obtain hp | hp := List.mem_append.mp hp
    · exact (h.laid p hp).mono h'.compiler.code
    · exact h'.laid p hp
  leaving := by
    rw [h'.leaving, h.leaving, List.append_assoc]
    simp [leavings]

theorem compileCondition_laid (condition : UInt8 → Block) (c : Compiler) :
    ∃ next test tested, compileCondition condition c = (next, test, tested) ∧ c.Keeps tested ∧
      c.here ≤ next ∧ tested.here = next + 1 ∧
      tested.code[next]? = some (lhatEncodeJump jumpFalse test 0) := by
  have hconditioned := (Keeps.refl c).reserve.compile (condition c.reserve.1)
  refine ⟨_, _, _, rfl, (hconditioned.emit _).withRegister _, hconditioned.here, ?_, ?_⟩
  · exact List.length_append
  · exact List.getElem?_concat_length ..

theorem compileBody_keeps (body : Block) (chain : Chain) :
    chain.compiler.Keeps (chain.compileBody body).compiler ∧
      Option.Rel (Gains chain.compiler.here (chain.compileBody body).compiler.here) chain.context
        (chain.compileBody body).context ∧
      (chain.compileBody body).leaving = chain.leaving := by
  obtain ⟨c, context, leaving, places⟩ := chain
  cases context with
  | none => exact ⟨body.keeps c, .none, rfl⟩
  | some context =>
    have hkeeps := body.keeps { c with trying := context :: c.trying }
    simp only [compileBody]
    generalize body.compile { c with trying := context :: c.trying } = done at hkeeps
    obtain ⟨hcode, hfailed, hdepth, htrying⟩ := hkeeps
    cases hdone : done.trying with
    | nil => rw [hdone] at htrying; cases htrying
    | cons context' rest =>
      rw [hdone] at htrying
      obtain ⟨hhead, htail⟩ := List.forall₂_cons.mp htrying
      exact ⟨⟨hcode, hfailed, hdepth, htail⟩, .some hhead, trivial⟩

theorem gainsFrom_of_gains {p : ClausePlaces} {a b : Option TryContext}
    (h : Option.Rel (Gains p.body p.ended) a b) : Option.Rel (GainsFrom [p]) a b := by
  obtain ⟨hcaught, new, hnew, hrange⟩ | _ := h
  · exact .some ⟨hcaught, new, hnew, fun k hk => ⟨p, by simp, hrange k hk⟩⟩
  · exact .none

theorem leave_keeps (due : Bool) (chain : Chain) :
    chain.compiler.Keeps (chain.leave due).compiler ∧
      (chain.leave due).context = chain.context ∧
      if due && decide (chain.leaving.length < lhatMaxLocals) then
        (chain.leave due).compiler.here = chain.compiler.here + 1 ∧
          (chain.leave due).compiler.code[chain.compiler.here]? = some (lhatEncodeJump jump 0 0) ∧
          (chain.leave due).leaving = chain.leaving ++ [chain.compiler.here]
      else (chain.leave due).compiler.here = chain.compiler.here ∧
        (chain.leave due).leaving = chain.leaving := by
  unfold leave
  split
  · exact ⟨(Keeps.refl _).emit _, rfl, List.length_append, List.getElem?_concat_length .., rfl⟩
  · exact ⟨Keeps.refl _, rfl, rfl, rfl⟩

theorem compileConditional_extends (due : Bool) (condition : UInt8 → Block) (body : Block)
    (chain : Chain) :
    ∃ p, chain.Extends (chain.compileConditional due condition body) [p] ∧ p.due = due ∧
      p.leaves = (due && decide (chain.leaving.length < lhatMaxLocals)) := by
  obtain ⟨next, test, c, hcondition, hkeeps, hstart, hnext, hat⟩ :=
    compileCondition_laid condition chain.compiler
  obtain ⟨hbody, hcontext, hleaving⟩ := compileBody_keeps body { chain with compiler := c }
  unfold compileConditional
  rw [hcondition]
  simp only
  generalize hdone : compileBody body { chain with compiler := c } = done at hbody hcontext hleaving
  obtain ⟨hleft, hsame, hleave⟩ := leave_keeps due done
  have hall := ((hkeeps.trans hbody).trans hleft).patch hstart
  have hended : next < done.compiler.here := Nat.lt_of_lt_of_le (by simp only; omega) hbody.here
  refine ⟨_, ⟨hall, ?_, rfl, ⟨rfl, rfl⟩, ?_, ?_⟩, rfl, by rw [hleaving]⟩
  · rw [hsame]
    exact gainsFrom_of_gains hcontext
  · rintro p hp
    obtain rfl := List.mem_singleton.mp hp
    refine ⟨?_, nofun, hbody.here, ?_, ?_, fun h => ?_, Nat.le_refl _⟩
    · rintro q r hqr
      obtain ⟨rfl, rfl⟩ := Prod.mk.inj (Option.some.inj hqr)
      refine ⟨hstart, hnext, ?_⟩
      have hkept := prefix_getElem (hbody.code.trans hleft.code)
        (List.getElem?_eq_some_iff.mp hat).1
      refine (patch_getElem_self next (done.leave due).compiler).trans ?_
      rw [hkept, hat]
      refine congrArg some ((patched_encodeJump _ _ _ _ _).trans ?_)
      rw [← patch_here next (done.leave due).compiler]
      rfl
    · intro hleaves
      rw [if_pos (show _ = true from hleaves)] at hleave
      refine ⟨(patch_here next _).trans hleave.1, ?_⟩
      exact (patch_getElem_ne (Nat.ne_of_gt hended) (done.leave due).compiler).trans hleave.2.1
    · intro hleaves
      rw [if_neg (by simpa using hleaves)] at hleave
      exact (patch_here next _).trans hleave.1
    · exact (Bool.and_eq_true_iff.mp h).1
  · show (done.leave due).leaving = chain.leaving ++ _
    by_cases hleaves : (due && decide (done.leaving.length < lhatMaxLocals)) = true
    · rw [if_pos hleaves] at hleave
      rw [leavings_singleton, if_pos (show _ = true from hleaves), hleave.2.2, hleaving]
    · rw [if_neg hleaves] at hleave
      rw [leavings_singleton, if_neg (show ¬ _ = true from hleaves), hleave.2, hleaving]
      exact (List.append_nil _).symm

theorem compileOtherwise_extends (body : Block) (chain : Chain) :
    ∃ p, chain.Extends (chain.compileOtherwise body) [p] ∧ p.due = false := by
  obtain ⟨hbody, hcontext, hleaving⟩ := compileBody_keeps body chain
  refine ⟨_, ⟨hbody, gainsFrom_of_gains hcontext, rfl, ⟨rfl, rfl⟩, ?_, ?_⟩, rfl⟩
  · rintro p hp
    obtain rfl := List.mem_singleton.mp hp
    exact ⟨nofun, fun _ => rfl, hbody.here, nofun, fun _ => rfl, nofun, Nat.le_refl _⟩
  · exact hleaving.trans (List.append_nil _).symm

/-- What the loop over the clauses has come to. Where no jump is due at the end of a clause,
  it is the
last one. -/
theorem compileClauses_extends (jumps : Bool → Bool) (hjumps : jumps true = true)
    (clauses : List Clause) (chain : Chain) :
    ∃ new, chain.Extends (compileClauses jumps clauses chain).1 new ∧
      ∀ p ∈ new, p.due = false →
        p.following = (compileClauses jumps clauses chain).1.compiler.here ∧
          (jumps false = true → (compileClauses jumps clauses chain).2 = true) := by
  induction clauses generalizing chain with
  | nil => exact ⟨[], Extends.refl chain, by simp⟩
  | cons clause rest ih =>
    obtain ⟨_ | condition, body⟩ := clause
    · obtain ⟨p, hextends, hdue⟩ := compileOtherwise_extends body chain
      refine ⟨[p], hextends, fun q hq _ => ?_⟩
      obtain rfl := List.mem_singleton.mp hq
      exact ⟨hextends.linked.2, fun _ => rfl⟩
    · obtain ⟨p, hextends, hdue, -⟩ :=
        compileConditional_extends (jumps (!rest.isEmpty)) condition body chain
      obtain ⟨new, hrest, hlast⟩ :=
        ih (chain.compileConditional (jumps (!rest.isEmpty)) condition body)
      refine ⟨p :: new, hextends.trans hrest, fun q hq hnot => ?_⟩
      obtain rfl | hq := List.mem_cons.mp hq
      · -- only the last clause is without a jump
        have hempty : rest = [] := by
          cases rest with
          | nil => rfl
          | cons _ _ => exact absurd (hdue.symm.trans hnot) (by simp [hjumps])
        subst hempty
        refine ⟨hextends.linked.2, fun hfalse => ?_⟩
        exact absurd (hdue.symm.trans hnot) (by simp [hfalse])
      · exact hlast q hq hnot

theorem compileClauses_leaves (jumps : Bool → Bool) (clauses : List Clause) (chain : Chain)
    (hroom : chain.leaving.length ≤ lhatMaxLocals) :
    ∃ new, (compileClauses jumps clauses chain).1.places = chain.places ++ new ∧
      ((∀ p ∈ new, p.due = true → p.leaves = true) ↔
        chain.leaving.length + leavers jumps clauses ≤ lhatMaxLocals) := by
  induction clauses generalizing chain with
  | nil => exact ⟨[], (List.append_nil _).symm, by simpa [leavers] using hroom⟩
  | cons clause rest ih =>
    obtain ⟨_ | condition, body⟩ := clause
    · obtain ⟨p, hextends, hdue⟩ := compileOtherwise_extends body chain
      refine ⟨[p], hextends.places, ?_⟩
      simpa [leavers, hdue] using hroom
    · obtain ⟨p, hextends, hdue, hleaves⟩ :=
        compileConditional_extends (jumps (!rest.isEmpty)) condition body chain
      have hlength := congrArg List.length hextends.leaving
      rw [leavings_singleton, List.length_append] at hlength
      have hnext : (chain.compileConditional (jumps
        (!rest.isEmpty)) condition body).leaving.length ≤
          lhatMaxLocals := by
        rw [hlength]
        split
        · rename_i h
          rw [hleaves, Bool.and_eq_true, decide_eq_true_eq] at h
          exact h.2
        · exact hroom
      obtain ⟨new, hplaces, hall⟩ := ih _ hnext
      refine ⟨p :: new, ?_, ?_⟩
      · show (compileClauses jumps rest _).1.places = _
        rw [hplaces, hextends.places, List.append_assoc]
        rfl
      · rw [List.forall_mem_cons, hall, hlength, hleaves, hdue, leavers]
        cases jumps (!rest.isEmpty) with
        | false => simp
        | true =>
          by_cases hfits : chain.leaving.length < lhatMaxLocals
          · simp [hfits, Nat.add_assoc]
          · simp only [hfits, decide_false, Bool.and_false, Bool.toNat_true]
            constructor
            · exact fun h => absurd (h.1 trivial) (by simp)
            · intro h
              omega

end Chain

end Lhat.Compile
