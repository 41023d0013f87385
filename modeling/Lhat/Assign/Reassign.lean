import Lhat.Assign.Lists

/-!
# What an assignment does

The code of `x := e` leaves in `x` the value of `e` with every read of `x` a read of what it held
before, where nothing comes upon an early answer in the register of `x`.
-/

namespace Lhat.Assign

variable {W : Type} {n x d : Nat} {A : Atoms W n x} {c : Compiler n x} {old : LhatValue}

theorem Result.andThen_value {α : Type} (r : Result W α) :
    r.andThen (fun v s => (.value v, s)) = r := by
  obtain ⟨o, s⟩ := r
  cases o <;> rfl

theorem Result.After.any {α : Type} (r : Result W α) : r.After fun _ _ => True := by
  unfold Result.After
  split <;> trivial

/-! ### Calls -/

def FollowsArguments (A : Atoms W n x) (c : Compiler n x) (old : LhatValue)
    (arguments : Exprs n d) : Prop :=
  ∀ (its : Fin d → Nat) (vals : Fin d → LhatValue) (mark : Nat) (standing : LhatValue)
    (s f : State W), Taken n x its mark → Agrees n x its vals old standing s f →
      ArgumentsReadOld A c old vals standing arguments s →
        Matches A old (c.compileArguments its mark arguments) f
          (evalArguments A c vals arguments s) fun vs s' f' =>
            ((List.range arguments.count).map fun i => f'.registers (mark + i)) = vs ∧
              Agrees n x its vals old standing s' f' ∧
                ∀ r, n ≤ r → r < mark → f'.registers r = f.registers r

theorem followsArguments_nil : FollowsArguments A c old (.nil : Exprs n d) := by
  intro its vals mark standing s f _ hag _
  rw [Compiler.compileArguments, evalArguments]
  exact Matches.here ⟨rfl, hag, fun _ _ _ => rfl⟩

theorem followsArguments_cons {e : Expr n d} {rest : Exprs n d} (he : Follows A c old e)
    (hr : FollowsArguments A c old rest) : FollowsArguments A c old (.cons e rest) := by
  intro its vals mark standing s f ht hag hreads
  rw [ArgumentsReadOld] at hreads
  rw [Compiler.compileArguments, evalArguments]
  refine (he.next ht hag hreads.1).andThen hreads.2 fun v s₁ f₁ hrest ⟨hv, hag₁, hkept₁⟩ => ?_
  rw [← List.append_nil (c.compileArguments its (mark + 1) rest)]
  have hothers := hr its vals (mark + 1) standing s₁ f₁ (ht.mono (Nat.le_succ _)) hag₁ hrest
  refine hothers.andThen (Result.After.any _) fun vs s₂ f₂ _ ⟨hvs, hag₂, hkept₂⟩ => Matches.here ⟨?_, hag₂, ?_⟩
  · have hfirst : f₂.registers mark = v := (hkept₂ mark ht.low (Nat.lt_succ_self _)).trans hv
    rw [Exprs.count, List.range_succ_eq_map, List.map_cons, List.map_map, ← hvs, ← hfirst]
    refine congrArg₂ List.cons rfl (List.map_congr_left fun i _ => ?_)
    show f₂.registers (mark + (i + 1)) = f₂.registers (mark + 1 + i)
    rw [Nat.add_right_comm, Nat.add_assoc]
  · exact fun r hlow hlt =>
      (hkept₂ r hlow (Nat.lt_succ_of_lt hlt)).trans (hkept₁ r hlow hlt)

theorem call_place {its : Fin d → Nat} {into mark place : Nat} (hp : Placed n x its into mark)
    (hplace : place =
      if into + 1 = mark && !Compiler.holdsLocal (n := n) its into then into else mark) :
    Taken n x its place ∧ ∀ r, r < mark → r ≠ into → r < place := by
  split at hplace
  · rename_i h
    subst hplace
    obtain ⟨hnewest, hfree⟩ := Bool.and_eq_true_iff.mp h
    have hmark : place + 1 = mark := of_decide_eq_true hnewest
    have hnone : Compiler.holdsLocal (n := n) its place = false := by
      simpa using hfree
    have hlow : n ≤ place :=
      Nat.not_lt.mp (of_decide_eq_false (Bool.or_eq_false_iff.mp hnone).1)
    refine ⟨⟨hp.target, hlow, fun k => ⟨(hp.taken k).1, ?_⟩⟩, fun r hlt hne => by omega⟩
    have hlt := (hp.taken k).2
    rcases hp.place with rfl | ⟨-, -, hne⟩
    · exact absurd hp.target (Nat.not_lt.mpr hlow)
    · have := hne k
      omega
  · subst hplace
    exact ⟨hp.toTaken, fun r hlt _ => hlt⟩

theorem follows_call {callee : Expr n d} {arguments : Exprs n d} (hc : Follows A c old callee)
    (ha : FollowsArguments A c old arguments) : Follows A c old (.call callee arguments) := by
  intro its vals into mark standing s f hp hag hreads
  rw [ReadsOld] at hreads
  rw [Compiler.compileExpression, eval]
  generalize hplace :
    (if into + 1 = mark && !Compiler.holdsLocal (n := n) its into then into else mark) = place
  obtain ⟨ht, hbelow⟩ := call_place hp hplace.symm
  refine (hc.next ht hag hreads.1).andThen hreads.2
    fun callee' s₁ f₁ ⟨hargs, hafter⟩ ⟨hcallee, hag₁, hkept₁⟩ => ?_
  refine (ha its vals (place + 1) standing s₁ f₁ (ht.mono (Nat.le_succ _)) hag₁ hargs).andThen
    hafter fun vs s₂ f₂ hcall ⟨hvs, hag₂, hkept₂⟩ => ?_
  have hstill : f₂.registers place = callee' :=
    (hkept₂ place ht.low (Nat.lt_succ_self _)).trans hcallee
  have hrun : ∀ rest, exec A 0 (.call place arguments.count :: rest) f₂ =
      ((A.call callee' vs s₂.world).perform f₂).andThen
        fun v g => exec A 0 rest (g.answer place v (A.leavings g.world)) := by
    intro rest
    rw [← hag₂.world, ← hstill, ← hvs]
    rfl
  have hcalled : Matches A old [.call place arguments.count] f₂
      ((A.call callee' vs s₂.world).perform s₂) fun v s' f' =>
        f'.registers place = v ∧ Agrees n x its vals old standing s' f' ∧
          ∀ r, n ≤ r → r < place → f'.registers r = f₂.registers r := by
    refine Act.matches hrun (fun k => (ht.taken k).1) hag₂ hcall fun v s' f' hag' hsame => ?_
    exact ⟨State.answer_self, hag'.scratch ht (fun r hlt => State.answer_below hlt) rfl,
      fun r hlow hlt => (State.answer_below hlt).trans (hsame r hlow)⟩
  have hmoved := hcalled.andThen (Result.After.any _) fun v s₃ f₃ _ ⟨hv, hag₃, hkept₃⟩ =>
    (emitMove_matches hp hag₃ hv).imp fun _ _ _ harr => harr.since fun r hlow hlt hne =>
      (hkept₃ r hlow (hbelow r hlt hne)).trans
        ((hkept₂ r hlow (Nat.lt_succ_of_lt (hbelow r hlt hne))).trans
          (hkept₁ r hlow (hbelow r hlt hne)))
  rw [Result.andThen_value] at hmoved
  exact hmoved

/-! ### Every expression -/

section

variable (A c old)

mutual

theorem follows {d : Nat} : ∀ e : Expr n d, Follows A c old e
  | .literal v => follows_literal v
  | .name r => follows_name r
  | .it k => follows_it k
  | .upvalue u => follows_upvalue u
  | .unary _ operand => follows_unary (follows operand)
  | .binary _ _ left right => follows_binary (follows left) (follows right)
  | .opAnd left right => follows_opAnd (follows left) (follows right)
  | .opOr left right => follows_opOr (follows left) (follows right)
  | .nilElse left right => follows_nilElse (follows left) (follows right)
  | .opCatch left right => follows_opCatch (follows left) (follows right)
  | .tryHat operand => follows_tryHat (follows operand)
  | .panic value => follows_panic (follows value)
  | .chain first _ second links =>
    follows_chain (follows first) (follows second) (followsLinks links)
  | .table _ entries => follows_table (followsEntries entries)
  | .interp parts => follows_interp (followsParts parts)
  | .ifExpr clauses => follows_ifExpr (followsClauses clauses)
  | .call callee arguments => follows_call (follows callee) (followsArguments arguments)

theorem followsArguments {d : Nat} : ∀ arguments : Exprs n d, FollowsArguments A c old arguments
  | .nil => followsArguments_nil
  | .cons e rest => followsArguments_cons (follows e) (followsArguments rest)

theorem followsLinks {d : Nat} : ∀ links : Links n d, FollowsLinks A c old links
  | .nil => followsLinks_nil
  | .cons _ operand rest => followsLinks_cons (follows operand) (followsLinks rest)

theorem followsEntries {d : Nat} : ∀ entries : Entries n d, FollowsEntries A c old entries
  | .nil => followsEntries_nil
  | .cons key value rest => followsEntries_cons (follows key) (follows value) (followsEntries rest)

theorem followsParts {d : Nat} : ∀ parts : Parts n d, FollowsParts A c old parts
  | .nil => followsParts_nil
  | .text _ rest => followsParts_text (followsParts rest)
  | .hole value _ rest => followsParts_hole (follows value) (followsParts rest)

theorem followsClauses {d : Nat} : ∀ clauses : Clauses n d, FollowsClauses A c old clauses
  | .other body => followsClauses_other (follows body)
  | .cons condition body rest =>
    followsClauses_cons (follows condition) (follows body) (followsClauses rest)

end

end

/-! ### The assignment -/

/-- After `x := e`, `x` is what `e` stands for. Where `e` leaves early `x` is what it was. -/
def Assigns (A : Atoms W n x) (c : Compiler n x) (e : Expr n 0) (f : State W) : Prop :=
  match eval A c Fin.elim0 e f with
  | (.value v, s) =>
    ∃ f', exec A 0 (c.compileReassign e) f = (.value (), f') ∧ f'.registers x = v ∧
      (∀ r < n, r ≠ x → f'.registers r = s.registers r) ∧ f'.world = s.world
  | (.left v, s) =>
    ∃ f', exec A 0 (c.compileReassign e) f = (.left v, f') ∧
      f'.registers x = f.registers x ∧ f'.world = s.world
  | (.fault, s) =>
    ∃ f', exec A 0 (c.compileReassign e) f = (.fault, f') ∧
      f'.registers x = f.registers x ∧ f'.world = s.world

/-- Nothing is captured, and every call answers `true^`. -/
def plainAtoms (n x : Nat) : Atoms Unit n x where
  isError _ _ := false
  upvalue _ _ := .nil
  unary _ v w := .done v w
  binary _ a _ w := .done a w
  numbers _ _ _ _ _ _ := trivial
  newTable _ w := .done .nil w
  getIndex v _ w := .done v w
  setIndex _ _ v w := .done v w
  call _ _ w := .done (.bool true) w
  callMethod _ _ w := .done .nil w
  leavings _ _ := .nil

def plainCompiler : Compiler 2 0 where
  target := Nat.zero_lt_two
  constantIndex _ := 0
  trying := none
  emptyString := .nil
  tostring := .nil

end Lhat.Assign
