import Lhat.Assign.Operands

/-!
# The forms of an expression

One lemma a form. Each says that the code of the form follows its evaluation if the code of its
parts does.
-/

namespace Lhat.Assign

variable {standing v : LhatValue} {mark : Nat}
variable {W : Type} {n x d : Nat} {A : Atoms W n x} {c : Compiler n x} {old : LhatValue}

attribute [local simp] ReadsOld eval Compiler.compileExpression

/-- The code of an expression does what the expression stands for, into whatever place, as long
as nothing comes upon an early answer. -/
def Follows (A : Atoms W n x) (c : Compiler n x) (old : LhatValue) (e : Expr n d) : Prop :=
  ∀ (its : Fin d → Nat) (vals : Fin d → LhatValue) (into mark : Nat) (standing : LhatValue)
    (s f : State W), Placed n x its into mark → Agrees n x its vals old standing s f →
      ReadsOld A c old (decide (into = x)) vals standing e s →
        Matches A old (c.compileExpression its into mark e) f (eval A c vals e s)
          (Arrives n x its vals old standing into mark f)

theorem Follows.scratch {e : Expr n d} (h : Follows A c old e) {its : Fin d → Nat}
    {vals : Fin d → LhatValue} {r next : Nat} {s f : State W}
    (ht : Taken n x its mark) (hr : mark ≤ r) (hnext : r < next)
    (hag : Agrees n x its vals old standing s f)
    (hreads : ReadsOld A c old false vals standing e s) :
    Matches A old (c.compileExpression its r next e) f (eval A c vals e s)
      fun v s' f' => f'.registers r = v ∧ Agrees n x its vals old standing s' f' ∧
        ∀ r', n ≤ r' → r' < r → f'.registers r' = f.registers r' := by
  have hne : r ≠ x := ht.ne hr
  have hdirect : ReadsOld A c old (decide (r = x)) vals standing e s := by
    rw [decide_eq_false hne]
    exact hreads
  refine (h its vals r next standing s f (ht.scratch hr hnext) hag hdirect).imp
    fun v s' f' harr => ?_
  exact ⟨harr.answer, harr.scratch hne, fun r' hlow hlt =>
    harr.kept r' hlow (Nat.lt_trans hlt hnext) (Nat.ne_of_lt hlt)⟩

theorem Follows.next {e : Expr n d} (h : Follows A c old e) {its : Fin d → Nat}
    {vals : Fin d → LhatValue} {s f : State W}
    (ht : Taken n x its mark) (hag : Agrees n x its vals old standing s f)
    (hreads : ReadsOld A c old false vals standing e s) :
    Matches A old (c.compileExpression its mark (mark + 1) e) f (eval A c vals e s)
      fun v s' f' => f'.registers mark = v ∧ Agrees n x its vals old standing s' f' ∧
        ∀ r, n ≤ r → r < mark → f'.registers r = f.registers r :=
  h.scratch ht (Nat.le_refl _) (Nat.lt_succ_self _) hag hreads

/-! ### Leaves -/

theorem follows_literal (v : LhatValue) : Follows A c old (.literal v : Expr n d) := by
  intro its vals into mark standing s f hp hag _
  rw [Compiler.compileExpression, eval]
  exact matches_set hp hag fun _ => rfl

theorem follows_name (r : Fin n) : Follows A c old (.name r : Expr n d) := by
  intro its vals into mark standing s f hp hag hreads
  rw [Compiler.compileExpression, eval]
  exact emitMove_matches hp hag (hag.name r hreads)

theorem follows_it (k : Fin d) : Follows A c old (.it k : Expr n d) := by
  intro its vals into mark standing s f hp hag _
  rw [Compiler.compileExpression, eval]
  exact emitMove_matches hp hag (hag.its k)

theorem follows_upvalue (u : Nat) : Follows A c old (.upvalue u : Expr n d) := by
  intro its vals into mark standing s f hp hag _
  rw [Compiler.compileExpression, eval]
  exact matches_set hp hag fun _ => by rw [← hag.world]; rfl

/-! ### Operators -/

theorem follows_unary {op : UnaryOp} {operand : Expr n d} (h : Follows A c old operand) :
    Follows A c old (.unary op operand) := by
  intro its vals into mark standing s f hp hag hreads
  rw [ReadsOld] at hreads
  rw [Compiler.compileExpression, eval]
  split
  · rename_i home hhome
    rw [forwarded hhome hag hreads.1] at hreads ⊢
    refine act_matches hp hag (fun _ _ _ _ => rfl) hreads.2 fun rest => ?_
    rw [← hag.world]
    rfl
  · refine (h.next hp.toTaken hag hreads.1).andThen hreads.2 fun v s₁ f₁ hop ⟨hv, hag₁, hkept⟩ => ?_
    refine act_matches hp hag₁ (fun r hlow hlt _ => hkept r hlow hlt) hop fun rest => ?_
    rw [← hag₁.world, ← hv]
    rfl

theorem foldedConstant_literal {op : BinaryOp} {right : Expr n d} {k : LhatValue}
    (h : c.foldedConstant op right = some k) : right = .literal k := by
  unfold Compiler.foldedConstant at h
  split at h
  · have hk := (Option.filter_eq_some_iff.mp h).1
    unfold literalConstant at hk
    split at hk
    · cases hk
      rfl
    · cases hk
      rfl
    · split at hk
      · cases hk
        rfl
      · cases hk
    · cases hk
  · cases h

theorem forwarded_later {its : Fin d → Nat} {vals : Fin d → LhatValue} {s f s' f' : State W}
    {e : Expr n d} {home : Nat} (hhome : forwardableLocal its e = some home)
    (hag : Agrees n x its vals old standing s f) (hag' : Agrees n x its vals old standing s' f')
    (hsame : s'.registers = s.registers) : f'.registers home = f.registers home := by
  unfold forwardableLocal at hhome
  split at hhome
  · rename_i r
    cases hhome
    by_cases hx : r.val = x
    · rw [hx, hag.standing, hag'.standing]
    · rw [hag.locals r r.isLt hx, hag'.locals r r.isLt hx, hsame]
  · rename_i k
    cases hhome
    rw [hag.its k, hag'.its k]
  · cases hhome

theorem follows_binary {op : BinaryOp} {numeric : Bool} {left right : Expr n d}
    (hl : Follows A c old left) (hr : Follows A c old right) :
    Follows A c old (.binary op numeric left right) := by
  intro its vals into mark standing s f hp hag hreads
  rw [ReadsOld] at hreads
  obtain ⟨hreadsl, hafter⟩ := hreads
  rw [Compiler.compileExpression, eval]
  cases hk : c.foldedConstant op right with
  | some k =>
    dsimp only
    cases foldedConstant_literal hk
    cases hhome : forwardableLocal its left with
    | some home =>
      rw [forwarded hhome hag hreadsl] at hafter ⊢
      refine act_matches hp hag (fun _ _ _ _ => rfl) hafter.2.2 fun rest => ?_
      rw [← hag.world]
      rfl
    | none =>
      refine (hl.next hp.toTaken hag hreadsl).andThen hafter fun a s₁ f₁ hop ⟨ha, hag₁, hkept⟩ => ?_
      refine act_matches hp hag₁ (fun r hlow hlt _ => hkept r hlow hlt) hop.2.2 fun rest => ?_
      rw [← hag₁.world, ← ha]
      rfl
  | none =>
    dsimp only
    cases hleft : (if runsNothing right then forwardableLocal its left else none) with
    | some home =>
      have hnothing : runsNothing right = true := by
        by_contra hruns
        rw [if_neg hruns] at hleft
        cases hleft
      rw [if_pos hnothing] at hleft
      rw [forwarded hleft hag hreadsl] at hafter ⊢
      obtain ⟨hreadsr, hop⟩ := hafter
      cases hright : forwardableLocal its right with
      | some other =>
        show Matches A old _ f ((eval A c vals right s).andThen _) _
        rw [forwarded hright hag hreadsr] at hop ⊢
        refine act_matches hp hag (fun _ _ _ _ => rfl) hop.2 fun rest => ?_
        rw [← hag.world]
        rfl
      | none =>
        have hsame := registers_runsNothing hnothing hreadsr
        refine (hr.next hp.toTaken hag hreadsr).andThen (hop.and hsame)
          fun b s₁ f₁ ⟨hop, hsame⟩ ⟨hb, hag₁, hkept⟩ => ?_
        refine act_matches hp hag₁ (fun r hlow hlt _ => hkept r hlow hlt) hop.2 fun rest => ?_
        rw [← hag₁.world, ← hb, ← forwarded_later hleft hag hag₁ hsame]
        rfl
    | none =>
      cases hright : forwardableLocal its right with
      | some other =>
        refine (hl.next hp.toTaken hag hreadsl).andThen hafter
          fun a s₁ f₁ ⟨hreadsr, hop⟩ ⟨ha, hag₁, hkept⟩ => ?_
        rw [forwarded hright hag₁ hreadsr] at hop ⊢
        refine act_matches hp hag₁ (fun r hlow hlt _ => hkept r hlow hlt) hop.2 fun rest => ?_
        rw [← hag₁.world, ← ha]
        rfl
      | none =>
        refine (hl.next hp.toTaken hag hreadsl).andThen hafter
          fun a s₁ f₁ ⟨hreadsr, hop⟩ ⟨ha, hag₁, hkept⟩ => ?_
        refine (hr.next (hp.mono (Nat.le_succ _)) hag₁ hreadsr).andThen hop
          fun b s₂ f₂ hop ⟨hb, hag₂, hkept₂⟩ => ?_
        have hstill : f₂.registers mark = a :=
          (hkept₂ mark hp.low (Nat.lt_succ_self _)).trans ha
        refine act_matches hp hag₂ (fun r hlow hlt _ =>
          (hkept₂ r hlow (Nat.lt_succ_of_lt hlt)).trans (hkept r hlow hlt)) hop.2
            fun rest => ?_
        rw [← hag₂.world, ← hstill, ← hb]
        rfl

/-! ### Branches -/

section

variable {its : Fin d → Nat} {vals : Fin d → LhatValue} {into mark : Nat} {standing v : LhatValue}
  {s f g : State W} {e : Expr n d}

theorem Follows.again (h : Follows A c old e) (hp : Placed n x its into mark)
    (harr : Arrives n x its vals old standing into mark f v s g)
    (hreads : ReadsOld A c old (decide (into = x)) vals
      (if decide (into = x) then v else standing) e s) :
    Matches A old (c.compileExpression its into mark e) g (eval A c vals e s)
      (Arrives n x its vals old standing into mark f) :=
  (h its vals into mark _ s g hp harr.agrees hreads).imp fun _ _ _ harr' => harr'.after harr.kept

theorem Arrives.place (h : Arrives n x its vals old standing into mark f v s g)
    (hstands : (if decide (into = x) then v else standing) = old) : g.registers x = old :=
  h.agrees.standing.trans hstands

end

theorem follows_opAnd {left right : Expr n d} (hl : Follows A c old left)
    (hr : Follows A c old right) : Follows A c old (.opAnd left right) := by
  intro its vals into mark standing s f hp hag hreads
  rw [ReadsOld] at hreads
  rw [Compiler.compileExpression, eval]
  refine (hl its vals into mark standing s f hp hag hreads.1).andThen hreads.2
    fun v s₁ f₁ hbranch harr => ?_
  have htest := harr.answer
  split
  · exact Matches.jumpFalse_true htest (hr.again hp harr hbranch)
  · exact Matches.jumpFalse_past htest harr
  · rename_i ht hf
    exact Matches.jumpFalse_fault (fun h => ht (htest.symm.trans h))
      (fun h => hf (htest.symm.trans h)) (harr.place (hbranch.fault ht hf)) harr.agrees.world

theorem follows_opOr {left right : Expr n d} (hl : Follows A c old left)
    (hr : Follows A c old right) : Follows A c old (.opOr left right) := by
  intro its vals into mark standing s f hp hag hreads
  rw [ReadsOld] at hreads
  rw [Compiler.compileExpression, eval]
  refine (hl its vals into mark standing s f hp hag hreads.1).andThen hreads.2
    fun v s₁ f₁ hbranch harr => ?_
  have htest := harr.answer
  split
  · exact Matches.jumpFalse_true htest (Matches.jump_past harr)
  · exact Matches.jumpFalse_false [.jump _] htest (hr.again hp harr hbranch)
  · rename_i ht hf
    exact Matches.jumpFalse_fault (fun h => ht (htest.symm.trans h))
      (fun h => hf (htest.symm.trans h)) (harr.place (hbranch.fault ht hf)) harr.agrees.world

theorem Arrives.test {its : Fin d → Nat} {vals : Fin d → LhatValue} {into : Nat} {s f g : State W} (hp : Placed n x its into mark)
    (harr : Arrives n x its vals old standing into mark f v s g) {r : Nat} (hr : mark ≤ r)
    (b : LhatValue) : Arrives n x its vals old standing into mark f v s (g.set r b) := by
  have hne : into ≠ r := by
    have := hp.target
    have := hp.low
    rcases hp.place with rfl | ⟨-, hlt, -⟩ <;> omega
  have hsame : ∀ r' < mark, (g.set r b).registers r' = g.registers r' :=
    fun r' hlt => State.set_ne (Nat.ne_of_lt (Nat.lt_of_lt_of_le hlt hr))
  exact ⟨(State.set_ne hne).trans harr.answer, harr.agrees.scratch hp.toTaken hsame rfl,
    fun r' hlow hlt hne' => (hsame r' hlt).trans (harr.kept r' hlow hlt hne')⟩

theorem follows_nilElse {left right : Expr n d} (hl : Follows A c old left)
    (hr : Follows A c old right) : Follows A c old (.nilElse left right) := by
  intro its vals into mark standing s f hp hag hreads
  rw [ReadsOld] at hreads
  rw [Compiler.compileExpression, eval]
  refine (hl its vals into mark standing s f hp hag hreads.1).andThen hreads.2
    fun v s₁ f₁ hbranch harr => ?_
  let tested := f₁.set mark (.bool (decide (f₁.registers into = .nil)))
  have harr' : Arrives n x its vals old standing into mark f v s₁ tested :=
    harr.test hp (Nat.le_refl _) _
  have htest : tested.registers mark = .bool (decide (v = .nil)) := by
    rw [← harr.answer]
    exact State.set_self
  have hrun : ∀ rest, exec A 0 (.isNil mark into :: rest) f₁ = exec A 0 rest tested :=
    fun _ => rfl
  refine Matches.first hrun ?_
  split
  · rename_i hnil
    rw [decide_eq_true hnil] at htest
    exact Matches.jumpFalse_true htest (hr.again hp harr' (hbranch hnil))
  · rename_i hnil
    rw [decide_eq_false hnil] at htest
    exact Matches.jumpFalse_past htest harr'

theorem Arrives.since {its : Fin d → Nat} {vals : Fin d → LhatValue} {into : Nat} {s f g h : State W}
    (harr : Arrives n x its vals old standing into mark g v s h)
    (hkept : ∀ r, n ≤ r → r < mark → r ≠ into → g.registers r = f.registers r) :
    Arrives n x its vals old standing into mark f v s h :=
  ⟨harr.answer, harr.agrees, fun r hlow hlt hne =>
    (harr.kept r hlow hlt hne).trans (hkept r hlow hlt hne)⟩

theorem follows_opCatch {left : Expr n d} {right : Expr n (d + 1)} (hl : Follows A c old left)
    (hr : Follows A c old right) : Follows A c old (.opCatch left right) := by
  intro its vals into mark standing s f hp hag hreads
  rw [ReadsOld] at hreads
  rw [Compiler.compileExpression, eval]
  refine (hl its vals into mark standing s f hp hag hreads.1).andThen hreads.2
    fun v s₁ f₁ hbranch harr => ?_
  let caught := f₁.set mark (f₁.registers into)
  let tested := caught.set (mark + 1) (.bool (A.isError caught.world (caught.registers mark)))
  have harr' : Arrives n x its vals old standing into mark f v s₁ tested :=
    (harr.test hp (Nat.le_refl _) _).test hp (Nat.le_succ _) _
  have hcaught : tested.registers mark = v := by
    rw [← harr.answer]
    exact (State.set_ne (Nat.ne_of_lt (Nat.lt_succ_self _))).trans State.set_self
  have htest : tested.registers (mark + 1) = .bool (A.isError s₁.world v) := by
    rw [← harr.answer, ← harr.agrees.world]
    refine State.set_self.trans ?_
    rw [show caught.registers mark = f₁.registers into from State.set_self]
    rfl
  have hmove : ∀ rest, exec A 0 (.move mark into :: rest) f₁ = exec A 0 rest caught :=
    fun _ => rfl
  have hask : ∀ rest, exec A 0 (.isError (mark + 1) mark :: rest) caught = exec A 0 rest tested :=
    fun _ => rfl
  refine Matches.first hmove (Matches.first hask ?_)
  split
  · rename_i herror
    rw [herror] at htest
    refine Matches.jumpFalse_true htest (Matches.skips ?_ fun rest f' => rfl)
    have htaken : ∀ k, n ≤ (Fin.cons mark its : Fin (d + 1) → Nat) k ∧
        (Fin.cons mark its : Fin (d + 1) → Nat) k < mark + 2 := by
      intro k
      refine Fin.cases ⟨hp.low, by simp⟩ (fun k => ?_) k
      exact ⟨(hp.taken k).1, Nat.lt_add_right 2 (hp.taken k).2⟩
    have hp' : Placed n x (Fin.cons mark its) into (mark + 2) := by
      refine ⟨⟨hp.target, Nat.le_add_right_of_le hp.low, htaken⟩, hp.place.imp id ?_⟩
      rintro ⟨hlow, hlt, hne⟩
      refine ⟨hlow, Nat.lt_add_right 2 hlt, fun k => Fin.cases ?_ (fun k => ?_) k⟩
      · exact Nat.ne_of_gt hlt
      · exact hne k
    have hag' : Agrees n x (Fin.cons mark its) (Fin.cons v vals) old
        (if decide (into = x) then v else standing) s₁ tested := by
      refine ⟨harr'.agrees.locals, harr'.agrees.old, harr'.agrees.standing, fun k => ?_,
        harr'.agrees.world⟩
      exact Fin.cases hcaught (fun k => harr'.agrees.its k) k
    refine (hr (Fin.cons mark its) (Fin.cons v vals) into (mark + 2) _ s₁ tested hp' hag'
      (hbranch herror)).imp fun v' s' f' hend => ?_
    have hback : Arrives n x its vals old (if decide (into = x) then v else standing) into mark
        tested v' s' f' := by
      refine ⟨hend.answer, ⟨hend.agrees.locals, hend.agrees.old, hend.agrees.standing,
        fun k => hend.agrees.its k.succ, hend.agrees.world⟩, fun r hlow hlt hne => ?_⟩
      exact hend.kept r hlow (Nat.lt_add_right 2 hlt) hne
    exact hback.after harr'.kept
  · rename_i herror
    rw [Bool.eq_false_iff.mpr herror] at htest
    exact Matches.jumpFalse_past htest harr'

theorem emitErrorEscape_matches {α : Type} {source : Nat} {s f : State W}
    {arrives : α → State W → State W → Prop} (hv : f.registers source = v)
    (hx : f.registers x = old) (hworld : f.world = s.world) :
    Matches A old (c.emitErrorEscape source) f ((.left v, s) : Result W α) arrives := by
  unfold Compiler.emitErrorEscape
  split
  · exact ⟨f, fun _ => by rw [← hv]; rfl, hx, hworld⟩
  · rename_i caught _
    unfold emitMove
    split
    · rename_i hsame
      exact ⟨f, fun _ => by rw [← hv, ← hsame]; rfl, hx, hworld⟩
    · refine ⟨f.set caught (f.registers source), fun rest => ?_,
        (State.set_ne (Ne.symm caught.property.2)).trans hx, hworld⟩
      show ((.left ((f.set caught (f.registers source)).registers caught) : Outcome Unit), _) = _
      rw [State.set_self, hv]

theorem follows_tryHat {operand : Expr n d} (h : Follows A c old operand) :
    Follows A c old (.tryHat operand) := by
  intro its vals into mark standing s f hp hag hreads
  rw [ReadsOld] at hreads
  rw [Compiler.compileExpression, eval]
  refine (h its vals into mark standing s f hp hag hreads.1).andThen hreads.2
    fun v s₁ f₁ hleaves harr => ?_
  let tested := f₁.set mark (.bool (A.isError f₁.world (f₁.registers into)))
  have harr' : Arrives n x its vals old standing into mark f v s₁ tested :=
    harr.test hp (Nat.le_refl _) _
  have htest : tested.registers mark = .bool (A.isError s₁.world v) := by
    rw [← harr.answer, ← harr.agrees.world]
    exact State.set_self
  have hrun : ∀ rest, exec A 0 (.isError mark into :: rest) f₁ = exec A 0 rest tested :=
    fun _ => rfl
  refine Matches.first hrun ?_
  split
  · rename_i herror
    rw [herror] at htest
    exact Matches.jumpFalse_true htest (emitErrorEscape_matches harr'.answer
      (harr'.place (hleaves herror)) harr'.agrees.world)
  · rename_i herror
    rw [Bool.eq_false_iff.mpr herror] at htest
    exact Matches.jumpFalse_past htest harr'

theorem follows_panic {value : Expr n d} (h : Follows A c old value) :
    Follows A c old (.panic value) := by
  intro its vals into mark standing s f hp hag hreads
  rw [ReadsOld] at hreads
  rw [Compiler.compileExpression, eval]
  refine (h.next hp.toTaken hag hreads.1).andThen hreads.2
    fun v s₁ f₁ hstanding ⟨_, hag₁, _⟩ => ?_
  exact ⟨f₁, fun _ => rfl, hag₁.standing.trans hstanding, hag₁.world⟩

end Lhat.Assign
