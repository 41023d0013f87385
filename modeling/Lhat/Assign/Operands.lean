import Lhat.Assign.Matching

/-!
# Operands

An operand that is a name is read where it lies. Any other is put above what is taken.
-/

namespace Lhat.Assign

variable {W : Type} {n x d : Nat} {A : Atoms W n x} {c : Compiler n x}
  {old standing : LhatValue} {its : Fin d → Nat} {vals : Fin d → LhatValue} {into mark : Nat}
  {s f g : State W} {v : LhatValue}

/-! ### Answers -/

theorem Arrives.set (hp : Placed n x its into mark) (h : Agrees n x its vals old standing s g)
    (hkept : ∀ r, n ≤ r → r < mark → r ≠ into → g.registers r = f.registers r) (v : LhatValue) :
    Arrives n x its vals old standing into mark f v s (g.set into v) :=
  ⟨State.set_self, h.set hp v, fun r hlow hlt hne =>
    (State.set_ne hne).trans (hkept r hlow hlt hne)⟩

theorem Arrives.after {first : LhatValue} {s' : State W}
    (h : Arrives n x its vals old (if decide (into = x) then first else standing) into mark g v
      s' s)
    (hkept : ∀ r, n ≤ r → r < mark → r ≠ into → g.registers r = f.registers r) :
    Arrives n x its vals old standing into mark f v s' s := by
  refine ⟨h.answer, ?_, fun r hlow hlt hne => (h.kept r hlow hlt hne).trans (hkept r hlow hlt hne)⟩
  have hagrees := h.agrees
  by_cases hinto : into = x
  · rw [decide_eq_true hinto] at hagrees ⊢
    exact hagrees
  · rw [decide_eq_false hinto] at hagrees ⊢
    exact hagrees

theorem Arrives.scratch {r : Nat} (hr : r ≠ x)
    (h : Arrives n x its vals old standing r mark f v s g) :
    Agrees n x its vals old standing s g := by
  have hagrees := h.agrees
  rw [stands_scratch hr] at hagrees
  exact hagrees

theorem matches_set {code : List Instruction} (hp : Placed n x its into mark)
    (h : Agrees n x its vals old standing s f)
    (hrun : ∀ rest, exec A 0 (code ++ rest) f = exec A 0 rest (f.set into v)) :
    Matches A old code f (.value v, s) (Arrives n x its vals old standing into mark f) :=
  ⟨f.set into v, hrun, Arrives.set hp h (fun _ _ _ _ => rfl) v⟩

theorem emitMove_matches {source : Nat} (hp : Placed n x its into mark)
    (h : Agrees n x its vals old standing s f) (hv : f.registers source = v) :
    Matches A old (emitMove into source) f (.value v, s)
      (Arrives n x its vals old standing into mark f) := by
  unfold emitMove
  by_cases hsame : into = source
  · subst hsame
    rw [if_pos rfl]
    refine ⟨f, fun _ => rfl, hv, ⟨h.locals, h.old, ?_, h.its, h.world⟩, fun _ _ _ _ => rfl⟩
    by_cases hinto : into = x
    · rw [decide_eq_true hinto, ← hinto, hv]
      rfl
    · rw [decide_eq_false hinto]
      exact h.standing
  · rw [if_neg hsame]
    exact matches_set hp h fun rest => by rw [← hv]; rfl

theorem act_matches {act : Act W n x} {instruction : Instruction}
    (hp : Placed n x its into mark) (h : Agrees n x its vals old standing s g)
    (hkept : ∀ r, n ≤ r → r < mark → r ≠ into → g.registers r = f.registers r)
    (hreads : act.ReadsOld old standing s)
    (hrun : ∀ rest, exec A 0 (instruction :: rest) g =
      (act.perform g).andThen fun v g => exec A 0 rest (g.set into v)) :
    Matches A old [instruction] g (act.perform s)
      (Arrives n x its vals old standing into mark f) := by
  refine Act.matches hrun (fun k => (hp.taken k).1) h hreads fun v s' f' hag hsame => ?_
  exact Arrives.set hp hag
    (fun r hlow hlt hne => (hsame r hlow).trans (hkept r hlow hlt hne)) v

/-! ### Names -/

theorem Agrees.name (h : Agrees n x its vals old standing s f) (r : Fin n)
    (hreads : r.val = x → standing = old) : f.registers r = s.registers r := by
  by_cases hx : r.val = x
  · rw [hx, h.standing, h.old]
    exact hreads hx
  · exact h.locals r r.isLt hx

theorem forwarded {direct : Bool} {e : Expr n d} {home : Nat}
    (hhome : forwardableLocal its e = some home) (h : Agrees n x its vals old standing s f)
    (hreads : ReadsOld A c old direct vals standing e s) :
    eval A c vals e s = (.value (f.registers home), s) := by
  unfold forwardableLocal at hhome
  split at hhome
  · rename_i r
    cases hhome
    rw [eval, h.name r hreads]
  · rename_i k
    cases hhome
    rw [eval, h.its k]
  · cases hhome

theorem Result.After.and {α : Type} {r : Result W α} {P Q : α → State W → Prop}
    (hp : r.After P) (hq : r.After Q) : r.After fun v s => P v s ∧ Q v s := by
  obtain ⟨o, s⟩ := r
  cases o with
  | value v => exact ⟨hp, hq⟩
  | left v => trivial
  | fault => trivial

theorem Result.After.andThen {α β : Type} {r : Result W α} {k : α → State W → Result W β}
    {P : β → State W → Prop} (h : r.After fun v s => (k v s).After P) :
    (r.andThen k).After P := by
  obtain ⟨o, s⟩ := r
  cases o with
  | value v => exact h
  | left v => trivial
  | fault => trivial

theorem Act.Settled.registers {act : Act W n x} (h : act.Settled) :
    (act.perform s).After fun _ s' => s'.registers = s.registers := by
  cases act with
  | done v w => rfl
  | fault w => trivial
  | read r hr k => cases h
  | write r hr v k => cases h

theorem registers_runsNothing : ∀ {e : Expr n d} {direct : Bool} {s : State W},
    runsNothing e = true → ReadsOld A c old direct vals standing e s →
      (eval A c vals e s).After fun _ s' => s'.registers = s.registers
  | .literal v, _, _, _, _ => rfl
  | .name r, _, _, _, _ => rfl
  | .it k, _, _, _, _ => rfl
  | .binary op numeric left right, _, s, hnothing, hreads => by
    rw [runsNothing, Bool.and_eq_true, Bool.and_eq_true] at hnothing
    rw [ReadsOld] at hreads
    obtain ⟨⟨hnumeric, hleft⟩, hright⟩ := hnothing
    rw [eval]
    have hfirst := registers_runsNothing hleft hreads.1
    refine Result.After.andThen ((hreads.2.and hfirst).imp fun a s₁ h => ?_)
    obtain ⟨⟨hreads₁, hafter⟩, hsame₁⟩ := h
    have hsecond := registers_runsNothing hright hreads₁
    refine Result.After.andThen ((hafter.and hsecond).imp fun b s₂ h => ?_)
    obtain ⟨⟨hnumbers, -⟩, hsame₂⟩ := h
    obtain ⟨ha, hb⟩ := hnumbers hnumeric
    refine (A.numbers op a b s₂.world ha hb).registers.imp fun v s₃ hsame₃ => ?_
    rw [hsame₃, hsame₂, hsame₁]

end Lhat.Assign
