import Lhat.Assign.Evaluation

/-!
# Code that does what an expression stands for

The registers of the body and the state that the expression is evaluated in agree on the
locals, but for the place that is assigned to. Code matches a result when it arrives where the
result does, or leaves with `x` holding what it held before.
-/

namespace Lhat.Assign

variable {v : LhatValue} {r : Nat}
variable {W : Type} {n x d : Nat} {A : Atoms W n x} {old standing : LhatValue}
  {its : Fin d → Nat} {vals : Fin d → LhatValue} {into mark : Nat} {s f : State W}

/-! ### Running code -/

theorem exec_past (A : Atoms W n x) (code rest : List Instruction) (s : State W) :
    exec A code.length (code ++ rest) s = exec A 0 rest s := by
  induction code with
  | nil => rfl
  | cons instruction code ih => exact ih

theorem State.set_self : (s.set r v).registers r = v :=
  Function.update_self ..

theorem State.set_ne {r' : Nat} (h : r' ≠ r) :
    (s.set r v).registers r' = s.registers r' := Function.update_of_ne h ..

theorem State.answer_self {leavings : Nat → LhatValue} {callee : Nat} :
    (s.answer callee v leavings).registers callee = v := by
  unfold State.answer
  dsimp only
  rw [if_neg (Nat.lt_irrefl _), if_pos rfl]

theorem State.answer_below {leavings : Nat → LhatValue} {callee : Nat}
    (h : r < callee) : (s.answer callee v leavings).registers r = s.registers r := if_pos h

theorem Result.After.imp {α : Type} {r : Result W α} {P Q : α → State W → Prop}
    (h : r.After P) (himp : ∀ v s, P v s → Q v s) : r.After Q := by
  obtain ⟨o, s⟩ := r
  cases o with
  | value v => exact himp v s h
  | left v => trivial
  | fault => trivial

/-- The states agree on the locals but for `x`, where `standing` is what the code has put. -/
structure Agrees (n x : Nat) (its : Fin d → Nat) (vals : Fin d → LhatValue)
    (old standing : LhatValue) (s f : State W) : Prop where
  locals : ∀ r < n, r ≠ x → f.registers r = s.registers r
  old : s.registers x = old
  standing : f.registers x = standing
  its : ∀ k, f.registers (its k) = vals k
  world : f.world = s.world

/-- The registers that are taken are below the next one. -/
structure Taken (n x : Nat) (its : Fin d → Nat) (mark : Nat) : Prop where
  target : x < n
  low : n ≤ mark
  taken : ∀ k, n ≤ its k ∧ its k < mark

/-- An answer goes to `x` or above the locals. -/
structure Placed (n x : Nat) (its : Fin d → Nat) (into mark : Nat) : Prop
    extends Taken n x its mark where
  place : into = x ∨ (n ≤ into ∧ into < mark ∧ ∀ k, its k ≠ into)

/-- What code does with a result: it arrives, or it leaves as the result does. -/
def Matches {α : Type} (A : Atoms W n x) (old : LhatValue) (code : List Instruction)
    (f : State W) (r : Result W α) (arrives : α → State W → State W → Prop) : Prop :=
  match r with
  | (.value v, s) =>
    ∃ f', (∀ rest, exec A 0 (code ++ rest) f = exec A 0 rest f') ∧ arrives v s f'
  | (.left v, s) =>
    ∃ f', (∀ rest, exec A 0 (code ++ rest) f = (.left v, f')) ∧ f'.registers x = old ∧
      f'.world = s.world
  | (.fault, s) =>
    ∃ f', (∀ rest, exec A 0 (code ++ rest) f = (.fault, f')) ∧ f'.registers x = old ∧
      f'.world = s.world

/-- An answer is where it was to go, and what was taken before is as it was. -/
structure Arrives (n x : Nat) (its : Fin d → Nat) (vals : Fin d → LhatValue)
    (old standing : LhatValue) (into mark : Nat) (f : State W) (v : LhatValue)
    (s f' : State W) : Prop where
  answer : f'.registers into = v
  agrees : Agrees n x its vals old (if decide (into = x) then v else standing) s f'
  kept : ∀ r, n ≤ r → r < mark → r ≠ into → f'.registers r = f.registers r

namespace Matches

variable {α β : Type} {code code' : List Instruction} {r : Result W α}
  {arrives : α → State W → State W → Prop} {arrives' : β → State W → State W → Prop}
  {k : α → State W → Result W β}

theorem andThen (h : Matches A old code f r arrives) {P : α → State W → Prop} (hp : r.After P)
    (hnext : ∀ v s f', P v s → arrives v s f' → Matches A old code' f' (k v s) arrives') :
    Matches A old (code ++ code') f (r.andThen k) arrives' := by
  obtain ⟨o, s⟩ := r
  cases o with
  | value v =>
    obtain ⟨f', hrun, harrives⟩ := h
    have hthen := hnext v s f' hp harrives
    show Matches A old (code ++ code') f (k v s) arrives'
    have hboth : ∀ rest, exec A 0 ((code ++ code') ++ rest) f = exec A 0 (code' ++ rest) f' := by
      intro rest
      rw [List.append_assoc, hrun]
    unfold Matches at hthen ⊢
    split at hthen
    all_goals
      obtain ⟨f'', hrun', hends⟩ := hthen
      exact ⟨f'', fun rest => (hboth rest).trans (hrun' rest), hends⟩
  | left v =>
    obtain ⟨f', hrun, hends⟩ := h
    exact ⟨f', fun rest => by rw [List.append_assoc, hrun], hends⟩
  | fault =>
    obtain ⟨f', hrun, hends⟩ := h
    exact ⟨f', fun rest => by rw [List.append_assoc, hrun], hends⟩

theorem imp (h : Matches A old code f r arrives) {arrives' : α → State W → State W → Prop}
    (himp : ∀ v s f', arrives v s f' → arrives' v s f') : Matches A old code f r arrives' := by
  obtain ⟨o, s⟩ := r
  cases o with
  | value v =>
    obtain ⟨f', hrun, harrives⟩ := h
    exact ⟨f', hrun, himp v s f' harrives⟩
  | left v => exact h
  | fault => exact h

theorem jumps {f' : State W} (h : Matches A old code' f' r arrives)
    (hrun : ∀ rest, exec A 0 (code ++ rest) f = exec A 0 (code' ++ rest) f') :
    Matches A old code f r arrives := by
  obtain ⟨o, s⟩ := r
  cases o with
  | value v =>
    obtain ⟨f'', hrun', harrives⟩ := h
    exact ⟨f'', fun rest => (hrun rest).trans (hrun' rest), harrives⟩
  | left v =>
    obtain ⟨f'', hrun', hends⟩ := h
    exact ⟨f'', fun rest => (hrun rest).trans (hrun' rest), hends⟩
  | fault =>
    obtain ⟨f'', hrun', hends⟩ := h
    exact ⟨f'', fun rest => (hrun rest).trans (hrun' rest), hends⟩

theorem first {instruction : Instruction} {f' : State W}
    (hrun : ∀ rest, exec A 0 (instruction :: rest) f = exec A 0 rest f')
    (h : Matches A old code f' r arrives) : Matches A old (instruction :: code) f r arrives :=
  h.jumps fun rest => hrun (code ++ rest)

theorem skips (h : Matches A old code f r arrives)
    (hskip : ∀ rest f', exec A 0 (code' ++ rest) f' = exec A 0 rest f') :
    Matches A old (code ++ code') f r arrives := by
  obtain ⟨o, s⟩ := r
  cases o with
  | value v =>
    obtain ⟨f', hrun, harrives⟩ := h
    exact ⟨f', fun rest => by rw [List.append_assoc, hrun, hskip], harrives⟩
  | left v =>
    obtain ⟨f', hrun, hends⟩ := h
    exact ⟨f', fun rest => by rw [List.append_assoc, hrun], hends⟩
  | fault =>
    obtain ⟨f', hrun, hends⟩ := h
    exact ⟨f', fun rest => by rw [List.append_assoc, hrun], hends⟩

theorem here {v : α} (h : arrives v s f) : Matches A old [] f (.value v, s) arrives :=
  ⟨f, fun _ => rfl, h⟩

/-! ### Jumps -/

theorem jump (code : List Instruction) (h : Matches A old code' f r arrives) :
    Matches A old (.jump code.length :: (code ++ code')) f r arrives := by
  refine h.jumps fun rest => ?_
  show exec A code.length ((code ++ code') ++ rest) f = _
  rw [List.append_assoc, exec_past]

theorem jump_past {v : α} (h : arrives v s f) :
    Matches A old (.jump code.length :: code) f (.value v, s) arrives := by
  have hpast : Matches A old (.jump code.length :: (code ++ [])) f (.value v, s) arrives :=
    jump code (here h)
  rwa [List.append_nil] at hpast

variable {test offset : Nat}

theorem jumpFalse_true (ht : f.registers test = .bool true) (h : Matches A old code f r arrives) :
    Matches A old (.jumpFalse test offset :: code) f r arrives := by
  refine h.jumps fun rest => ?_
  simp only [List.cons_append, exec, ht]

theorem jumpFalse_false (code : List Instruction) (ht : f.registers test = .bool false)
    (h : Matches A old code' f r arrives) :
    Matches A old (.jumpFalse test code.length :: (code ++ code')) f r arrives := by
  refine h.jumps fun rest => ?_
  simp only [List.cons_append, exec, ht]
  show exec A code.length ((code ++ code') ++ rest) f = _
  rw [List.append_assoc, exec_past]

theorem jumpFalse_past (ht : f.registers test = .bool false) {v : α} (h : arrives v s f) :
    Matches A old (.jumpFalse test code.length :: code) f (.value v, s) arrives := by
  have hpast : Matches A old (.jumpFalse test code.length :: (code ++ [])) f (.value v, s)
      arrives := jumpFalse_false code ht (here h)
  rwa [List.append_nil] at hpast

theorem jumpFalse_fault (ht : f.registers test = .bool true → False)
    (hf : f.registers test = .bool false → False) (hx : f.registers x = old)
    (hworld : f.world = s.world) :
    Matches A old (.jumpFalse test offset :: code) f ((.fault, s) : Result W α) arrives := by
  refine ⟨f, fun rest => ?_, hx, hworld⟩
  rw [List.cons_append, exec]
  split
  · rename_i h
    exact (ht h).elim
  · rename_i h
    exact (hf h).elim
  · rfl

end Matches

theorem Branches.fault {P Q : Prop} (h : Branches old standing v P Q)
    (ht : v = .bool true → False) (hf : v = .bool false → False) : standing = old := by
  unfold Branches at h
  split at h
  · exact (ht rfl).elim
  · exact (hf rfl).elim
  · exact h

/-! ### Registers -/

namespace Taken

variable {mark' r : Nat}

theorem mono (h : Taken n x its mark) (hle : mark ≤ mark') : Taken n x its mark' :=
  ⟨h.target, Nat.le_trans h.low hle, fun k =>
    ⟨(h.taken k).1, Nat.lt_of_lt_of_le (h.taken k).2 hle⟩⟩

theorem scratch (h : Taken n x its mark) (hr : mark ≤ r) (hlt : r < mark') :
    Placed n x its r mark' :=
  ⟨h.mono (Nat.le_trans hr (Nat.le_of_lt hlt)), Or.inr ⟨Nat.le_trans h.low hr, hlt, fun k =>
    Nat.ne_of_lt (Nat.lt_of_lt_of_le (h.taken k).2 hr)⟩⟩

theorem ne (h : Taken n x its mark) (hr : mark ≤ r) : r ≠ x :=
  Nat.ne_of_gt (Nat.lt_of_lt_of_le h.target (Nat.le_trans h.low hr))

end Taken

theorem stands_scratch (h : r ≠ x) :
    (if decide (r = x) then v else standing) = standing := by
  rw [decide_eq_false h]
  rfl

theorem stands_again {direct : Bool} {first : LhatValue} :
    (if direct then v else if direct then first else standing) =
      if direct then v else standing := by
  cases direct <;> rfl

namespace Agrees

theorem set (h : Agrees n x its vals old standing s f) (hp : Placed n x its into mark)
    (v : LhatValue) :
    Agrees n x its vals old (if decide (into = x) then v else standing) s (f.set into v) := by
  have htarget := hp.target
  refine ⟨fun r hr hne => ?_, h.old, ?_, fun k => ?_, h.world⟩
  · refine (State.set_ne ?_).trans (h.locals r hr hne)
    rcases hp.place with rfl | ⟨hlow, -, -⟩
    · exact hne
    · omega
  · by_cases hinto : into = x
    · subst hinto
      rw [State.set_self, decide_eq_true rfl]
      rfl
    · rw [State.set_ne (Ne.symm hinto), decide_eq_false hinto, h.standing]
      rfl
  · refine (State.set_ne ?_).trans (h.its k)
    rcases hp.place with rfl | ⟨-, -, hne⟩
    · have := (hp.taken k).1
      omega
    · exact hne k

theorem scratch (h : Agrees n x its vals old standing s f) (hp : Taken n x its mark)
    {f' : State W} (hsame : ∀ r < mark, f'.registers r = f.registers r)
    (hworld : f'.world = f.world) : Agrees n x its vals old standing s f' := by
  refine ⟨fun r hr hne => ?_, h.old, ?_, fun k => ?_, hworld.trans h.world⟩
  · rw [hsame r (Nat.lt_of_lt_of_le hr hp.low)]
    exact h.locals r hr hne
  · rw [hsame x (Nat.lt_of_lt_of_le hp.target hp.low)]
    exact h.standing
  · rw [hsame _ (hp.taken k).2]
    exact h.its k

end Agrees

/-! ### What runs outside -/

/-- What an act does is the same for both, as long as it does not read `x` or finds there what
`x` held. -/
theorem Act.performs (act : Act W n x) (hits : ∀ k, n ≤ its k)
    (h : Agrees n x its vals old standing s f) (hreads : act.ReadsOld old standing s) :
    match act.perform s with
    | (.value v, s') =>
      ∃ f', act.perform f = (.value v, f') ∧ Agrees n x its vals old standing s' f' ∧
        ∀ r, n ≤ r → f'.registers r = f.registers r
    | (.left _, _) => False
    | (.fault, s') =>
      ∃ f', act.perform f = (.fault, f') ∧ standing = old ∧
        Agrees n x its vals old standing s' f' := by
  induction act generalizing s f with
  | done v w => exact ⟨_, rfl, ⟨h.locals, h.old, h.standing, h.its, rfl⟩, fun _ _ => rfl⟩
  | fault w => exact ⟨_, rfl, hreads, ⟨h.locals, h.old, h.standing, h.its, rfl⟩⟩
  | read r hr k ih =>
    have hsame : f.registers r = s.registers r := by
      by_cases hx : r = x
      · rw [hx, h.standing, h.old]
        exact hreads.1 hx
      · exact h.locals r hr hx
    have hnext := ih (s.registers r) h hreads.2
    unfold Act.perform
    rw [hsame]
    exact hnext
  | write r hr v k ih =>
    have hagrees : Agrees n x its vals old standing (s.set r v) (f.set r v) := by
      refine ⟨fun r' hr' hne => ?_, ?_, ?_, fun j => ?_, h.world⟩
      · by_cases heq : r' = r
        · subst heq
          rw [State.set_self, State.set_self]
        · rw [State.set_ne heq, State.set_ne heq]
          exact h.locals r' hr' hne
      · rw [State.set_ne (Ne.symm hr.2)]
        exact h.old
      · rw [State.set_ne (Ne.symm hr.2)]
        exact h.standing
      · rw [State.set_ne (Nat.ne_of_gt (Nat.lt_of_lt_of_le hr.1 (hits j)))]
        exact h.its j
    have hnext := ih hagrees hreads
    have hbelow : ∀ r', n ≤ r' → (f.set r v).registers r' = f.registers r' :=
      fun r' hr' => State.set_ne (Nat.ne_of_gt (Nat.lt_of_lt_of_le hr.1 hr'))
    unfold Act.perform
    split at hnext
    · obtain ⟨f', hrun, hag, hkept⟩ := hnext
      exact ⟨f', hrun, hag, fun r' hr' => (hkept r' hr').trans (hbelow r' hr')⟩
    · exact hnext
    · exact hnext

theorem Act.matches {act : Act W n x} {instruction : Instruction}
    {put : LhatValue → State W → State W} {arrives : LhatValue → State W → State W → Prop}
    (hrun : ∀ rest, exec A 0 (instruction :: rest) f =
      (act.perform f).andThen fun v g => exec A 0 rest (put v g))
    (hits : ∀ k, n ≤ its k) (h : Agrees n x its vals old standing s f)
    (hreads : act.ReadsOld old standing s)
    (hput : ∀ v s' f', Agrees n x its vals old standing s' f' →
      (∀ r, n ≤ r → f'.registers r = f.registers r) → arrives v s' (put v f')) :
    Matches A old [instruction] f (act.perform s) arrives := by
  have hperforms := act.performs hits h hreads
  unfold Matches
  split at hperforms
  · rename_i v s' hvalue
    obtain ⟨f', hf, hag, hkept⟩ := hperforms
    rw [hvalue]
    refine ⟨put v f', fun rest => ?_, hput v s' f' hag hkept⟩
    rw [List.singleton_append, hrun, hf]
    rfl
  · exact hperforms.elim
  · rename_i s' hvalue
    obtain ⟨f', hf, hold, hag⟩ := hperforms
    rw [hvalue]
    refine ⟨f', fun rest => ?_, hag.standing.trans hold, hag.world⟩
    rw [List.singleton_append, hrun, hf]
    rfl

end Lhat.Assign
