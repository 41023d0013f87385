import Lhat.Assign.Forms

/-!
# Forms with any number of parts

Chains, tables, interpolated strings, the clauses of an `if^` and the arguments of a call.
-/

namespace Lhat.Assign

variable {into mark : Nat} {standing text : LhatValue} {op : BinaryOp} {format : Option LhatValue}
variable {W : Type} {n x d : Nat} {A : Atoms W n x} {c : Compiler n x} {old : LhatValue}

attribute [local simp] LinksReadOld evalLinks Compiler.compileLinks EntriesReadOld evalEntries
  Compiler.compileEntries ClausesReadOld evalClauses Compiler.compileClauses PartsReadOld evalParts
  Compiler.compileParts

theorem Arrives.stay {its : Fin d → Nat} {vals : Fin d → LhatValue}
    {v : LhatValue} {s s' f g h : State W} (hp : Placed n x its into mark)
    (harr : Arrives n x its vals old standing into mark f v s g)
    (hag : Agrees n x its vals old (if decide (into = x) then v else standing) s' h)
    (hkept : ∀ r, n ≤ r → r < mark → h.registers r = g.registers r) :
    Arrives n x its vals old standing into mark f v s' h := by
  refine ⟨?_, hag, fun r hlow hlt hne => (hkept r hlow hlt).trans (harr.kept r hlow hlt hne)⟩
  rcases hp.place with hinto | ⟨hlow, hlt, -⟩
  · have hstanding := hag.standing
    rw [decide_eq_true hinto] at hstanding
    rw [hinto]
    exact hstanding
  · exact (hkept into hlow hlt).trans harr.answer

/-! ### Chains -/

def FollowsLinks (A : Atoms W n x) (c : Compiler n x) (old : LhatValue) (links : Links n d) :
    Prop :=
  ∀ (its : Fin d → Nat) (vals : Fin d → LhatValue) (into mark left next : Nat)
    (standing answer a : LhatValue) (s f g : State W), Placed n x its into mark → mark ≤ left →
      left < next → Arrives n x its vals old standing into mark f answer s g →
        g.registers left = a →
          LinksReadOld A c old (decide (into = x)) vals
            (if decide (into = x) then answer else standing) answer a links s →
          Matches A old (c.compileLinks its into left next links) g
            (evalLinks A c vals answer a links s)
            (Arrives n x its vals old standing into mark f)

theorem link_matches {its : Fin d → Nat} {vals : Fin d → LhatValue} {left right : Nat}
    {first a b : LhatValue} {s f g : State W} {links : Links n d}
    (h : FollowsLinks A c old links) (hp : Placed n x its into mark) (hright : mark ≤ right)
    (hag : Agrees n x its vals old (if decide (into = x) then first else standing) s g)
    (hkept : ∀ r, n ≤ r → r < mark → r ≠ into → g.registers r = f.registers r)
    (ha : g.registers left = a) (hb : g.registers right = b)
    (hreads : (A.binary op a b s.world).ReadsOld old
      (if decide (into = x) then first else standing) s)
    (hafter : ((A.binary op a b s.world).perform s).After fun v s =>
      LinksReadOld A c old (decide (into = x)) vals
        (if decide (into = x) then v else standing) v b links s) :
    Matches A old (.binary op into left right :: c.compileLinks its into right (right + 1) links) g
      (((A.binary op a b s.world).perform s).andThen fun v s => evalLinks A c vals v b links s)
      (Arrives n x its vals old standing into mark f) := by
  have hrun : ∀ rest, exec A 0 (.binary op into left right :: rest) g =
      ((A.binary op a b s.world).perform g).andThen fun v g => exec A 0 rest (g.set into v) := by
    intro rest
    rw [← hag.world, ← ha, ← hb]
    rfl
  have hcompared : Matches A old [.binary op into left right] g
      ((A.binary op a b s.world).perform s) fun v s' f' =>
        Arrives n x its vals old standing into mark f v s' f' ∧ f'.registers right = b := by
    refine Act.matches hrun (fun k => (hp.taken k).1) hag hreads fun v s' f' hag' hsame => ⟨?_, ?_⟩
    · exact (Arrives.set hp hag' (fun r hlow _ _ => hsame r hlow) v).after hkept
    · have hne : right ≠ into := by
        have := hp.target
        have := hp.low
        rcases hp.place with rfl | ⟨-, hlt, -⟩ <;> omega
      exact (State.set_ne hne).trans ((hsame right (Nat.le_trans hp.low hright)).trans hb)
  exact hcompared.andThen hafter fun v s' f' hlinks ⟨harr, hleft⟩ =>
    h its vals into mark right (right + 1) standing v b s' f f' hp hright (Nat.lt_succ_self _)
      harr hleft hlinks

theorem followsLinks_nil : FollowsLinks A c old (.nil : Links n d) := by
  intro its vals into mark left next standing answer a s f g _ _ _ harr _ _
  rw [Compiler.compileLinks, evalLinks]
  exact Matches.here harr

theorem followsLinks_cons {operand : Expr n d} {rest : Links n d} (ho : Follows A c old operand)
    (hr : FollowsLinks A c old rest) : FollowsLinks A c old (.cons op operand rest) := by
  intro its vals into mark left next standing answer a s f g hp hleft hnext harr ha hreads
  rw [LinksReadOld] at hreads
  rw [Compiler.compileLinks, evalLinks.eq_def]
  dsimp only
  have htest := harr.answer
  split
  · obtain ⟨hreadso, hafter⟩ := hreads
    refine Matches.jumpFalse_true htest ?_
    have hmark : mark ≤ next := Nat.le_trans hleft (Nat.le_of_lt hnext)
    refine (ho.next (hp.toTaken.mono hmark) harr.agrees hreadso).andThen hafter
      fun b s₁ g₁ hop ⟨hb, hag₁, hkept⟩ => ?_
    refine link_matches hr hp hmark hag₁ (fun r hlow hlt hne => ?_)
      ((hkept left (Nat.le_trans hp.low hleft) hnext).trans ha) hb hop.1
      (hop.2.imp fun v s' hlinks => by rwa [stands_again] at hlinks)
    exact (hkept r hlow (Nat.lt_of_lt_of_le hlt hmark)).trans (harr.kept r hlow hlt hne)
  · exact Matches.jumpFalse_past htest harr
  · rename_i ht hf
    exact Matches.jumpFalse_fault (fun h => ht (htest.symm.trans h))
      (fun h => hf (htest.symm.trans h)) (harr.place (hreads.fault ht hf)) harr.agrees.world

theorem follows_chain {first second : Expr n d} {links : Links n d}
    (hf : Follows A c old first) (hs : Follows A c old second) (hl : FollowsLinks A c old links) :
    Follows A c old (.chain first op second links) := by
  intro its vals into mark standing s f hp hag hreads
  rw [ReadsOld] at hreads
  rw [Compiler.compileExpression, eval]
  refine (hf.next hp.toTaken hag hreads.1).andThen hreads.2
    fun a s₁ f₁ ⟨hreadss, hafter⟩ ⟨ha, hag₁, hkept₁⟩ => ?_
  refine (hs.next (hp.toTaken.mono (Nat.le_succ _)) hag₁ hreadss).andThen hafter
    fun b s₂ f₂ hop ⟨hb, hag₂, hkept₂⟩ => ?_
  have hstill : f₂.registers mark = a := (hkept₂ mark hp.low (Nat.lt_succ_self _)).trans ha
  -- nothing is in the place yet but what stood there
  have hplain : Agrees n x its vals old (if decide (into = x) then standing else standing) s₂ f₂ := by
    rw [ite_self]
    exact hag₂
  refine link_matches hl hp (Nat.le_succ _) hplain (fun r hlow hlt _ => ?_) hstill hb ?_ hop.2
  · exact (hkept₂ r hlow (Nat.lt_succ_of_lt hlt)).trans (hkept₁ r hlow hlt)
  · rw [ite_self]
    exact hop.1

/-! ### Tables -/

def FollowsEntries (A : Atoms W n x) (c : Compiler n x) (old : LhatValue)
    (entries : Entries n d) : Prop :=
  ∀ (its : Fin d → Nat) (vals : Fin d → LhatValue) (into mark : Nat) (standing table : LhatValue)
    (s f g : State W), Placed n x its into mark →
      Arrives n x its vals old standing into mark f table s g →
        EntriesReadOld A c old vals (if decide (into = x) then table else standing) table
          entries s →
        Matches A old (c.compileEntries its into mark entries) g
          (evalEntries A c vals table entries s)
          (Arrives n x its vals old standing into mark f)

theorem followsEntries_nil : FollowsEntries A c old (.nil : Entries n d) := by
  intro its vals into mark standing table s f g _ harr _
  rw [Compiler.compileEntries, evalEntries]
  exact Matches.here harr

theorem followsEntries_cons {key value : Expr n d} {rest : Entries n d}
    (hk : Follows A c old key) (hv : Follows A c old value) (hr : FollowsEntries A c old rest) :
    FollowsEntries A c old (.cons key value rest) := by
  intro its vals into mark standing table s f g hp harr hreads
  rw [EntriesReadOld] at hreads
  rw [Compiler.compileEntries, evalEntries]
  refine (hk.scratch hp.toTaken (Nat.le_refl _) (Nat.lt_add_of_pos_right Nat.zero_lt_two)
    harr.agrees hreads.1).andThen hreads.2 fun k s₁ g₁ ⟨hreadsv, hafter⟩ ⟨hkey, hag₁, hkept₁⟩ => ?_
  refine (hv.next (hp.toTaken.mono (Nat.le_succ _)) hag₁ hreadsv).andThen hafter
    fun v s₂ g₂ ⟨hset, hrest⟩ ⟨hvalue, hag₂, hkept₂⟩ => ?_
  have harr₂ : Arrives n x its vals old standing into mark f table s₂ g₂ :=
    harr.stay hp hag₂ fun r hlow hlt =>
      (hkept₂ r hlow (Nat.lt_succ_of_lt hlt)).trans (hkept₁ r hlow hlt)
  have hstill : g₂.registers mark = k := (hkept₂ mark hp.low (Nat.lt_succ_self _)).trans hkey
  have hrun : ∀ more, exec A 0 (.setIndex into mark (mark + 1) :: more) g₂ =
      ((A.setIndex table k v s₂.world).perform g₂).andThen fun _ g => exec A 0 more g := by
    intro more
    rw [← hag₂.world, ← harr₂.answer, ← hstill, ← hvalue]
    rfl
  have hentry : Matches A old [.setIndex into mark (mark + 1)] g₂
      ((A.setIndex table k v s₂.world).perform s₂) fun _ s' f' =>
        Arrives n x its vals old standing into mark f table s' f' :=
    Act.matches hrun (fun k => (hp.taken k).1) hag₂ hset fun _ s' f' hag' hsame =>
      harr₂.stay hp hag' fun r hlow _ => hsame r hlow
  exact hentry.andThen hrest fun _ s' f' hreads' harr' =>
    hr its vals into mark standing table s' f f' hp harr' hreads'

theorem follows_table {fields : Nat} {entries : Entries n d} (h : FollowsEntries A c old entries) :
    Follows A c old (.table fields entries) := by
  intro its vals into mark standing s f hp hag hreads
  rw [ReadsOld] at hreads
  rw [Compiler.compileExpression, eval]
  have hrun : ∀ rest, exec A 0 (.newTable into fields :: rest) f =
      ((A.newTable fields s.world).perform f).andThen fun v g => exec A 0 rest (g.set into v) := by
    intro rest
    rw [← hag.world]
    rfl
  exact (act_matches hp hag (fun _ _ _ _ => rfl) hreads.1 hrun).andThen hreads.2
    fun t s₁ f₁ hreads' harr => h its vals into mark standing t s₁ f f₁ hp harr hreads'

/-! ### The clauses of an `if^` -/

def FollowsClauses (A : Atoms W n x) (c : Compiler n x) (old : LhatValue)
    (clauses : Clauses n d) : Prop :=
  ∀ (its : Fin d → Nat) (vals : Fin d → LhatValue) (into mark leaving : Nat)
    (standing : LhatValue) (s f : State W), Placed n x its into mark →
      Agrees n x its vals old standing s f →
        ClausesReadOld A c old (decide (into = x)) vals standing leaving clauses s →
          Matches A old (c.compileClauses its into mark leaving clauses) f
            (evalClauses A c vals clauses s) (Arrives n x its vals old standing into mark f)

theorem followsClauses_other {body : Expr n d} (h : Follows A c old body) :
    FollowsClauses A c old (.other body) := by
  intro its vals into mark leaving standing s f hp hag hreads
  rw [ClausesReadOld] at hreads
  rw [Compiler.compileClauses, evalClauses]
  exact h its vals into mark standing s f hp hag hreads

theorem followsClauses_cons {condition body : Expr n d} {rest : Clauses n d}
    (hc : Follows A c old condition) (hb : Follows A c old body)
    (hr : FollowsClauses A c old rest) : FollowsClauses A c old (.cons condition body rest) := by
  intro its vals into mark leaving standing s f hp hag hreads
  rw [ClausesReadOld] at hreads
  rw [Compiler.compileClauses, evalClauses]
  refine (hc.next hp.toTaken hag hreads.1).andThen hreads.2
    fun v s₁ f₁ hbranch ⟨htest, hag₁, hkept⟩ => ?_
  have hbefore : ∀ r, n ≤ r → r < mark → r ≠ into → f₁.registers r = f.registers r :=
    fun r hlow hlt _ => hkept r hlow hlt
  generalize hout : (if leaving < maxLocals then
    [Instruction.jump (c.compileClauses its into mark (leaving + 1) rest).length] else []) = out
  split
  · obtain ⟨hroom, hreadsb⟩ := hbranch
    rw [if_pos hroom] at hout
    rw [← hout, List.append_assoc]
    refine Matches.jumpFalse_true htest (Matches.skips ?_ fun rest f' => ?_)
    · exact (hb its vals into mark standing s₁ f₁ hp hag₁ hreadsb).imp
        fun _ _ _ harr => harr.since hbefore
    · exact exec_past A _ rest f'
  · exact Matches.jumpFalse_false _ htest
      ((hr its vals into mark (leaving + 1) standing s₁ f₁ hp hag₁ hbranch).imp
        fun _ _ _ harr => harr.since hbefore)
  · rename_i ht hf
    exact Matches.jumpFalse_fault (fun h => ht (htest.symm.trans h))
      (fun h => hf (htest.symm.trans h)) (hag₁.standing.trans (hbranch.fault ht hf)) hag₁.world

theorem follows_ifExpr {clauses : Clauses n d} (h : FollowsClauses A c old clauses) :
    Follows A c old (.ifExpr clauses) := by
  intro its vals into mark standing s f hp hag hreads
  rw [ReadsOld] at hreads
  rw [Compiler.compileExpression, eval]
  exact h its vals into mark 0 standing s f hp hag hreads

/-! ### Interpolated strings -/

section

variable {its : Fin d → Nat} {vals : Fin d → LhatValue} {into mark : Nat}
  {standing v piece : LhatValue} {s f g : State W} {joined : Option LhatValue}

/-- What is in the register of `x` once some pieces are joined. -/
def standsJoined (direct : Bool) (standing : LhatValue) (joined : Option LhatValue) : LhatValue :=
  joined.elim standing fun text => if direct then text else standing

/-- The pieces so far are joined in the place, if there are any. -/
def Joins (n x : Nat) (its : Fin d → Nat) (vals : Fin d → LhatValue) (old standing : LhatValue)
    (into mark : Nat) (f : State W) (joined : Option LhatValue) (s g : State W) : Prop :=
  Agrees n x its vals old (standsJoined (decide (into = x)) standing joined) s g ∧
    (∀ r, n ≤ r → r < mark → r ≠ into → g.registers r = f.registers r) ∧
      ∀ text, joined = some text → g.registers into = text

theorem Joins.stay {s' h : State W} (hp : Placed n x its into mark)
    (hj : Joins n x its vals old standing into mark f joined s g)
    (hag : Agrees n x its vals old (standsJoined (decide (into = x)) standing joined) s' h)
    (hkept : ∀ r, n ≤ r → r < mark → h.registers r = g.registers r) :
    Joins n x its vals old standing into mark f joined s' h := by
  refine ⟨hag, fun r hlow hlt hne => (hkept r hlow hlt).trans (hj.2.1 r hlow hlt hne), ?_⟩
  rintro text rfl
  have harr : Arrives n x its vals old standing into mark f text s g :=
    ⟨hj.2.2 text rfl, hj.1, hj.2.1⟩
  exact (harr.stay hp hag hkept).answer

theorem join_matches (hp : Placed n x its into mark)
    (hj : Joins n x its vals old standing into mark f joined s g)
    (hpiece : g.registers mark = piece)
    (hreads : JoinReadsOld A old (standsJoined (decide (into = x)) standing joined) joined
      piece s) :
    Matches A old
      [if joined.isSome then .binary .concat into into mark else .move into mark] g
      (join A joined piece s) (Arrives n x its vals old standing into mark f) := by
  obtain ⟨hag, hkept, htext⟩ := hj
  cases joined with
  | none =>
    exact ⟨g.set into piece, fun _ => by rw [← hpiece]; rfl, Arrives.set hp hag hkept piece⟩
  | some text =>
    have hrun : ∀ rest, exec A 0 (.binary .concat into into mark :: rest) g =
        ((A.binary .concat text piece s.world).perform g).andThen
          fun v g => exec A 0 rest (g.set into v) := by
      intro rest
      rw [← hag.world, ← htext text rfl, ← hpiece]
      rfl
    exact (act_matches hp hag hkept hreads hrun).imp
      fun _ _ _ harr => harr.after fun _ _ _ _ => rfl

theorem callMethod_matches {given : Nat} {callee : LhatValue} {arguments : List LhatValue}
    (ht : Taken n x its mark) (hag : Agrees n x its vals old standing s g)
    (hcallee : g.registers mark = callee)
    (hgiven : ((List.range (given + 1)).map fun i => g.registers (mark + 1 + i)) = arguments)
    (hreads : (A.callMethod callee arguments s.world).ReadsOld old standing s) :
    Matches A old [.callMethod mark given] g ((A.callMethod callee arguments s.world).perform s)
      fun piece s' g' => g'.registers mark = piece ∧ Agrees n x its vals old standing s' g' ∧
        ∀ r, n ≤ r → r < mark → g'.registers r = g.registers r := by
  have hrun : ∀ rest, exec A 0 (.callMethod mark given :: rest) g =
      ((A.callMethod callee arguments s.world).perform g).andThen
        fun v g => exec A 0 rest (g.answer mark v (A.leavings g.world)) := by
    intro rest
    rw [← hag.world, ← hcallee, ← hgiven]
    rfl
  refine Act.matches hrun (fun k => (ht.taken k).1) hag hreads fun piece s' g' hag' hsame => ?_
  exact ⟨State.answer_self, hag'.scratch ht (fun r hlt => State.answer_below hlt) rfl,
    fun r hlow hlt => (State.answer_below hlt).trans (hsame r hlow)⟩

/-- The code of a hole, after that of its value. -/
def holeCode (c : Compiler n x) (mark : Nat) (format : Option LhatValue) : List Instruction :=
  .load (mark + 2) c.tostring :: .getIndex mark (mark + 1) (mark + 2) ::
    (match format with
      | some s => [.load (mark + 2) s, .callMethod mark 1]
      | none => [.callMethod mark 0])

theorem written_matches (ht : Taken n x its mark)
    (hag : Agrees n x its vals old standing s g) (hv : g.registers (mark + 1) = v)
    (hreads : WrittenReadsOld A c old standing v format s) :
    Matches A old (holeCode c mark format) g (written A c v format s)
      fun piece s' g' => g'.registers mark = piece ∧ Agrees n x its vals old standing s' g' ∧
        ∀ r, n ≤ r → r < mark → g'.registers r = g.registers r := by
  obtain ⟨hindex, hcall⟩ := hreads
  let keyed := g.set (mark + 2) c.tostring
  have hbelow : ∀ (g : State W) (v : LhatValue) (r : Nat), r < mark →
      (g.set (mark + 2) v).registers r = g.registers r :=
    fun g v r hlt => State.set_ne (Nat.ne_of_lt (Nat.lt_add_right 2 hlt))
  have hag₁ : Agrees n x its vals old standing s keyed :=
    hag.scratch ht (hbelow g c.tostring) rfl
  have hload : ∀ rest, exec A 0 (.load (mark + 2) c.tostring :: rest) g = exec A 0 rest keyed :=
    fun _ => rfl
  refine Matches.first hload ?_
  have hrun : ∀ rest, exec A 0 (.getIndex mark (mark + 1) (mark + 2) :: rest) keyed =
      ((A.getIndex v c.tostring s.world).perform keyed).andThen
        fun v g => exec A 0 rest (g.set mark v) := by
    intro rest
    have hkey : keyed.registers (mark + 2) = c.tostring := State.set_self
    have hreceiver : keyed.registers (mark + 1) = v :=
      (State.set_ne (Nat.ne_of_lt (Nat.lt_succ_self _))).trans hv
    show ((A.getIndex (keyed.registers (mark + 1)) (keyed.registers (mark + 2))
      keyed.world).perform keyed).andThen _ = _
    rw [hkey, hreceiver, hag₁.world]
  have hfound : Matches A old [.getIndex mark (mark + 1) (mark + 2)] keyed
      ((A.getIndex v c.tostring s.world).perform s) fun callee s' g' =>
        g'.registers mark = callee ∧ g'.registers (mark + 1) = v ∧
          Agrees n x its vals old standing s' g' ∧
            ∀ r, n ≤ r → r < mark → g'.registers r = g.registers r := by
    refine Act.matches hrun (fun k => (ht.taken k).1) hag₁ hindex fun callee s' g' hag' hsame => ?_
    have hlow : n ≤ mark + 1 := Nat.le_succ_of_le ht.low
    have hreceiver : keyed.registers (mark + 1) = v :=
      (State.set_ne (Nat.ne_of_lt (Nat.lt_succ_self _))).trans hv
    refine ⟨State.set_self, ?_, ?_, fun r hr hlt => ?_⟩
    · exact (State.set_ne (Nat.ne_of_gt (Nat.lt_succ_self _))).trans
        ((hsame _ hlow).trans hreceiver)
    · exact hag'.scratch ht (fun r hlt => State.set_ne (Nat.ne_of_lt hlt)) rfl
    · exact (State.set_ne (Nat.ne_of_lt hlt)).trans ((hsame r hr).trans (hbelow g _ r hlt))
  refine hfound.andThen hcall fun callee s' g' hcall ⟨hcallee, hreceiver, hag', hkept⟩ => ?_
  cases format with
  | none =>
    refine (callMethod_matches ht hag' hcallee ?_ hcall).imp
      fun piece s'' g'' ⟨hpiece, hag'', hkept'⟩ =>
        ⟨hpiece, hag'', fun r hr hlt => (hkept' r hr hlt).trans (hkept r hr hlt)⟩
    exact congrArg (· :: []) hreceiver
  | some text =>
    let given := g'.set (mark + 2) text
    have hgiven : ∀ rest, exec A 0 (.load (mark + 2) text :: rest) g' = exec A 0 rest given :=
      fun _ => rfl
    refine Matches.first hgiven ?_
    refine (callMethod_matches ht (hag'.scratch ht (hbelow g' text) rfl)
      ((State.set_ne (Nat.ne_of_lt (Nat.lt_add_of_pos_right Nat.zero_lt_two))).trans hcallee)
      ?_ hcall).imp fun piece s'' g'' ⟨hpiece, hag'', hkept'⟩ =>
        ⟨hpiece, hag'', fun r hr hlt => (hkept' r hr hlt).trans
          ((hbelow g' text r hlt).trans (hkept r hr hlt))⟩
    show [given.registers (mark + 1), given.registers (mark + 2)] = [v, text]
    rw [show given.registers (mark + 2) = text from State.set_self,
      show given.registers (mark + 1) = g'.registers (mark + 1) from
        State.set_ne (Nat.ne_of_lt (Nat.lt_succ_self _)), hreceiver]

end

def FollowsParts (A : Atoms W n x) (c : Compiler n x) (old : LhatValue) (parts : Parts n d) :
    Prop :=
  ∀ (its : Fin d → Nat) (vals : Fin d → LhatValue) (into mark : Nat) (standing : LhatValue)
    (joined : Option LhatValue) (s f g : State W), Placed n x its into mark →
      Joins n x its vals old standing into mark f joined s g →
        PartsReadOld A c old (decide (into = x)) vals
          (standsJoined (decide (into = x)) standing joined) joined parts s →
        Matches A old (c.compileParts its into mark joined.isSome parts) g
          (evalParts A c vals joined parts s) (Arrives n x its vals old standing into mark f)

theorem Arrives.joins {its : Fin d → Nat} {vals : Fin d → LhatValue} {s f g : State W}
    (harr : Arrives n x its vals old standing into mark f text s g) :
    Joins n x its vals old standing into mark f (some text) s g :=
  ⟨harr.agrees, harr.kept, fun _ h => harr.answer.trans (Option.some.inj h)⟩

theorem stands_joined {direct : Bool} {joined : Option LhatValue} :
    (if direct then text else standsJoined direct standing joined) =
      standsJoined direct standing (some text) := by
  cases direct with
  | true => rfl
  | false => cases joined <;> rfl

theorem followsParts_nil : FollowsParts A c old (.nil : Parts n d) := by
  intro its vals into mark standing joined s f g hp hj _
  rw [Compiler.compileParts, evalParts]
  cases joined with
  | none => exact ⟨_, fun _ => rfl, Arrives.set hp hj.1 hj.2.1 c.emptyString⟩
  | some text => exact Matches.here ⟨hj.2.2 text rfl, hj.1, hj.2.1⟩

theorem piece_matches {parts : Parts n d} (h : FollowsParts A c old parts) {its : Fin d → Nat}
    {vals : Fin d → LhatValue} {piece : LhatValue}
    {joined : Option LhatValue} {s f g : State W} (hp : Placed n x its into mark)
    (hj : Joins n x its vals old standing into mark f joined s g)
    (hpiece : g.registers mark = piece)
    (hreads : JoinReadsOld A old (standsJoined (decide (into = x)) standing joined) joined
      piece s)
    (hafter : (join A joined piece s).After fun text s =>
      PartsReadOld A c old (decide (into = x)) vals
        (if decide (into = x) then text else standsJoined (decide (into = x)) standing joined)
        (some text) parts s) :
    Matches A old
      ((if joined.isSome then Instruction.binary .concat into into mark else .move into mark) ::
        c.compileParts its into mark true parts) g
      ((join A joined piece s).andThen fun text s => evalParts A c vals (some text) parts s)
      (Arrives n x its vals old standing into mark f) := by
  refine (join_matches hp hj hpiece hreads).andThen hafter fun text s' f' hparts harr => ?_
  rw [stands_joined] at hparts
  exact h its vals into mark standing (some text) s' f f' hp harr.joins hparts

theorem followsParts_text {rest : Parts n d} (h : FollowsParts A c old rest) :
    FollowsParts A c old (.text text rest) := by
  intro its vals into mark standing joined s f g hp hj hreads
  rw [PartsReadOld] at hreads
  rw [Compiler.compileParts, evalParts]
  have hload : ∀ more, exec A 0 (.load mark text :: more) g = exec A 0 more (g.set mark text) :=
    fun _ => rfl
  have hbelow : ∀ r < mark, (g.set mark text).registers r = g.registers r :=
    fun r hlt => State.set_ne (Nat.ne_of_lt hlt)
  refine Matches.first hload (piece_matches h hp ?_ State.set_self hreads.1 hreads.2)
  exact hj.stay hp (hj.1.scratch hp.toTaken hbelow rfl) fun r _ hlt => hbelow r hlt

theorem compileParts_hole {its : Fin d → Nat} {started : Bool}
    {value : Expr n d} {rest : Parts n d} :
    c.compileParts its into mark started (.hole value format rest) =
      c.compileExpression its (mark + 1) (mark + 3) value ++ (holeCode c mark format ++
        ((if started then Instruction.binary .concat into into mark else .move into mark) ::
          c.compileParts its into mark true rest)) := rfl

theorem followsParts_hole {value : Expr n d} {rest : Parts n d} (hv : Follows A c old value)
    (h : FollowsParts A c old rest) : FollowsParts A c old (.hole value format rest) := by
  intro its vals into mark standing joined s f g hp hj hreads
  rw [PartsReadOld] at hreads
  rw [compileParts_hole, evalParts]
  refine (hv.scratch hp.toTaken (Nat.le_succ _) (Nat.lt_add_of_pos_right Nat.zero_lt_two) hj.1
    hreads.1).andThen hreads.2 fun v s₁ g₁ ⟨hwritten, hafter⟩ ⟨hvalue, hag₁, hkept₁⟩ => ?_
  refine (written_matches hp.toTaken hag₁ hvalue hwritten).andThen hafter
    fun piece s₂ g₂ ⟨hjoin, hparts⟩ ⟨hpiece, hag₂, hkept₂⟩ => ?_
  refine piece_matches h hp (hj.stay hp hag₂ fun r hlow hlt => ?_) hpiece hjoin hparts
  exact (hkept₂ r hlow hlt).trans (hkept₁ r hlow (Nat.lt_succ_of_lt hlt))

theorem follows_interp {parts : Parts n d} (h : FollowsParts A c old parts) :
    Follows A c old (.interp parts) := by
  intro its vals into mark standing s f hp hag hreads
  rw [ReadsOld] at hreads
  rw [Compiler.compileExpression, eval]
  exact h its vals into mark standing none s f f hp ⟨hag, fun _ _ _ _ => rfl, nofun⟩ hreads

end Lhat.Assign
