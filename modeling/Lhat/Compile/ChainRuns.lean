import Lhat.Compile.ChainFinished

/-!
# Running a chain

What the code of a construct does is said by the machine that runs it: conditions and bodies are
stretches of that code, each run until control leaves it, to its end or by a way out of its own.
`Evaluates` goes through the clauses as they are written, and the machine has to come to the same.
-/

namespace Lhat.Compile

open LhatOpcode Emitter Compiler

/-- What the instructions do that are no jumps, and the truth of a register. A register that holds
no truth stops the machine. -/
structure Machine (σ : Type) where
  other : LhatInstruction → Nat → σ → Option (Nat × σ)
  test : UInt8 → σ → Option Bool

section Machine

variable {σ : Type} (m : Machine σ) (code : List LhatInstruction)

/-- Control passes to a place, if it is one. -/
def landing (place : Int) (s : σ) : Option (Nat × σ) :=
  if place < 0 then none else some (place.toNat, s)

/-- One instruction. -/
def Machine.step (at' : Nat × σ) : Option (Nat × σ) :=
  match code[at'.1]? with
  | none => none
  | some i =>
    if lhatOp i = jump then landing ((at'.1 + 1 : Nat) + lhatJumpOffset i) at'.2
    else if lhatOp i = jumpFalse then
      match m.test (lhatA i) at'.2 with
      | none => none
      | some true => some (at'.1 + 1, at'.2)
      | some false => landing ((at'.1 + 1 : Nat) + lhatJumpOffset i) at'.2
    else m.other i at'.1 at'.2

/-- The machine comes from one state to another. -/
def Machine.Runs : Nat × σ → Nat × σ → Prop :=
  Relation.ReflTransGen fun a b => m.step code a = some b

/-- A stretch of code is run until control is outside. -/
inductive Machine.Exits (lo hi : Nat) : Nat × σ → Nat × σ → Prop
  | out {a : Nat × σ} (hout : ¬ (lo ≤ a.1 ∧ a.1 < hi)) : Exits lo hi a a
  | step {a b out : Nat × σ} (hin : lo ≤ a.1 ∧ a.1 < hi) (hstep : m.step code a = some b)
      (hrest : Exits lo hi b out) : Exits lo hi a out

/-- A body that was run to its end leaves for the place behind the chain. -/
def behind (ended done : Nat) (out : Nat × σ) : Nat × σ :=
  if out.1 = ended then (done, out.2) else out

/-- The clauses in their order: the body of the first whose condition is true. -/
inductive Machine.Evaluates (done missed : Nat) : List ClausePlaces → σ → Nat × σ → Prop
  | missed (s : σ) : Evaluates done missed [] s (missed, s)
  | left {p : ClausePlaces} {rest : List ClausePlaces} {k : Nat} {r : UInt8} {s : σ}
      {out : Nat × σ} (htested : p.tested = some (k, r))
      (hcondition : m.Exits code p.start k (p.start, s) out) (hout : out.1 ≠ k) :
      Evaluates done missed (p :: rest) s out
  | skipped {p : ClausePlaces} {rest : List ClausePlaces} {k : Nat} {r : UInt8} {s s' : σ}
      {out : Nat × σ} (htested : p.tested = some (k, r))
      (hcondition : m.Exits code p.start k (p.start, s) (k, s')) (hfalse : m.test r s' = some false)
      (hrest : Evaluates done missed rest s' out) : Evaluates done missed (p :: rest) s out
  | taken {p : ClausePlaces} {rest : List ClausePlaces} {k : Nat} {r : UInt8} {s s' : σ}
      {out : Nat × σ} (htested : p.tested = some (k, r))
      (hcondition : m.Exits code p.start k (p.start, s) (k, s')) (htrue : m.test r s' = some true)
      (hbody : m.Exits code p.body p.ended (p.body, s') out) :
      Evaluates done missed (p :: rest) s (behind p.ended done out)
  | otherwise {p : ClausePlaces} {rest : List ClausePlaces} {s : σ} {out : Nat × σ}
      (htested : p.tested = none) (hbody : m.Exits code p.body p.ended (p.body, s) out) :
      Evaluates done missed (p :: rest) s (behind p.ended done out)

/-- The way from behind a chain past what belongs to its construct. -/
inductive Machine.Closes : List ClosingPlaces → Nat × σ → Nat × σ → Prop
  | past (a : Nat × σ) : Closes [] a a
  | left {q : ClosingPlaces} {rest : List ClosingPlaces} {s : σ} {out : Nat × σ}
      (hstretch : m.Exits code q.start q.ended (q.start, s) out) (hout : out.1 ≠ q.ended) :
      Closes (q :: rest) (q.start, s) out
  | on {q : ClosingPlaces} {rest : List ClosingPlaces} {s s' : σ} {out : Nat × σ}
      (hstretch : m.Exits code q.start q.ended (q.start, s) (q.ended, s'))
      (hrest : Closes rest (q.target, s') out) : Closes (q :: rest) (q.start, s) out

/-- What a construct comes to, as it is written. -/
def Layout.Comes (layout : Layout) (s : σ) (out : Nat × σ) : Prop :=
  ∃ mid, m.Evaluates code layout.done layout.missed layout.places s mid ∧
    (mid.1 = layout.done ∧ m.Closes code layout.closing mid out ∨
      mid.1 ≠ layout.done ∧ out = mid)

end Machine

/-- Control passes on, by itself or by one jump. -/
def Leads (code : List LhatInstruction) (k target : Nat) : Prop :=
  k = target ∨ ∀ {σ : Type} (m : Machine σ) (s : σ), m.step code (k, s) = some (target, s)

namespace Layout

/-- Control goes through a construct as it is written. A condition leads into its clause or to what
follows the clause; the end of a body leads past the chain, and is not where the next condition
begins; and whatever the clauses do, the machine comes to what the construct comes to. -/
structure Follows (layout : Layout) (code : List LhatInstruction) : Prop where
  tested : ∀ p ∈ layout.places, ∀ k r, p.tested = some (k, r) →
    ∀ {σ : Type} (m : Machine σ) (s : σ),
      (m.test r s = some true → m.step code (k, s) = some (p.body, s)) ∧
        (m.test r s = some false → m.step code (k, s) = some (p.following, s))
  ended : ∀ p ∈ layout.places, Leads code p.ended layout.done
  apart : ∀ p ∈ layout.places, p.due = true → p.ended ≠ p.following
  closing : ∀ q ∈ layout.closing, Leads code q.ended q.target
  runs : ∀ {σ : Type} (m : Machine σ) (s : σ) (out : Nat × σ),
    layout.Comes m code s out → m.Runs code (layout.first, s) out

/-- No jump of a construct has to lead farther than the field of a distance goes. -/
structure InReach (layout : Layout) : Prop where
  tested : ∀ p ∈ layout.places, ∀ k r, p.tested = some (k, r) →
    Compile.InReach (distance k p.following)
  ended : ∀ p ∈ layout.places, p.due = true → Compile.InReach (distance p.ended layout.done)
  closing : ∀ q ∈ layout.closing, Compile.InReach (distance q.ended q.target)

end Layout

/-! ### The jumps, once the unit is finished -/

section Marked

variable {σ : Type} {m : Machine σ} {rest : Emitter} {hint : Nat → Option UInt8}
  {k target : Nat} {s : σ}

theorem markHotLoop_other {i : LhatInstruction} (hop : lhatOp i ≠ jump) :
    markHotLoop hint k i = i :=
  if_neg fun h => hop h.1

theorem landing_iff {offset : Int} :
    landing ((k + 1 : Nat) + offset) s = some (target, s) ↔ offset = distance k target := by
  unfold landing distance
  split
  · rename_i hneg
    constructor
    · nofun
    · intro h
      omega
  · rename_i hpos
    rw [Option.some.injEq, Prod.mk.injEq, and_iff_left rfl]
    omega

theorem step_jump_iff
    (hat : rest.code[k]? = some (lhatEncodeJump jump 0 (int32 (distance k target)))) :
    m.step (rest.markHotLoops hint).code (k, s) = some (target, s) ↔
      Compile.InReach (distance k target) := by
  have hreads := markHotLoop_reads hint k (lhatEncodeJump jump 0 (int32 (distance k target)))
  unfold Machine.step
  simp only [markHotLoops_getElem? hint hat, hreads.1, lhatOp_encodeJump, if_true]
  rw [landing_iff, markHotLoop_offset, lhatJumpOffset_eq_iff]

theorem jump_ne : jumpFalse ≠ jump := by decide

theorem step_jumpFalse_iff {r : UInt8}
    (hat : rest.code[k]? = some (lhatEncodeJump jumpFalse r (int32 (distance k target))))
    (hfalse : m.test r s = some false) :
    m.step (rest.markHotLoops hint).code (k, s) = some (target, s) ↔
      Compile.InReach (distance k target) := by
  have hkept : markHotLoop hint k (lhatEncodeJump jumpFalse r (int32 (distance k target))) =
      lhatEncodeJump jumpFalse r (int32 (distance k target)) :=
    markHotLoop_other (by rw [lhatOp_encodeJump]; exact jump_ne)
  unfold Machine.step
  simp only [markHotLoops_getElem? hint hat, hkept, lhatOp_encodeJump, lhatA_encodeJump,
    if_neg jump_ne,
    if_true, hfalse]
  rw [landing_iff, lhatJumpOffset_eq_iff]

theorem step_jumpFalse_true {r : UInt8} {offset : Int}
    (hat : rest.code[k]? = some (lhatEncodeJump jumpFalse r offset))
    (htrue : m.test r s = some true) :
    m.step (rest.markHotLoops hint).code (k, s) = some (k + 1, s) := by
  have hkept : markHotLoop hint k (lhatEncodeJump jumpFalse r offset) =
      lhatEncodeJump jumpFalse r offset :=
    markHotLoop_other (by rw [lhatOp_encodeJump]; exact jump_ne)
  unfold Machine.step
  simp only [markHotLoops_getElem? hint hat, hkept, lhatOp_encodeJump, lhatA_encodeJump,
    if_neg jump_ne,
    if_true, htrue]

end Marked

/-! ### Runs -/

section Runs

variable {σ : Type} {m : Machine σ} {code : List LhatInstruction}

theorem Machine.Exits.runs {lo hi : Nat} {a out : Nat × σ} (h : m.Exits code lo hi a out) :
    m.Runs code a out := by
  induction h with
  | out _ => exact .refl
  | step _ hstep _ ih => exact .head hstep ih

theorem Leads.runs {k target : Nat} (h : Leads code k target) (s : σ) :
    m.Runs code (k, s) (target, s) := by
  obtain rfl | hstep := h
  · exact .refl
  · exact .single (hstep m s)

theorem Leads.behind {ended done : Nat} (h : Leads code ended done) (out : Nat × σ) :
    m.Runs code out (behind ended done out) := by
  obtain ⟨k, s⟩ := out
  unfold Compile.behind
  split
  · rename_i hk
    obtain rfl : k = ended := hk
    exact h.runs s
  · exact .refl

theorem Machine.Evaluates.runs {done missed : Nat} {places : List ClausePlaces} {s : σ}
    {out : Nat × σ} (h : m.Evaluates code done missed places s out)
    (htested : ∀ p ∈ places, ∀ k r, p.tested = some (k, r) → ∀ s : σ,
      (m.test r s = some true → m.step code (k, s) = some (p.body, s)) ∧
        (m.test r s = some false → m.step code (k, s) = some (p.following, s)))
    (hended : ∀ p ∈ places, Leads code p.ended done)
    (hotherwise : ∀ p ∈ places, p.tested = none → p.body = p.start) {lo : Nat}
    (hlinked : Linked lo places missed) : m.Runs code (lo, s) out := by
  induction h generalizing lo with
  | missed s =>
    obtain rfl : lo = missed := hlinked
    exact .refl
  | left _ hcondition _ =>
    obtain ⟨rfl, -⟩ := hlinked
    exact hcondition.runs
  | skipped hp hcondition hfalse _ ih =>
    obtain ⟨rfl, hrest⟩ := hlinked
    have hstep := (htested _ (by simp) _ _ hp _).2 hfalse
    refine hcondition.runs.trans (.head hstep (ih ?_ ?_ ?_ hrest))
    · exact fun p hp => htested p (by simp [hp])
    · exact fun p hp => hended p (by simp [hp])
    · exact fun p hp => hotherwise p (by simp [hp])
  | taken hp hcondition htrue hbody =>
    obtain ⟨rfl, -⟩ := hlinked
    have hstep := (htested _ (by simp) _ _ hp _).1 htrue
    exact hcondition.runs.trans
      (.head hstep (hbody.runs.trans ((hended _ (by simp)).behind _)))
  | otherwise hp hbody =>
    obtain ⟨rfl, -⟩ := hlinked
    rw [hotherwise _ (by simp) hp] at hbody
    exact hbody.runs.trans ((hended _ (by simp)).behind _)

theorem Machine.Closes.runs {closing : List ClosingPlaces} {a out : Nat × σ}
    (h : m.Closes code closing a out) (hclosing : ∀ q ∈ closing, Leads code q.ended q.target) :
    m.Runs code a out := by
  induction h with
  | past a => exact .refl
  | left hstretch _ => exact hstretch.runs
  | on hstretch _ ih =>
    exact (hstretch.runs.trans ((hclosing _ (by simp)).runs _)).trans
      (ih fun q hq => hclosing q (by simp [hq]))

end Runs

namespace Layout

variable {layout : Layout} {code : List LhatInstruction} {rest : Emitter}

/-- A machine without instructions of its own, that finds every register false. -/
def idle : Machine Unit := ⟨fun _ _ _ => none, fun _ _ => some false⟩

theorem Written.inReach (h : layout.Written code)
    (hrest : ∀ k, layout.Glue k → rest.code[k]? = code[k]?) {hint : Nat → Option UInt8}
    (hfollows : layout.Follows (rest.markHotLoops hint).code) :
    (∀ p ∈ layout.places, p.due = true → p.leaves = true) ∧ layout.InReach := by
  have hleaves : ∀ p ∈ layout.places, p.due = true → p.leaves = true := by
    intro p hp hdue
    cases hl : p.leaves with
    | true => rfl
    | false => exact absurd ((h.finished p hp).kept hl).symm (hfollows.apart p hp hdue)
  refine ⟨hleaves, ⟨fun p hp k r htested => ?_, fun p hp hdue => ?_, fun q hq => ?_⟩⟩
  · have hat := (h.finished p hp).tested k r htested
    rw [← hrest k (.inl ⟨p, hp, .inl ⟨r, htested⟩⟩)] at hat
    exact (step_jumpFalse_iff hat.2.2 (show idle.test r () = some false from rfl)).mp
      ((hfollows.tested p hp k r htested idle ()).2 rfl)
  · obtain ⟨hfollowing, hat⟩ := (h.finished p hp).left (hleaves p hp hdue)
    rw [← hrest _ (.inl ⟨p, hp, .inr ⟨hleaves p hp hdue, rfl⟩⟩)] at hat
    obtain hsame | hstep := hfollows.ended p hp
    · have := ((h.linked.bounds fun p hp => (h.finished p hp).spans).2 p hp).2
      have := h.missed
      omega
    · exact (step_jump_iff hat).mp (hstep idle ())
  · have hclosed := h.closed q hq
    have hat := hclosed.jumps
    rw [← hrest _ (.inr ⟨q, hq, rfl⟩)] at hat
    obtain hsame | hstep := hfollows.closing q hq
    · have := hclosed.target
      omega
    · exact (step_jump_iff hat).mp (hstep idle ())

theorem Written.follows (h : layout.Written code)
    (hrest : ∀ k, layout.Glue k → rest.code[k]? = code[k]?) (hint : Nat → Option UInt8)
    (hleaves : ∀ p ∈ layout.places, p.due = true → p.leaves = true) (hreach : layout.InReach) :
    layout.Follows (rest.markHotLoops hint).code := by
  have htested : ∀ p ∈ layout.places, ∀ k r, p.tested = some (k, r) →
      ∀ {σ : Type} (m : Machine σ) (s : σ),
        (m.test r s = some true →
          m.step (rest.markHotLoops hint).code (k, s) = some (p.body, s)) ∧
        (m.test r s = some false →
          m.step (rest.markHotLoops hint).code (k, s) = some (p.following, s)) := by
    intro p hp k r htested σ m s
    obtain ⟨-, hbody, hat⟩ := (h.finished p hp).tested k r htested
    rw [← hrest k (.inl ⟨p, hp, .inl ⟨r, htested⟩⟩)] at hat
    refine ⟨fun htrue => ?_, fun hfalse => ?_⟩
    · rw [hbody]
      exact step_jumpFalse_true hat htrue
    · exact (step_jumpFalse_iff hat hfalse).mpr (hreach.tested p hp k r htested)
  have hended : ∀ p ∈ layout.places,
      Leads (rest.markHotLoops hint).code p.ended layout.done := by
    intro p hp
    cases hdue : p.due with
    | false => exact .inl ((h.finished p hp).last hdue)
    | true =>
      have hl := hleaves p hp hdue
      have hat := ((h.finished p hp).left hl).2
      rw [← hrest _ (.inl ⟨p, hp, .inr ⟨hl, rfl⟩⟩)] at hat
      exact .inr fun m s => (step_jump_iff hat).mpr (hreach.ended p hp hdue)
  have hclosing : ∀ q ∈ layout.closing,
      Leads (rest.markHotLoops hint).code q.ended q.target := by
    intro q hq
    have hat := (h.closed q hq).jumps
    rw [← hrest _ (.inr ⟨q, hq, rfl⟩)] at hat
    exact .inr fun m s => (step_jump_iff hat).mpr (hreach.closing q hq)
  refine ⟨htested, hended, fun p hp hdue => ?_, hclosing, ?_⟩
  · rw [((h.finished p hp).left (hleaves p hp hdue)).1]
    omega
  · rintro σ m s out ⟨mid, hevaluates, hcloses⟩
    have hmid := hevaluates.runs (fun p hp k r ht s => htested p hp k r ht m s) hended
      (fun p hp => (h.finished p hp).otherwise) h.linked
    obtain ⟨-, hcloses⟩ | ⟨-, rfl⟩ := hcloses
    · exact hmid.trans (hcloses.runs hclosing)
    · exact hmid

theorem Written.follows_iff (h : layout.Written code)
    (hrest : ∀ k, layout.Glue k → rest.code[k]? = code[k]?) (hint : Nat → Option UInt8) :
    layout.Follows (rest.markHotLoops hint).code ↔
      (∀ p ∈ layout.places, p.due = true → p.leaves = true) ∧ layout.InReach :=
  ⟨h.inReach hrest, fun ⟨hleaves, hreach⟩ => h.follows hrest hint hleaves hreach⟩

end Layout

/-! ### The number of clauses -/

theorem compileGuarded_leaves (clauses : List Clause) (arms : Option (UInt8 → Block))
    (c : Compiler) :
    (∀ p ∈ (compileGuarded clauses arms c).2.places, p.due = true → p.leaves = true) ↔
      leavers id clauses ≤ lhatMaxLocals := by
  cases arms with
  | none =>
    obtain ⟨new, hplaces, hall⟩ :=
      Chain.compileClauses_leaves id clauses { compiler := c } (Nat.zero_le _)
    show (∀ p ∈ (Chain.compileClauses id clauses { compiler := c }).1.places, _) ↔ _
    rw [hplaces]
    simpa using hall
  | some arms =>
    obtain ⟨new, hplaces, hall⟩ := Chain.compileClauses_leaves id clauses
      { compiler := (catchBegin c).2, context := some (catchBegin c).1 } (Nat.zero_le _)
    show (∀ p ∈ (Chain.compileClauses id clauses
      { compiler := (catchBegin c).2, context := some (catchBegin c).1 }).1.places, _) ↔ _
    rw [hplaces]
    simpa using hall

theorem compileIfStatement_leaves (clauses : List Clause) (arms : Option (UInt8 → Block))
    (cleanup : Option Block) (c : Compiler) :
    (∀ p ∈ (compileIfStatement clauses arms cleanup c).2.places, p.due = true → p.leaves = true) ↔
      leavers id clauses ≤ lhatMaxLocals := by
  cases cleanup with
  | none => exact compileGuarded_leaves clauses arms c
  | some cleanup => exact compileGuarded_leaves clauses arms _

theorem compileIfExpression_leaves (clauses : List Clause) (message : UInt16) (c : Compiler) :
    (∀ p ∈ (compileIfExpression clauses message c).2.places, p.due = true → p.leaves = true) ↔
      leavers (fun _ => true) clauses ≤ lhatMaxLocals := by
  obtain ⟨new, hplaces, hall⟩ :=
    Chain.compileClauses_leaves (fun _ => true) clauses { compiler := c } (Nat.zero_le _)
  show (∀ p ∈ (Chain.compileClauses (fun _ => true) clauses { compiler := c }).1.places, _) ↔ _
  rw [hplaces]
  simpa using hall

/-- The rest of the compilation writes over no jump of a construct. -/
def Layout.KeptBy (compiled : Compiler × Layout) (rest : Emitter) : Prop :=
  ∀ k, compiled.2.Glue k → rest.code[k]? = compiled.1.code[k]?

/-- An `if^`, as a statement and as an expression,
  ends just behind its code. Control goes through it
as it is written exactly where no more jumps leave its clauses than can be noted, and none of its
jumps has to lead too far. -/
theorem chains_follow (clauses : List Clause) (c : Compiler) (rest : Emitter)
    (hint : Nat → Option UInt8) :
    (∀ arms cleanup,
      Layout.KeptBy (compileIfStatement clauses arms cleanup c) rest →
        (compileIfStatement clauses arms cleanup c).2.past =
            (compileIfStatement clauses arms cleanup c).1.here ∧
          ((compileIfStatement clauses arms cleanup c).2.Follows (rest.markHotLoops hint).code ↔
            leavers id clauses ≤ lhatMaxLocals ∧
              (compileIfStatement clauses arms cleanup c).2.InReach)) ∧
    ∀ message,
      Layout.KeptBy (compileIfExpression clauses message c) rest →
        (compileIfExpression clauses message c).2.past =
            (compileIfExpression clauses message c).1.here ∧
          ((compileIfExpression clauses message c).2.Follows (rest.markHotLoops hint).code ↔
            leavers (fun _ => true) clauses ≤ lhatMaxLocals ∧
              (compileIfExpression clauses message c).2.InReach) := by
  refine ⟨fun arms cleanup hrest => ?_, fun message hrest => ?_⟩
  · have hresult := compileIfStatement_result clauses arms cleanup c
    rw [hresult.written.follows_iff hrest hint, compileIfStatement_leaves]
    exact ⟨hresult.past, Iff.rfl⟩
  · have hresult := compileIfExpression_result clauses message c
    rw [hresult.written.follows_iff hrest hint, compileIfExpression_leaves]
    exact ⟨hresult.past, Iff.rfl⟩

/-- One instruction. -/
def Block.instruction (i : LhatInstruction) : Block where
  compile c := c.emits (·.emit i)
  keeps c := (Keeps.refl c).emit i

/-- `true^` and a move between two locals. -/
def plainClause : Clause where
  condition := some fun test => Block.instruction (lhatEncodeAbx loadBool test 1)
  body := Block.instruction (lhatEncodeAbx move 0 0)

theorem chains_follow_two :
    (compileIfStatement [plainClause, plainClause] none none {}).2.Follows
      (Emitter.markHotLoops
        (compileIfStatement [plainClause, plainClause] none none {}).1.toEmitter
        fun _ => none).code := by
  refine ((chains_follow _ {} _ fun _ => none).1 none none fun _ _ => rfl).2.mpr ⟨by decide, ?_⟩
  refine ⟨?_, ?_, ?_⟩
  · rintro p hp k r htested
    have hp : p ∈ [_, _] := hp
    obtain rfl | rfl := by simpa only [List.mem_cons, List.not_mem_nil, or_false] using hp
    · obtain ⟨rfl, rfl⟩ := Prod.mk.inj (Option.some.inj htested)
      decide
    · obtain ⟨rfl, rfl⟩ := Prod.mk.inj (Option.some.inj htested)
      decide
  · rintro p hp -
    have hp : p ∈ [_, _] := hp
    obtain rfl | rfl := by simpa only [List.mem_cons, List.not_mem_nil, or_false] using hp
    · decide
    · decide
  · exact fun q hq => absurd hq List.not_mem_nil

theorem leavers_replicate (n : Nat) : leavers id (List.replicate (n + 1) plainClause) = n := by
  induction n with
  | zero => rfl
  | succ n ih =>
    show Bool.toNat true + leavers id (List.replicate (n + 1) plainClause) = n + 1
    rw [ih]
    exact Nat.add_comm 1 n

@[simp] theorem patchAll_failed (places : List Nat) (c : Compiler) :
    (patchAll places c).failed = c.failed := by
  induction places generalizing c with
  | nil => rfl
  | cons place rest ih =>
    rw [patchAll_cons, ih, patch_failed]

theorem compileIfStatement_failed (clauses : List Clause) (c : Compiler) :
    (compileIfStatement clauses none none c).1.failed =
      (Chain.compileClauses id clauses { compiler := c }).1.compiler.failed :=
  patchAll_failed _ _

theorem leave_failed (due : Bool) (chain : Chain) :
    (chain.leave due).context = chain.context ∧
      (chain.leave due).compiler.nextRegister = chain.compiler.nextRegister ∧
      (chain.leave due).compiler.failed = chain.compiler.failed := by
  unfold Chain.leave
  split
  · exact ⟨rfl, rfl, rfl⟩
  · exact ⟨rfl, rfl, rfl⟩

theorem plainClause_failed (due : Bool) (c : Compiler) (leaving : List Nat)
    (places : List ClausePlaces) (hroom : c.nextRegister < lhatMaxRegisters) :
    ∃ chain,
      Chain.compileConditional due
          (fun test => Block.instruction (lhatEncodeAbx loadBool test 1)) plainClause.body
          ⟨c, none, leaving, places⟩ = chain ∧
        chain.context = none ∧ chain.compiler.nextRegister = c.nextRegister ∧
        chain.compiler.failed = c.failed := by
  have hreserve : c.reserve =
      (c.nextRegister.toUInt8, { c with nextRegister := c.nextRegister + 1 }) :=
    if_neg (Nat.not_le_of_lt hroom)
  unfold Chain.compileConditional Chain.compileCondition
  rw [hreserve]
  refine ⟨_, rfl, ?_, ?_, ?_⟩
  · exact (leave_failed due _).1
  · exact (leave_failed due _).2.1
  · exact (patch_failed _ _).trans (leave_failed due _).2.2

theorem compileClauses_failed (n : Nat) (chain : Chain) (hcontext : chain.context = none)
    (hroom : chain.compiler.nextRegister < lhatMaxRegisters) :
    (Chain.compileClauses id (List.replicate n plainClause) chain).1.compiler.failed =
      chain.compiler.failed := by
  induction n generalizing chain with
  | zero => rfl
  | succ n ih =>
    obtain ⟨c, context, leaving, places⟩ := chain
    obtain rfl : context = none := hcontext
    obtain ⟨next, hnext, hcontext', hregister, hfailed⟩ := plainClause_failed
      (id (!(List.replicate n plainClause).isEmpty)) c leaving places hroom
    refine (congrArg (fun chain => (Chain.compileClauses id (List.replicate n plainClause)
      chain).1.compiler.failed) hnext).trans ?_
    exact (ih next hcontext' (hregister ▸ hroom)).trans hfailed

/-- With 202 clauses the last but one falls into the condition of the last, and nothing is said. -/
theorem chains_follow_fails :
    (compileIfStatement (List.replicate 202 plainClause) none none {}).1.failed = false ∧
      ¬ (compileIfStatement (List.replicate 202 plainClause) none none {}).2.Follows
        (Emitter.markHotLoops
          (compileIfStatement (List.replicate 202 plainClause) none none {}).1.toEmitter
          fun _ => none).code := by
  have hcompiled := compileClauses_failed 202 { compiler := {} } rfl (by decide)
  have hleavers := leavers_replicate 201
  generalize List.replicate 202 plainClause = clauses at hcompiled hleavers ⊢
  refine ⟨(compileIfStatement_failed clauses {}).trans hcompiled, fun hfollows => ?_⟩
  have hleaves := (compileIfStatement_leaves clauses none none {}).mp
    ((compileIfStatement_result clauses none none {}).written.inReach (fun _ _ => rfl) hfollows).1
  rw [hleavers] at hleaves
  exact absurd hleaves (by decide)

end Lhat.Compile
