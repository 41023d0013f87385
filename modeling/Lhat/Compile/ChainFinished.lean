import Lhat.Compile.ChainLaid

/-!
# The finished chain

Once the ends of its clauses are aimed, the jumps of an `if^` stand at the places its chain has
noted and lead on from clause to clause, past the chain, and past its arms and its cleanup.
-/

namespace Lhat.Compile

open LhatOpcode Emitter Compiler

variable {lo hi : Nat} {chain chain' : Chain} {p : ClausePlaces} {places new : List ClausePlaces}

/-! ### The places of clauses lie apart -/

/-- The parts of a clause follow each other. -/
structure ClausePlaces.Spans (p : ClausePlaces) : Prop where
  start : p.start ≤ p.body
  body : p.body ≤ p.ended
  ended : p.ended ≤ p.following

variable {code code' : List LhatInstruction} {exit : LhatInstruction}

theorem Laid.spans (h : Laid code exit p) : p.Spans := by
  refine ⟨?_, h.body, ?_⟩
  · cases htested : p.tested with
    | none => exact Nat.le_of_eq (h.otherwise htested).symm
    | some tested =>
      obtain ⟨hstart, hbody, -⟩ := h.tested tested.1 tested.2 htested
      omega
  · cases hleaves : p.leaves with
    | false => exact Nat.le_of_eq (h.kept hleaves).symm
    | true => exact Nat.le_of_lt (by rw [(h.left hleaves).1]; omega)

theorem Linked.bounds (h : Linked lo places hi) (hspans : ∀ p ∈ places, p.Spans) :
    lo ≤ hi ∧ ∀ p ∈ places, lo ≤ p.start ∧ p.following ≤ hi := by
  induction places generalizing lo with
  | nil => exact ⟨Nat.le_of_eq h, by simp⟩
  | cons p rest ih =>
    obtain ⟨rfl, hrest⟩ := h
    obtain ⟨hle, hall⟩ := ih hrest fun q hq => hspans q (by simp [hq])
    obtain ⟨hstart, hbody, hended⟩ := hspans p (by simp)
    have hspan : p.start ≤ p.following := by omega
    refine ⟨Nat.le_trans hspan hle, fun q hq => ?_⟩
    obtain rfl | hq := List.mem_cons.mp hq
    · exact ⟨Nat.le_refl _, hle⟩
    · exact ⟨Nat.le_trans hspan (hall q hq).1, (hall q hq).2⟩

theorem Linked.apart (h : Linked lo places hi)
    (hspans : ∀ p ∈ places, p.Spans) {q : ClausePlaces} (hp : p ∈ places) (hq : q ∈ places) :
    p = q ∨ p.following ≤ q.start ∨ q.following ≤ p.start := by
  induction places generalizing lo with
  | nil => simp at hp
  | cons first rest ih =>
    obtain ⟨rfl, hrest⟩ := h
    have hspans' : ∀ p ∈ rest, p.Spans := fun p hp => hspans p (by simp [hp])
    have hbounds := (hrest.bounds hspans').2
    obtain rfl | hp' := List.mem_cons.mp hp
    · obtain rfl | hq' := List.mem_cons.mp hq
      · exact .inl rfl
      · exact .inr (.inl (hbounds q hq').1)
    · obtain rfl | hq' := List.mem_cons.mp hq
      · exact .inr (.inr (hbounds p hp').1)
      · exact ih hrest hspans' hp' hq'

theorem Linked.outside (h : Linked lo places hi) (hlaid : ∀ p ∈ places, Laid code exit p)
    {q : ClausePlaces} (hp : p ∈ places) (hq : q ∈ places) :
    (∀ k r, p.tested = some (k, r) → ¬ (q.body ≤ k ∧ k < q.ended) ∧
      (q.leaves = true → k ≠ q.ended)) ∧
      (p.leaves = true → ¬ (q.body ≤ p.ended ∧ p.ended < q.ended)) := by
  have hplaid := hlaid p hp
  have hqlaid := hlaid q hq
  obtain ⟨_, _, _⟩ := hplaid.spans
  obtain ⟨_, _, _⟩ := hqlaid.spans
  have hapart := h.apart (fun p hp => (hlaid p hp).spans) hp hq
  refine ⟨fun k r htested => ?_, fun hleaves => ?_⟩
  · obtain ⟨hstart, hbody, -⟩ := hplaid.tested k r htested
    refine ⟨?_, fun hleaves => ?_⟩
    · obtain rfl | h | h := hapart <;> omega
    · have := (hqlaid.left hleaves).1
      obtain rfl | h | h := hapart <;> omega
  · have := (hplaid.left hleaves).1
    obtain rfl | h | h := hapart <;> omega

/-! ### The finished construct -/

/-- A clause whose end is aimed at the place behind the chain. The last clause comes to it without a
jump where none was due. -/
structure Finished (code : List LhatInstruction) (done : Nat) (p : ClausePlaces) : Prop
    extends Laid code (lhatEncodeJump jump 0 (int32 (distance p.ended done))) p where
  last : p.due = false → p.ended = done

structure Closed (code : List LhatInstruction) (q : ClosingPlaces) : Prop where
  start : q.start ≤ q.ended
  target : q.ended < q.target
  jumps : code[q.ended]? = some (lhatEncodeJump jump 0 (int32 (distance q.ended q.target)))

def Passes : Nat → List ClosingPlaces → Nat → Prop
  | lo, [], hi => lo = hi
  | lo, q :: rest, hi => q.start = lo ∧ Passes q.target rest hi

namespace Layout

/-- The places of the jumps of a construct. -/
def Glue (layout : Layout) (k : Nat) : Prop :=
  (∃ p ∈ layout.places, (∃ r, p.tested = some (k, r)) ∨ p.leaves = true ∧ p.ended = k) ∨
    ∃ q ∈ layout.closing, q.ended = k

structure Written (layout : Layout) (code : List LhatInstruction) : Prop where
  linked : Linked layout.first layout.places layout.missed
  missed : layout.missed ≤ layout.done
  finished : ∀ p ∈ layout.places, Finished code layout.done p
  closed : ∀ q ∈ layout.closing, Closed code q
  passes : Passes layout.done layout.closing layout.past

theorem Written.congr {layout : Layout} (h : layout.Written code)
    (hcode : ∀ k, layout.Glue k → code'[k]? = code[k]?) (hlength : code.length ≤ code'.length) :
    layout.Written code' where
  linked := h.linked
  missed := h.missed
  finished p hp := by
    have hfinished := h.finished p hp
    refine { hfinished with
      tested := fun q r htested => ?_
      left := fun hleaves => ?_
      follows := Nat.le_trans hfinished.follows hlength }
    · obtain ⟨hstart, hbody, hat⟩ := hfinished.tested q r htested
      exact ⟨hstart, hbody, (hcode q (.inl ⟨p, hp, .inl ⟨r, htested⟩⟩)).trans hat⟩
    · obtain ⟨hfollowing, hat⟩ := hfinished.left hleaves
      exact ⟨hfollowing, (hcode _ (.inl ⟨p, hp, .inr ⟨hleaves, rfl⟩⟩)).trans hat⟩
  closed q hq :=
    ⟨(h.closed q hq).start, (h.closed q hq).target,
      (hcode _ (.inr ⟨q, hq, rfl⟩)).trans (h.closed q hq).jumps⟩
  passes := h.passes

end Layout

theorem finished_of_extends {e : Compiler}
    (h : chain.Extends chain' new) (hnone : chain.leaving = []) (he : chain'.compiler.Keeps e)
    (hlast : ∀ p ∈ new, p.due = false → p.following = e.here) :
    ∀ p ∈ new, Finished (patchAll chain'.leaving e).code e.here p := by
  intro p hp
  have hlaid := h.laid p hp
  have hleaving : chain'.leaving = leavings new := by rw [h.leaving, hnone, List.nil_append]
  have hmem : ∀ k, k ∈ chain'.leaving ↔ ∃ q ∈ new, q.leaves = true ∧ q.ended = k := by
    simp [hleaving, leavings, and_assoc]
  refine { hlaid with
    tested := fun k r htested => ?_
    left := fun hleaves => ?_
    follows := ?_
    last := fun hdue => ?_ }
  · obtain ⟨hstart, hbody, hat⟩ := hlaid.tested k r htested
    refine ⟨hstart, hbody, ?_⟩
    have hout : k ∉ chain'.leaving := by
      rw [hmem]
      rintro ⟨q, hq, hleaves, rfl⟩
      exact ((h.linked.outside h.laid hp hq).1 _ r htested).2 hleaves rfl
    rw [patchAll_getElem_of_notMem hout, ← hat]
    exact prefix_getElem he.code (List.getElem?_eq_some_iff.mp hat).1
  · obtain ⟨hfollowing, hat⟩ := hlaid.left hleaves
    refine ⟨hfollowing, ?_⟩
    rw [patchAll_getElem_of_mem ((hmem _).mpr ⟨p, hp, hleaves, rfl⟩),
      prefix_getElem he.code (List.getElem?_eq_some_iff.mp hat).1, hat]
    exact congrArg some (patched_encodeJump _ _ _ _ _)
  · exact Nat.le_trans hlaid.follows (Nat.le_trans he.here (Nat.le_of_eq (patchAll_here _ e).symm))
  · have hleaves : p.leaves = false := by
      cases hl : p.leaves with
      | false => rfl
      | true => exact absurd (hlaid.due hl) (by simp [hdue])
    rw [← hlaid.kept hleaves, hlast p hp hdue]

/-! ### The ways past the arms and the cleanup -/

theorem Passes.bounds {closing : List ClosingPlaces} (h : Passes lo closing hi)
    (hclosed : ∀ q ∈ closing, Closed code q) :
    lo ≤ hi ∧ ∀ q ∈ closing, lo ≤ q.ended ∧ q.ended < hi := by
  induction closing generalizing lo with
  | nil => exact ⟨Nat.le_of_eq h, by simp⟩
  | cons q rest ih =>
    obtain ⟨rfl, hrest⟩ := h
    obtain ⟨hle, hall⟩ := ih hrest fun r hr => hclosed r (by simp [hr])
    have hq := hclosed q (by simp)
    have := hq.start
    have := hq.target
    refine ⟨by omega, fun r hr => ?_⟩
    obtain rfl | hr := List.mem_cons.mp hr
    · exact ⟨hq.start, by omega⟩
    · have := hall r hr
      exact ⟨by omega, this.2⟩

theorem Passes.append {xs ys : List ClosingPlaces} {mid : Nat} (hx : Passes lo xs mid)
    (hy : Passes mid ys hi) : Passes lo (xs ++ ys) hi := by
  induction xs generalizing lo with
  | nil => exact hx ▸ hy
  | cons q xs ih => exact ⟨hx.1, ih hx.2⟩

theorem Layout.Written.glue_bounds {layout : Layout} (h : layout.Written code) {k : Nat}
    (hk : layout.Glue k) : layout.first ≤ k ∧ k < layout.past := by
  obtain ⟨-, hplaces⟩ := h.linked.bounds fun p hp => (h.finished p hp).spans
  obtain ⟨hpast, hclosing⟩ := h.passes.bounds h.closed
  have hmissed := h.missed
  obtain ⟨p, hp, hp'⟩ | ⟨q, hq, rfl⟩ := hk
  · have hfinished := h.finished p hp
    obtain ⟨hstart, hbody, hended⟩ := hfinished.spans
    have hbounds := hplaces p hp
    obtain ⟨r, htested⟩ | ⟨hleaves, rfl⟩ := hp'
    · have := hfinished.tested k r htested
      omega
    · have := (hfinished.left hleaves).1
      omega
  · have := hclosing q hq
    have hfirst : layout.first ≤ layout.missed :=
      (h.linked.bounds fun p hp => (h.finished p hp).spans).1
    omega

variable {base c : Compiler}

theorem Compiler.Keeps.arms (h : base.Keeps c) {context : TryContext}
    (hjumps : ∀ k ∈ context.jumps, base.here ≤ k) (arms : Block) :
    base.Keeps (compileArms context arms c) :=
  (((h.emit _).patchAll hjumps).compile arms).patch h.here

theorem compileArms_code {context : TryContext} (hjumps : ∀ k ∈ context.jumps, k < c.here)
    (arms : Block) :
    c.here < (compileArms context arms c).here ∧
      (compileArms context arms c).code[c.here]? = some (lhatEncodeJump jump 0
        (int32 (distance c.here (compileArms context arms c).here))) ∧
      ∀ k, k < c.here → k ∉ context.jumps →
        (compileArms context arms c).code[k]? = c.code[k]? := by
  have hpatched : (patchAll context.jumps (c.emits (·.emitJump jump 0))).here = c.here + 1 :=
    (patchAll_here _ _).trans List.length_append
  have harms := arms.keeps (patchAll context.jumps (c.emits (·.emitJump jump 0)))
  have hhere := harms.here
  rw [hpatched] at hhere
  have hbefore : ∀ k, k < c.here + 1 → k ∉ context.jumps →
      (arms.compile (patchAll context.jumps (c.emits (·.emitJump jump 0)))).code[k]? =
        (c.code ++ [lhatEncodeJump jump 0 0])[k]? := by
    intro k hk hout
    rw [prefix_getElem harms.code (by rw [← hpatched] at hk; exact hk),
      patchAll_getElem_of_notMem hout]
    rfl
  refine ⟨?_, ?_, fun k hk hout => ?_⟩
  · exact Nat.lt_of_lt_of_le hhere (Nat.le_of_eq (patch_here _ _).symm)
  · have hout : c.here ∉ context.jumps := fun h => Nat.lt_irrefl _ (hjumps _ h)
    refine (patch_getElem_self _ _).trans ?_
    rw [hbefore _ (Nat.lt_succ_self _) hout, Compiler.here, List.getElem?_concat_length]
    refine congrArg some ((patched_encodeJump _ _ _ _ _).trans ?_)
    rw [← patch_here c.here]
    rfl
  · refine (patch_getElem_ne (Nat.ne_of_lt hk) _).trans ?_
    rw [hbefore k (Nat.lt_succ_of_lt hk) hout, List.getElem?_append_left hk]

/-- What the compilation of a construct comes to. -/
structure Result (c : Compiler) (result : Compiler × Layout) : Prop where
  keeps : c.Keeps result.1
  written : result.2.Written result.1.code
  first : c.here ≤ result.2.first
  past : result.2.past = result.1.here

theorem leavings_ge
    (h : chain.Extends chain' new) : ∀ k ∈ leavings new, chain.compiler.here ≤ k := by
  intro k hk
  obtain ⟨p, hp, rfl⟩ := List.mem_map.mp hk
  have hmem := List.mem_of_mem_filter hp
  obtain ⟨hstart, hbody, -⟩ := (h.laid p hmem).spans
  have := ((h.linked.bounds fun q hq => (h.laid q hq).spans).2 p hmem).1
  omega

theorem gained_outside {context context' : TryContext} (h : chain.Extends chain' new)
    (hgains : GainsFrom new context context') (hjumps : context.jumps = []) :
    (∀ k ∈ context'.jumps, chain.compiler.here ≤ k ∧ k < chain'.compiler.here) ∧
      ∀ p ∈ new, (∀ k r, p.tested = some (k, r) → k ∉ context'.jumps) ∧
        (p.leaves = true → p.ended ∉ context'.jumps) := by
  obtain ⟨-, jumps, hjumps', hfrom⟩ := hgains
  rw [hjumps, List.nil_append] at hjumps'
  rw [hjumps']
  refine ⟨fun k hk => ?_, fun p hp => ⟨fun k r htested hk => ?_, fun hleaves hk => ?_⟩⟩
  · obtain ⟨q, hq, hrange⟩ := hfrom k hk
    obtain ⟨hstart, -, hended⟩ := (h.laid q hq).spans
    have := (h.linked.bounds fun q hq => (h.laid q hq).spans).2 q hq
    omega
  · obtain ⟨q, hq, hrange⟩ := hfrom k hk
    exact ((h.linked.outside h.laid hp hq).1 k r htested).1 hrange
  · obtain ⟨q, hq, hrange⟩ := hfrom _ hk
    exact (h.linked.outside h.laid hp hq).2 hleaves hrange

theorem chain_written {start : Chain} (h : start.Extends chain chain.places)
    (hnone : start.leaving = [])
    (hlast : ∀ p ∈ chain.places, p.due = false → p.following = chain.compiler.here) :
    Layout.Written ⟨start.compiler.here, chain.places,
      (patchAll chain.leaving chain.compiler).here, (patchAll chain.leaving chain.compiler).here,
      [], (patchAll chain.leaving chain.compiler).here⟩
      (patchAll chain.leaving chain.compiler).code := by
  refine ⟨?_, Nat.le_refl _, ?_, by simp, rfl⟩
  · simp only [patchAll_here]
    exact h.linked
  · simp only [patchAll_here]
    exact finished_of_extends h hnone (Keeps.refl _) hlast

theorem compileGuarded_none (clauses : List Clause) (c : Compiler) :
    Result c (compileGuarded clauses none c) := by
  obtain ⟨new, hextends, hlast⟩ :=
    Chain.compileClauses_extends id rfl clauses { compiler := c }
  unfold compileGuarded
  generalize (Chain.compileClauses id clauses { compiler := c }).1 = chain at hextends hlast ⊢
  obtain rfl : chain.places = new := hextends.places
  have hleaving : chain.leaving = leavings chain.places := hextends.leaving
  exact ⟨hextends.compiler.patchAll (hleaving ▸ leavings_ge hextends),
    chain_written hextends rfl fun p hp hdue => (hlast p hp hdue).1, Nat.le_refl _, rfl⟩

theorem compileGuarded_some (clauses : List Clause) (arms : UInt8 → Block) (c : Compiler) :
    Result c (compileGuarded clauses (some arms) c) := by
  obtain ⟨new, hextends, hlast⟩ := Chain.compileClauses_extends id rfl
    clauses { compiler := (catchBegin c).2, context := some (catchBegin c).1 }
  have hbegin : c.Keeps (catchBegin c).2 := (Keeps.refl c).reserve
  unfold compileGuarded
  simp only
  generalize (Chain.compileClauses id clauses
    { compiler := (catchBegin c).2, context := some (catchBegin c).1 }).1 = chain
    at hextends hlast ⊢
  obtain rfl : chain.places = new := hextends.places
  have hleaving : chain.leaving = leavings chain.places := hextends.leaving
  have hwritten := chain_written hextends rfl fun p hp hdue => (hlast p hp hdue).1
  have hkeeps := hbegin.trans (hextends.compiler.patchAll (hleaving ▸ leavings_ge hextends))
  have hcontext := hextends.context
  cases hsome : chain.context with
  | none => rw [hsome] at hcontext; cases hcontext
  | some context =>
    rw [hsome] at hcontext
    obtain ⟨hrange, hout⟩ :=
      gained_outside hextends (Option.rel_some_some.mp hcontext) rfl
    have hbelow : ∀ k ∈ context.jumps, k < (patchAll chain.leaving chain.compiler).here := by
      rw [patchAll_here]
      exact fun k hk => (hrange k hk).2
    obtain ⟨hpast, hjump, hkept⟩ := compileArms_code hbelow (arms (catchBegin c).1.caught)
    -- the arms aim jumps of the bodies, and none of the chain
    have hmoved := hwritten.congr (fun k hk => hkept k (hwritten.glue_bounds hk).2 ?_)
      (Nat.le_of_lt hpast)
    · refine ⟨hkeeps.arms (fun k hk => Nat.le_trans hbegin.here (hrange k hk).1) _, ?_,
        hbegin.here, rfl⟩
      refine ⟨hmoved.linked, Nat.le_refl _, hmoved.finished, fun q hq => ?_, ⟨rfl, rfl⟩⟩
      obtain rfl := List.mem_singleton.mp hq
      exact ⟨Nat.le_refl _, hpast, hjump⟩
    · obtain ⟨p, hp, ⟨r, htested⟩ | ⟨hleaves, rfl⟩⟩ | ⟨q, hq, -⟩ := hk
      · exact (hout p hp).1 k r htested
      · exact (hout p hp).2 hleaves
      · simp at hq

theorem compileGuarded_result (clauses : List Clause) (arms : Option (UInt8 → Block))
    (c : Compiler) : Result c (compileGuarded clauses arms c) := by
  cases arms with
  | none => exact compileGuarded_none clauses c
  | some arms => exact compileGuarded_some clauses arms c

/-! ### The cleanup -/

/-- A compiler inside a block whose cleanup is remembered. -/
def pushed (c : Compiler) : Compiler :=
  { c.emits Emitter.emitCleanupPush with cleanupDepth := c.cleanupDepth + 1 }

theorem pushed_here (c : Compiler) : (pushed c).here = c.here + 1 := List.length_append

theorem drain_code (entry : Nat) (c : Compiler) : c.code <+: (drain entry c).code := by
  unfold drain
  split
  · exact List.prefix_append _ _
  · exact List.prefix_rfl

theorem Compiler.Keeps.drain {guarded : Compiler} (h : (pushed c).Keeps guarded) :
    c.Keeps (drain c.cleanupDepth guarded) where
  code := ((List.prefix_append _ _).trans h.code).trans (drain_code _ _)
  failed hfailed := by
    have hguarded := h.failed hfailed
    unfold Compile.drain
    split <;> exact hguarded
  depth := rfl
  trying := by
    have hsame : (Compile.drain c.cleanupDepth guarded).trying = guarded.trying := by
      unfold Compile.drain
      split <;> rfl
    rw [hsame]
    refine h.trying.imp fun context context' hgains => ?_
    have hlow : Gains c.here (pushed c).here context context := Gains.refl _ _ _
    exact (hlow.trans hgains (by rw [pushed_here]; omega) h.here).mono (drain_code _ _).length_le

theorem patchCleanup_ne {place k : Nat} (h : k ≠ place) (c : Compiler) :
    (c.emits (·.patchCleanupHere place)).code[k]? = c.code[k]? := by
  show (c.patchCleanupHere place).code[k]? = _
  unfold patchCleanupHere
  split
  · rfl
  split
  · rfl
  · exact List.getElem?_set_ne h.symm

theorem patchCleanup_here (place : Nat) (c : Compiler) :
    (c.emits (·.patchCleanupHere place)).here = c.here := by
  show (c.patchCleanupHere place).code.length = _
  unfold patchCleanupHere
  split
  · rfl
  split
  · rfl
  · exact List.length_set

theorem Compiler.Keeps.patchCleanup (h : base.Keeps c) {place : Nat} (hplace : base.here ≤ place) :
    base.Keeps (c.emits (·.patchCleanupHere place)) := by
  refine h.extend ?_ (Nat.le_of_eq (patchCleanup_here place c).symm) ?_ rfl rfl
  · show base.code <+: (c.patchCleanupHere place).code
    unfold patchCleanupHere
    split
    · exact h.code
    split
    · exact h.code
    · exact prefix_set h.code hplace
  · show _ → (c.patchCleanupHere place).failed = true
    unfold patchCleanupHere
    split
    · exact id
    split
    · exact fun _ => rfl
    · exact id

theorem Compiler.Keeps.cleanup {guarded : Compiler} (h : (pushed c).Keeps guarded) (cleanup : Block)
    : c.Keeps (compileCleanup cleanup c.cleanupDepth c.here guarded) :=
  (((((h.drain.emit _).patchCleanup (Nat.le_refl _)).compile cleanup).emit _).patch h.drain.here)

theorem compileCleanup_code (entry : Nat) {push : Nat} (hpush : push < c.here) (cleanup : Block) :
    c.here ≤ (drain entry c).here ∧
      (drain entry c).here < (compileCleanup cleanup entry push c).here ∧
      (compileCleanup cleanup entry push c).code[(drain entry c).here]? =
        some (lhatEncodeJump jump 0 (int32 (distance (drain entry c).here
          (compileCleanup cleanup entry push c).here))) ∧
      ∀ k, k < c.here → k ≠ push →
        (compileCleanup cleanup entry push c).code[k]? = c.code[k]? := by
  have hdrain : c.here ≤ (drain entry c).here := (drain_code entry c).length_le
  set past := (drain entry c).here with hover
  set opened := ((drain entry c).emits (·.emitJump jump 0)).emits (·.patchCleanupHere push)
    with hopened
  have hhere : opened.here = past + 1 :=
    (patchCleanup_here push _).trans List.length_append
  have hkeeps := (cleanup.keeps opened).emit (lhatEncodeAbx endCleanup 0 0)
  have hlength := hkeeps.here
  have hbefore : ∀ k, k < past + 1 → k ≠ push →
      ((cleanup.compile opened).emits (·.emit (lhatEncodeAbx endCleanup 0 0))).code[k]? =
        ((drain entry c).code ++ [lhatEncodeJump jump 0 0])[k]? := by
    intro k hk hne
    rw [prefix_getElem hkeeps.code (by rw [← hhere] at hk; exact hk), hopened, patchCleanup_ne hne]
    rfl
  refine ⟨hdrain, ?_, ?_, fun k hk hne => ?_⟩
  · rw [hhere] at hlength
    exact Nat.lt_of_lt_of_le hlength (Nat.le_of_eq (patch_here _ _).symm)
  · refine (patch_getElem_self _ _).trans ?_
    rw [hbefore past (Nat.lt_succ_self _) (by omega), hover, Compiler.here,
      List.getElem?_concat_length]
    refine congrArg some ((patched_encodeJump _ _ _ _ _).trans ?_)
    rw [← patch_here past]
    rfl
  · refine (patch_getElem_ne (by omega) _).trans ?_
    rw [hbefore k (by omega) hne, List.getElem?_append_left (Nat.lt_of_lt_of_le hk hdrain)]
    exact prefix_getElem (drain_code entry c) hk

theorem compileIfStatement_result (clauses : List Clause) (arms : Option (UInt8 → Block))
    (cleanup : Option Block) (c : Compiler) :
    Result c (compileIfStatement clauses arms cleanup c) := by
  cases cleanup with
  | none =>
    obtain ⟨hkeeps, hwritten, hfirst, hpast⟩ := compileGuarded_result clauses arms c
    exact ⟨hkeeps.withRegister _, hwritten, hfirst, hpast⟩
  | some cleanup =>
    obtain ⟨hkeeps, hwritten, hfirst, hpast⟩ := compileGuarded_result clauses arms (pushed c)
    unfold compileIfStatement
    simp only
    rw [show ({ c.emits Emitter.emitCleanupPush with cleanupDepth := c.cleanupDepth + 1 } :
      Compiler) = pushed c from rfl]
    generalize compileGuarded clauses arms (pushed c) = result at hkeeps hwritten hfirst hpast
    obtain ⟨guarded, layout⟩ := result
    simp only at hkeeps hwritten hfirst hpast ⊢
    rw [pushed_here] at hfirst
    have hpush : c.here < guarded.here := by
      have := hkeeps.here
      rw [pushed_here] at this
      omega
    obtain ⟨hdrain, hover, hjump, hkept⟩ :=
      compileCleanup_code c.cleanupDepth hpush cleanup
    have hmoved : layout.Written (compileCleanup cleanup c.cleanupDepth c.here guarded).code := by
      refine hwritten.congr (fun k hk => ?_) (Nat.le_trans hdrain (Nat.le_of_lt hover))
      have hbounds := hwritten.glue_bounds hk
      rw [hpast] at hbounds
      exact hkept k hbounds.2 (by omega)
    refine ⟨(hkeeps.cleanup cleanup).withRegister _, ?_, Nat.le_of_lt hfirst, rfl⟩
    refine ⟨hmoved.linked, hmoved.missed, hmoved.finished, fun q hq => ?_,
      hmoved.passes.append ⟨rfl, rfl⟩⟩
    obtain hq | hq := List.mem_append.mp hq
    · exact hmoved.closed q hq
    · obtain rfl := List.mem_singleton.mp hq
      exact ⟨hpast ▸ hdrain, hover, hjump⟩

theorem Compiler.Keeps.missed (h : base.Keeps c) (message : UInt16) :
    base.Keeps (compileMissed message c) :=
  ((h.reserve.emit _).emit _).withRegister _

theorem compileIfExpression_result (clauses : List Clause) (message : UInt16) (c : Compiler) :
    Result c (compileIfExpression clauses message c) := by
  obtain ⟨new, hextends, hlast⟩ :=
    Chain.compileClauses_extends (fun _ => true) rfl clauses { compiler := c }
  unfold compileIfExpression
  simp only
  generalize Chain.compileClauses (fun _ => true) clauses { compiler := c } = answer
    at hextends hlast ⊢
  obtain ⟨chain, defaulted⟩ := answer
  simp only at hextends hlast ⊢
  obtain rfl : chain.places = new := hextends.places
  have hleaving : chain.leaving = leavings chain.places := hextends.leaving
  have hended : chain.compiler.Keeps
      (if defaulted = true then chain.compiler else compileMissed message chain.compiler) := by
    split
    · exact Keeps.refl _
    · exact (Keeps.refl _).missed message
  have hfinished := finished_of_extends hextends rfl hended fun p hp hdue => by
    obtain ⟨hfollowing, hdefaulted⟩ := hlast p hp hdue
    rw [if_pos (hdefaulted trivial)]
    exact hfollowing
  refine ⟨(hextends.compiler.trans hended).patchAll (hleaving ▸ leavings_ge hextends), ?_,
    Nat.le_refl _, rfl⟩
  refine ⟨hextends.linked, ?_, ?_, by simp, rfl⟩
  · simp only [patchAll_here]
    exact hended.here
  · simp only [patchAll_here]
    exact hfinished

/-! ### Chains in clauses -/

/-- A statement in a clause may be a chain of its own. -/
def Block.ifStatement (clauses : List Clause) (arms : Option (UInt8 → Block))
    (cleanup : Option Block) : Block where
  compile c := (compileIfStatement clauses arms cleanup c).1
  keeps c := (compileIfStatement_result clauses arms cleanup c).keeps

/-- So may a condition or an answer. -/
def Block.ifExpression (clauses : List Clause) (message : UInt16) : Block where
  compile c := (compileIfExpression clauses message c).1
  keeps c := (compileIfExpression_result clauses message c).keeps

end Lhat.Compile
