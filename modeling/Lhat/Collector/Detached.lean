import Lhat.Collector.Collection
import Mathlib

/-!
# A result taken off its machine

What a result reaches is marked as the collector marks it, up to the first thing that may not
cross, and what is black then changes its list. A turn that refuses nothing is the collector's
own (`detachOne_eq`), so what is black in the end is what is reached (`Traced.black_iff`).
-/

namespace Lhat.Gc

/-- `LhatDetachStatus`. -/
inductive DetachStatus where
  | ok | refused | outOfMemory
deriving DecidableEq, Repr

/-- `LhatDetachedValue`, with the memory that its objects stand in. -/
structure LhatDetachedValue where
  object : Address → Option LhatObject
  objects : List Address
  count : Nat
  value : LhatValue

mutual

/-- A proto whose chunk, and those beneath it, have given their objects away. -/
def LhatProto.emptied : LhatProto → LhatProto
  | .node protos _ => .node (emptiedAll protos) []

def emptiedAll : List LhatProto → List LhatProto
  | [] => []
  | proto :: protos => proto.emptied :: emptiedAll protos

end

/-- The switch of `detach_reach`. -/
def Payload.crosses : Payload → Bool
  | .string | .error _ _ | .errorKind _ _ => true
  | .subroutine _ owner _ => decide (owner = 0)
  | .upvalue location _ suspendedIn =>
    decide (suspendedIn = 0) && decide (location = some .closed)
  | .table t => decide (t.definition = 0) && !t.isDefinition && !t.isSealed && !t.shared
  | _ => false

/-- What is followed of an object: a script's constants are not. -/
def Payload.bare : Payload → Payload
  | .script _ => .script (.node [] [])
  | payload => payload

namespace Machine

/-- `detach_reach`. It is not asked for an address where nothing stands. -/
def detachReach (m : Machine) : LhatValue → Bool × Machine
  | .nil | .bool _ | .integer _ | .real _ => (true, m)
  | .hostvalue _ | .cont _ | .run _ => (false, m)
  | .object a =>
    match m.object a with
    | none => (false, m)
    | some o => if o.payload.crosses then (true, m.reach a) else (false, m)

/-- One after another, up to the first that is refused. -/
def detachAll : List LhatValue → Machine → Bool × Machine
  | [], m => (true, m)
  | value :: values, m =>
    let tried := m.detachReach value
    if tried.1 then detachAll values tried.2 else tried

/-- One turn of the loop of `lhat_machine_detach_result`. -/
def detachOne (m : Machine) : Bool × Machine :=
  match m.object m.gray with
  | none => (true, m)
  | some o =>
    let entered := (m.taken o).detachReach (.object m.gray)
    if entered.1 then
      match o.payload with
      | .table t =>
        entered.2.detachAll
          (t.array ++ t.entries.flatMap (fun entry => [entry.key, entry.value]) ++
            [t.delegateKey])
      | .error kind fields => entered.2.detachAll [.object kind, .object fields]
      | payload => (true, entered.2.reachAll (entered.2.children payload))
    else entered

/-- The loop, for so many turns. -/
def detachFor : Nat → Machine → Bool × Machine
  | 0, m => (true, m)
  | turns + 1, m =>
    if m.gray = 0 then (true, m)
    else
      let turn := m.detachOne
      if turn.1 then detachFor turns turn.2 else turn

/-- The constants of a loaded script, which the heap takes over. -/
def takeConstants (m : Machine) (a : Address) : Machine :=
  match m.object a with
  | some { color, gclist, payload := .script root } =>
    { m.prepend root.objects with
      object := Function.update m.object a
        (some { color := color, gclist := gclist, payload := .script root.emptied }) }
  | _ => m

/-- No object of the heap is marked. -/
def unmarked (m : Machine) : Machine :=
  { m with
    gray := 0
    sweep := 0
    gcstate := .pause
    object := fun a =>
      if a ∈ m.objects then (m.object a).map fun o => { o with color := .white0, gclist := 0 }
      else m.object a }

def blackAt (m : Machine) (a : Address) : Bool :=
  match m.object a with
  | some o => decide (o.color = .black)
  | none => false

/-- What stands ready to be traced. -/
def readied (m : Machine) : Machine := (m.objects.foldl takeConstants m).unmarked

/-- The tracing. There are as many turns as there are objects to look into. -/
def traced (m : Machine) (value : LhatValue) : Bool × Machine :=
  let first := m.readied.detachReach value
  if first.1 then first.2.detachFor m.readied.objects.length else first

/-- `lhat_machine_detach_result`. The gray list is its own. -/
def lhatMachineDetachResult (granted : Bool) (m : Machine) (value : LhatValue) :
    DetachStatus × Machine × Option LhatDetachedValue :=
  if granted then
    let t := m.traced value
    if t.1 then
      let moved := t.2.objects.filter t.2.blackAt
      (.ok,
        { t.2 with
          objects := t.2.objects.filter fun a => !t.2.blackAt a
          count := t.2.count - moved.length },
        some { object := t.2.object, objects := moved.reverse, count := moved.length,
               value := value })
    else (.refused, { t.2 with gray := 0 }, none)
  else (.outOfMemory, m, none)

/-- `lhat_machine_adopt_result`. -/
def lhatMachineAdoptResult (receiver : Machine) (packet : LhatDetachedValue) :
    Machine × LhatValue :=
  ({ receiver.prepend packet.objects.reverse with
      object := fun a =>
        if a ∈ packet.objects then
          (packet.object a).map fun o => { o with color := receiver.white, gclist := 0 }
        else receiver.object a
      count := receiver.count + packet.count }, packet.value)

variable {m m' t : Machine} {a b : Address} {o o' : LhatObject} {value : LhatValue}
  {as : List Address} {turns : Nat}

/-! ### A turn that refuses nothing -/

theorem reach_null (hnull : m.object 0 = none) : m.reach 0 = m := by
  unfold Machine.reach
  rw [hnull]

theorem detachReach_eq (hnull : m.object 0 = none) (h : m.detachReach value = (true, t)) :
    t = m.reach (objectOf value) := by
  cases value with
  | object a =>
    simp only [detachReach] at h
    split at h
    · cases h
    · split at h
      · exact (Prod.mk.inj h).2.symm
      · cases h
  | nil | bool | integer | real => exact (Prod.mk.inj h).2.symm.trans (reach_null hnull).symm
  | hostvalue | cont | run => cases h

theorem detachAll_eq {values : List LhatValue} (hnull : m.object 0 = none)
    (h : m.detachAll values = (true, t)) : t = m.reachAll (values.map objectOf) := by
  induction values generalizing m with
  | nil => exact (Prod.mk.inj h).2.symm
  | cons value values ih =>
    cases htried : m.detachReach value with
    | mk ok next =>
      simp only [detachAll, htried] at h
      cases ok with
      | false => cases h
      | true =>
        obtain rfl := detachReach_eq hnull htried
        exact ih ((marks_reach m _).absent 0 hnull) h

theorem reach_black (ho : m.object a = some o) (hcolor : o.color = .black) : m.reach a = m := by
  unfold Machine.reach
  rw [ho]
  simp [hcolor, Color.isWhite]

theorem detachOne_eq (hm : m.Tracing 0 []) (hnull : m.object 0 = none) (hgray : m.gray ≠ 0)
    (h : m.detachOne = (true, t)) :
    t = m.propagateOne ∧ ∃ o, m.object m.gray = some o ∧ o.payload.crosses = true := by
  obtain ⟨o, ho, hcolor, heq⟩ := hm.head hgray
  have hnull' : (m.taken o).object 0 = none := (marks_taken ho hcolor).absent 0 hnull
  have htaken : (m.taken o).object m.gray = some { o with color := .black, gclist := 0 } :=
    Function.update_self ..
  have hblack : (m.taken o).reach m.gray = m.taken o := reach_black htaken rfl
  simp only [detachOne, ho, detachReach, htaken] at h
  cases hcrosses : o.payload.crosses with
  | false => simp [hcrosses] at h
  | true =>
    refine ⟨?_, o, ho, hcrosses⟩
    simp only [hcrosses, if_true, hblack] at h
    rw [heq]
    split at h
    · next table hp =>
        have hdefinition : table.definition = 0 := by
          rw [hp] at hcrosses
          simp only [Payload.crosses, Bool.and_eq_true, decide_eq_true_eq] at hcrosses
          exact hcrosses.1.1.1
        rw [detachAll_eq hnull' h, hp]
        -- The link to a definition is `NULL`, and is the only one the loops leave out.
        simp only [children, Payload.links, hdefinition, List.map_append, List.map_flatMap,
          List.map_cons, List.map_nil, reachAll, List.foldl_append, List.foldl_cons,
          List.foldl_nil]
        exact congrArg (Machine.reach · _)
          (reach_null ((marks_reachAll _ _).absent 0 ((marks_reachAll _ _).absent 0 hnull'))).symm
    · next kind fields hp => rw [detachAll_eq hnull' h, hp]; rfl
    · exact (Prod.mk.inj h).2.symm

/-- What was looked into may cross. -/
def Crossed (m : Machine) : Prop :=
  ∀ a ∈ m.objects, ∀ o, m.object a = some o → o.color = .black → o.payload.crosses = true

theorem Crossed.propagateOne (hc : m.Crossed) (hm : m.Tracing 0 []) (hgray : m.gray ≠ 0)
    (ho : m.object m.gray = some o) (hcrosses : o.payload.crosses = true) :
    m.propagateOne.Crossed := by
  intro a ha p hp hblack
  rw [(hm.propagateOne hgray).1.objects] at ha
  obtain ⟨o', ho', -, heq⟩ := hm.head hgray
  obtain rfl : o = o' := by simpa [ho] using ho'
  rw [heq] at hp
  rcases update_eq_some.1 (black_of_reachAll hp hblack) with ⟨-, rfl⟩ | ⟨-, hp⟩
  · exact hcrosses
  · exact hc a ha p hp hblack

theorem detachFor_eq (hm : m.Tracing 0 []) (hg : m.Grounded) (hc : m.Crossed)
    (h : m.detachFor turns = (true, t)) : t = m.followFor turns ∧ t.Crossed := by
  induction turns generalizing m with
  | zero =>
    obtain rfl := (Prod.mk.inj h).2
    exact ⟨rfl, hc⟩
  | succ turns ih =>
    unfold Machine.followFor
    simp only [detachFor] at h
    split at h
    · next hgray =>
        obtain rfl := (Prod.mk.inj h).2
        exact ⟨(if_pos hgray).symm, hc⟩
    · next hgray =>
        rw [if_neg hgray]
        cases hturn : m.detachOne with
        | mk ok next =>
          rw [hturn] at h
          cases ok with
          | false => cases h
          | true =>
            obtain ⟨rfl, o, ho, hcrosses⟩ := detachOne_eq hm hg.null hgray hturn
            obtain ⟨hmarks, hnext⟩ := hm.propagateOne hgray
            exact ih hnext (hmarks.grounded hg) (hc.propagateOne hm hgray ho hcrosses) h

/-! ### The heap -/

/-- The objects of the machine's heap, the constants of loaded scripts among them. -/
def heap (m : Machine) : List Address := m.objects.reverse.flatMap m.givenAt ++ m.objects

/-- What is reached from a value. -/
def ReachedFrom (m : Machine) (value : LhatValue) : Address → Prop :=
  Reaching (fun a => a = objectOf value ∧ a ≠ 0) m.Refers

/-- A machine that stopped. What a program owns is black, and refers to nothing of the heap,
for it is never written to. -/
structure Stopped (m : Machine) : Prop where
  null : m.object 0 = none
  once : m.heap.Nodup
  present : ∀ a ∈ m.heap, m.Present a
  count : m.count = m.objects.length
  owned : ∀ a o, m.object a = some o → a ∉ m.heap →
    o.color = .black ∧ ∀ b, m.Refers a b → b ∉ m.heap

theorem read_congr (hroots : m'.roots = m.roots)
    (hsame : ∀ a, (m'.object a).map (·.payload.bare) = (m.object a).map (·.payload.bare))
    (c : LhatValue) (place : Place) : m'.read c place = m.read c place := by
  cases place with
  | slot i => simp only [read, hroots]
  | closed => rfl
  | saved co i =>
    have h := hsame co
    simp only [read]
    cases ho : m.object co with
    | none => cases ho' : m'.object co <;> simp [ho, ho'] at h ⊢
    | some o =>
      cases ho' : m'.object co with
      | none => simp [ho, ho'] at h
      | some o' =>
        simp only [ho, ho', Option.map_some, Option.some.injEq] at h
        obtain ⟨color, gclist, payload⟩ := o
        obtain ⟨color', gclist', payload'⟩ := o'
        cases payload <;> cases payload' <;> simp_all [Payload.bare]

theorem refers_congr (hroots : m'.roots = m.roots)
    (hsame : ∀ a, (m'.object a).map (·.payload.bare) = (m.object a).map (·.payload.bare)) :
    m'.Refers a b ↔ m.Refers a b := by
  have hbare : ∀ x : Machine, (∃ o, x.object a = some o ∧ b ∈ x.children o.payload) ↔
      ∃ p, (x.object a).map (·.payload.bare) = some p ∧ b ∈ x.children p := by
    intro x
    have hchildren : ∀ p : Payload, x.children p.bare = x.children p := by
      intro p
      cases p <;> rfl
    simp [Option.map_eq_some_iff, hchildren]
  have hchildren : ∀ p, m'.children p = m.children p := by
    intro p
    unfold children
    split
    · rw [read_congr hroots hsame]
    · rfl
  unfold Refers
  rw [hbare m', hbare m, hsame a]
  simp only [hchildren]

theorem takeConstants_spec (m : Machine) (a : Address) :
    (m.takeConstants a).roots = m.roots ∧
      (m.takeConstants a).objects = m.givenAt a ++ m.objects ∧
        (m.takeConstants a).count = m.count + (m.givenAt a).length ∧
          (∀ b, b ≠ a → (m.takeConstants a).object b = m.object b) ∧
            ∀ b, ((m.takeConstants a).object b).map (fun o => (o.color, o.payload.bare)) =
              (m.object b).map fun o => (o.color, o.payload.bare) := by
  unfold takeConstants givenAt
  cases ho : m.object a with
  | none => simp
  | some o =>
    obtain ⟨color, gclist, payload⟩ := o
    cases payload with
    | script root =>
      refine ⟨rfl, rfl, rfl, fun b hne => Function.update_of_ne hne .., fun b => ?_⟩
      by_cases hba : b = a
      · subst hba
        simp [ho, Payload.bare]
      · simp [Function.update_of_ne hba]
    | _ => simp [LhatObject.given]

theorem takeConstants_all (hnodup : as.Nodup) :
    (as.foldl takeConstants m).roots = m.roots ∧
      (as.foldl takeConstants m).objects = as.reverse.flatMap m.givenAt ++ m.objects ∧
        (as.foldl takeConstants m).count = m.count + (as.reverse.flatMap m.givenAt).length ∧
          ∀ b, ((as.foldl takeConstants m).object b).map (fun o => (o.color, o.payload.bare)) =
            (m.object b).map fun o => (o.color, o.payload.bare) := by
  induction as generalizing m with
  | nil => simp
  | cons a as ih =>
    obtain ⟨hfresh, hnodup⟩ := List.nodup_cons.1 hnodup
    obtain ⟨hroots, hobjects, hcount, hother, hsame⟩ := takeConstants_spec m a
    obtain ⟨hroots', hobjects', hcount', hsame'⟩ := ih (m := m.takeConstants a) hnodup
    have hgiven : ∀ b ∈ as.reverse, (m.takeConstants a).givenAt b = m.givenAt b := by
      intro b hb
      unfold givenAt
      rw [hother b fun h => hfresh (h ▸ List.mem_reverse.1 hb)]
    have hflat : as.reverse.flatMap (m.takeConstants a).givenAt = as.reverse.flatMap m.givenAt :=
      List.flatMap_congr hgiven
    rw [hflat] at hobjects' hcount'
    refine ⟨hroots'.trans hroots, ?_, ?_, fun b => (hsame' b).trans (hsame b)⟩
    · simp [hobjects', hobjects]
    · simp only [List.foldl_cons, hcount', hcount, List.reverse_cons, List.flatMap_append,
        List.length_append, List.flatMap_cons, List.flatMap_nil, List.append_nil]
      omega

/-- What stands ready: the heap on the list, in white, and the rest in black. -/
structure Ready (m r : Machine) : Prop where
  objects : r.objects = m.heap
  count : r.count = m.heap.length
  refers : ∀ a b, r.Refers a b ↔ m.Refers a b
  grounded : r.Grounded
  white : ∀ a ∈ m.heap, ∃ o, r.object a = some o ∧ o.color = .white0
  tracing : r.Tracing 0 []

theorem Stopped.readied (hs : m.Stopped) : Ready m m.readied := by
  obtain ⟨hroots, hobjects, hcount, hsame⟩ :=
    takeConstants_all (m := m) (List.nodup_append.1 hs.once).2.1
  have hheap : m.readied.objects = m.heap := hobjects
  have hbare : ∀ b, ((m.objects.foldl takeConstants m).object b).map (·.payload.bare) =
      (m.object b).map (·.payload.bare) := by
    intro b
    simpa [Function.comp_def] using congrArg (Option.map Prod.snd) (hsame b)
  have hcolor : ∀ b, ((m.objects.foldl takeConstants m).object b).map (·.color) =
      (m.object b).map (·.color) := by
    intro b
    simpa [Function.comp_def] using congrArg (Option.map Prod.fst) (hsame b)
  have hpayload : ∀ a, (m.readied.object a).map (·.payload.bare) =
      (m.object a).map (·.payload.bare) := by
    intro a
    rw [← hbare a]
    simp only [Machine.readied, unmarked]
    split <;> simp [Function.comp_def]
  have hrefers : ∀ a b, m.readied.Refers a b ↔ m.Refers a b :=
    fun a b => refers_congr hroots hpayload
  have hinside : ∀ a ∈ m.heap, ∃ o, m.readied.object a = some o ∧ o.color = .white0 := by
    intro a ha
    obtain ⟨o, ho⟩ := hs.present a ha
    have hcolor := hcolor a
    rw [ho] at hcolor
    obtain ⟨o', ho', -⟩ := Option.map_eq_some_iff.1 hcolor
    refine ⟨{ o' with color := .white0, gclist := 0 }, ?_, rfl⟩
    simp only [Machine.readied, unmarked]
    rw [if_pos (hobjects ▸ ha), ho']
    rfl
  have houtside : ∀ a o, m.readied.object a = some o → a ∉ m.heap →
      o.color = .black ∧ ∀ b, m.Refers a b → b ∉ m.heap := by
    intro a o ho ha
    simp only [Machine.readied, unmarked] at ho
    rw [if_neg (hobjects ▸ ha)] at ho
    have hcolor := hcolor a
    rw [ho] at hcolor
    obtain ⟨o', ho', hcolor⟩ := Option.map_eq_some_iff.1 hcolor.symm
    obtain ⟨hblack, hrefers⟩ := hs.owned a o' ho' ha
    exact ⟨hcolor.symm.trans hblack, hrefers⟩
  have hnull : m.readied.object 0 = none := by
    have h := hpayload 0
    rw [hs.null] at h
    exact Option.map_eq_none_iff.1 h
  refine ⟨hheap, ?_, hrefers, ⟨hnull, fun a o ho ha => (houtside a o ho (hheap ▸ ha)).1⟩, hinside,
    ⟨[], rfl, List.nodup_nil, fun a o ho hgray => ?_⟩, fun a o ho hblack b hb hw => ?_⟩
  · show (m.objects.foldl takeConstants m).count = _
    rw [hcount, hs.count, heap, List.length_append]
    omega
  · by_cases ha : a ∈ m.heap
    · obtain ⟨o', ho', hwhite⟩ := hinside a ha
      obtain rfl : o = o' := by simpa [ho] using ho'
      simp [hwhite] at hgray
    · simp [(houtside a o ho ha).1] at hgray
  · have ha : a ∉ m.heap := by
      intro ha
      obtain ⟨o', ho', hwhite⟩ := hinside a ha
      obtain rfl : o = o' := by simpa [ho] using ho'
      simp [hwhite] at hblack
    obtain ⟨p, hp, hwhite⟩ := whiteAt_iff.1 hw
    have hne : b ≠ 0 := by
      rintro rfl
      rw [hnull] at hp
      cases hp
    have hb' : b ∉ m.heap :=
      (houtside a o ho ha).2 b ((hrefers a b).1 ⟨⟨o, ho, links_children hb⟩, hne⟩)
    rw [(houtside b p hp hb').1] at hwhite
    cases hwhite

/-! ### What is black in the end -/

/-- The tracing at its end, where nothing was refused. -/
structure Traced (m : Machine) (value : LhatValue) (t : Machine) : Prop where
  marks : Marks m.readied t
  tracing : t.Tracing 0 []
  gray : t.gray = 0
  crossed : t.Crossed
  first : t.whiteAt (objectOf value) = false
  marked : t.MarkedIn (m.ReachedFrom value)

theorem Stopped.traced (hs : m.Stopped) (h : m.traced value = (true, t)) : Traced m value t := by
  have hr := hs.readied
  simp only [Machine.traced] at h
  cases hfirst : m.readied.detachReach value with
  | mk ok first =>
    rw [hfirst] at h
    cases ok with
    | false => cases h
    | true =>
      obtain rfl := detachReach_eq hr.grounded.null hfirst
      have hmarks := marks_reach m.readied (objectOf value)
      have hgrounded := hmarks.grounded hr.grounded
      have htracing : (m.readied.reach (objectOf value)).Tracing 0 [] := by
        refine Tracing.reach ⟨hr.tracing.threaded, fun a o ho hblack b hb hw => ?_⟩
        exact absurd (hr.tracing.blacks a o ho hblack b hb hw).2 List.not_mem_nil
      have hwhite : ∀ a ∈ m.readied.objects, ∀ o, m.readied.object a = some o →
          o.color = .white0 := by
        intro a ha o ho
        obtain ⟨o', ho', hcolor⟩ := hr.white a (hr.objects ▸ ha)
        obtain rfl : o = o' := by simpa [ho] using ho'
        exact hcolor
      have hcrossed : (m.readied.reach (objectOf value)).Crossed := by
        intro a ha o ho hblack
        have := hwhite a (hmarks.objects ▸ ha) o (black_of_reach ho hblack)
        simp [hblack] at this
      have hmarked : (m.readied.reach (objectOf value)).MarkedIn (m.ReachedFrom value) := by
        refine MarkedIn.reach (fun a ha o ho hdark => ?_) hr.grounded fun hne => .start ⟨rfl, hne⟩
        rw [hwhite a ha o ho] at hdark
        cases hdark
      have hedges : ∀ a b, m.ReachedFrom value a →
          (m.readied.reach (objectOf value)).Refers a b → m.ReachedFrom value b :=
        fun a b ha hedge => ha.edge ((hr.refers a b).1 (hmarks.refers.1 hedge))
      obtain ⟨rfl, hcrossed⟩ := detachFor_eq htracing hgrounded hcrossed h
      obtain ⟨hmarks', htraced, hgray⟩ :=
        @Tracing.followFor _ m.readied.objects.length htracing hgrounded
          (by rw [← hmarks.objects]; exact unlooked_le _)
      refine ⟨hmarks.trans hmarks', htraced, hgray, hcrossed, ?_,
        hmarked.followFor hgrounded htracing hedges⟩
      refine Bool.eq_false_iff.2 fun hw => ?_
      have := hmarks'.whiteAt hw
      rw [whiteAt_reach] at this
      cases this

theorem children_of_crosses {p : Payload} (hcrosses : p.crosses = true) :
    m.children p = p.links := by
  cases p with
  | upvalue location closedValue suspendedIn =>
    simp only [Payload.crosses, Bool.and_eq_true, decide_eq_true_eq] at hcrosses
    rw [hcrosses.2]
    rfl
  | _ => rfl

theorem blackAt_iff : m.blackAt a = true ↔ ∃ o, m.object a = some o ∧ o.color = .black := by
  unfold Machine.blackAt
  cases m.object a <;> simp

namespace Traced

section

variable (ht : Traced m value t)
include ht

theorem objects (hs : m.Stopped) : t.objects = m.heap :=
  ht.marks.objects.trans hs.readied.objects

theorem refers (hs : m.Stopped) : t.Refers a b ↔ m.Refers a b :=
  ht.marks.refers.trans (hs.readied.refers a b)

theorem black (hs : m.Stopped) (ho : t.object a = some o)
    (hdark : t.whiteAt a = false) : o.color = .black := by
  have hgray := ht.tracing.noGray ht.gray (ht.marks.grounded hs.readied.grounded) a o ho
  have hwhite : o.color.isWhite = false := by simpa [whiteAt, ho] using hdark
  revert hwhite hgray
  cases o.color <;> simp [Color.isWhite]

theorem dark (hs : m.Stopped) (hb : m.ReachedFrom value b) :
    t.whiteAt b = false := by
  induction hb with
  | start hstart => exact hstart.1 ▸ ht.first
  | @edge a b _ hedge ih =>
    refine Bool.eq_false_iff.2 fun hw => ?_
    obtain ⟨p, hp, hlight⟩ := whiteAt_iff.1 hw
    have hb : b ∈ m.heap := by
      by_contra hb
      rw [(ht.marks.grounded hs.readied.grounded).black b p hp (ht.objects hs ▸ hb)] at hlight
      cases hlight
    -- What a program owns does not lead back into the heap.
    have ha : a ∈ m.heap := by
      by_contra ha
      obtain ⟨q, hq, -⟩ := hedge.1
      exact (hs.owned a q hq ha).2 b hedge hb
    obtain ⟨⟨o, ho, hchild⟩, -⟩ := (ht.refers hs).2 hedge
    have hblack := ht.black hs ho ih
    rw [children_of_crosses (ht.crossed a (ht.objects hs ▸ ha) o ho hblack)] at hchild
    exact absurd (ht.tracing.blacks a o ho hblack b hchild hw).2 List.not_mem_nil

theorem blackAt (hs : m.Stopped) (ha : a ∈ m.heap) :
    t.blackAt a = true ↔ m.ReachedFrom value a := by
  constructor
  · intro hblack
    obtain ⟨o, ho, hcolor⟩ := blackAt_iff.1 hblack
    exact ht.marked a (ht.objects hs ▸ ha) o ho (by rw [hcolor]; rfl)
  · intro hreached
    obtain ⟨o₀, ho₀, -⟩ := hs.readied.white a ha
    obtain ⟨o, ho, -⟩ := ht.marks.darkens a o₀ ho₀
    exact blackAt_iff.2 ⟨o, ho, ht.black hs ho (ht.dark hs hreached)⟩

end

end Traced

/-! ### The packet -/

/-- What is detached from a machine, and what is left of it. -/
structure Detaches (m : Machine) (value : LhatValue) (m' : Machine)
    (packet : LhatDetachedValue) : Prop where
  result : packet.value = value
  whole : ∀ a, a ∈ packet.objects ↔ a ∈ m.heap ∧ m.ReachedFrom value a
  rest : ∀ a, a ∈ m'.objects ↔ a ∈ m.heap ∧ ¬ m.ReachedFrom value a
  once : packet.objects.Nodup ∧ m'.objects.Nodup
  refers : ∀ a b, m'.Refers a b ↔ m.Refers a b
  apart : ∀ a ∈ packet.objects, ∀ b, m'.Refers a b → b ∉ m'.objects
  counted : packet.count = packet.objects.length ∧ m'.count = m'.objects.length

/-- Everything is where it was, but for the constants of scripts, which may be on the list. -/
structure Stays (m m' : Machine) : Prop where
  once : m'.objects.Nodup
  all : m.objects ⊆ m'.objects ∧ m'.objects ⊆ m.heap
  counted : m'.count = m'.objects.length

/-- The packet is another machine's. -/
structure Adopts (receiver : Machine) (packet : LhatDetachedValue) (m' : Machine) : Prop where
  objects : ∀ a, a ∈ m'.objects ↔ a ∈ packet.objects ∨ a ∈ receiver.objects
  once : receiver.objects.Nodup → (∀ a ∈ packet.objects, a ∉ receiver.objects) → m'.objects.Nodup
  counted : receiver.count = receiver.objects.length → m'.count = m'.objects.length
  colored : ∀ a ∈ packet.objects, ∃ o, m'.object a = some o ∧ o.color = m'.white
  others : ∀ a, a ∉ packet.objects → m'.object a = receiver.object a

theorem lhatMachineAdoptResult_adopts {packet : LhatDetachedValue}
    (hcount : packet.count = packet.objects.length) (honce : packet.objects.Nodup)
    (hpresent : ∀ a ∈ packet.objects, ∃ o, packet.object a = some o) (receiver : Machine) :
    Adopts receiver packet (lhatMachineAdoptResult receiver packet).1 where
  objects := fun a => by simp [lhatMachineAdoptResult, prepend]
  once := by
    intro hnodup hapart
    refine List.nodup_append.2 ⟨List.nodup_reverse.2 honce, hnodup, fun a ha b hb => ?_⟩
    rintro rfl
    exact hapart a (List.mem_reverse.1 ha) hb
  counted := by
    intro h
    simp [lhatMachineAdoptResult, prepend, h, hcount]
    omega
  colored := by
    intro a ha
    obtain ⟨o, ho⟩ := hpresent a ha
    exact ⟨{ o with color := receiver.white, gclist := 0 },
      by simp [lhatMachineAdoptResult, ha, ho], rfl⟩
  others := fun a ha => by simp [lhatMachineAdoptResult, ha]

theorem Traced.detaches (ht : Traced m value t) (hs : m.Stopped) :
    Detaches m value
      { t with
        objects := t.objects.filter fun a => !t.blackAt a
        count := t.count - (t.objects.filter t.blackAt).length }
      { object := t.object, objects := (t.objects.filter t.blackAt).reverse,
        count := (t.objects.filter t.blackAt).length, value := value } := by
  have hnodup : t.objects.Nodup := ht.objects hs ▸ hs.once
  have hrest : ∀ a, a ∈ t.objects.filter (fun a => !t.blackAt a) ↔
      a ∈ m.heap ∧ ¬ m.ReachedFrom value a := by
    intro a
    rw [List.mem_filter, ht.objects hs]
    refine and_congr_right fun ha => ?_
    rw [← ht.blackAt hs ha]
    simp
  have hwhole : ∀ a, a ∈ t.objects.filter t.blackAt ↔ a ∈ m.heap ∧ m.ReachedFrom value a := by
    intro a
    rw [List.mem_filter, ht.objects hs]
    exact and_congr_right fun ha => ht.blackAt hs ha
  refine ⟨rfl, fun a => List.mem_reverse.trans (hwhole a), hrest,
    ⟨List.nodup_reverse.2 (hnodup.filter _), hnodup.filter _⟩, fun a b => ht.refers hs,
    fun a ha b hedge hb => ?_, List.length_reverse.symm, ?_⟩
  · obtain ⟨-, hreached⟩ := (hwhole a).1 (List.mem_reverse.1 ha)
    exact ((hrest b).1 hb).2 (hreached.edge ((ht.refers hs).1 hedge))
  · have hcount : t.count = t.objects.length := by
      rw [ht.marks.count, hs.readied.count, ht.objects hs]
    have hsplit := List.length_eq_length_filter_add (l := t.objects) t.blackAt
    show t.count - (t.objects.filter t.blackAt).length =
      (t.objects.filter fun a => !t.blackAt a).length
    omega

/-! ### Where something is refused -/

/-- The list stands as it is. -/
def SameList (m m' : Machine) : Prop := m'.objects = m.objects ∧ m'.count = m.count

theorem Marks.sameList (h : Marks m m') : SameList m m' := ⟨h.objects, h.count⟩

theorem SameList.trans {m'' : Machine} (h : SameList m m') (h' : SameList m' m'') :
    SameList m m'' :=
  ⟨h'.1.trans h.1, h'.2.trans h.2⟩

theorem detachReach_sameList (m : Machine) (value : LhatValue) :
    SameList m (m.detachReach value).2 := by
  unfold detachReach
  split
  any_goals exact ⟨rfl, rfl⟩
  split
  · exact ⟨rfl, rfl⟩
  · split
    · exact (marks_reach m _).sameList
    · exact ⟨rfl, rfl⟩

theorem detachAll_sameList (m : Machine) (values : List LhatValue) :
    SameList m (m.detachAll values).2 := by
  induction values generalizing m with
  | nil => exact ⟨rfl, rfl⟩
  | cons value values ih =>
    simp only [detachAll]
    split
    · exact (detachReach_sameList m value).trans (ih _)
    · exact detachReach_sameList m value

theorem detachOne_sameList (m : Machine) : SameList m m.detachOne.2 := by
  unfold detachOne
  split
  · exact ⟨rfl, rfl⟩
  · next o ho =>
      have htaken : SameList m (m.taken o) := ⟨rfl, rfl⟩
      have hentered := htaken.trans (detachReach_sameList (m.taken o) (.object m.gray))
      dsimp only
      split
      · split
        · exact hentered.trans (detachAll_sameList _ _)
        · exact hentered.trans (detachAll_sameList _ _)
        · exact hentered.trans (marks_reachAll _ _).sameList
      · exact hentered

theorem detachFor_sameList (m : Machine) : SameList m (m.detachFor turns).2 := by
  induction turns generalizing m with
  | zero => exact ⟨rfl, rfl⟩
  | succ turns ih =>
    simp only [detachFor]
    split
    · exact ⟨rfl, rfl⟩
    · split
      · exact (detachOne_sameList m).trans (ih _)
      · exact detachOne_sameList m

theorem traced_sameList (m : Machine) (value : LhatValue) :
    SameList m.readied (m.traced value).2 := by
  simp only [Machine.traced]
  split
  · exact (detachReach_sameList _ _).trans (detachFor_sameList _)
  · exact detachReach_sameList _ _

/-- The closure of a result changes its list whole, and can be taken over by any machine, or
nothing leaves the list. -/
def WholeOrNot (m : Machine) (value : LhatValue) :
    DetachStatus × Machine × Option LhatDetachedValue → Prop
  | (.ok, m', some packet) => Detaches m value m' packet ∧ ∀ receiver,
      Adopts receiver packet (lhatMachineAdoptResult receiver packet).1 ∧
        (lhatMachineAdoptResult receiver packet).2 = value
  | (.ok, _, none) => False
  | (_, m', packet) => packet = none ∧ Stays m m'

theorem detach_whole (hs : m.Stopped) (granted : Bool) (value : LhatValue) :
    WholeOrNot m value (m.lhatMachineDetachResult granted value) := by
  obtain ⟨-, honce, -⟩ := List.nodup_append.1 hs.once
  have hincluded : m.objects ⊆ m.heap := fun a ha => List.mem_append_right _ ha
  unfold lhatMachineDetachResult
  cases granted with
  | false => exact ⟨rfl, honce, ⟨fun a ha => ha, hincluded⟩, hs.count⟩
  | true =>
    cases htraced : m.traced value with
    | mk allowed t =>
      cases allowed with
      | true =>
        have ht := hs.traced htraced
        have hd := ht.detaches hs
        refine ⟨hd, fun receiver =>
          ⟨lhatMachineAdoptResult_adopts hd.counted.1 hd.once.1 (fun a ha => ?_) receiver,
            rfl⟩⟩
        obtain ⟨o₀, ho₀, -⟩ := hs.readied.white a ((hd.whole a).1 ha).1
        obtain ⟨o, ho, -⟩ := ht.marks.darkens a o₀ ho₀
        exact ⟨o, ho⟩
      | false =>
        obtain ⟨hobjects, hcount⟩ := traced_sameList m value
        rw [htraced] at hobjects hcount
        have hr := hs.readied
        have hheap : t.objects = m.heap := hobjects.trans hr.objects
        refine ⟨rfl, hheap ▸ hs.once, ⟨hheap ▸ hincluded, hheap ▸ fun a ha => ha⟩, ?_⟩
        show t.count = t.objects.length
        rw [hcount, hr.count, hheap]

/-- A machine with a string in a table. -/
def twoObjects : Machine where
  object := fun a =>
    if a = 1 then some { color := .white0, payload := .table { array := [.object 2] } }
    else if a = 2 then some { color := .white0, payload := .string }
    else none
  objects := [2, 1]
  count := 2
  white := .white0
  roots := {}

theorem detach_whole_table :
    (twoObjects.lhatMachineDetachResult true (.object 1)).1 = .ok ∧
      WholeOrNot twoObjects (.object 1) (twoObjects.lhatMachineDetachResult true (.object 1)) := by
  have hheap : twoObjects.heap = [2, 1] := rfl
  refine ⟨by decide_cbv, detach_whole ⟨rfl, by rw [hheap]; decide, ?_, rfl, ?_⟩ true (.object 1)⟩
  · intro a ha
    rw [hheap] at ha
    obtain rfl | rfl : a = 2 ∨ a = 1 := by simpa using ha
    · exact ⟨_, rfl⟩
    · exact ⟨_, rfl⟩
  · intro a o ho ha
    rw [hheap] at ha
    simp only [List.mem_cons, List.not_mem_nil, or_false, not_or] at ha
    simp [twoObjects, ha] at ho

end Machine
end Lhat.Gc
