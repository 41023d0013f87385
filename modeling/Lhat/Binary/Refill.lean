import Lhat.Binary.RoundTrip
import Mathlib.Logic.Relation

/-!
# Decoding into a table

A table that is handed over is filled with what decoding would answer, and so are the tables it
holds under the keys of nested kinds. That is so as long as no place is come to along two paths:
a table that two fields share is filled twice, and keeps what was read last.
-/

namespace Lhat.Binary

/-- A table is reached from another through what tables hold themselves. -/
def Holds (h : Heap) : Nat → Nat → Prop :=
  Relation.ReflTransGen fun a b => ∃ key, h.own a key = some (.table b)

/-- A table that is held was made. -/
def Heap.Closed (h : Heap) : Prop := ∀ a key b, h.own a key = some (.table b) → b < h.next

variable {h h' g : Heap} {k : Kind} {t : Nat} {data : List UInt8} {start : Value}

theorem asTable_eq_some {v : Value} {a : Nat} (h : v.asTable = some a) : v = .table a := by
  cases v with
  | table b =>
    cases h
    rfl
  | _ => cases h

theorem slots_held : ∀ (k : Kind) (v : Value) (a : Nat), v.asTable = some a →
    ∀ s ∈ slots h k v, Holds h a s.1 := by
  refine Kind.induction (fun s v a _ s hs => (nomatch hs)) fun k hk ih v a hv s hs => ?_
  rw [slots_nested hk, hv] at hs
  obtain ⟨part, hpart, hs⟩ := List.mem_flatMap.mp hs
  obtain rfl | hs := List.mem_cons.mp hs
  · exact .refl
  · cases hheld : (h.held a part.1).asTable with
    | none =>
      rw [slots_of_asTable h part.2 (w := .nil) hheld, slots_nil] at hs
      cases hs
    | some b =>
      have hown : h.own a part.1 = some (.table b) := by
        rw [Heap.held] at hheld
        cases hitem : h.own a part.1 with
        | none =>
          rw [hitem] at hheld
          cases hheld
        | some item =>
          rw [hitem, Option.getD_some] at hheld
          rw [asTable_eq_some hheld]
      exact .head ⟨part.1, hown⟩ (ih part hpart _ b hheld s hs)

theorem Holds.known (hclosed : h.Closed) (ht : t < h.next) {a : Nat} (hheld : Holds h t a) :
    a < h.next := by
  induction hheld with
  | refl => exact ht
  | tail _ hstep =>
    obtain ⟨key, hown⟩ := hstep
    exact hclosed _ key _ hown

/-- What stands of a format in a table has room for what is read: no place is come to along two
paths, and where a definition that extends another is filled, it holds each of them itself. -/
structure Fillable (h : Heap) (k : Kind) (t : Nat) : Prop where
  apart : (slots h k (.table t)).Nodup
  finds : ∀ s ∈ slots h k (.table t), h.Finds s.1 s.2

theorem Frame.changed {S : List Slot} (hframe : Frame h h' S) {a : Nat} (ha : a < h.next)
    (hchanged : h'.tables a ≠ h.tables a) : ∃ key, (a, key) ∈ S := by
  by_contra hnone
  refine hchanged ?_
  rw [hframe.table a ha]
  have hown : (h'.tables a).own = (h.tables a).own := by
    funext key
    exact hframe.slot (a, key) ha fun hin => hnone ⟨key, hin⟩
  rw [hown]

theorem formatDecode_of_getAll (hk : k.Sound) {n : Int64} {vs : List Value} {p : Nat}
    {table : Value} {position : Int64}
    (hinto : formatDecodeInto h (some k) (some data) (.integer n) (.table t) =
      .ok (.decoded table h' position))
    (hgot : getAll (data.drop n.toInt.toNat) k.leaves 0 = some (vs, p)) :
    ∃ made g, formatDecode h (some k) (some data) (.integer n) = .ok (.decoded made g position) ∧
      read g k made = some vs := by
  obtain ⟨made, g, hdecode, hread⟩ := decodeKind_nil (g := h) hk hgot
  refine ⟨made, g, ?_, hread⟩
  simp only [formatDecodeInto, Value.asTable, decode] at hinto
  simp only [formatDecode, decode, hdecode]
  split at hinto
  · cases hinto
  · rename_i hstart
    rw [if_neg hstart]
    split at hinto
    · cases hinto
    · rename_i hroom
      rw [if_neg hroom]
      split at hinto
      · cases hinto
        rfl
      · cases hinto
      · cases hinto

theorem decodeInto_fills {fields : Fields} (hk : Made (.format fields)) (hclosed : h.Closed)
    (ht : t < h.next) (hfillable : Fillable h (.format fields) t) {table : Value}
    {position : Int64}
    (hinto : formatDecodeInto h (some (.format fields)) (some data) start (.table t) =
      .ok (.decoded table h' position)) :
    (∃ made g vs, formatDecode h (some (.format fields)) (some data) start =
        .ok (.decoded made g position) ∧
      read g (.format fields) made = some vs ∧ read h' (.format fields) (.table t) = some vs) ∧
    ∀ a, a < h.next → h'.tables a ≠ h.tables a → Holds h t a := by
  have hheld := slots_held (h := h) (.format fields) (.table t) t rfl
  have hfits : Fits h (slots h (.format fields) (.table t)) :=
    ⟨hfillable.apart, fun s hs => (hheld s hs).known hclosed ht, hfillable.finds⟩
  obtain ⟨n, rfl, hposition, p, hdecode⟩ := decode_ok hinto
  obtain ⟨hsame, hfilled, vs, hgot, hread⟩ :=
    (fills _ hk.sound h (.table t) 0 _ hfits).1 _ _ _ hdecode
  obtain ⟨made, g, hmade, hmadeRead⟩ := formatDecode_of_getAll hk.sound hinto hgot
  rw [hsame rfl t rfl] at hread
  refine ⟨⟨made, g, vs, hmade, hmadeRead, hread⟩, fun a ha hchanged => ?_⟩
  obtain ⟨key, hin⟩ := hfilled.frame.changed ha hchanged
  exact hheld (a, key) hin

/-- A number of a byte. -/
def point : Kind := .format (.cons [120] (.scalar (.uint 8 255)) .nil)

/-- Two fields of one kind. -/
def pair : Kind := .format (.cons [97] point (.cons [98] point .nil))

/-- A table that holds one table under the first key and one under the second. -/
def holding (first second : Nat) : Heap where
  tables a :=
    if a = 0 then
      { own := fun key =>
          if key = .name [97] then some (.table first)
          else if key = .name [98] then some (.table second)
          else none }
    else {}
  next := 3

theorem made_point : Made point := by
  refine .format (fun _ => true) [⟨some [120], some (.scalar (.uint 8 255))⟩] ?_ rfl
  intro row hrow kind hkind
  rw [List.mem_singleton.mp hrow] at hkind
  cases hkind
  exact .uint (.integer 8) rfl

theorem made_pair : Made pair := by
  refine .format (fun _ => true) [⟨some [97], some point⟩, ⟨some [98], some point⟩] ?_ rfl
  intro row hrow kind hkind
  simp only [List.mem_cons, List.not_mem_nil, or_false] at hrow
  obtain rfl | rfl := hrow <;> cases hkind <;> exact made_point

theorem closed_holding {first second : Nat} (h1 : first < 3) (h2 : second < 3) :
    (holding first second).Closed := by
  intro a key b hown
  simp only [Heap.own, holding] at hown
  split at hown
  · dsimp only at hown
    split at hown
    · cases hown
      exact h1
    · split at hown
      · cases hown
        exact h2
      · cases hown
  · cases hown

theorem fillable_holding : Fillable (holding 1 2) pair 0 where
  apart := by decide
  finds s _ := .inr fun hdefinition => by
    have hplain : ((holding 1 2).tables s.1).isDefinition = false := by
      simp only [holding]
      split <;> rfl
    rw [hplain] at hdefinition
    exact absurd hdefinition.1 Bool.false_ne_true

/-- The table of an answer, and what it reads as. -/
def answered (k : Kind) : Except Text Answer → Option (Value × Option (List Value))
  | .ok (.decoded table h _) => some (table, read h k table)
  | _ => none

theorem answered_eq_some {answer : Except Text Answer} {x : Value × Option (List Value)}
    (h : answered k answer = some x) :
    ∃ heap position, answer = .ok (.decoded x.1 heap position) ∧ read heap k x.1 = x.2 := by
  unfold answered at h
  split at h
  · cases h
    exact ⟨_, _, rfl, rfl⟩
  · cases h

theorem decodeInto_fills_pair :
    ∃ h', read h' pair (.table 0) = some [.integer 1, .integer 2] ∧
      ∀ a, a < 3 → h'.tables a ≠ (holding 1 2).tables a → Holds (holding 1 2) 0 a := by
  have hanswer : answered pair (formatDecodeInto (holding 1 2) (some pair) (some [1, 2])
      (.integer 0) (.table 0)) = some (.table 0, some [.integer 1, .integer 2]) := by
    decide_cbv
  obtain ⟨h', position, hinto, hread⟩ := answered_eq_some hanswer
  exact ⟨h', hread, (decodeInto_fills made_pair (closed_holding (by decide) (by decide))
    (by decide) fillable_holding hinto).2⟩

theorem not_decodeInto_shared :
    ¬∀ (fields : Fields), Made (.format fields) → ∀ (h : Heap), h.Closed → ∀ (t : Nat),
      t < h.next → ∀ (data : List UInt8) (start table : Value) (h' : Heap) (position : Int64),
      formatDecodeInto h (some (.format fields)) (some data) start (.table t) =
        .ok (.decoded table h' position) →
      ∃ made g vs, formatDecode h (some (.format fields)) (some data) start =
          .ok (.decoded made g position) ∧
        read g (.format fields) made = some vs ∧
        read h' (.format fields) (.table t) = some vs := by
  intro hall
  have hinto : answered pair (formatDecodeInto (holding 1 1) (some pair) (some [1, 2])
      (.integer 0) (.table 0)) = some (.table 0, some [.integer 2, .integer 2]) := by
    decide_cbv
  have hdecode : answered pair (formatDecode (holding 1 1) (some pair) (some [1, 2])
      (.integer 0)) = some (.table 3, some [.integer 1, .integer 2]) := by
    decide_cbv
  obtain ⟨h', position, hinto, hread⟩ := answered_eq_some hinto
  obtain ⟨g, position', hdecode, hmade⟩ := answered_eq_some hdecode
  obtain ⟨made, g', vs, hdecode', hvs, hvs'⟩ := hall _ made_pair (holding 1 1)
    (closed_holding (by decide) (by decide)) 0 (by decide) _ _ _ _ _ hinto
  rw [pair] at hdecode
  rw [hdecode] at hdecode'
  cases hdecode'
  cases hmade.symm.trans hvs
  cases hread.symm.trans hvs'

end Lhat.Binary
