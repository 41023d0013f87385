import Lhat.Binary.Parts

/-!
# What decoding leaves of the tables

Decoding writes the places that it finds and the tables it makes, and nothing else. As long as
no place is come to along two paths, each keeps what was read into it.
-/

namespace Lhat.Binary

variable {h h' g : Heap} {S T : List Slot} {a b : Nat} {key : Key} {v w : Value} {k : Kind}
  {parts : List (Key × Kind)} {bytes : List UInt8} {p q : Nat} {vs : List Value}

/-- What stays of the tables that were there: what is not written, and what they are read
through. -/
structure Frame (h h' : Heap) (S : List Slot) : Prop where
  next : h.next ≤ h'.next
  slot : ∀ s : Slot, s.1 < h.next → s ∉ S → h'.slot s = h.slot s
  table : ∀ a, a < h.next → h'.tables a = { h.tables a with own := (h'.tables a).own }

/-- The places stand apart, and a table found at one of them is held there. -/
structure Fits (h : Heap) (S : List Slot) : Prop where
  apart : S.Nodup
  known : ∀ s ∈ S, s.1 < h.next
  finds : ∀ s ∈ S, h.Finds s.1 s.2

namespace Frame

theorem refl (h : Heap) : Frame h h S := ⟨Nat.le_refl _, fun _ _ _ => rfl, fun _ _ => rfl⟩

theorem trans (hf : Frame h g S) (hg : Frame g h' T) : Frame h h' (S ++ T) where
  next := hf.next.trans hg.next
  slot s hs hnot := by
    rw [List.mem_append, not_or] at hnot
    rw [hg.slot s (by have := hf.next; omega) hnot.2, hf.slot s hs hnot.1]
  table a ha := by
    have h1 := hf.table a ha
    have h2 := hg.table a (by have := hf.next; omega)
    rw [h2, h1]

theorem shared (hf : Frame h h' S) (ha : a < h.next) :
    (h'.tables a).shared = (h.tables a).shared := by
  rw [hf.table a ha]

theorem finds (hf : Frame h h' S) (ha : a < h.next) (hslot : h'.slot (a, key) = h.slot (a, key))
    (hfinds : h.Finds a key) : h'.Finds a key := by
  obtain hheld | hplain := hfinds
  · exact .inl (by change (h'.slot (a, key)).isSome; rw [hslot]; exact hheld)
  · refine .inr ?_
    rw [hf.table a ha]
    exact hplain

end Frame

theorem slot_set (s : Slot) :
    (h.set a key v).slot s = if s = (a, key) then some v else h.slot s := by
  obtain ⟨b, other⟩ := s
  simp only [Heap.slot, Heap.own, Heap.set, Prod.mk.injEq]
  by_cases hb : b = a
  · subst hb
    by_cases hkey : other = key
    · subst hkey
      simp
    · simp [hkey]
  · simp [hb]

theorem frame_set (h : Heap) (a : Nat) (key : Key) (v : Value) :
    Frame h (h.set a key v) [(a, key)] where
  next := Nat.le_refl _
  slot s _ hs := by
    rw [slot_set, if_neg (by simpa using hs)]
  table b _ := by
    by_cases hb : b = a
    · subst hb
      simp [Heap.set]
    · simp [Heap.set, hb]

/-! ### What is read depends on the places it is read from -/

theorem held_congr (hslot : h'.slot (a, key) = h.slot (a, key)) : h'.held a key = h.held a key :=
  congrArg (·.getD .nil) hslot

theorem slots_congr : ∀ (k : Kind) (v : Value), (∀ s ∈ slots h k v, h'.slot s = h.slot s) →
    slots h' k v = slots h k v := by
  refine Kind.induction (fun s v _ => rfl) fun k hk ih v hsame => ?_
  rw [slots_nested hk] at hsame
  rw [slots_nested hk, slots_nested hk]
  cases hv : v.asTable with
  | none => rfl
  | some a =>
    rw [hv] at hsame
    refine List.flatMap_congr fun part hpart => ?_
    have hin : ∀ s, s ∈ (a, part.1) :: slots h part.2 (h.held a part.1) → h'.slot s = h.slot s :=
      fun s hs => hsame s (List.mem_flatMap.mpr ⟨part, hpart, hs⟩)
    rw [held_congr (hin _ List.mem_cons_self),
      ih part hpart _ fun s hs => hin s (List.mem_cons_of_mem _ hs)]

theorem partsSlots_congr (hsame : ∀ s ∈ partsSlots h parts a, h'.slot s = h.slot s) :
    partsSlots h' parts a = partsSlots h parts a := by
  refine List.flatMap_congr fun part hpart => ?_
  have hin : ∀ s, s ∈ (a, part.1) :: slots h part.2 (h.held a part.1) → h'.slot s = h.slot s :=
    fun s hs => hsame s (List.mem_flatMap.mpr ⟨part, hpart, hs⟩)
  rw [held_congr (hin _ List.mem_cons_self),
    slots_congr part.2 _ fun s hs => hin s (List.mem_cons_of_mem _ hs)]

theorem get_of_slot (hslot : h.slot (a, key) = some v) : h.get a key = v := Heap.get_of_own hslot

theorem read_congr : ∀ (k : Kind) (v : Value),
    (∀ s ∈ slots h k v, (h.slot s).isSome ∧ h'.slot s = h.slot s) →
    read h' k v = read h k v := by
  refine Kind.induction (fun s v _ => rfl) fun k hk ih v hsame => ?_
  rw [slots_nested hk] at hsame
  rw [read_nested hk, read_nested hk]
  cases hv : v.asTable with
  | none => rfl
  | some a =>
    rw [hv] at hsame
    change ∀ s ∈ partsSlots h k.parts a, _ at hsame
    rw [Option.bind_some, Option.bind_some]
    generalize k.parts = parts at ih hsame
    induction parts with
    | nil => rfl
    | cons part parts ihparts =>
      obtain ⟨hsome, hslot⟩ := hsame (a, part.1) List.mem_cons_self
      obtain ⟨item, hitem⟩ := Option.isSome_iff_exists.mp hsome
      have hheld : h.held a part.1 = item := congrArg (·.getD .nil) hitem
      have hfirst := ih part List.mem_cons_self item fun s hs => hsame s
        (List.mem_append_left _ (List.mem_cons_of_mem _ (by rwa [hheld])))
      rw [readParts, readParts, get_of_slot hitem, get_of_slot (hslot.trans hitem), hfirst,
        ihparts (fun part hpart => ih part (List.mem_cons_of_mem _ hpart))
          fun s hs => hsame s (List.mem_append_right _ hs)]

theorem slots_of_asTable (h : Heap) (k : Kind) (hvw : v.asTable = w.asTable) :
    slots h k v = slots h k w := by
  cases hk : k.isNested with
  | true => rw [slots_nested hk, slots_nested hk, hvw]
  | false =>
    cases k with
    | scalar => rfl
    | array => cases hk
    | format => cases hk

theorem asTable_get_held (hfinds : h.Finds a key) :
    (h.get a key).asTable = (h.held a key).asTable := by
  rw [Heap.asTable_get hfinds, Heap.held]
  cases h.own a key <;> rfl

/-! ### Decoding fills -/

/-- What a value that was decoded reads as, and where it stands. -/
structure Filled (h : Heap) (S : List Slot) (h' : Heap) (T : List Slot) : Prop where
  frame : Frame h h' S
  origin : ∀ s ∈ T, s ∈ S ∨ h.next ≤ s.1
  known : ∀ s ∈ T, s.1 < h'.next
  settled : ∀ s ∈ T, (h'.slot s).isSome

/-- What decoding a kind comes to. -/
def Fills (k : Kind) : Prop :=
  ∀ (h : Heap) (v : Value) (p : Nat) (bytes : List UInt8), Fits h (slots h k v) →
    (∀ w h' q, decodeKind bytes k (h, p) v = .ok (w, h', q) →
      (k.isNested = true → ∀ a, v.asTable = some a → w = .table a) ∧
      Filled h (slots h k v) h' (slots h' k w) ∧
      ∃ vs, getAll bytes k.leaves p = some (vs, q) ∧ read h' k w = some vs) ∧
    ((getAll bytes k.leaves p).isSome →
      (∀ s ∈ slots h k v, (h.tables s.1).shared = false) →
      ∃ x, decodeKind bytes k (h, p) v = .ok x)

theorem decodePart_ok {decode : Heap × Nat → Value → Except Failure (Value × Heap × Nat)}
    (hpart : decodePart decode a key (h, p) = .ok (h', q)) :
    ∃ w g, decode (h, p) (h.get a key) = .ok (w, g, q) ∧ h' = g.set a key w := by
  obtain ⟨⟨w, g, r⟩, hdecode, hset⟩ := bind_ok hpart
  dsimp only at hset
  split at hset
  · cases hset
  · cases hset
    exact ⟨w, g, hdecode, rfl⟩

theorem partsSlots_cons {part : Key × Kind} (hfinds : h.Finds a part.1) :
    partsSlots h (part :: parts) a =
      ((a, part.1) :: slots h part.2 (h.get a part.1)) ++ partsSlots h parts a := by
  rw [slots_of_asTable h part.2 (asTable_get_held hfinds)]
  rfl

theorem Fits.first {rest : List Slot} (hfits : Fits h ((a, key) :: S ++ rest)) : Fits h S where
  apart := (List.nodup_cons.mp (List.nodup_append.mp hfits.apart).1).2
  known s hs := hfits.known s (by simp [hs])
  finds s hs := hfits.finds s (by simp [hs])

theorem fills_part {k : Kind} (hk : Fills k) {rest : List Slot}
    (hfits : Fits h ((a, key) :: slots h k (h.get a key) ++ rest)) {w : Value}
    (hdecode : decodeKind bytes k (h, p) (h.get a key) = .ok (w, g, q)) :
    Filled h ((a, key) :: slots h k (h.get a key)) (g.set a key w)
        ((a, key) :: slots (g.set a key w) k w) ∧
      (∀ s ∈ rest, (g.set a key w).slot s = h.slot s) ∧ Fits (g.set a key w) rest ∧
      ∃ vs, getAll bytes k.leaves p = some (vs, q) ∧ read (g.set a key w) k w = some vs := by
  obtain ⟨hdone, _⟩ := hk h (h.get a key) p bytes hfits.first
  obtain ⟨hnodup, hknown, hfinds⟩ := hfits
  rw [List.nodup_append] at hnodup
  obtain ⟨hfirst, hrest, hapart⟩ := hnodup
  have hkey := (List.nodup_cons.mp hfirst).1
  have ha : a < h.next := hknown (a, key) (by simp)
  obtain ⟨_, hfilled, vs, hgot, hread⟩ := hdone w g q hdecode
  have hne : ∀ s ∈ slots g k w, s ≠ (a, key) := by
    rintro s hs rfl
    obtain hin | hfresh := hfilled.origin _ hs
    · exact hkey hin
    · exact absurd ha (Nat.not_lt.mpr hfresh)
  have hkept : ∀ s ∈ slots g k w, (g.set a key w).slot s = g.slot s := fun s hs => by
    rw [slot_set, if_neg (hne s hs)]
  have hslots : slots (g.set a key w) k w = slots g k w := slots_congr k w hkept
  have hframe : Frame h (g.set a key w) ((a, key) :: slots h k (h.get a key)) := by
    have := hfilled.frame.trans (frame_set g a key w)
    exact ⟨this.next, fun s hs hnot => this.slot s hs (by
      rw [List.mem_append, List.mem_singleton, or_comm, ← List.mem_cons]
      exact hnot), this.table⟩
  have hothers : ∀ s ∈ rest, (g.set a key w).slot s = h.slot s := fun s hs =>
    hframe.slot s (hknown s (by simp [hs])) fun hin => hapart s hin s hs rfl
  refine ⟨⟨hframe, fun s hs => ?_, fun s hs => ?_, fun s hs => ?_⟩, hothers, ⟨hrest, ?_, ?_⟩, vs,
    hgot, ?_⟩
  · obtain rfl | hs := List.mem_cons.mp hs
    · exact .inl List.mem_cons_self
    · exact (hfilled.origin s (hslots ▸ hs)).imp_left (List.mem_cons_of_mem _)
  · obtain rfl | hs := List.mem_cons.mp hs
    · exact Nat.lt_of_lt_of_le ha hframe.next
    · exact hfilled.known s (hslots ▸ hs)
  · obtain rfl | hs := List.mem_cons.mp hs
    · rw [slot_set, if_pos rfl]
      rfl
    · rw [hslots] at hs
      rw [hkept s hs]
      exact hfilled.settled s hs
  · exact fun s hs => Nat.lt_of_lt_of_le (hknown s (by simp [hs])) hframe.next
  · exact fun s hs => hframe.finds (hknown s (by simp [hs])) (hothers s hs)
      (hfinds s (by simp [hs]))
  · rw [← hread]
    exact read_congr k w fun s hs => ⟨hfilled.settled s hs, hkept s hs⟩

theorem fills_parts (hall : ∀ part ∈ parts, Fills part.2) :
    ∀ {h : Heap} {p : Nat}, Fits h (partsSlots h parts a) →
    (∀ h' q, decodeParts bytes parts a (h, p) = .ok (h', q) →
      Filled h (partsSlots h parts a) h' (partsSlots h' parts a) ∧
      ∃ vs, getAll bytes (parts.flatMap fun part => part.2.leaves) p = some (vs, q) ∧
        readParts h' parts a = some vs) ∧
    ((getAll bytes (parts.flatMap fun part => part.2.leaves) p).isSome →
      (∀ s ∈ partsSlots h parts a, (h.tables s.1).shared = false) →
      ∃ x, decodeParts bytes parts a (h, p) = .ok x) := by
  induction parts with
  | nil =>
    intro h p _
    refine ⟨fun h' q hdecode => ?_, fun _ _ => ⟨_, rfl⟩⟩
    cases hdecode
    exact ⟨⟨Frame.refl _, fun _ hs => (nomatch hs), fun _ hs => (nomatch hs),
      fun _ hs => (nomatch hs)⟩, [], rfl, rfl⟩
  | cons part parts ih =>
    intro h p hfits
    rw [partsSlots_cons (hfits.finds (a, part.1) List.mem_cons_self)] at hfits ⊢
    have hpart := hall part List.mem_cons_self
    have ha : a < h.next := hfits.known (a, part.1) List.mem_cons_self
    have ih := @ih fun other hother => hall other (List.mem_cons_of_mem _ hother)
    constructor
    · intro h' q hdecode
      obtain ⟨⟨g, r⟩, hfirst, hothers⟩ := bind_ok hdecode
      obtain ⟨w, g, hw, rfl⟩ := decodePart_ok hfirst
      obtain ⟨hfilled, hsame, hfits', us, hus, hread⟩ := fills_part hpart hfits hw
      rw [← partsSlots_congr hsame] at hfits'
      obtain ⟨hrest, vs, hvs, hreads⟩ := (ih hfits').1 h' q hothers
      rw [partsSlots_congr hsame] at hrest
      have hnot : ∀ s ∈ (a, part.1) :: slots (g.set a part.1 w) part.2 w,
          s ∉ partsSlots h parts a := by
        intro s hs hin
        obtain hold | hfresh := hfilled.origin s hs
        · exact (List.nodup_append.mp hfits.apart).2.2 s hold s hin rfl
        · exact absurd (hfits.known s (List.mem_append_right _ hin)) (Nat.not_lt.mpr hfresh)
      have hkept : ∀ s ∈ (a, part.1) :: slots (g.set a part.1 w) part.2 w,
          h'.slot s = (g.set a part.1 w).slot s := fun s hs =>
        hrest.frame.slot s (hfilled.known s hs) (hnot s hs)
      have hitem : h'.slot (a, part.1) = some w := by
        rw [hkept _ List.mem_cons_self, slot_set, if_pos rfl]
      have hinner : ∀ s ∈ slots (g.set a part.1 w) part.2 w,
          h'.slot s = (g.set a part.1 w).slot s := fun s hs =>
        hkept s (List.mem_cons_of_mem _ hs)
      have hslots : partsSlots h' (part :: parts) a =
          ((a, part.1) :: slots (g.set a part.1 w) part.2 w) ++ partsSlots h' parts a := by
        rw [partsSlots_cons (.inl (by rw [show h'.own a part.1 = some w from hitem]; rfl)),
          get_of_slot hitem, slots_congr part.2 w hinner]
      rw [hslots]
      refine ⟨⟨hfilled.frame.trans hrest.frame, fun s hs => ?_, fun s hs => ?_, fun s hs => ?_⟩,
        us ++ vs, ?_, ?_⟩
      · obtain hs | hs := List.mem_append.mp hs
        · exact (hfilled.origin s hs).imp_left (List.mem_append_left _)
        · obtain hold | hfresh := hrest.origin s hs
          · exact .inl (List.mem_append_right _ hold)
          · exact .inr (hfilled.frame.next.trans hfresh)
      · obtain hs | hs := List.mem_append.mp hs
        · exact Nat.lt_of_lt_of_le (hfilled.known s hs) hrest.frame.next
        · exact hrest.known s hs
      · obtain hs | hs := List.mem_append.mp hs
        · rw [hkept s hs]
          exact hfilled.settled s hs
        · exact hrest.settled s hs
      · rw [List.flatMap_cons, getAll_append, hus]
        simp [hvs]
      · have hfirst : read h' part.2 w = some us := by
          rw [← hread]
          exact read_congr part.2 w fun s hs =>
            ⟨hfilled.settled s (List.mem_cons_of_mem _ hs), hinner s hs⟩
        rw [readParts, get_of_slot hitem, hfirst, hreads]
        rfl
    · intro hgot hshared
      rw [List.flatMap_cons, getAll_append] at hgot
      cases hus : getAll bytes part.2.leaves p with
      | none =>
        rw [hus] at hgot
        cases hgot
      | some got =>
        rw [hus, Option.bind_some, Option.isSome_map] at hgot
        obtain ⟨⟨w, g, r⟩, hw⟩ := (hpart h _ p bytes hfits.first).2 (by rw [hus]; rfl)
          fun s hs => hshared s (List.mem_append_left _ (List.mem_cons_of_mem _ hs))
        obtain ⟨hfilled, hsame, hfits', us, hus', _⟩ := fills_part hpart hfits hw
        rw [hus] at hus'
        cases hus'
        have hopen : (g.tables a).shared = false := by
          have hkept : ((g.set a part.1 w).tables a).shared = (g.tables a).shared := by
            simp [Heap.set]
          rw [← hkept, hfilled.frame.shared ha]
          exact hshared (a, part.1) List.mem_cons_self
        have hfirst : decodePart (decodeKind bytes part.2) a part.1 (h, p) =
            .ok (g.set a part.1 w, r) := by
          rw [decodePart, hw]
          exact if_neg (by rw [hopen]; exact Bool.false_ne_true)
        rw [← partsSlots_congr hsame] at hfits'
        obtain ⟨x, hx⟩ := (@ih _ r hfits').2 hgot fun s hs => by
          rw [partsSlots_congr hsame] at hs
          rw [hfilled.frame.shared (hfits.known s (List.mem_append_right _ hs))]
          exact hshared s (List.mem_append_right _ hs)
        refine ⟨x, ?_⟩
        rw [decodeParts, hfirst]
        exact hx

/-! ### Every kind -/

theorem parts_sound : ∀ {k : Kind}, k.Sound → ∀ part ∈ k.parts, part.2.Sound
  | .scalar _, _, _, hpart => nomatch hpart
  | .array _ element, hs, part, hpart => by
    obtain ⟨i, _, rfl⟩ := List.mem_map.mp hpart
    exact hs
  | .format fields, hs, part, hpart => inFields hs.2 part hpart
where
  inFields : ∀ {fields : Fields}, fields.Sound → ∀ part ∈ fields.parts, part.2.Sound
    | .nil, _, _, hpart => nomatch hpart
    | .cons _ _ _, hs, part, hpart => by
      obtain rfl | hpart := List.mem_cons.mp hpart
      · exact hs.1
      · exact inFields hs.2 part hpart

theorem keys_fields (fields : Fields) :
    fields.parts.map Prod.fst = fields.names.map Key.name := by
  cases fields with
  | nil => rfl
  | cons name _ rest => exact congrArg (Key.name name :: ·) (keys_fields rest)

theorem keys_nodup {k : Kind} (hs : k.Sound) : (k.parts.map Prod.fst).Nodup := by
  cases k with
  | scalar => exact List.nodup_nil
  | array n element =>
    rw [Kind.parts, items, List.map_map]
    exact List.Nodup.map (fun i j h => Key.position.inj h) List.nodup_range'
  | format fields =>
    rw [Kind.parts, keys_fields]
    exact hs.1.map fun a b h => Key.name.inj h

theorem slots_nil (h : Heap) (k : Kind) : slots h k .nil = [] := by
  cases k <;> rfl

theorem fits_nil (h : Heap) (k : Kind) : Fits h (slots h k .nil) := by
  rw [slots_nil]
  exact ⟨List.nodup_nil, fun _ hs => (nomatch hs), fun _ hs => (nomatch hs)⟩

theorem partsSlots_make (h : Heap) (parts : List (Key × Kind)) :
    partsSlots h.make.2 parts h.next = parts.map fun part => (h.next, part.1) := by
  have hnone : ∀ key, h.make.2.held h.next key = .nil := fun key => by
    simp [Heap.held, Heap.own, Heap.make]
  unfold partsSlots
  induction parts with
  | nil => rfl
  | cons part parts ih =>
    rw [List.flatMap_cons, List.map_cons, ih, hnone, slots_nil]
    rfl

theorem fits_make (h : Heap) {parts : List (Key × Kind)} (hkeys : (parts.map Prod.fst).Nodup) :
    Fits h.make.2 (partsSlots h.make.2 parts h.next) := by
  rw [partsSlots_make]
  refine ⟨?_, fun s hs => ?_, fun s hs => ?_⟩
  · have hpairs := hkeys.map (f := fun key => (h.next, key)) fun a b hab => (Prod.mk.inj hab).2
    rwa [List.map_map] at hpairs
  · obtain ⟨part, _, rfl⟩ := List.mem_map.mp hs
    exact Nat.lt_succ_self _
  · obtain ⟨part, _, rfl⟩ := List.mem_map.mp hs
    refine .inr fun hdefinition => ?_
    simp [Heap.make] at hdefinition

theorem frame_make (h : Heap) : Frame h h.make.2 [] where
  next := Nat.le_succ _
  slot s hs _ := by
    have hne : s.1 ≠ h.next := Nat.ne_of_lt hs
    simp [Heap.slot, Heap.own, Heap.make, hne]
  table a ha := by
    have hne : a ≠ h.next := Nat.ne_of_lt ha
    simp [Heap.make, hne]

theorem Fills.scalar (s : Scalar) : Fills (.scalar s) := by
  intro h v p bytes _
  simp only [decodeKind, Kind.leaves, getAll]
  cases s.unpack (getBits bytes p s.width) with
  | none =>
    refine ⟨?_, ?_⟩
    · rintro w h' q hdecode
      cases hdecode
    · rintro hgot
      cases hgot
  | some w =>
    refine ⟨?_, fun _ _ => ⟨_, rfl⟩⟩
    rintro w' h' q hdecode
    cases hdecode
    exact ⟨by rintro ⟨⟩, ⟨Frame.refl _, by rintro _ ⟨⟩, by rintro _ ⟨⟩, by rintro _ ⟨⟩⟩, [w], rfl, rfl⟩

theorem Fills.nested {k : Kind} (hk : k.isNested = true) (hs : k.Sound)
    (hall : ∀ part ∈ k.parts, Fills part.2) : Fills k := by
  intro h v p bytes hfits
  have hleaves := leaves_nested hk
  rw [decodeKind_nested hk, hleaves]
  cases hv : v.asTable with
  | some a =>
    have hrefill : refill h v = (a, h) := by
      cases v <;> cases hv
      rfl
    have hslots : slots h k v = partsSlots h k.parts a := by
      rw [slots_nested hk, hv]
      rfl
    rw [hslots] at hfits
    obtain ⟨hdone, hruns⟩ := @fills_parts a k.parts bytes hall h p hfits
    rw [hrefill, hslots]
    refine ⟨fun w h' q hdecode => ?_, fun hgot hshared => ?_⟩
    · obtain ⟨⟨g, r⟩, hparts, hrest⟩ := bind_ok hdecode
      cases hrest
      obtain ⟨hfilled, vs, hvs, hread⟩ := hdone _ _ hparts
      have hslots' : slots h' k (.table a) = partsSlots h' k.parts a := by
        rw [slots_nested hk]
        rfl
      rw [← hslots'] at hfilled
      refine ⟨fun _ b hb => ?_, hfilled, vs, hvs, ?_⟩
      · cases hb
        rfl
      · rw [read_nested hk]
        exact hread
    · obtain ⟨x, hx⟩ := hruns hgot hshared
      exact ⟨_, by rw [hx]; rfl⟩
  | none =>
    have hrefill : refill h v = h.make := by
      cases v <;> first | rfl | cases hv
    have hslots : slots h k v = [] := by
      rw [slots_nested hk, hv]
      rfl
    have hfresh := fits_make h (keys_nodup hs)
    obtain ⟨hdone, hruns⟩ := @fills_parts h.next k.parts bytes hall h.make.2 p hfresh
    rw [hrefill, hslots]
    refine ⟨fun w h' q hdecode => ?_, fun hgot hshared => ?_⟩
    · obtain ⟨⟨g, r⟩, hparts, hrest⟩ := bind_ok hdecode
      cases hrest
      obtain ⟨hfilled, vs, hvs, hread⟩ := hdone _ _ hparts
      have hslots' : slots h' k (.table h.next) = partsSlots h' k.parts h.next := by
        rw [slots_nested hk]
        rfl
      have honly : ∀ s ∈ partsSlots h.make.2 k.parts h.next, s.1 = h.next := fun s hs => by
        rw [partsSlots_make] at hs
        obtain ⟨part, _, rfl⟩ := List.mem_map.mp hs
        rfl
      rw [← hslots'] at hfilled
      refine ⟨fun _ b hb => (nomatch hb), ⟨⟨?_, fun s hs _ => ?_, fun b hb => ?_⟩, fun s hs => ?_,
        hfilled.known, hfilled.settled⟩, vs, hvs, ?_⟩
      · exact (frame_make h).next.trans hfilled.frame.next
      · rw [hfilled.frame.slot s (Nat.lt_succ_of_lt hs) fun hin =>
          Nat.ne_of_lt hs (honly s hin), (frame_make h).slot s hs (List.not_mem_nil)]
      · rw [hfilled.frame.table b (Nat.lt_succ_of_lt hb), (frame_make h).table b hb]
      · obtain hold | hnew := hfilled.origin s hs
        · exact .inr (Nat.le_of_eq (honly s hold).symm)
        · exact .inr (Nat.le_of_succ_le hnew)
      · rw [read_nested hk]
        exact hread
    · obtain ⟨x, hx⟩ := hruns hgot fun s hs => by
        rw [partsSlots_make] at hs
        obtain ⟨part, _, rfl⟩ := List.mem_map.mp hs
        simp [Heap.make]
      exact ⟨_, by rw [show h.make.1 = h.next from rfl, hx]; rfl⟩

theorem fills : ∀ k : Kind, k.Sound → Fills k :=
  Kind.induction (fun s _ => Fills.scalar s) fun _ hk ih hs =>
    Fills.nested hk hs fun part hpart => ih part hpart (parts_sound hs part hpart)

end Lhat.Binary
