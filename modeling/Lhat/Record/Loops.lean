import Lhat.Record.Scalars

/-!
# What a table holds comes back

Each value of a table is read where it was written, into tables that are made for it. Nothing
else that is read touches those, so what a value holds is what it held when it was read.
-/

namespace Lhat.Records

variable {limits : Limits} {write : List UInt8 → List UInt8 → Bool} {split : Splitting}
  {h g g' g'' : Heap} {v w : Value} {m n a : Nat}

/-! ### One value -/

/-- Every table of a value holds its entries apart from its sequence. -/
def Readable (h : Heap) (v : Value) : Prop := ∀ a, Within h v a → (h.tables a).Apart

theorem readable_leaf (hv : ∀ a, v ≠ .table a) : Readable h v := by
  intro a ha
  cases ha with
  | self => exact absurd rfl (hv a)
  | item _ _ => exact absurd rfl (hv _)
  | entry _ _ => exact absurd rfl (hv _)

theorem readable_table : Readable h (.table a) ↔ (h.tables a).Apart ∧
    (∀ v ∈ (h.tables a).array, Readable h v) ∧ ∀ e ∈ (h.tables a).live, Readable h e.value := by
  constructor
  · intro hall
    exact ⟨hall a .self, fun v hv b hb => hall b (.item hv hb),
      fun e he b hb => hall b (.entry he hb)⟩
  · rintro ⟨hself, hitems, hentries⟩ b hb
    cases hb with
    | self => exact hself
    | item hv hb => exact hitems _ hv b hb
    | entry he hb => exact hentries _ he b hb

/-- The tables made since there were `n` are the same in another heap. -/
def AgreesFrom (n : Nat) (g g' : Heap) : Prop := ∀ a, n ≤ a → a < g.next → g'.tables a = g.tables a

/-- A value that was read, into tables made since there were `n`. -/
structure Brought (h : Heap) (v : Value) (n : Nat) (g : Heap) (w : Value) : Prop where
  leaf : (∀ a, v ≠ .table a) → w = v
  table : ∀ a, v = .table a → ∃ b, w = .table b
  same : ∀ g', AgreesFrom n g g' → (Readable h v ↔ SameContents h v g' w)

theorem Brought.later (hb : Brought h v n g w) (hm : m ≤ n) (hle : g.next ≤ g'.next)
    (hsame : AgreesFrom n g g') : Brought h v m g' w :=
  ⟨hb.leaf, hb.table, fun g'' hg'' => hb.same g'' fun a ha hlt =>
    (hg'' a (hm.trans ha) (hlt.trans_le hle)).trans (hsame a ha hlt)⟩

theorem Brought.nil_iff (hb : Brought h v n g w) : w = .nil ↔ v = .nil := by
  cases hv : v with
  | table a =>
    obtain ⟨b, rfl⟩ := hb.table a hv
    simp
  | _ =>
    have := hb.leaf (by rw [hv]; intro a ha; cases ha)
    rw [this, hv]

theorem contents_nil (h : Heap) (depth : Nat) : contents h depth .nil = .scalar .nil := by
  cases depth <;> rfl

theorem contents_zero_eq_nil : contents h 0 v = .scalar .nil ↔ v = .nil := by
  cases v <;> simp [contents]

theorem brought_leaf (hv : ∀ a, v ≠ .table a) : Brought h v n g v := by
  refine ⟨fun _ => rfl, fun a ha => absurd ha (hv a), fun g' _ => ?_⟩
  refine iff_of_true (readable_leaf hv) fun depth => ?_
  cases v with
  | table a => exact absurd rfl (hv a)
  | _ => cases depth <;> rfl

/-- What a read comes to, where there was something to read. -/
def Comes (limits : Limits) (h : Heap) (v : Value) (rest tail : List UInt8) (entries : Nat)
    (g : Heap) : Except Status (Value × Reader × Heap) → Prop
  | .error _ => ¬Readable h v
  | .ok (w, c, g') => Presents limits c rest tail ∧ c.entries = entries ∧ g.next ≤ g'.next ∧
      (∀ a, a < g.next → g'.tables a = g.tables a) ∧ Brought h v g.next g' w

/-- The bytes of a value, with the count of entries before and after it. -/
def ReadsBack (limits : Limits) (h : Heap)
    (value : Reader → Heap → Except Status (Value × Reader × Heap)) (v : Value)
    (data : List UInt8) (before after : Nat) : Prop :=
  ∀ r g rest tail, Presents limits r (data ++ rest) tail → r.entries = before →
    Comes limits h v rest tail after g (value r g)

/-- The bytes of several values, one after the other. -/
inductive Laid (limits : Limits) (h : Heap)
    (value : Reader → Heap → Except Status (Value × Reader × Heap)) :
    List Value → List UInt8 → Nat → Nat → Prop where
  | nil {n : Nat} : Laid limits h value [] [] n n
  | cons {v : Value} {vs : List Value} {data datas : List UInt8} {k m n : Nat} :
      ReadsBack limits h value v data k m → Laid limits h value vs datas m n →
      Laid limits h value (v :: vs) (data ++ datas) k n

variable {value : Reader → Heap → Except Status (Value × Reader × Heap)}

/-! ### The positions -/

/-- What reading the positions of a table comes to. -/
def ItemsCome (limits : Limits) (h : Heap) (vs done : List Value) (a : Nat)
    (rest tail : List UInt8) (entries : Nat) (g : Heap) : Except Status (Reader × Heap) → Prop
  | .error _ => ∃ v ∈ vs, ¬Readable h v
  | .ok (c, g') => Presents limits c rest tail ∧ c.entries = entries ∧ g.next ≤ g'.next ∧
      (∀ b, b < g.next → b ≠ a → g'.tables b = g.tables b) ∧
      (g'.tables a).entries = (g.tables a).entries ∧
      ∃ ws, (g'.tables a).array = done ++ ws ∧
        List.Forall₂ (fun v w => Brought h v g.next g' w) vs ws

theorem Heap.write_tables (g : Heap) (a b : Nat) (t : Table) :
    (g.write a t).tables b = if b = a then t else g.tables b := by
  unfold Heap.write
  dsimp only
  by_cases hb : b = a
  · rw [hb, Function.update_self, if_pos rfl]
  · rw [Function.update_of_ne hb, if_neg hb]

theorem Laid.readItems {vs : List Value} {data : List UInt8} {k : Nat}
    (hlaid : Laid limits h value vs data k n) : ∀ {r : Reader} {g : Heap} (done : List Value)
    {rest tail : List UInt8}, Presents limits r (data ++ rest) tail → r.entries = k → a < g.next →
    (g.tables a).array = done ++ List.replicate vs.length .nil →
    ItemsCome limits h vs done a rest tail n g (readItems value a vs.length done.length r g) := by
  induction hlaid with
  | nil =>
    intro r g done rest tail hr hentries ha harray
    exact ⟨hr, hentries, le_rfl, fun _ _ _ => rfl, rfl, [], harray, .nil⟩
  | @cons v vs data datas k m n hback _ ih =>
    intro r g done rest tail hr hentries ha harray
    rw [List.append_assoc] at hr
    have hcomes := hback r g _ tail hr hentries
    rw [List.length_cons, Records.readItems]
    rcases hvalue : value r g with _ | ⟨w, r₁, g₁⟩
    · rw [hvalue] at hcomes
      exact ⟨v, List.mem_cons_self, hcomes⟩
    · rw [hvalue] at hcomes
      obtain ⟨hr₁, hentries₁, hle, hold, hbrought⟩ := hcomes
      have htable : g₁.tables a = g.tables a := hold a ha
      have hlen : (g₁.tables a).array.length = done.length + (vs.length + 1) := by
        rw [htable, harray]
        simp
      have hindex : Table.arrayIndex (g₁.tables a).array.length (.integer (.ofNat done.length)) =
          some done.length :=
        Table.arrayIndex_position (by omega) (g₁.tables a).short
      obtain ⟨t, hset, hsetArray, hsetEntries⟩ :=
        Table.set_inside w (Table.held_integer _) hindex
      have hmore : t.array = (done ++ [w]) ++ List.replicate vs.length .nil := by
        rw [hsetArray, htable, harray, List.length_cons, List.replicate_succ,
          List.set_append_right _ _ le_rfl, Nat.sub_self, List.set_cons_zero, List.append_assoc]
        rfl
      have hnext := ih (g := g₁.write a t) (done ++ [w]) hr₁ hentries₁ (ha.trans_le hle)
        (by rw [Heap.write_tables, if_pos rfl, hmore])
      rw [List.length_append, List.length_singleton] at hnext
      simp only [bind, Except.bind, hset]
      rcases hread : Records.readItems value a vs.length (done.length + 1) r₁ (g₁.write a t) with
        _ | ⟨r', g'⟩
      · rw [hread] at hnext
        obtain ⟨u, hu, hnot⟩ := hnext
        exact ⟨u, List.mem_cons_of_mem _ hu, hnot⟩
      · rw [hread] at hnext
        obtain ⟨hr', hentries', hle', hold', hsame, ws, harray', hall⟩ := hnext
        have hkept : ∀ b, b < g₁.next → b ≠ a → g'.tables b = g₁.tables b := fun b hb hne => by
          rw [hold' b hb hne, Heap.write_tables, if_neg hne]
        refine ⟨hr', hentries', hle.trans hle', fun b hb hne => ?_, ?_, w :: ws, ?_, ?_⟩
        · rw [hkept b (hb.trans_le hle) hne, hold b hb]
        · rw [hsame, Heap.write_tables, if_pos rfl, hsetEntries, htable]
        · rw [harray', List.append_assoc]
          rfl
        · refine .cons ?_ ?_
          · exact hbrought.later le_rfl hle' fun b hb hlt =>
              hkept b hlt (Nat.ne_of_gt (ha.trans_le hb))
          · exact hall.imp fun _ _ hb => hb.later hle le_rfl fun _ _ _ => rfl

/-! ### The entries -/

/-- What an entry that does not stand apart leaves of the sequence: a position too many, or a
hole that is filled. -/
def Mark (ws : List Value) (t : Table) : Prop :=
  ws.length < t.array.length ∨
    ∃ (i : Nat) (x : Value), ws[i]? = some .nil ∧ t.array[i]? = some x ∧ x ≠ .nil

theorem Mark.ne {ws : List Value} {t : Table} (hmark : Mark ws t) : t.array ≠ ws := by
  rintro rfl
  obtain hlt | ⟨i, x, hnil, hx, hne⟩ := hmark
  · exact Nat.lt_irrefl _ hlt
  · rw [hnil] at hx
    exact hne (Option.some.inj hx).symm

theorem Mark.set {ws : List Value} {t t' : Table} {key : Value} (hmark : Mark ws t)
    (hkey : Held key) (hw : w ≠ .nil) (hset : t.set key w = .done t') : Mark ws t' := by
  cases hindex : Table.arrayIndex t.array.length key with
  | some j =>
    obtain ⟨t₁, hset₁, harray, -⟩ := Table.set_inside w hkey hindex
    rw [hset₁] at hset
    cases hset
    have hj := Table.arrayIndex_lt hindex
    obtain hlt | ⟨i, x, hnil, hx, hne⟩ := hmark
    · exact .inl (by rwa [harray, List.length_set])
    · by_cases hij : j = i
      · exact .inr ⟨i, w, hnil, by rw [harray, hij, List.getElem?_set_self (hij ▸ hj)], hw⟩
      · exact .inr ⟨i, x, hnil, by rw [harray, List.getElem?_set_ne hij, hx], hne⟩
  | none =>
    have hprefix := Table.set_outside hkey hindex hset
    obtain hlt | ⟨i, x, hnil, hx, hne⟩ := hmark
    · exact .inl (hlt.trans_le hprefix.length_le)
    · refine .inr ⟨i, x, hnil, ?_, hne⟩
      obtain ⟨more, hmore⟩ := hprefix
      obtain ⟨hi, -⟩ := List.getElem?_eq_some_iff.mp hx
      rw [← hmore, List.getElem?_append_left hi, hx]

/-- The values of entries, each after its key. -/
def pairs (es : List Entry) : List Value := es.flatMap fun e => [e.key, e.value]

theorem scalarKey_leaf {key : Value} (hkey : scalarKey key = true) : ∀ a, key ≠ .table a := by
  rintro a rfl
  cases hkey

/-- What reading the entries of a table comes to. Where it began with a mark, or an entry does
not stand apart, there is a mark in the end. -/
def EntriesCome (limits : Limits) (h : Heap) (ws : List Value) (done es : List Entry) (a : Nat)
    (rest tail : List UInt8) (entries : Nat) (g : Heap) : Except Status (Reader × Heap) → Prop
  | .error _ => Mark ws (g.tables a) ∨ ∃ e ∈ es, ¬e.Apart ws.length ∨ ¬Readable h e.value
  | .ok (c, g') => Presents limits c rest tail ∧ c.entries = entries ∧ g.next ≤ g'.next ∧
      (∀ b, b < g.next → b ≠ a → g'.tables b = g.tables b) ∧
      (Mark ws (g'.tables a) ∧ (Mark ws (g.tables a) ∨ ∃ e ∈ es, ¬e.Apart ws.length) ∨
        (g.tables a).array = ws ∧ (∀ e ∈ es, e.Apart ws.length) ∧ (g'.tables a).array = ws ∧
        ∃ es', (g'.tables a).entries = done ++ es' ∧
          List.Forall₂ (fun e e' => e'.key = e.key ∧ Brought h e.value g.next g' e'.value) es es')

theorem set_entry {ws : List Value} {done : List Entry} {t t' : Table} {e : Entry}
    (hkey : Held e.key) (hnew : e.key ∉ keysOf done) (harray : t.array = ws)
    (hentries : t.entries = done) (hv : e.value ≠ .nil) (hw : w ≠ .nil)
    (hbelongs : belongs ws.length e.key = false) (hget : t.get e.key = .nil)
    (hset : t.set e.key w = .done t') :
    (e.Apart ws.length ∧ t'.array = ws ∧ t'.entries = done ++ [⟨e.key, w⟩]) ∨
      (¬e.Apart ws.length ∧ Mark ws t') := by
  cases hindex : Table.arrayIndex ws.length e.key with
  | some i =>
    rw [← harray] at hindex
    obtain ⟨t₁, hset₁, harray₁, -⟩ := Table.set_inside w hkey hindex
    rw [hset₁] at hset
    cases hset
    have hi := Table.arrayIndex_lt hindex
    refine .inr ⟨fun hapart => ?_, .inr ⟨i, w, ?_, ?_, hw⟩⟩
    · rw [harray, hapart.2.2.2] at hindex
      cases hindex
    · rw [Table.get_inside hkey hindex, List.getD_eq_getElem _ _ hi] at hget
      rw [← harray, List.getElem?_eq_getElem hi, hget]
    · rw [harray₁, List.getElem?_set_self hi]
  | none =>
    have hindex' : Table.arrayIndex t.array.length e.key = none := by rw [harray, hindex]
    by_cases hnext : e.key = .integer (.ofNat ws.length)
    · refine .inr ⟨fun hapart => hapart.2.2.1 hnext, .inl ?_⟩
      rw [← harray]
      exact Table.set_next hkey hindex' (by rw [harray, hnext]) hset
    · obtain ⟨t₁, hset₁, harray₁, hentries₁⟩ := Table.set_new hkey hindex'
        (by rwa [harray]) hw (by rwa [hentries])
      rw [hset₁] at hset
      cases hset
      exact .inl ⟨⟨hv, hbelongs, hnext, hindex⟩, harray₁.trans harray, by rw [hentries₁, hentries]⟩

theorem Laid.readEntries (ws : List Value) (es : List Entry) : ∀ {data : List UInt8} {k : Nat}
    {r : Reader} {g : Heap} (done : List Entry) {rest tail : List UInt8},
    Laid limits h value (pairs es) data k n →
    (∀ e ∈ es, Held e.key ∧ scalarKey e.key = true) → (keysOf done ++ es.map Entry.key).Nodup →
    Presents limits r (data ++ rest) tail → r.entries = k → a < g.next →
    ((g.tables a).array = ws ∧ (g.tables a).entries = done ∨ Mark ws (g.tables a)) →
    EntriesCome limits h ws done es a rest tail n g
      (readEntries value a ws.length es.length r g) := by
  induction es with
  | nil =>
    intro data k r g done rest tail hlaid _ _ hr hentries ha hstate
    cases hlaid
    refine ⟨hr, hentries, le_rfl, fun _ _ _ => rfl, ?_⟩
    obtain ⟨harray, hdone⟩ | hmark := hstate
    · exact .inr ⟨harray, fun e he => (nomatch he), harray, [], by rw [hdone, List.append_nil], .nil⟩
    · exact .inl ⟨hmark, .inl hmark⟩
  | cons e es ih =>
    intro data k r g done rest tail hlaid hkeys hnodup hr hentries ha hstate
    obtain ⟨hkey, hscalar⟩ := hkeys e List.mem_cons_self
    have hnew : e.key ∉ keysOf done := fun hin =>
      (List.nodup_append.mp hnodup).2.2 _ hin _ List.mem_cons_self rfl
    cases hlaid with
    | @cons _ _ data₁ datas _ m _ hback hlaid =>
    cases hlaid with
    | @cons _ _ data₂ datas _ m' _ hback' hlaid =>
    rw [List.append_assoc, List.append_assoc] at hr
    have hcomes := hback r g _ tail hr hentries
    rw [List.length_cons, Records.readEntries]
    rcases hvalue : value r g with _ | ⟨key, r₁, g₁⟩
    · rw [hvalue] at hcomes
      exact absurd (readable_leaf (scalarKey_leaf hscalar)) hcomes
    rw [hvalue] at hcomes
    obtain ⟨hr₁, hentries₁, hle₁, hold₁, hbrought₁⟩ := hcomes
    obtain rfl := hbrought₁.leaf (scalarKey_leaf hscalar)
    have htable₁ : g₁.tables a = g.tables a := hold₁ a ha
    have hcomes' := hback' r₁ g₁ _ tail hr₁ hentries₁
    simp only [bind, Except.bind]
    split
    · rename_i hrefused
      obtain hnot | hbelongs | hget := hrefused
      · rw [hscalar] at hnot
        cases hnot
      · refine .inr ⟨e, List.mem_cons_self, .inl fun hapart => ?_⟩
        rw [hapart.2.1] at hbelongs
        cases hbelongs
      · rw [htable₁] at hget
        obtain ⟨harray, hdone⟩ | hmark := hstate
        · refine .inr ⟨e, List.mem_cons_self, .inl fun hapart => hget ?_⟩
          refine Table.get_eq_nil hkey (by rw [harray]; exact hapart.2.2.2) ?_
          rw [hdone]
          exact hnew
        · exact .inl hmark
    · rename_i hallowed
      have hbelongs : belongs ws.length e.key = false :=
        Bool.eq_false_iff.mpr fun hb => hallowed (.inr (.inl hb))
      have hget : (g₁.tables a).get e.key = .nil := by
        by_contra hne
        exact hallowed (.inr (.inr hne))
      rcases hvalue' : value r₁ g₁ with _ | ⟨w, r₂, g₂⟩
      · rw [hvalue'] at hcomes'
        exact .inr ⟨e, List.mem_cons_self, .inr hcomes'⟩
      rw [hvalue'] at hcomes'
      obtain ⟨hr₂, hentries₂, hle₂, hold₂, hbrought₂⟩ := hcomes'
      have htable₂ : g₂.tables a = g.tables a := by rw [hold₂ a (ha.trans_le hle₁), htable₁]
      dsimp only
      split
      · rename_i hnil
        exact .inr ⟨e, List.mem_cons_self, .inl fun hapart =>
          hapart.1 (hbrought₂.nil_iff.mp hnil)⟩
      · rename_i hw
        have hv : e.value ≠ .nil := fun hnil => hw (hbrought₂.nil_iff.mpr hnil)
        cases hset : (g₂.tables a).set e.key w with
        | refused => exact absurd hset (Table.not_refused hkey)
        | outOfMemory =>
          obtain ⟨harray, hdone⟩ | hmark := hstate
          · refine .inr ⟨e, List.mem_cons_self, .inl fun hapart => ?_⟩
            obtain ⟨t, hdone', -⟩ := Table.set_new (t := g₂.tables a) hkey
              (by rw [htable₂, harray]; exact hapart.2.2.2)
              (by rw [htable₂, harray]; exact hapart.2.2.1) hw (by rw [htable₂, hdone]; exact hnew)
            rw [hdone'] at hset
            cases hset
          · exact .inl hmark
        | done t =>
          dsimp only
          have hkeys' := fun e' he' => hkeys e' (List.mem_cons_of_mem e he')
          have ha' : a < (g₂.write a t).next := ha.trans_le (hle₁.trans hle₂)
          have hwritten : (g₂.write a t).tables a = t := by rw [Heap.write_tables, if_pos rfl]
          -- What is done from here on leaves what was made before, but for the table itself.
          have hframe : ∀ g' : Heap, (∀ b, b < (g₂.write a t).next → b ≠ a →
              g'.tables b = (g₂.write a t).tables b) →
              ∀ b, b < g₂.next → b ≠ a → g'.tables b = g₂.tables b := fun g' hg' b hb hne => by
            rw [hg' b hb hne, Heap.write_tables, if_neg hne]
          have hnext : (e.Apart ws.length ∧ (g.tables a).array = ws ∧ t.array = ws ∧
              t.entries = done ++ [⟨e.key, w⟩]) ∨
              (Mark ws t ∧ (Mark ws (g.tables a) ∨ ¬e.Apart ws.length)) := by
            obtain ⟨harray, hdone⟩ | hmark := hstate
            · obtain ⟨hapart, harray', hentries'⟩ | ⟨hnot, hmark⟩ :=
                set_entry hkey hnew (by rw [htable₂, harray]) (by rw [htable₂, hdone]) hv hw hbelongs
                  (by rw [htable₂, ← htable₁, hget]) hset
              · exact .inl ⟨hapart, harray, harray', hentries'⟩
              · exact .inr ⟨hmark, .inr hnot⟩
            · exact .inr ⟨Mark.set (by rwa [htable₂]) hkey hw hset, .inl hmark⟩
          obtain ⟨hapart, harray, harray', hentries'⟩ | ⟨hmark, hwhy⟩ := hnext
          · have hrest := ih (g := g₂.write a t) (done ++ [⟨e.key, w⟩]) hlaid hkeys' (by
              rw [Table.keysOf_snoc done w hkey.ne_nil, List.append_assoc]
              exact hnodup) hr₂ hentries₂ ha' (.inl (by rw [hwritten]; exact ⟨harray', hentries'⟩))
            rcases hread : Records.readEntries value a ws.length es.length r₂ (g₂.write a t) with
              _ | ⟨r', g'⟩
            · rw [hread] at hrest
              obtain hmark | ⟨e', he', hnot⟩ := hrest
              · rw [hwritten] at hmark
                exact absurd harray' hmark.ne
              · exact .inr ⟨e', List.mem_cons_of_mem _ he', hnot⟩
            · rw [hread] at hrest
              obtain ⟨hr', hentries'', hle', hold', hend⟩ := hrest
              have hkept := hframe g' hold'
              refine ⟨hr', hentries'', (hle₁.trans hle₂).trans hle', fun b hb hne => ?_, ?_⟩
              · rw [hkept b (hb.trans_le (hle₁.trans hle₂)) hne, hold₂ b (hb.trans_le hle₁),
                  hold₁ b hb]
              obtain ⟨hmark, hwhy⟩ | ⟨-, hall, harray'', es', hes', hpairs⟩ := hend
              · refine .inl ⟨hmark, ?_⟩
                obtain hwhy | ⟨e', he', hnot⟩ := hwhy
                · rw [hwritten] at hwhy
                  exact absurd harray' hwhy.ne
                · exact .inr ⟨e', List.mem_cons_of_mem _ he', hnot⟩
              · refine .inr ⟨harray, List.forall_mem_cons.mpr ⟨hapart, hall⟩, harray'',
                  ⟨e.key, w⟩ :: es', by rw [hes', List.append_assoc]; rfl, .cons ⟨rfl, ?_⟩ ?_⟩
                · exact hbrought₂.later hle₁ hle' fun b hb hlt =>
                    hkept b hlt (Nat.ne_of_gt (ha.trans_le (hle₁.trans hb)))
                · exact hpairs.imp fun _ _ hb =>
                    ⟨hb.1, hb.2.later (hle₁.trans hle₂) le_rfl fun _ _ _ => rfl⟩
          · have hrest := ih (g := g₂.write a t) [] hlaid hkeys'
              (List.nodup_append.mp hnodup).2.1.of_cons hr₂ hentries₂ ha'
              (.inr (by rw [hwritten]; exact hmark))
            rcases hread : Records.readEntries value a ws.length es.length r₂ (g₂.write a t) with
              _ | ⟨r', g'⟩
            · obtain hwhy | hnot := hwhy
              · exact .inl hwhy
              · exact .inr ⟨e, List.mem_cons_self, .inl hnot⟩
            · rw [hread] at hrest
              obtain ⟨hr', hentries'', hle', hold', hend⟩ := hrest
              have hkept := hframe g' hold'
              refine ⟨hr', hentries'', (hle₁.trans hle₂).trans hle', fun b hb hne => ?_, ?_⟩
              · rw [hkept b (hb.trans_le (hle₁.trans hle₂)) hne, hold₂ b (hb.trans_le hle₁),
                  hold₁ b hb]
              obtain ⟨hmark', -⟩ | ⟨harray, -⟩ := hend
              · refine .inl ⟨hmark', ?_⟩
                obtain hwhy | hnot := hwhy
                · exact .inl hwhy
                · exact .inr ⟨e, List.mem_cons_self, hnot⟩
              · rw [hwritten] at harray
                exact absurd harray hmark.ne

end Lhat.Records
