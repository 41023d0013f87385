import Lhat.Record.Loops

/-!
# A table comes back

What a writer lays down of a value, a reader makes of it again. It comes back as it was where
every table in it holds its entries apart from its sequence, and nowhere else.
-/

namespace Lhat.Records

variable {ws : List Value} {es es' : List Entry}
variable {limits : Limits} {write : List UInt8 → List UInt8 → Bool} {split : Splitting}
  {h g g' : Heap} {v w : Value} {m n a b : Nat}
  {value : Reader → Heap → Except Status (Value × Reader × Heap)}

/-! ### Contents -/

theorem map_contents_of_brought {vs : List Value} (hagrees : AgreesFrom n g g')
    (hall : List.Forall₂ (fun v w => Brought h v n g w) vs ws) :
    (∀ v ∈ vs, Readable h v) ↔ ∀ depth, vs.map (contents h depth) = ws.map (contents g' depth) := by
  induction hall with
  | nil => exact iff_of_true (fun v hv => (nomatch hv)) fun _ => rfl
  | @cons v w vs ws hbrought _ ih =>
    rw [List.forall_mem_cons, ih, hbrought.same g' hagrees]
    simp only [List.map_cons, List.cons.injEq]
    exact forall_and.symm

theorem find?_of_nodup {e : Entry} (h : (es.map Entry.key).Nodup) (he : e ∈ es) :
    es.find? (·.key = e.key) = some e := by
  induction es with
  | nil => cases he
  | cons f es ih =>
    obtain ⟨hnot, hrest⟩ := List.nodup_cons.mp h
    rw [List.find?_cons]
    obtain rfl | hin := List.mem_cons.mp he
    · simp
    · have hne : f.key ≠ e.key := fun heq => hnot (heq ▸ List.mem_map_of_mem hin)
      simp only [hne, decide_false]
      exact ih hrest hin

theorem find?_of_brought (key : Value)
    (hall : List.Forall₂ (fun e e' => e'.key = e.key ∧ Brought h e.value n g e'.value) es es') :
    (es.find? (·.key = key) = none ∧ es'.find? (·.key = key) = none) ∨
      ∃ e e', es.find? (·.key = key) = some e ∧ es'.find? (·.key = key) = some e' ∧ e ∈ es ∧
        Brought h e.value n g e'.value := by
  induction hall with
  | nil => exact .inl ⟨rfl, rfl⟩
  | @cons e e' es es' hpair _ ih =>
    obtain ⟨hkey, hbrought⟩ := hpair
    by_cases he : e.key = key
    · refine .inr ⟨e, e', ?_, ?_, List.mem_cons_self, hbrought⟩
      · simp [he]
      · simp [hkey, he]
    · rw [List.find?_cons_of_neg (by simpa using he),
        List.find?_cons_of_neg (by simpa [hkey] using he)]
      obtain hnone | ⟨f, f', hf, hf', hmem, hb⟩ := ih
      · exact .inl hnone
      · exact .inr ⟨f, f', hf, hf', List.mem_cons_of_mem _ hmem, hb⟩

theorem sameContents_filled (hagrees : AgreesFrom n g g')
    (hapart : (h.tables a).Apart) (harray : (g'.tables b).array = ws)
    (hlive : (g'.tables b).live = es')
    (hitems : List.Forall₂ (fun v w => Brought h v n g w) (h.tables a).array ws)
    (hentries : List.Forall₂ (fun e e' => e'.key = e.key ∧ Brought h e.value n g e'.value)
      (h.tables a).live es') :
    Readable h (.table a) ↔ SameContents h (.table a) g' (.table b) := by
  rw [readable_table]
  constructor
  · rintro ⟨-, hreadItems, hreadEntries⟩ depth
    cases depth with
    | zero => rfl
    | succ depth =>
      have hsameItems := (map_contents_of_brought hagrees hitems).mp hreadItems depth
      simp only [contents, harray, hsameItems]
      congr 1
      funext key
      unfold Table.find
      rw [hlive]
      obtain ⟨hnone, hnone'⟩ | ⟨e, e', he, he', hmem, hbrought⟩ := find?_of_brought key hentries
      · rw [hnone, hnone']
        rfl
      · rw [he, he']
        simp only [Option.map_some]
        rw [(hbrought.same g' hagrees).mp (hreadEntries e hmem) depth]
  · intro hsame
    have hparts : ∀ depth, (h.tables a).array.map (contents h depth) =
        ws.map (contents g' depth) ∧ ∀ key, ((h.tables a).find key).map (contents h depth) =
          ((g'.tables b).find key).map (contents g' depth) := fun depth => by
      have := hsame (depth + 1)
      simp only [contents, harray, Contents.table.injEq] at this
      exact ⟨this.1, fun key => congrFun this.2 key⟩
    refine ⟨hapart, ?_, fun e he => ?_⟩
    · exact (map_contents_of_brought hagrees hitems).mpr fun depth => (hparts depth).1
    · have hkeyed : (h.tables a).live.find? (·.key = e.key) = some e := by
        refine find?_of_nodup ?_ he
        have := (h.tables a).once
        rwa [Table.keysOf_eq] at this
      obtain ⟨hnone, -⟩ | ⟨f, f', hf, hf', -, hbrought⟩ := find?_of_brought e.key hentries
      · rw [hnone] at hkeyed
        cases hkeyed
      · rw [hf] at hkeyed
        cases hkeyed
        refine (hbrought.same g' hagrees).mpr fun depth => ?_
        have := (hparts depth).2 e.key
        unfold Table.find at this
        rw [hf, hlive, hf'] at this
        exact Option.some.inj this

theorem not_sameContents_of_mark (hmark : Mark ws (g'.tables b))
    (hitems : List.Forall₂ (fun v w => Brought h v n g w) (h.tables a).array ws) :
    ¬SameContents h (.table a) g' (.table b) := by
  intro hsame
  have harrays := hsame 1
  simp only [contents, Contents.table.injEq] at harrays
  have hmaps := harrays.1
  have hlengths : (h.tables a).array.length = (g'.tables b).array.length := by
    simpa using congrArg List.length hmaps
  obtain hlt | ⟨i, x, hnil, hx, hne⟩ := hmark
  · have := hitems.length_eq
    omega
  · obtain ⟨hi, hget⟩ := List.getElem?_eq_some_iff.mp hnil
    have hi' : i < (h.tables a).array.length := by rw [hitems.length_eq]; exact hi
    have hbrought := hitems.get hi' hi
    have hsource : (h.tables a).array[i]? = some .nil := by
      rw [List.getElem?_eq_getElem hi', ← hbrought.nil_iff.mp hget]
      rfl
    have hat := congrArg (·[i]?) hmaps
    simp only [List.getElem?_map, hsource, hx, Option.map_some, Option.some.injEq] at hat
    rw [contents_nil] at hat
    exact hne (contents_zero_eq_nil.mp hat.symm)

/-! ### Writing -/

/-- What a value writer lays down is read back. -/
def LaysDown (limits : Limits) (h : Heap) (valueW : Value → Writer → Except Status Writer)
    (value : Reader → Heap → Except Status (Value × Reader × Heap)) : Prop :=
  ∀ {v : Value} {c c' : Writer} {payload : List UInt8}, Writes limits c payload →
    valueW v c = .ok c' → ∃ data, Writes limits c' (payload ++ data) ∧
      ReadsBack limits h value v data c.entries c'.entries

variable {valueW : Value → Writer → Except Status Writer}

theorem LaysDown.items (hlays : LaysDown limits h valueW value) (vs : List Value) :
    ∀ {c c' : Writer} {payload : List UInt8}, Writes limits c payload →
    writeItems valueW vs c = .ok c' → ∃ data, Writes limits c' (payload ++ data) ∧
      Laid limits h value vs data c.entries c'.entries := by
  induction vs with
  | nil =>
    intro c c' payload hc hwrite
    cases hwrite
    exact ⟨[], by rwa [List.append_nil], .nil⟩
  | cons v vs ih =>
    intro c c' payload hc hwrite
    obtain ⟨c₁, hone, hwrite⟩ := bind_ok hwrite
    obtain ⟨data, hc₁, hback⟩ := hlays hc hone
    obtain ⟨datas, hc', hlaid⟩ := ih hc₁ hwrite
    exact ⟨data ++ datas, by rwa [← List.append_assoc], .cons hback hlaid⟩

theorem LaysDown.entries (hlays : LaysDown limits h valueW value) (es : List Entry) :
    ∀ {c c' : Writer} {payload : List UInt8} {written : Nat}, Writes limits c payload →
    writeEntries valueW es c = .ok (written, c') →
    (∀ e ∈ es.filter (·.key ≠ .nil), scalarKey e.key = true) ∧
      ∃ data, Writes limits c' (payload ++ data) ∧
        Laid limits h value (pairs (es.filter (·.key ≠ .nil))) data c.entries c'.entries := by
  induction es with
  | nil =>
    intro c c' payload written hc hwrite
    cases hwrite
    exact ⟨fun e he => (nomatch he), [], by rwa [List.append_nil], .nil⟩
  | cons e es ih =>
    intro c c' payload written hc hwrite
    unfold writeEntries at hwrite
    split at hwrite
    · rename_i hnil
      rw [List.filter_cons_of_neg (by simpa using hnil)]
      exact ih hc hwrite
    · rename_i hkey
      rw [List.filter_cons_of_pos (by simpa using hkey)]
      split at hwrite
      · cases hwrite
      · rename_i hscalar
        obtain ⟨c₁, hone, hwrite⟩ := bind_ok hwrite
        obtain ⟨c₂, htwo, hwrite⟩ := bind_ok hwrite
        obtain ⟨⟨more, c₃⟩, hrest, hwrite⟩ := bind_ok hwrite
        cases hwrite
        obtain ⟨data, hc₁, hback⟩ := hlays hc hone
        obtain ⟨data', hc₂, hback'⟩ := hlays hc₁ htwo
        obtain ⟨hscalars, datas, hc₃, hlaid⟩ := ih hc₂ hrest
        refine ⟨List.forall_mem_cons.mpr ⟨Bool.not_eq_false _ ▸ hscalar, hscalars⟩,
          data ++ (data' ++ datas), ?_, .cons hback (.cons hback' hlaid)⟩
        rwa [← List.append_assoc, ← List.append_assoc]

theorem countEntries_ok {entries x y : Nat} {count : Nat}
    (hcount : countEntries limits entries x y = .ok count) : x < 2 ^ 64 ∧ y < 2 ^ 64 := by
  have := limits.entries_lt
  unfold countEntries at hcount
  split at hcount
  · cases hcount
  · omega

theorem live_of_keys {t : Table}
    (hall : List.Forall₂ (fun e e' => e'.key = e.key ∧ Brought h e.value n g e'.value) es es')
    (hes : ∀ e ∈ es, Held e.key) (hentries : t.entries = es') : t.live = es' := by
  unfold Table.live
  rw [hentries, List.filter_eq_self]
  clear hentries
  induction hall with
  | nil => exact fun e he => (nomatch he)
  | @cons e e' es es' hpair _ ih =>
    refine List.forall_mem_cons.mpr ⟨?_, ih fun e he => hes e (List.mem_cons_of_mem _ he)⟩
    simpa [hpair.1] using (hes e List.mem_cons_self).ne_nil

theorem LaysDown.table (hlays : LaysDown limits h valueW value) {ancestors : List Nat}
    {c c' : Writer} {payload : List UInt8} (hc : Writes limits c payload)
    (hwrite : writeTable limits write valueW h ancestors a c = .ok c') :
    ∃ data, Writes limits c' (payload ++ data) ∧
      ReadsBack limits h (readTable limits split value) (.table a) data c.entries c'.entries := by
  unfold writeTable at hwrite
  dsimp only at hwrite
  split at hwrite
  · cases hwrite
  split at hwrite
  · cases hwrite
  obtain ⟨count, hcount, hwrite⟩ := bind_ok hwrite
  obtain ⟨c₁, harrayVar, hwrite⟩ := bind_ok hwrite
  obtain ⟨c₂, hentriesVar, hwrite⟩ := bind_ok hwrite
  obtain ⟨c₃, hitems, hwrite⟩ := bind_ok hwrite
  obtain ⟨⟨written, c₄⟩, hentries, hwrite⟩ := bind_ok hwrite
  obtain ⟨hx, hy⟩ := countEntries_ok hcount
  have hcounted : Writes limits { c with entries := count } payload :=
    ⟨⟨hc.out, hc.full, hc.bytes, hc.budget⟩, hc.room⟩
  obtain ⟨hc₁, hsame₁⟩ := hcounted.putVar harrayVar
  obtain ⟨hc₂, hsame₂⟩ := hc₁.putVar hentriesVar
  obtain ⟨data, hc₃, hlaid⟩ := hlays.items _ hc₂ hitems
  obtain ⟨hscalars, data', hc₄, hlaid'⟩ := hlays.entries _ hc₃ hentries
  have hc' : c' = c₄ := by
    split at hwrite
    · cases hwrite
      rfl
    · cases hwrite
  subst hc'
  refine ⟨varBytes 10 (h.tables a).array.length ++ (varBytes 10 (h.tables a).entryCount ++
    (data ++ data')), by simpa only [List.append_assoc] using hc₄, ?_⟩
  intro r g rest tail hr hentriesEq
  simp only [List.append_assoc] at hr
  obtain ⟨r₁, hgetArray, hr₁, hsame₁'⟩ := hr.getVar split hx
  obtain ⟨r₂, hgetEntries, hr₂, hsame₂'⟩ := hr₁.getVar split hy
  have hcount' : countEntries limits r₂.entries (h.tables a).array.length
      (h.tables a).entryCount = .ok count := by
    rw [hsame₂', hsame₁', hentriesEq]
    exact hcount
  obtain ⟨t, ht, htArray, htEntries⟩ : ∃ t, Table.sized (h.tables a).array.length = some t ∧
      t.array = List.replicate (h.tables a).array.length .nil ∧ t.entries = [] := by
    unfold Table.sized
    rw [dif_pos (h.tables a).short]
    exact ⟨_, rfl, rfl, rfl⟩
  have hmade : (g.make t).tables g.next = t := Function.update_self ..
  have hold : ∀ b, b < g.next → (g.make t).tables b = g.tables b := fun b hb =>
    Function.update_of_ne (Nat.ne_of_lt hb) ..
  have hcountedR : Presents limits { r₂ with entries := count } (data ++ (data' ++ rest)) tail :=
    ⟨hr₂.position, hr₂.bytes, hr₂.left⟩
  have hitemsCome := hlaid.readItems (a := g.next) (g := g.make t) [] hcountedR
    (by rw [hsame₂, hsame₁]) (Nat.lt_succ_self _) (by rw [hmade, htArray]; rfl)
  unfold readTable
  simp only [bind, Except.bind, hgetArray, hgetEntries, hcount', ht]
  rcases hread : Records.readItems value g.next (h.tables a).array.length 0
    { r₂ with entries := count } (g.make t) with _ | ⟨r₃, g₃⟩
  · rw [List.length_nil, hread] at hitemsCome
    obtain ⟨u, hu, hnot⟩ := hitemsCome
    exact fun hall => hnot ((readable_table.mp hall).2.1 u hu)
  rw [List.length_nil, hread] at hitemsCome
  obtain ⟨hr₃, hentries₃, hle₃, hold₃, hsameEntries, ws, hws, hallItems⟩ := hitemsCome
  rw [List.nil_append] at hws
  have hlength : ws.length = (h.tables a).array.length := hallItems.length_eq.symm
  have hheld : ∀ e ∈ (h.tables a).live, Held e.key := fun e he => by
    refine (h.tables a).held e.key ?_
    rw [Table.keysOf_eq]
    exact List.mem_map_of_mem he
  have hentriesCome := hlaid'.readEntries ws (a := g.next) _ []
    (fun e he => ⟨hheld e he, hscalars e he⟩) (by
      have := (h.tables a).once
      rw [Table.keysOf_eq] at this
      exact this) hr₃ hentries₃ (lt_of_lt_of_le (Nat.lt_succ_self _) hle₃)
    (.inl ⟨hws, by rw [hsameEntries, hmade, htEntries]⟩)
  change EntriesCome _ _ _ _ _ _ _ _ _ _
    (Records.readEntries value g.next ws.length (h.tables a).entryCount r₃ g₃) at hentriesCome
  rw [hlength] at hentriesCome
  dsimp only
  rcases hread' : Records.readEntries value g.next (h.tables a).array.length
    (h.tables a).entryCount r₃ g₃ with _ | ⟨r', g'⟩
  · rw [hread'] at hentriesCome
    intro hall
    obtain ⟨hapart, -, hreadable⟩ := readable_table.mp hall
    obtain hmark | ⟨e, he, hnot | hnot⟩ := hentriesCome
    · exact hmark.ne hws
    · exact hnot (hlength ▸ hapart e he)
    · exact hnot (hreadable e he)
  rw [hread'] at hentriesCome
  obtain ⟨hr', hentries', hle', hold', hend⟩ := hentriesCome
  have hnext : g.next < g'.next := lt_of_lt_of_le hle₃ hle'
  have hallItems' : List.Forall₂ (fun v w => Brought h v g.next g' w) (h.tables a).array ws :=
    hallItems.imp fun _ _ hb => hb.later (Nat.le_succ _) hle' fun b hb hlt =>
      hold' b hlt (Nat.ne_of_gt hb)
  refine ⟨hr', hentries', hnext.le, fun b hb => ?_, fun hnot => absurd rfl (hnot a),
    fun b _ => ⟨g.next, rfl⟩, fun g'' hagrees => ?_⟩
  · rw [hold' b (hb.trans hle₃) (Nat.ne_of_lt hb), hold₃ b (Nat.lt_succ_of_lt hb) (Nat.ne_of_lt hb),
      hold b hb]
  · have htable : g''.tables g.next = g'.tables g.next := hagrees g.next le_rfl hnext
    obtain ⟨hmark, hwhy⟩ | ⟨-, hapart, harray, es', hes', hpairs⟩ := hend
    · refine iff_of_false (fun hall => ?_) (not_sameContents_of_mark (by rwa [htable])
        hallItems')
      obtain hmark | ⟨e, he, hnot⟩ := hwhy
      · exact hmark.ne hws
      · exact hnot (hlength ▸ (readable_table.mp hall).1 e he)
    · have hpairs' : List.Forall₂ (fun e e' => e'.key = e.key ∧ Brought h e.value g.next g' e'.value)
          (h.tables a).live es' :=
        hpairs.imp fun _ _ hb => ⟨hb.1, hb.2.later (Nat.le_of_lt hle₃) le_rfl fun _ _ _ => rfl⟩
      refine sameContents_filled hagrees ?_ (by rwa [htable]) ?_ hallItems' hpairs'
      · exact fun e he => hlength ▸ hapart e he
      · exact live_of_keys hpairs' hheld (by rw [htable, hes']; rfl)

end Lhat.Records
