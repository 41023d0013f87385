import Lhat.Record.Restoring

/-!
# Records come back

A record says where it ends, so records that were written one after the other are read one after
the other. A table comes back as it was unless it, or a table in it, holds an entry that its
sequence would own: a sequence that grew past a number which was a key before leaves the entry
of that key where it is, and a reader takes the number for a position.
-/

namespace Lhat.Records

variable {limits : Limits} {write : List UInt8 → List UInt8 → Bool} {split : Splitting}
  {h g : Heap} {v : Value} {m : Nat}

theorem LaysDown.tagged {tableW : Nat → Writer → Except Status Writer}
    {tableR : Reader → Heap → Except Status (Value × Reader × Heap)}
    (htable : ∀ {a : Nat} {c c' : Writer} {payload : List UInt8}, Writes limits c payload →
      tableW a c = .ok c' → ∃ data, Writes limits c' (payload ++ data) ∧
        ReadsBack limits h tableR (.table a) data c.entries c'.entries) :
    LaysDown limits h (writeTagged limits write tableW) (readTagged limits split tableR) := by
  intro v c c' payload hc hwrite
  by_cases hv : ∀ a, v ≠ .table a
  · obtain ⟨data, hc', hsame, hread⟩ := Writes.scalar split hv hc hwrite
    refine ⟨data, hc', fun r g rest tail hr hentries => ?_⟩
    obtain ⟨r', hr', hpresents, hentries'⟩ := hread tableR g hr
    rw [hr']
    exact ⟨hpresents, by rw [hentries', hentries, hsame], le_rfl, fun _ _ => rfl, brought_leaf hv⟩
  · obtain ⟨a, rfl⟩ : ∃ a, v = .table a := by
      by_contra hnone
      exact hv fun a ha => hnone ⟨a, ha⟩
    obtain ⟨c₁, hput, hwrite⟩ := bind_ok hwrite
    obtain ⟨hc₁, hsame⟩ := hc.put hput
    obtain ⟨data, hc', hread⟩ := htable hc₁ hwrite
    refine ⟨[6] ++ data, by rwa [← List.append_assoc], fun r g rest tail hr hentries => ?_⟩
    rw [List.append_assoc] at hr
    obtain ⟨r₁, hget, hr₁, hsame₁⟩ := Presents.get split hr
    unfold readTagged
    rw [show get limits split r 1 = _ from hget]
    exact hread r₁ g rest tail hr₁ (by rw [hsame₁, hentries, hsame])

variable (split) in
theorem laysDown (left : Nat) : ∀ ancestors : List Nat,
    LaysDown limits h (writeValue limits write h left ancestors)
      (readValue limits split left) := by
  induction left with
  | zero =>
    intro ancestors
    refine LaysDown.tagged fun {a} {c} {c'} {payload} hc hwrite => ?_
    cases hwrite
  | succ left ih =>
    intro ancestors
    refine LaysDown.tagged fun {a} {c} {c'} {payload} hc hwrite => ?_
    exact LaysDown.table (ih (a :: ancestors)) hc hwrite

/-! ### One record -/

/-- What reading a record comes to, where it was written and others stand behind it. -/
def RecordComes (h : Heap) (v : Value) (g : Heap) (rest : List UInt8) :
    Except Status (Value × Heap × List UInt8) → Prop
  | .error _ => ¬Readable h v
  | .ok (w, g', left) => left = rest ∧ g.next ≤ g'.next ∧
      (∀ a, a < g.next → g'.tables a = g.tables a) ∧ Brought h v g.next g' w

theorem Presents.over {c : Reader} {tail : List UInt8} (hc : Presents limits c [] tail) :
    c.position = c.buffer.length ∧ c.left = tail ∧ c.bytes + 4 ≤ limits.maxBytes := by
  obtain ⟨behind, stream, hnil, hframed, hleft, hbudget⟩ := hc.left
  obtain ⟨hdrop, rfl⟩ := List.append_eq_nil_iff.mp hnil.symm
  have hstream : stream = [] := by
    have hlen := hframed.length_le
    generalize hbehind : ([] : List UInt8) = behind at hframed
    cases hframed with
    | nil => rfl
    | cons hpos _ _ =>
      have := congrArg List.length hbehind
      rw [List.length_append, List.length_nil] at this
      omega
  subst hstream
  have hle := List.drop_eq_nil_iff.mp hdrop
  exact ⟨Nat.le_antisymm hc.position hle, hleft, by simpa using hbudget⟩

theorem record_comes {limits : Option Limits} {data : List UInt8}
    (hok : serialize h limits write v = .ok data) (g : Heap) (split : Splitting)
    (rest : List UInt8) : RecordComes h v g rest (deserialize g limits split (data ++ rest)) := by
  unfold serialize at hok
  cases v with
  | table a =>
    obtain ⟨limits, hstart, hok⟩ := bind_ok hok
    obtain ⟨c₀, hmagic, hok⟩ := bind_ok hok
    obtain ⟨c₁, hvalue, hok⟩ := bind_ok hok
    obtain ⟨c₂, hflush, hok⟩ := bind_ok hok
    obtain ⟨c₃, hterminal, hok⟩ := bind_ok hok
    obtain ⟨rfl, hbudget₀⟩ := rawWrite_ok hmagic
    obtain ⟨rfl, hbudget₃⟩ := rawWrite_ok hterminal
    cases hok
    have hbegun : Writes limits ⟨0 + magic.length, 0, [], [] ++ magic⟩ [] :=
      ⟨⟨⟨[], [], rfl, .nil, rfl⟩, Nat.zero_le _, rfl, hbudget₀⟩, chunk_pos⟩
    obtain ⟨payload, hc₁, hback⟩ := laysDown split _ _ hbegun hvalue
    obtain ⟨hc₂, hempty, -⟩ := hc₁.toHolds.flushChunk hflush
    obtain ⟨sent, stream, hpayload, hframed, hwritten⟩ := hc₂.out
    rw [hempty, List.append_nil, List.nil_append] at hpayload
    subst hpayload
    have hbytes := hc₂.bytes
    rw [hwritten, List.length_append] at hbytes
    have hmagicLen : magic.length = 8 := rfl
    have hzeros : ([0, 0, 0, 0] : List UInt8).length = 4 := rfl
    have hahead : c₂.written ++ [0, 0, 0, 0] ++ rest =
        magic ++ (stream ++ ([0, 0, 0, 0] ++ rest)) := by
      rw [hwritten]
      simp only [List.append_assoc]
    obtain ⟨calls, hheader⟩ := rawRead_ok limits split
      (c := { left := c₂.written ++ [0, 0, 0, 0] ++ rest }) hahead (by omega)
    generalize hr : (⟨0 + magic.length, 0, [], 0, calls, stream ++ ([0, 0, 0, 0] ++ rest)⟩ : Reader)
      = r at hheader
    have hpresents : Presents limits r (payload ++ []) ([0, 0, 0, 0] ++ rest) := by
      subst hr
      exact ⟨le_rfl, Nat.zero_le _, payload, stream, by simp, hframed, rfl, by dsimp only; omega⟩
    have hcomes := hback r g [] _ hpresents (by rw [← hr])
    unfold deserialize
    rw [hmagicLen] at hheader
    simp only [bind, Except.bind, hstart, hheader, ne_eq, not_true_eq_false, if_false]
    rcases hread : readValue limits split limits.maxDepth r g with _ | ⟨w, r', g'⟩
    · rw [hread] at hcomes
      exact hcomes
    · rw [hread] at hcomes
      obtain ⟨hr', -, hle, hold, hbrought⟩ := hcomes
      obtain ⟨hposition, hleft, hbudget⟩ := hr'.over
      obtain ⟨b, rfl⟩ := hbrought.table a rfl
      obtain ⟨calls', hterminal⟩ := rawRead_ok limits split hleft hbudget
      change rawRead limits split r' 4 = _ at hterminal
      simp only [hposition, hterminal, not_true_eq_false, if_false]
      exact ⟨rfl, hle, hold, hbrought⟩
  | _ => cases hok

/-! ### Records on a stream -/

/-- Records that are read one after the other, each with the answers its reads get. -/
def deserializeAll (limits : Option Limits) :
    List Splitting → Heap → List UInt8 → Except Status (List Value × Heap × List UInt8)
  | [], g, stream => .ok ([], g, stream)
  | split :: splits, g, stream => do
    let (v, g, stream) ← deserialize g limits split stream
    let (vs, g, stream) ← deserializeAll limits splits g stream
    return (v :: vs, g, stream)

/-- What reading records comes to, where they were written and others stand behind them. -/
def RecordsCome (records : List (Heap × Value)) (g : Heap) (rest : List UInt8) :
    Except Status (List Value × Heap × List UInt8) → Prop
  | .error _ => ∃ r ∈ records, ¬Readable r.1 r.2
  | .ok (ws, g', left) => left = rest ∧ g.next ≤ g'.next ∧
      (∀ a, a < g.next → g'.tables a = g.tables a) ∧
      List.Forall₂ (fun r w => Brought r.1 r.2 g.next g' w) records ws

/-- That bytes are what a table was written to. -/
def Serialized (limits : Option Limits) (r : Heap × Value) (data : List UInt8) : Prop :=
  ∃ write, serialize r.1 limits write r.2 = .ok data

theorem records_come {limits : Option Limits} {records : List (Heap × Value)}
    {datas : List (List UInt8)} (hall : List.Forall₂ (Serialized limits) records datas)
    (rest : List UInt8) : ∀ (splits : List Splitting) (g : Heap),
    splits.length = records.length →
    RecordsCome records g rest (deserializeAll limits splits g (datas.flatten ++ rest)) := by
  induction hall with
  | nil =>
    intro splits g hlen
    obtain rfl := List.length_eq_zero_iff.mp hlen
    exact ⟨rfl, le_rfl, fun _ _ => rfl, .nil⟩
  | @cons r data records datas hone _ ih =>
    intro splits g hlen
    obtain ⟨write, hok⟩ := hone
    obtain - | ⟨split, splits⟩ := splits
    · cases hlen
    rw [List.flatten_cons, List.append_assoc]
    have hcomes := record_comes hok g split (datas.flatten ++ rest)
    unfold deserializeAll
    rcases hread : deserialize g limits split (data ++ (datas.flatten ++ rest)) with
      _ | ⟨w, g₁, left⟩
    · rw [hread] at hcomes
      exact ⟨r, List.mem_cons_self, hcomes⟩
    · rw [hread] at hcomes
      obtain ⟨rfl, hle, hold, hbrought⟩ := hcomes
      have hmore := ih splits g₁ (Nat.succ.inj hlen)
      simp only [bind, Except.bind]
      rcases hread' : deserializeAll limits splits g₁ (datas.flatten ++ rest) with
        _ | ⟨ws, g', left⟩
      · rw [hread'] at hmore
        obtain ⟨r', hr', hnot⟩ := hmore
        exact ⟨r', List.mem_cons_of_mem _ hr', hnot⟩
      · rw [hread'] at hmore
        obtain ⟨hleft, hle', hold', hall'⟩ := hmore
        refine ⟨hleft, hle.trans hle', fun a ha => ?_, .cons ?_ ?_⟩
        · rw [hold' a (ha.trans_le hle), hold a ha]
        · exact hbrought.later le_rfl hle' fun a _ hlt => hold' a hlt
        · exact hall'.imp fun _ _ hb => hb.later hle le_rfl fun _ _ _ => rfl

theorem forall_readable_of_brought {records : List (Heap × Value)} {ws : List Value}
    (hall : List.Forall₂ (fun r w => Brought r.1 r.2 m g w) records ws) :
    (∀ r ∈ records, Readable r.1 r.2) ↔
      List.Forall₂ (fun r w => SameContents r.1 r.2 g w) records ws := by
  induction hall with
  | nil => exact iff_of_true (fun r hr => (nomatch hr)) .nil
  | @cons r w records ws hbrought _ ih =>
    rw [List.forall_mem_cons, List.forall₂_cons, ih, hbrought.same g fun _ _ _ => rfl]

/-- Tables that were written one after the other are read one after the other, to the byte, and
come back as they were, if and only if each table in them holds its entries apart from its
sequence. -/
theorem records_come_back {limits : Option Limits} {records : List (Heap × Value)}
    {datas : List (List UInt8)} (hall : List.Forall₂ (Serialized limits) records datas)
    (splits : List Splitting) (hlen : splits.length = records.length) (g : Heap)
    (rest : List UInt8) :
    (∃ ws g', deserializeAll limits splits g (datas.flatten ++ rest) = .ok (ws, g', rest) ∧
      List.Forall₂ (fun r w => SameContents r.1 r.2 g' w) records ws) ↔
    ∀ r ∈ records, Readable r.1 r.2 := by
  have hcome := records_come hall rest splits g hlen
  rcases hread : deserializeAll limits splits g (datas.flatten ++ rest) with _ | ⟨ws, g', left⟩
  · rw [hread] at hcome
    obtain ⟨r, hr, hnot⟩ := hcome
    refine iff_of_false ?_ fun hreadable => hnot (hreadable r hr)
    rintro ⟨ws, g', hok, -⟩
    cases hok
  · rw [hread] at hcome
    obtain ⟨rfl, -, -, hbrought⟩ := hcome
    rw [forall_readable_of_brought hbrought]
    constructor
    · rintro ⟨ws', g'', hok, hsame⟩
      cases hok
      exact hsame
    · exact fun hsame => ⟨ws, g', rfl, hsame⟩

/-! ### Two tables -/

/-- A table that was given values, one write after the other. -/
def Table.given (writes : List (Value × Value)) : Table :=
  writes.foldl (fun t w => match t.set w.1 w.2 with
    | .done t => t
    | _ => t) .new

/-- Reads that get what they ask for. -/
def Splitting.whole : Splitting where
  gives _ asked left := min asked left
  le_asked _ _ _ := Nat.min_le_left _ _
  le_left _ _ _ := Nat.min_le_right _ _
  some _ _ _ h h' := lt_min h h'

/-- A quarter. As an index it rounds to the first position. -/
def quarter : Value := .real ⟨0x3FD0000000000000⟩

/-- A table in a table. -/
def nested : Heap where
  tables a := .given <| if a = 0 then [(.integer 0, .bool true), (.string [97], .table 1)]
    else [(.integer 0, quarter)]
  next := 2

/-- The bytes of the table in it. -/
def nestedInner : List UInt8 :=
  [137, 76, 72, 84, 1, 13, 10, 26, 12, 0, 0, 0, 6, 1, 0, 4, 0, 0, 0, 0, 0, 0, 208, 63, 0, 0, 0, 0]

def nestedOuter : List UInt8 :=
  [137, 76, 72, 84, 1, 13, 10, 26, 19, 0, 0, 0, 6, 1, 1, 2, 5, 1, 97, 6, 1, 0, 4, 0, 0, 0, 0, 0, 0,
    208, 63, 0, 0, 0, 0]

theorem records_come_back_nested :
    ∃ ws g', deserializeAll none [.whole, .whole] nested (nestedOuter ++ nestedInner ++ [7]) =
        .ok (ws, g', [7]) ∧
      List.Forall₂ (fun r w => SameContents r.1 r.2 g' w)
        [(nested, .table 0), (nested, .table 1)] ws := by
  have hserialized : List.Forall₂ (Serialized none) [(nested, .table 0), (nested, .table 1)]
      [nestedOuter, nestedInner] :=
    .cons ⟨fun _ _ => true, by decide +kernel⟩ (.cons ⟨fun _ _ => true, by decide +kernel⟩ .nil)
  have hapart : ∀ a, (nested.tables a).Apart := fun a => by
    by_cases ha : a = 0
    · rw [ha]
      decide +kernel
    · simp only [nested, if_neg ha]
      decide +kernel
  exact (records_come_back hserialized [.whole, .whole] rfl nested [7]).mpr
    fun r hr a _ => by
      have : r.1 = nested := by
        simp only [List.mem_cons, List.not_mem_nil, or_false] at hr
        obtain rfl | rfl := hr <;> rfl
      rw [this]
      exact hapart a

/-- A table that has a value under a quarter, from before it had a first position. -/
def quartered : Heap where
  tables _ := .given [(quarter, .bool true), (.integer 0, .bool true)]
  next := 1

def quarteredBytes : List UInt8 :=
  [137, 76, 72, 84, 1, 13, 10, 26, 14, 0, 0, 0, 6, 1, 1, 2, 4, 0, 0, 0, 0, 0, 0, 208, 63, 2, 0, 0,
    0, 0]

/-- It is written, and is malformed to the reader. -/
theorem quartered_not_read :
    serialize quartered none (fun _ _ => true) (.table 0) = .ok quarteredBytes ∧
      (match deserialize quartered none .whole quarteredBytes with
        | .error status => some status
        | .ok _ => none) = some .malformed := by
  constructor <;> decide +kernel

end Lhat.Records
