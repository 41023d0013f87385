import Mathlib.Data.List.Induction
import Lhat.Table.Block

/-!
# Inserting and removing

`insert^` shifts from the end and `remove^` shifts back and cuts. As long as the
sequence takes nothing in when it gets longer, the one undoes the other, but for the
capacity. A key that waits behind the position `insert^` adds is taken in and not given
back (`remove_insert_fails`), and neither is one that a sequence left waiting at its end.
-/

namespace Lhat

open scoped Classical

variable {value x : LhatValue} {st' : TableState} {wrote : Wrote} {post : List LhatValue}

/-- A table with another sequence. -/
def LhatTable.withArray (t : LhatTable) (capacity : Nat) (array : List LhatValue) : LhatTable :=
  { t with arrayCapacity := capacity, array := array }

section Positions

variable {h : Heap} {mc : Machine} {st : TableState} {table : Address} {t : LhatTable}

theorem Store.Orderly.withArray (ho : st.store.Orderly h) (htable : st.store.table table = some t)
    {capacity : Nat} {array : List LhatValue} (hlen : array.length ≤ capacity)
    (hbytes : capacity * 8 < 2 ^ 63) :
    (st.store.write table (t.withArray capacity array)).Orderly h :=
  ho.write ((ho _ _ htable).1.of_entries rfl rfl rfl hlen hbytes) (ho _ _ htable).2

theorem vmSetKey_eq_set (ho : st.store.Orderly h) (htable : st.store.table table = some t)
    (hopen : t.shared = false) {i : Int64}
    (hwrote : vmSetKey h mc st table (.integer i) value = some wrote) :
    ∃ made, lhatTableSet h st.memory t (.integer i) value = some made ∧
      wrote = { ok := made.ok, refused := made.refused, state := st.made table made } := by
  unfold vmSetKey at hwrote
  simp only [htable, Option.bind_eq_bind, Option.bind_some, hopen, Bool.false_eq_true, if_false]
    at hwrote
  obtain ⟨seat, hseat, hwrote⟩ := Option.bind_eq_some_iff.1 hwrote
  rw [declaresSeat_integer ho hseat, if_neg Bool.false_ne_true] at hwrote
  obtain ⟨made, hmade, hwrote⟩ := Option.bind_eq_some_iff.1 hwrote
  exact ⟨made, hmade, (Option.some.inj hwrote).symm⟩

theorem vmSetKey_position (ho : st.store.Orderly h) (htable : st.store.table table = some t)
    (hopen : t.shared = false) {k : Nat} (hk : k < t.array.length) (hwrote : vmSetKey h mc st table (.integer
    (Int64.ofNat k)) value = some wrote) :
    wrote.ok = true ∧ wrote.state =
      { st with store := st.store.write table (t.withArray t.arrayCapacity
        (t.array.set k value)) } := by
  have hlen := (ho _ _ htable).1.length_lt
  obtain ⟨made, hmade, rfl⟩ := vmSetKey_eq_set ho htable hopen hwrote
  have hopen : refusedKey h (.integer (Int64.ofNat k)) = false := rfl
  have hnormal : normaliseKey (.integer (Int64.ofNat k)) = .integer (Int64.ofNat k) := rfl
  unfold lhatTableSet at hmade
  simp only [hopen, hnormal, Bool.false_eq_true, if_false, arrayIndex_position hk
    (by omega)] at hmade
  obtain rfl := Option.some.inj hmade
  exact ⟨rfl, rfl⟩

/-- There is room to take in what follows the next position. -/
def roomBehind (m : Memory) (t : LhatTable) : Bool :=
  (makeRoom (makeRoom m t).memory ((makeRoom m t).table.append .nil)).ok

/-- A key waits behind the next position, and there is room for it. -/
def TakesIn (h : Heap) (m : Memory) (t : LhatTable) : Prop :=
  t.find h (position (t.array.length + 1)) ≠ none ∧ roomBehind m t = true

theorem growArray_ok (m : Memory) {t t' : LhatTable} (hcap : t.arrayCapacity = t'.arrayCapacity) :
    (growArray m t).ok = (growArray m t').ok := by
  unfold growArray
  rw [hcap]
  generalize (if t'.arrayCapacity = 0 then 8 else t'.arrayCapacity * 2) = capacity
  cases hvalues : m.granted (capacity * 8) with
  | false => simp [hvalues]
  | true => cases htags : (m.request (capacity * 8)).granted capacity <;> simp [hvalues, htags]

theorem roomBehind_eq (m : Memory) (t : LhatTable) (value : LhatValue) :
    (makeRoom (makeRoom m t).memory ((makeRoom m t).table.append value)).ok = roomBehind m t := by
  unfold roomBehind
  generalize (makeRoom m t).memory = m'
  generalize (makeRoom m t).table = t'
  have hlen : (t'.append value).array.length = (t'.append .nil).array.length := by
    simp [LhatTable.append]
  have hcap : (t'.append value).arrayCapacity = (t'.append .nil).arrayCapacity := rfl
  unfold makeRoom
  rw [hlen, hcap]
  split
  · exact growArray_ok m' hcap
  · rfl

theorem vmSetKey_next (ho : st.store.Orderly h) (htable : st.store.table table = some t)
    (hopen : t.shared = false)
    (hwrote : vmSetKey h mc st table (.integer (Int64.ofNat t.array.length)) value = some wrote)
    (hok : wrote.ok = true) :
    ∃ t', wrote.state.store = st.store.write table t' ∧
      (TakesIn h st.memory t → t.array.length + 2 ≤ t'.array.length) ∧
      (¬TakesIn h st.memory t → ∃ capacity, t.array.length < capacity ∧ capacity * 8 < 2 ^ 63 ∧
        t' = t.withArray capacity (t.array ++ [value])) := by
  obtain ⟨hw, -⟩ := ho _ _ htable
  have hlen := hw.length_lt
  obtain ⟨made, hmade, rfl⟩ := vmSetKey_eq_set ho htable hopen hwrote
  have hopen : refusedKey h (.integer (Int64.ofNat t.array.length)) = false := rfl
  have hnormal : normaliseKey (.integer (Int64.ofNat t.array.length)) =
    .integer (Int64.ofNat t.array.length) := rfl
  have hpast : arrayIndex t (.integer (Int64.ofNat t.array.length)) = none := by
    rw [arrayIndex_integer, if_neg (by rw [Int64.toInt_ofNat_of_lt (by omega)]; omega)]
  unfold lhatTableSet at hmade
  simp only [hopen, hnormal, hpast, Bool.false_eq_true, if_false, namesNext_iff.2 rfl, if_true]
    at hmade
  have hbehind := roomBehind_eq st.memory t value
  rcases (hw.makeRoom st.memory).2.2 with ⟨hroom, -⟩ | ⟨hroom, capacity, htable', hlt, hbytes⟩
  · rw [hroom, if_neg Bool.false_ne_true] at hmade
    obtain rfl := Option.some.inj hmade
    rw [hroom] at hok
    cases hok
  · rw [if_pos hroom, htable'] at hmade
    rw [htable'] at hbehind
    obtain ⟨⟨t', m'⟩, hdrain, rfl⟩ := Option.map_eq_some_iff.1 hmade
    refine ⟨t', rfl, ?_⟩
    -- The first turn of the draining decides.
    set grown := ({ t with arrayCapacity := capacity } : LhatTable).append value with hgrown
    have hwa : grown.Wf h := hw.append capacity hlt hbytes value
    have hlength : grown.array.length = t.array.length + 1 := List.length_append
    have hstays : t' = grown → ∃ capacity, t.array.length < capacity ∧ capacity * 8 < 2 ^ 63 ∧
        t' = t.withArray capacity (t.array ++ [value]) := fun heq => ⟨capacity, hlt, hbytes, heq⟩
    obtain ⟨r, hr, hfound⟩ := hwa.findEntry grown.array.length
    have hsame : grown.find h (position grown.array.length) =
        t.find h (position (t.array.length + 1)) := by
      rw [hlength]
      rfl
    rw [hsame] at hfound
    unfold drainIntoArray Lhat.drain at hdrain
    rcases hfound with ⟨rfl, hnone⟩ | ⟨i, -, rfl, -, -, hsome⟩
    · simp only [hr, Option.some.injEq, Prod.mk.injEq] at hdrain
      exact ⟨fun htakes => absurd hnone htakes.1, fun _ => hstays hdrain.1.symm⟩
    · simp only [hr] at hdrain
      rcases (hwa.makeRoom (makeRoom st.memory t).memory).2.2 with ⟨hfull, hkept⟩ | ⟨hmore,
        capacity', hkept, -⟩
      · rw [hfull, if_neg Bool.false_ne_true] at hdrain
        obtain ⟨rfl, rfl⟩ := Prod.mk.inj (Option.some.inj hdrain)
        refine ⟨fun htakes => ?_, fun _ => hstays hkept⟩
        rw [hfull] at hbehind
        exact absurd (hbehind.trans htakes.2) Bool.false_ne_true
      · rw [if_pos hmore] at hdrain
        have hprefix := ( drain_prefix hdrain).length_le
        rw [hkept] at hprefix
        refine ⟨fun _ => ?_, fun hfree => absurd ⟨by rw [hsome]; simp,
          hbehind.symm.trans hmore⟩ hfree⟩
        have hlast : (((({ grown with arrayCapacity := capacity' } : LhatTable).bury i).touch.append
            (({ grown with arrayCapacity := capacity' } :
              LhatTable).entryAt i).value)).array.length =
            grown.array.length + 1 := List.length_append
        have hle : grown.array.length + 1 ≤ t'.array.length := hlast ▸ hprefix
        omega

/-- A store that differs from another at one table at most, and what stands there. -/
structure Only (base : Store) (table : Address) (t : LhatTable) (s : Store) : Prop where
  here : s.table table = some t
  beside : ∀ u, s.write table u = base.write table u

theorem Only.write {base s : Store} (hs : Only base table t s) (t' : LhatTable) :
    Only base table t' (s.write table t') :=
  ⟨Store.table_write_self (by rw [hs.here]; rfl), fun u => by rw [Store.write_write, hs.beside]⟩

/-- The shifting loop of `insert^` inside the sequence: the elements go up by one, and
the first of them stays where it was as well. -/
theorem writeEach_shift {base : Store} {c : Nat} (hopen : t.shared = false)
    (hbytes : c * 8 < 2 ^ 63) (pre mid : List LhatValue)
    (hc : (pre ++ (mid ++ x :: post)).length ≤ c) (ho : st.store.Orderly h)
    (hs : Only base table (t.withArray c (pre ++ (mid ++ x :: post))) st.store) {ran :
    Bool × TableState}
    (hran : writeEach h mc table
      (fun st k => do
        let t ← st.store.table table
        some (some (.integer (Int64.ofNat (k + 1)), t.slot k)))
      (List.range' pre.length mid.length).reverse st = some ran) :
    ran.1 = true ∧ ran.2.store.Orderly h ∧ ∃ first rest, mid ++ [x] = first :: rest ∧
      Only base table (t.withArray c (pre ++ (first :: (mid ++ post)))) ran.2.store := by
  induction mid using List.reverseRecOn generalizing x post st with
  | nil =>
    obtain rfl := Option.some.inj hran
    exact ⟨rfl, ho, x, [], rfl, hs⟩
  | append_singleton mid z ih =>
    -- The last element of the block goes up to where `x` stands.
    have hat : (pre ++ ((mid ++ [z]) ++ x :: post)).getD (pre.length + mid.length) .nil = z := by
      simp [List.getD]
    have hset : (pre ++ ((mid ++ [z]) ++ x :: post)).set (pre.length + mid.length + 1) z =
        pre ++ (mid ++ z :: (z :: post)) := by
      rw [List.set_append_right _ _ (by omega), List.append_assoc, List.singleton_append,
        List.set_append_right _ _ (by omega),
        show pre.length + mid.length + 1 - pre.length - mid.length = 1 by omega]
      rfl
    rw [List.length_append, List.length_singleton, List.range'_1_concat, List.reverse_append,
      List.reverse_singleton, List.singleton_append] at hran
    unfold writeEach at hran
    simp only [hs.here, Option.bind_eq_bind, Option.bind_some] at hran
    have hslot : (t.withArray c (pre ++ ((mid ++ [z]) ++ x :: post))).slot
        (pre.length + mid.length) = z := hat
    rw [hslot] at hran
    split at hran
    · cases hran
    · next wrote hwrote =>
        obtain ⟨hok, hstate⟩ := vmSetKey_position ho hs.here hopen
          (by
            simp only [LhatTable.withArray, List.length_append, List.length_cons]
            omega) hwrote
        rw [if_pos hok] at hran
        have hstore : wrote.state.store = st.store.write table
            (t.withArray c (pre ++ (mid ++ z :: (z :: post)))) := by
          rw [hstate, ← hset]
          rfl
        have hlen : (pre ++ (mid ++ z :: (z :: post))).length ≤ c := by
          simp only [List.length_append, List.length_cons] at hc ⊢
          omega
        have ho' : wrote.state.store.Orderly h := by
          rw [hstore]
          exact Store.Orderly.withArray ho hs.here hlen hbytes
        obtain ⟨hdone, ho'', first, rest, hfirst, hs'⟩ := ih hlen ho'
          (by rw [hstore]; exact hs.write _) hran
        refine ⟨hdone, ho'', first, rest ++ [x], ?_, ?_⟩
        · rw [← List.cons_append, ← hfirst]
        · rwa [List.append_assoc, List.singleton_append]

theorem writeEach_longer {ι : Type*}
    {turn : TableState → ι → Option (Option (LhatValue × LhatValue))}
    (hkey : ∀ st k key value, turn st k = some (some (key, value)) → ∃ i, key = .integer i)
    {items : List ι} (ho : st.store.Orderly h) (htable : st.store.table table = some t)
    (hopen : t.shared = false) (hran : writeEach h mc table turn items st = some (true, st')) :
    ∃ t', st'.store.table table = some t' ∧ t'.links = t.links ∧
      t.array.length ≤ t'.array.length ∧ st'.store.Orderly h := by
  induction items generalizing st t with
  | nil =>
    obtain ⟨-, rfl⟩ := Prod.mk.inj (Option.some.inj hran)
    exact ⟨t, htable, rfl, Nat.le_refl _, ho⟩
  | cons k items ih =>
    unfold writeEach at hran
    split at hran
    · cases hran
    · exact ih ho htable hopen hran
    · next key value hturn =>
        obtain ⟨i, rfl⟩ := hkey _ _ _ _ hturn
        split at hran
        · cases hran
        · next wrote hwrote =>
            split at hran
            · next hok =>
                obtain ⟨t₁, hstore, hstored⟩ := vmSetKey_integer ho htable hopen hwrote hok
                have hshared : t₁.shared = false := by
                  rw [← hopen]
                  exact congrArg (fun l => l.2.2.2.2.2) hstored.links
                have ho₁ : wrote.state.store.Orderly h := by
                  rw [hstore]
                  exact ho.write hstored.wf hstored.unseated
                have htable₁ : wrote.state.store.table table = some t₁ := by
                  rw [hstore]
                  exact Store.table_write_self (by rw [htable]; rfl)
                obtain ⟨t', htable', hlinks, hle, ho'⟩ := ih ho₁ htable₁ hshared hran
                exact ⟨t', htable', hlinks.trans hstored.links, hstored.longer.trans hle, ho'⟩
            · cases hran

theorem ofWritten_ok {ok : Bool} (hok : LhatRunStatus.ofWritten ok = .ok) : ok = true := by
  cases ok with
  | true => rfl
  | false => cases hok

theorem insertAt_spec (ho : st.store.Orderly h) (htable : st.store.table table = some t)
    (hopen : t.shared = false) (hfree : ¬TakesIn h st.memory t)
    {pre : List LhatValue} (harray : t.array = pre ++ post)
    (hran : insertAt h mc st table t.array.length pre.length value = some (.ok, st')) :
    ∃ capacity, capacity * 8 < 2 ^ 63 ∧ t.array.length < capacity ∧ st'.store.Orderly h ∧
      Only st.store table (t.withArray capacity (pre ++ value :: post)) st'.store := by
  have hstart : Only st.store table t st.store := ⟨htable, fun _ => rfl⟩
  unfold insertAt at hran
  have hcount : t.array.length - pre.length = post.length := by
    rw [harray, List.length_append]
    omega
  rw [hcount] at hran
  rcases List.eq_nil_or_concat' post with rfl | ⟨mid, z, rfl⟩
  · -- At the end nothing is shifted.
    rw [List.append_nil] at harray
    simp only [List.length_nil, List.range'_zero, List.reverse_nil, writeEach, Option.bind_eq_bind,
      Option.bind_some, if_true] at hran
    obtain ⟨wrote, hwrote, hleft⟩ := Option.bind_eq_some_iff.1 hran
    obtain ⟨hok, rfl⟩ := Prod.mk.inj (Option.some.inj hleft)
    rw [← harray] at hwrote
    obtain ⟨t', hstore, -, hgrown⟩ := vmSetKey_next ho htable hopen hwrote (ofWritten_ok hok)
    obtain ⟨capacity, hlt, hbytes, rfl⟩ := hgrown hfree
    rw [hstore, ← harray]
    refine ⟨capacity, hbytes, hlt, ?_, hstart.write _⟩
    exact Store.Orderly.withArray ho htable
      (by rw [List.length_append, List.length_singleton]; omega) hbytes
  · have hlength : t.array.length = pre.length + mid.length + 1 := by
      rw [harray]
      simp only [List.length_append, List.length_singleton]
      omega
    obtain ⟨⟨done, st₂⟩, hloop, hran⟩ := Option.bind_eq_some_iff.1 hran
    simp only at hran
    -- The first turn adds a position, the others stay inside.
    rw [List.length_append, List.length_singleton, List.range'_1_concat, List.reverse_append,
      List.reverse_singleton, List.singleton_append] at hloop
    unfold writeEach at hloop
    simp only [htable, Option.bind_eq_bind, Option.bind_some] at hloop
    have hslot : t.slot (pre.length + mid.length) = z := by
      rw [LhatTable.slot, harray]
      simp [List.getD]
    rw [hslot, ← hlength] at hloop
    split at hloop
    · cases hloop
    · next wrote hwrote =>
        split at hloop
        · next hok =>
            obtain ⟨t', hstore, -, hlonger⟩ := vmSetKey_next ho htable hopen hwrote hok
            obtain ⟨capacity, hlt, hbytes, rfl⟩ := hlonger hfree
            have hgrown : t.array ++ [z] = pre ++ (mid ++ z :: [z]) := by
              rw [harray]
              simp
            rw [hgrown] at hstore
            have hfits : (pre ++ (mid ++ z :: [z])).length ≤ capacity := by
              rw [← hgrown, List.length_append, List.length_singleton]
              omega
            have ho₁ : wrote.state.store.Orderly h := by
              rw [hstore]
              exact Store.Orderly.withArray ho htable hfits hbytes
            obtain ⟨rfl, ho₂, first, rest, hfirst, hs₂⟩ :=
              writeEach_shift hopen hbytes pre mid hfits
              ho₁ (by rw [hstore]; exact hstart.write _) hloop
            rw [if_pos rfl] at hran
            obtain ⟨wrote', hwrote', hleft⟩ := Option.bind_eq_some_iff.1 hran
            obtain ⟨-, rfl⟩ := Prod.mk.inj (Option.some.inj hleft)
            obtain ⟨-, hstate'⟩ := vmSetKey_position ho₂ hs₂.here hopen
              (by simp [LhatTable.withArray]) hwrote'
            have hset : (pre ++ first :: (mid ++ [z])).set pre.length value =
                pre ++ value :: (mid ++ [z]) := by
              rw [List.set_append_right _ _ (Nat.le_refl _), Nat.sub_self]
              rfl
            have hstore' : wrote'.state.store = st₂.store.write table
                (t.withArray capacity (pre ++ value :: (mid ++ [z]))) := by
              rw [hstate', ← hset]
              rfl
            refine ⟨capacity, hbytes, hlt, ?_, ?_⟩
            · rw [hstore']
              refine Store.Orderly.withArray ho₂ hs₂.here ?_ hbytes
              simp only [List.length_append, List.length_cons, List.length_nil] at hfits ⊢
              omega
            · rw [hstore']
              exact hs₂.write _
        · cases hloop
          cases hran

theorem insertAt_longer (ho : st.store.Orderly h) (htable : st.store.table table = some t)
    (hopen : t.shared = false) (htakes : TakesIn h st.memory t) {at_ : Nat}
    (hat : at_ ≤ t.array.length)
    (hran : insertAt h mc st table t.array.length at_ value = some (.ok, st')) :
    ∃ t', st'.store.table table = some t' ∧ t'.links = t.links ∧
      t.array.length + 2 ≤ t'.array.length ∧ st'.store.Orderly h := by
  -- What the write of the position after the last one leaves.
  have hnext : ∀ {value : LhatValue} {wrote : Wrote},
      vmSetKey h mc st table (.integer (Int64.ofNat t.array.length)) value = some wrote →
      wrote.ok = true → ∃ t₁, wrote.state.store.table table = some t₁ ∧ t₁.links = t.links ∧
        t.array.length + 2 ≤ t₁.array.length ∧ wrote.state.store.Orderly h := by
    intro value wrote hwrote hok
    obtain ⟨t₁, hstore, htaken, -⟩ := vmSetKey_next ho htable hopen hwrote hok
    obtain ⟨t₂, hstore', hstored⟩ := vmSetKey_integer ho htable hopen hwrote hok
    have hthere : ∀ u, (st.store.write table u).table table = some u := fun u =>
      Store.table_write_self (by rw [htable]; rfl)
    obtain rfl : t₁ = t₂ := Option.some.inj
      ((hthere t₁).symm.trans ((hstore ▸ hstore' ▸ rfl : _ = _).trans (hthere t₂)))
    rw [hstore]
    exact ⟨t₁, hthere t₁, hstored.links, htaken htakes, ho.write hstored.wf hstored.unseated⟩
  have hshared : ∀ {u : LhatTable}, u.links = t.links → u.shared = false := fun hlinks =>
    (congrArg (fun l => l.2.2.2.2.2) hlinks).trans hopen
  unfold insertAt at hran
  obtain ⟨⟨done, st₂⟩, hloop, hran⟩ := Option.bind_eq_some_iff.1 hran
  simp only at hran
  cases done with
  | false => cases hran
  | true =>
    rw [if_pos rfl] at hran
    obtain ⟨wrote, hwrote, hleft⟩ := Option.bind_eq_some_iff.1 hran
    obtain ⟨hok, rfl⟩ := Prod.mk.inj (Option.some.inj hleft)
    rcases Nat.eq_or_lt_of_le hat with rfl | hlt
    · rw [Nat.sub_self] at hloop
      obtain ⟨-, rfl⟩ := Prod.mk.inj (Option.some.inj hloop)
      exact hnext hwrote (ofWritten_ok hok)
    · -- The first turn writes that position, and the others take nothing away.
      obtain ⟨turns, hturns⟩ : ∃ turns, t.array.length - at_ = turns + 1 :=
        ⟨t.array.length - at_ - 1, by omega⟩
      rw [hturns, List.range'_1_concat, List.reverse_append, List.reverse_singleton,
        List.singleton_append] at hloop
      unfold writeEach at hloop
      simp only [htable, Option.bind_eq_bind, Option.bind_some] at hloop
      rw [show at_ + turns + 1 = t.array.length by omega] at hloop
      split at hloop
      · cases hloop
      · next wrote₁ hwrote₁ =>
          split at hloop
          · next hok₁ =>
              obtain ⟨t₁, htable₁, hlinks₁, hlong, ho₁⟩ := hnext hwrote₁ hok₁
              obtain ⟨t₂, htable₂, hlinks₂, hle₂, ho₂⟩ := writeEach_longer
                (fun st k key value hturn => by
                  obtain ⟨u, -, hturn⟩ := Option.bind_eq_some_iff.1 hturn
                  simp only [Option.some.injEq, Prod.mk.injEq] at hturn
                  exact ⟨_, hturn.1.symm⟩) ho₁ htable₁ (hshared hlinks₁) hloop
              obtain ⟨t₃, hstore₃, hstored₃⟩ := vmSetKey_integer ho₂ htable₂
                (hshared (hlinks₂.trans hlinks₁)) hwrote (ofWritten_ok hok)
              refine ⟨t₃, ?_, hstored₃.links.trans (hlinks₂.trans hlinks₁),
                hlong.trans (hle₂.trans hstored₃.longer), ?_⟩
              · rw [hstore₃]
                exact Store.table_write_self (by rw [htable₂]; rfl)
              · rw [hstore₃]
                exact ho₂.write hstored₃.wf hstored₃.unseated
          · cases hloop

theorem shiftDown_append (pre post : List LhatValue) (x : LhatValue) :
    (shiftDown (pre ++ x :: post) pre.length (pre.length + post.length)).take
      (pre.length + post.length) = pre ++ post := by
  have hall : ∀ (post pre : List LhatValue) (x : LhatValue),
      ∃ last, (List.range' pre.length post.length).foldl
        (fun a k => a.set k (a.getD (k + 1) .nil)) (pre ++ x :: post) = pre ++ post ++ [last] := by
    intro post
    induction post with
    | nil => exact fun pre x => ⟨x, by simp⟩
    | cons y post ih =>
      intro pre x
      obtain ⟨last, hlast⟩ := ih (pre ++ [y]) y
      refine ⟨last, ?_⟩
      rw [List.length_cons, List.range'_succ, List.foldl_cons]
      have hturn : (pre ++ x :: y :: post).set pre.length
          ((pre ++ x :: y :: post).getD (pre.length + 1) .nil) = pre ++ [y] ++ y :: post := by
        simp [List.getD, List.set_append_right]
      rw [hturn]
      simpa using hlast
  obtain ⟨last, hlast⟩ := hall post pre x
  unfold shiftDown
  rw [Nat.add_sub_cancel_left, hlast, ← List.length_append, List.take_left]

theorem resize_cut (hw : t.Wf h) (m : Memory) {length : Nat} (hle : length ≤ t.array.length)
    (hfree : t.find h (position length) = none) (fill : LhatValue) :
    lhatTableResize h m t length fill =
      some { ok := true, table := { t with array := t.array.take length }, memory := m } := by
  have hlen : (t.array.take length).length = length := by
    rw [List.length_take]
    omega
  have hws := hw.shorten length
  obtain ⟨r, hr, hfound⟩ := hws.findEntry length
  have hnone : r = none := by
    rcases hfound with ⟨rfl, -⟩ | ⟨i, -, -, -, -, hsome⟩
    · rfl
    · have hheld : t.find h (position length) = some _ := hsome
      rw [hfree] at hheld
      cases hheld
  unfold lhatTableResize
  simp only [hlen, Nat.sub_self, lengthen, if_true]
  unfold drainIntoArray drain
  simp only [hlen, hr, hnone]

theorem resize_length (hw : t.Wf h) {m : Memory} {length : Nat} (hle : length ≤ t.array.length)
    {fill : LhatValue} {made : Outcome} (hmade : lhatTableResize h m t length fill = some made) :
    length ≤ made.table.array.length ∧
      (length < t.array.length → t.find h (position length) ≠ none →
        length + 1 ≤ made.table.array.length) := by
  have hlen : (t.array.take length).length = length := by
    rw [List.length_take]
    omega
  set short : LhatTable := { t with array := t.array.take length } with hshort
  have hws : short.Wf h := hw.shorten length
  unfold lhatTableResize at hmade
  simp only [hlen, Nat.sub_self, lengthen, if_true] at hmade
  split at hmade
  · cases hmade
  · next t' m' hdrain =>
      obtain rfl := Option.some.inj hmade
      have hprefix := ( drain_prefix hdrain).length_le
      refine ⟨hlen.symm.le.trans hprefix, fun hlt hheld => ?_⟩
      obtain ⟨r, hr, hfound⟩ := hws.findEntry length
      have hroom : makeRoom m short = { ok := true, table := short, memory := m } := by
        have hdense := hw.dense
        unfold makeRoom
        rw [if_neg (show ¬(t.array.take length).length = t.arrayCapacity by omega)]
      unfold drainIntoArray drain at hdrain
      simp only [hlen] at hdrain
      rw [hr] at hdrain
      rcases hfound with ⟨rfl, hnone⟩ | ⟨i, -, rfl, -⟩
      · exact absurd hnone hheld
      · rw [← hshort] at hdrain
        simp only [hroom, if_true] at hdrain
        have hgrown := ( drain_prefix hdrain).length_le
        have hlast : ((takeEntry short i).2.append
          (takeEntry short i).1).array.length = length + 1 := by
          show (t.array.take length ++ [_]).length = length + 1
          rw [List.length_append, hlen]
          rfl
        exact hlast.symm.le.trans hgrown

theorem removeAt_length (hw : t.Wf h) (htable : st.store.table table = some t) {atPos : Int64}
    (hran : removeAt h st table t atPos = some (x, st')) :
    ∃ t', st'.store.table table = some t' ∧ t.array.length ≤ t'.array.length + 1 ∧
      (0 < t.array.length → t.find h (position (t.array.length - 1)) ≠ none →
        t.array.length ≤ t'.array.length) := by
  unfold removeAt at hran
  simp only at hran
  split at hran
  · obtain ⟨-, rfl⟩ := Prod.mk.inj (Option.some.inj hran)
    exact ⟨t, htable, Nat.le_succ _, fun _ _ => Nat.le_refl _⟩
  · obtain ⟨made, hmade, hleft⟩ := Option.map_eq_some_iff.1 hran
    obtain ⟨-, rfl⟩ := Prod.mk.inj hleft
    have hshifted := length_shiftDown t.array atPos.toNatClampNeg (t.array.length - 1)
    have hws : ({ t with array := shiftDown t.array atPos.toNatClampNeg (t.array.length - 1) } :
        LhatTable).Wf h := hw.of_entries rfl rfl rfl (by rw [hshifted]; exact hw.dense) hw.bounded
    obtain ⟨hleast, hmore⟩ := resize_length hws (by rw [hshifted]; omega) hmade
    refine ⟨made.table, Store.table_write_self (by rw [htable]; rfl), by omega,
      fun hpos hheld => ?_⟩
    have := hmore (by rw [hshifted]; omega) hheld
    omega

theorem removeAt_spec (ho : st.store.Orderly h) (htable : st.store.table table = some t)
    {pre : List LhatValue} (harray : t.array = pre ++ x :: post)
    (hfree : t.find h (position (pre ++ post).length) = none) {atPos : Int64}
    (hat : atPos.toInt = pre.length) :
    removeAt h st table t atPos =
      some (x, st.write table { t with array := pre ++ post }) := by
  obtain ⟨hw, -⟩ := ho _ _ htable
  have hlen := hw.length_lt
  have hlength : t.array.length = pre.length + post.length + 1 := by
    rw [harray, List.length_append, List.length_cons]
    omega
  have hclamp : atPos.toNatClampNeg = pre.length := by
    rw [← Int64.toNat_toInt, hat]
    rfl
  have hinside : ¬(atPos < 0 ∨ Int64.ofNat t.array.length ≤ atPos) := by
    rw [Int64.lt_iff_toInt_lt, Int64.le_iff_toInt_le, Int64.toInt_ofNat_of_lt (by omega), hat]
    have hzero : (0 : Int64).toInt = 0 := rfl
    omega
  have hslot : t.slot pre.length = x := by
    rw [LhatTable.slot, harray]
    simp [List.getD]
  have hshift : (shiftDown t.array pre.length (pre.length + post.length)).take
      (pre.length + post.length) = pre ++ post := by
    rw [harray]
    exact shiftDown_append pre post x
  have hlast : t.array.length - 1 = pre.length + post.length := by omega
  have hshifted : (shiftDown t.array pre.length (pre.length + post.length)).length =
      t.array.length := length_shiftDown _ _ _
  have hws : ({ t with array := shiftDown t.array pre.length (pre.length + post.length) } :
      LhatTable).Wf h := hw.of_entries rfl rfl rfl (by rw [hshifted]; exact hw.dense) hw.bounded
  unfold removeAt
  simp only [if_neg hinside, hclamp, hlast, hslot]
  rw [resize_cut hws st.memory (by rw [hshifted]; omega)
    (by rw [List.length_append] at hfree; exact hfree)]
  simp only [Option.map_some, hshift]
  rfl

end Positions

/-- `remove^` undoes what was inserted: it answers that, and every integer key reads
what it read before. -/
def Undone (h : Heap) (mc : Machine) (before after : TableState) (table : Address) (t : LhatTable)
    (ordinal value : LhatValue) : Prop :=
  ∃ removed, vmTableNative h mc after .remove table [ordinal] = some removed ∧
    removed.status = .ok ∧ removed.answer = value ∧
    (∃ t', removed.state.store.table table = some t' ∧ t'.array.length = t.array.length) ∧
    ∀ i : Int64, lhatTableGet h removed.state.store table (.integer i) =
      lhatTableGet h before.store table (.integer i)

theorem inserted_at {h : Heap} {mc : Machine} {st : TableState} {table : Address} {t : LhatTable}
    (hw : t.Wf h) (htable : st.store.table table = some t)
    (hshared : t.shared = true → t.isSealed = true) {ordinal : LhatValue} {inserted : Answered}
    (hinsert : vmTableNative h mc st .insert table [ordinal, value] = some inserted)
    (hok : inserted.status = .ok) :
    t.isSealed = false ∧ t.shared = false ∧ ∃ written p, vmOrdinalOf ordinal = some written ∧
      (vmResolveOrdinal written (t.array.length + 1)).toInt = (p : Nat) ∧ p ≤ t.array.length ∧
      insertAt h mc st table t.array.length p value = some (.ok, inserted.state) := by
  have hlen := hw.length_lt
  unfold vmTableNative at hinsert
  simp only [htable, Option.bind_eq_bind, Option.bind_some] at hinsert
  split at hinsert
  · obtain rfl := Option.some.inj hinsert
    cases hok
  · next hunsealed =>
      have hopen : t.shared = false := by
        cases hs : t.shared with
        | false => rfl
        | true => exact absurd (hshared hs) hunsealed
      obtain ⟨⟨status, st₁⟩, hran, rfl⟩ := Option.map_eq_some_iff.1 hinsert
      obtain rfl : status = .ok := hok
      unfold tableInsert at hran
      simp only at hran
      cases hordinal : vmOrdinalOf ordinal with
      | none => simp [hordinal] at hran
      | some written =>
        simp only [hordinal] at hran
        split at hran
        · cases hran
        · next hinside =>
            set atPos := vmResolveOrdinal written (t.array.length + 1)
            have hzero : (0 : Int64).toInt = 0 := rfl
            rw [Int64.lt_iff_toInt_lt, Int64.lt_iff_toInt_lt,
              Int64.toInt_ofNat_of_lt (by omega), hzero] at hinside
            have hclamp : atPos.toNatClampNeg = atPos.toInt.toNat := (Int64.toNat_toInt _).symm
            rw [hclamp] at hran
            have hp : atPos.toInt = atPos.toInt.toNat := by omega
            exact ⟨by simpa using hunsealed, hopen, written, atPos.toInt.toNat, rfl, hp, by omega,
              hran⟩

/-- `remove^` undoes an `insert^` exactly where neither of the two takes in a key that
waits behind the sequence. -/
theorem remove_insert {h : Heap} {mc : Machine} {st : TableState} {table : Address} {t : LhatTable}
    (ho : st.store.Orderly h) (htable : st.store.table table = some t)
    (hshared : t.shared = true → t.isSealed = true) {ordinal value : LhatValue}
    {inserted : Answered}
    (hinsert : vmTableNative h mc st .insert table [ordinal, value] = some inserted)
    (hok : inserted.status = .ok) :
    Undone h mc st inserted.state table t ordinal value ↔
      t.find h (position t.array.length) = none ∧ ¬TakesIn h st.memory t := by
  obtain ⟨hunsealed, hopen, written, p, hordinal, hp, hple, hran⟩ :=
    inserted_at (ho _ _ htable).1 htable hshared hinsert hok
  set atPos := vmResolveOrdinal written (t.array.length + 1) with hpos
  have hpre : (t.array.take p).length = p := by
    rw [List.length_take]
    omega
  have harray : t.array = t.array.take p ++ t.array.drop p := (List.take_append_drop p t.array).symm
  -- Where nothing is taken in, the same ordinal names the same position.
  have hplain : ¬TakesIn h st.memory t → ∃ capacity, (∀ u, inserted.state.store.write table u =
        st.store.write table u) ∧ inserted.state.store.Orderly h ∧
      inserted.state.store.table table =
        some (t.withArray capacity (t.array.take p ++ value :: t.array.drop p)) := by
    intro hfree
    rw [← hpre] at hran
    obtain ⟨capacity, -, -, ho₁, hs₁⟩ := insertAt_spec ho htable hopen hfree harray hran
    exact ⟨capacity, hs₁.beside, ho₁, hs₁.here⟩
  have hlonger : ∀ capacity, (t.withArray capacity
      (t.array.take p ++ value :: t.array.drop p)).array.length = t.array.length + 1 := by
    intro capacity
    simp only [LhatTable.withArray, List.length_append, List.length_cons, List.length_take,
      List.length_drop]
    omega
  constructor
  · rintro ⟨removed, hremoved, hstatus, -, ⟨t', htable', hlength⟩, -⟩
    -- The removal leaves a sequence that is too long wherever something was taken in.
    have hremains : ∀ t₁, inserted.state.store.table table = some t₁ → t₁.isSealed = false →
        t₁.Wf h → t₁.array.length ≤ t'.array.length + 1 ∧
          (0 < t₁.array.length → t₁.find h (position (t₁.array.length - 1)) ≠ none →
            t₁.array.length ≤ t'.array.length) := by
      intro t₁ htable₁ hseal hw₁
      unfold vmTableNative at hremoved
      simp only [htable₁, Option.bind_eq_bind, Option.bind_some, hseal, Bool.false_eq_true,
        if_false]
        at hremoved
      obtain ⟨⟨status, answer, st₂⟩, hrun, rfl⟩ := Option.map_eq_some_iff.1 hremoved
      unfold tableRemove at hrun
      simp only [hordinal] at hrun
      obtain ⟨⟨x, st₃⟩, hat, heq⟩ := Option.map_eq_some_iff.1 hrun
      cases heq
      obtain ⟨t₂, htable₂, hleast, hmore⟩ := removeAt_length hw₁ htable₁ hat
      obtain rfl := Option.some.inj (htable₂.symm.trans htable')
      exact ⟨hleast, hmore⟩
    have hfree : ¬TakesIn h st.memory t := by
      intro htakes
      obtain ⟨t₁, htable₁, hlinks, hlong, ho₁⟩ := insertAt_longer ho htable hopen htakes hple hran
      have := (hremains t₁ htable₁ ((congrArg (fun l => l.2.2.2.2.1) hlinks).trans hunsealed)
        (ho₁ _ _ htable₁).1).1
      omega
    refine ⟨?_, hfree⟩
    obtain ⟨capacity, -, ho₁, htable₁⟩ := hplain hfree
    by_contra hheld
    have hmore := (hremains _ htable₁ hunsealed (ho₁ _ _ htable₁).1).2
    rw [hlonger, Nat.add_sub_cancel] at hmore
    have := hmore (Nat.succ_pos _) hheld
    omega
  · rintro ⟨hnone, hfree⟩
    obtain ⟨capacity, hover, ho₁, htable₁⟩ := hplain hfree
    have hlength := hlonger capacity
    set t₁ := t.withArray capacity (t.array.take p ++ value :: t.array.drop p) with ht₁
    have hinside : t₁.array = t.array.take p ++ value :: t.array.drop p := rfl
    have hremoved := removeAt_spec ho₁ htable₁ hinside
      (by rw [List.take_append_drop]; exact hnone) (show atPos.toInt = _ by rw [hpre, hp])
    have hstore : inserted.state.store.write table
        { t₁ with array := t.array.take p ++ t.array.drop p } =
      st.store.write table (t.withArray capacity t.array) := by
      rw [hover, List.take_append_drop]
      rfl
    refine ⟨{
        status := .ok
        answer := value
        state := inserted.state.write table { t₁ with array := t.array.take p ++ t.array.drop p } },
      ?_, rfl, rfl, ⟨t.withArray capacity t.array, ?_, rfl⟩, fun i => ?_⟩
    · unfold vmTableNative
      simp only [htable₁, Option.bind_eq_bind, Option.bind_some]
      rw [if_neg (show ¬t₁.isSealed = true by rw [show t₁.isSealed = false from hunsealed]; simp)]
      unfold tableRemove
      simp only [hordinal, hlength, ← hpos]
      rw [hremoved]
      rfl
    · show (inserted.state.store.write table _).table table = _
      rw [hstore]
      exact Store.table_write_self (by rw [htable]; rfl)
    · show lhatTableGet h (inserted.state.store.write table _) table _ = _
      rw [hstore]
      refine lhatTableGet_congr table (Store.Alike.of_write htable ⟨rfl, rfl⟩) ?_
      exact delegateNext_write (R := Eq) (fun _ => rfl) htable rfl fun _ _ _ _ => rfl

/-- Before the last of three numbers and back. -/
theorem remove_insert_numbers : ∃ inserted,
    vmTableNative methodHeap quietMachine numbersAlone .insert 16 [.integer (-2), .bool true] =
        some inserted ∧
      Undone methodHeap quietMachine numbersAlone inserted.state 16 threeNumbers (.integer (-2))
        (.bool true) := by
  have hran : (vmTableNative methodHeap quietMachine numbersAlone .insert 16
      [.integer (-2), .bool true]).map Answered.status = some .ok := by
    decide_cbv
  obtain ⟨inserted, hinserted, hok⟩ := Option.map_eq_some_iff.1 hran
  refine ⟨inserted, hinserted, (remove_insert (t := threeNumbers) threeNumbers_orderly rfl
    (by decide)
    hinserted hok).2 ⟨LhatTable.find_of_empty rfl _, fun htakes => ?_⟩⟩
  exact htakes.1 (LhatTable.find_of_empty rfl _)

/-- A sequence without elements and a key that waits under `1`. -/
def oneWaiting : TableState where
  store := [(16, { entries := [{}, ⟨.integer 1, .integer 7⟩, {}, {}], entryCount := 1 })]
  memory := { grants := fun _ => true }

/-- The insertion takes the waiting key in, and the removal answers that. -/
theorem remove_insert_fails : ∃ inserted removed,
    vmTableNative methodHeap quietMachine oneWaiting .insert 16 [.integer (-1), .bool true] =
        some inserted ∧ inserted.status = .ok ∧
      vmTableNative methodHeap quietMachine inserted.state .remove 16 [.integer (-1)] =
        some removed ∧ removed.status = .ok ∧
      removed.answer = .integer 7 ∧
      lhatTableGet methodHeap oneWaiting.store 16 (.integer 0) = some .nil ∧
      lhatTableGet methodHeap removed.state.store 16 (.integer 0) = some (.bool true) ∧
      lhatTableGet methodHeap oneWaiting.store 16 (.integer 1) = some (.integer 7) ∧
      lhatTableGet methodHeap removed.state.store 16 (.integer 1) = some .nil := by
  have hran : ((vmTableNative methodHeap quietMachine oneWaiting .insert 16
      [.integer (-1), .bool true]).bind fun inserted =>
        (vmTableNative methodHeap quietMachine inserted.state .remove 16 [.integer (-1)]).map
          fun removed => (inserted.status, removed.status, removed.answer,
            lhatTableGet methodHeap removed.state.store 16 (.integer 0),
            lhatTableGet methodHeap removed.state.store 16 (.integer 1))) =
      some (.ok, .ok, .integer 7, some (.bool true), some .nil) ∧
      lhatTableGet methodHeap oneWaiting.store 16 (.integer 0) = some .nil ∧
      lhatTableGet methodHeap oneWaiting.store 16 (.integer 1) = some (.integer 7) := by
    decide_cbv
  obtain ⟨hruns, hfirst, hsecond⟩ := hran
  obtain ⟨inserted, hinserted, hrest⟩ := Option.bind_eq_some_iff.1 hruns
  obtain ⟨removed, hremoved, hsaid⟩ := Option.map_eq_some_iff.1 hrest
  simp only [Prod.mk.injEq] at hsaid
  obtain ⟨hok, hok', hanswer, hzero, hone⟩ := hsaid
  exact ⟨inserted, removed, hinserted, hok, hremoved, hok', hanswer, hfirst, hzero, hsecond, hone⟩

end Lhat
