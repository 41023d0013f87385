import Lhat.Record.Codec
import Mathlib.Data.Nat.Bitwise

/-!
# What is not a table comes back
-/

namespace Lhat.Records

variable {limits : Limits} {write : List UInt8 → List UInt8 → Bool} {split : Splitting}

/-! ### Numbers -/

theorem varByte (m : Nat) :
    (UInt8.ofNat (m &&& 127 ||| if 127 < m then 128 else 0)).toNat =
      m % 128 + if 127 < m then 128 else 0 := by
  have hmod : m &&& 127 = m % 128 := Nat.and_two_pow_sub_one_eq_mod m 7
  have hlt := Nat.mod_lt m (show 0 < 128 by norm_num)
  rw [hmod, UInt8.toNat_ofNat']
  split
  · have hor : m % 128 ||| 128 = m % 128 + 128 := or_shiftLeft 7 (n := 1) hlt
    rw [hor]
    omega
  · rw [Nat.or_zero]
    omega

variable (split) in
theorem Presents.varLoop (turns : Nat) : ∀ {i n m : Nat} {c : Reader} {payload tail : List UInt8},
    turns + i = 10 → n < 2 ^ (7 * i) → m < 2 ^ (64 - 7 * i) → (0 < i → 0 < m) →
    Presents limits c (varBytes turns m ++ payload) tail →
    ∃ c', varLoop limits split turns i n c = .ok (n + m * 2 ^ (7 * i), c') ∧
      Presents limits c' payload tail ∧ c'.entries = c.entries := by
  induction turns with
  | zero =>
    intro i n m c payload tail hi _ hm hpos _
    have hten : i = 10 := by omega
    subst hten
    have := hpos (by norm_num)
    norm_num at hm
    omega
  | succ turns ih =>
    intro i n m c payload tail hi hn hm hpos hc
    obtain ⟨byte, hbyte⟩ : ∃ byte, byte = UInt8.ofNat (m &&& 127 ||| if 127 < m then 128 else 0) :=
      ⟨_, rfl⟩
    have hb := hbyte ▸ varByte m
    have hlast : i = 9 → m < 2 := fun h => by
      subst h
      norm_num at hm
      omega
    have hlow : byte.toNat &&& 127 = m % 128 := by
      have hmod : byte.toNat &&& 127 = byte.toNat % 128 := Nat.and_two_pow_sub_one_eq_mod _ 7
      rw [hmod, hb]
      split <;> omega
    have hone : n ||| (byte.toNat &&& 127) <<< (7 * i) = n + m % 128 * 2 ^ (7 * i) := by
      rw [hlow, or_shiftLeft _ hn]
    unfold varBytes at hc
    dsimp only at hc
    rw [← hbyte, Nat.shiftRight_eq_div_pow] at hc
    unfold Records.varLoop
    by_cases hdone : m / 2 ^ 7 = 0
    · rw [if_pos hdone] at hc
      obtain ⟨c', hget, hc', hentries⟩ := Presents.get split (show Presents limits c ([byte] ++ _) tail from hc)
      have hsmall : m % 128 = m := by omega
      rw [if_neg (by omega), Nat.add_zero, hsmall] at hb
      refine ⟨c', ?_, hc', hentries⟩
      change Records.get limits split c 1 = _ at hget
      simp only [bind, Except.bind, hget, List.getD_cons_zero, hone]
      simp only [hb, hsmall]
      rw [if_neg (by omega)]
      have hand : m &&& 128 = 0 := by
        have := Nat.and_two_pow m 7
        rw [Nat.testBit_lt_two_pow (by omega)] at this
        simpa using this
      simp only [hand, if_pos]
      rfl
    · rw [if_neg hdone, List.cons_append] at hc
      obtain ⟨c', hget, hc', hentries⟩ := Presents.get split (show Presents limits c ([byte] ++ _) tail from hc)
      rw [if_pos (by omega)] at hb
      have hten : i < 9 := by omega
      have hpow : 2 ^ (7 * (i + 1)) = 128 * 2 ^ (7 * i) := by
        rw [Nat.mul_add, Nat.pow_add]
        exact Nat.mul_comm _ _
      have hpow' : 2 ^ (64 - 7 * i) = 128 * 2 ^ (64 - 7 * (i + 1)) := by
        rw [show 64 - 7 * i = 7 + (64 - 7 * (i + 1)) by omega, Nat.pow_add]
      have hmore : n + m % 128 * 2 ^ (7 * i) < 2 ^ (7 * (i + 1)) := by
        rw [hpow]
        have : m % 128 * 2 ^ (7 * i) ≤ 127 * 2 ^ (7 * i) :=
          Nat.mul_le_mul_right _ (by omega)
        omega
      obtain ⟨c'', hloop, hc'', hentries'⟩ := ih (i := i + 1) (n := n + m % 128 * 2 ^ (7 * i))
        (m := m / 2 ^ 7) (by omega) hmore (by
          rw [hpow'] at hm
          exact Nat.div_lt_of_lt_mul hm) (fun _ => Nat.pos_of_ne_zero hdone) hc'
      refine ⟨c'', ?_, hc'', hentries'.trans hentries⟩
      have hand : (m % 128 + 128) &&& 128 ≠ 0 := by
        have := Nat.and_two_pow (m % 128 + 128) 7
        have hbit : (m % 128 + 128).testBit 7 = true := by
          rw [Nat.add_comm]
          have := Nat.testBit_two_pow_add_eq (m % 128) 7
          rw [Nat.testBit_lt_two_pow (i := 7) (Nat.mod_lt m (by norm_num))] at this
          exact this
        rw [hbit] at this
        rw [show m % 128 + 128 &&& 128 = 128 from this]
        norm_num
      change Records.get limits split c 1 = _ at hget
      simp only [bind, Except.bind, hget, List.getD_cons_zero, hone]
      simp only [hb]
      rw [if_neg (by omega)]
      simp only [hand, if_false]
      refine hloop.trans ?_
      have hsum : m % 128 * 2 ^ (7 * i) + m / 2 ^ 7 * 2 ^ (7 * (i + 1)) = m * 2 ^ (7 * i) := by
        rw [hpow, ← Nat.mul_assoc, ← Nat.add_mul]
        congr 1
        omega
      rw [Nat.add_assoc, hsum]

variable (split) in
theorem Presents.getVar {n : Nat} (hn : n < 2 ^ 64) {c : Reader} {payload tail : List UInt8}
    (hc : Presents limits c (varBytes 10 n ++ payload) tail) :
    ∃ c', getVar limits split c = .ok (n, c') ∧ Presents limits c' payload tail ∧
      c'.entries = c.entries := by
  obtain ⟨c', hloop, hc', hentries⟩ := hc.varLoop split 10 (i := 0) (n := 0) rfl
    (by norm_num) (by simpa using hn) (fun h => absurd h (Nat.lt_irrefl 0))
  refine ⟨c', ?_, hc', hentries⟩
  simpa [Records.getVar] using hloop

theorem length_wordBytes (n : Nat) : (wordBytes n).length = 8 := by simp [wordBytes]

theorem word_wordBytes {n : Nat} (hn : n < 2 ^ 64) : word (wordBytes n) = n := by
  have hbyte : ∀ k : Nat, (UInt8.ofNat (n >>> k)).toNat = n / 2 ^ k % 256 := fun k => by
    rw [UInt8.toNat_ofNat', Nat.shiftRight_eq_div_pow]
  have hrange : List.range 8 = [0, 1, 2, 3, 4, 5, 6, 7] := by decide
  unfold word wordBytes
  rw [hrange]
  simp only [List.map_cons, List.map_nil, List.foldl_cons, List.foldl_nil, List.getD_cons_zero,
    List.getD_cons_succ, hbyte, Nat.zero_or]
  norm_num
  rw [or_shiftLeft 8 (by omega), or_shiftLeft 16 (by omega), or_shiftLeft 24 (by omega),
    or_shiftLeft 32 (by omega), or_shiftLeft 40 (by omega), or_shiftLeft 48 (by omega),
    or_shiftLeft 56 (by omega)]
  omega

/-! ### Values -/

theorem Writes.putVar {c c' : Writer} {payload : List UInt8} {n : Nat}
    (hc : Writes limits c payload) (h : putVar limits write c n = .ok c') :
    Writes limits c' (payload ++ varBytes 10 n) ∧ c'.entries = c.entries :=
  hc.put h

variable (split) in
theorem Writes.scalar {table : Nat → Writer → Except Status Writer} {v : Value}
    (hv : ∀ a, v ≠ .table a) {c c' : Writer} {payload : List UInt8}
    (hc : Writes limits c payload) (h : writeTagged limits write table v c = .ok c') :
    ∃ data, Writes limits c' (payload ++ data) ∧ c'.entries = c.entries ∧
      ∀ (table' : Reader → Heap → Except Status (Value × Reader × Heap)) {r : Reader}
        {rest tail : List UInt8} (g : Heap), Presents limits r (data ++ rest) tail →
        ∃ r', readTagged limits split table' r g = .ok (v, r', g) ∧
          Presents limits r' rest tail ∧ r'.entries = r.entries := by
  unfold writeTagged at h
  cases v with
  | nil =>
    obtain ⟨c₁, hput, h⟩ := bind_ok h
    cases h
    obtain ⟨hwrites, hentries⟩ := hc.put hput
    refine ⟨_, hwrites, hentries, fun table' r rest tail g hr => ?_⟩
    obtain ⟨r', hget, hr', hsame⟩ := Presents.get split hr
    refine ⟨r', ?_, hr', hsame⟩
    unfold readTagged
    rw [show Records.get limits split r 1 = _ from hget]
    rfl
  | bool b =>
    obtain ⟨c₁, hput, h⟩ := bind_ok h
    cases h
    obtain ⟨hwrites, hentries⟩ := hc.put hput
    refine ⟨_, hwrites, hentries, fun table' r rest tail g hr => ?_⟩
    obtain ⟨r', hget, hr', hsame⟩ := Presents.get split hr
    refine ⟨r', ?_, hr', hsame⟩
    unfold readTagged
    rw [show Records.get limits split r 1 = _ from hget]
    cases b <;> rfl
  | integer n =>
    obtain ⟨c₁, hput, h⟩ := bind_ok h
    obtain ⟨hwrites, hentries⟩ := hc.put hput
    obtain ⟨hwrites', hentries'⟩ := hwrites.put h
    rw [List.append_assoc] at hwrites'
    refine ⟨_, hwrites', hentries'.trans hentries, fun table' r rest tail g hr => ?_⟩
    rw [List.append_assoc] at hr
    obtain ⟨r₁, hget, hr₁, hsame⟩ := Presents.get split hr
    obtain ⟨r', hget', hr', hsame'⟩ := Presents.get split hr₁
    refine ⟨r', ?_, hr', hsame'.trans hsame⟩
    rw [length_wordBytes] at hget'
    unfold readTagged
    rw [show Records.get limits split r 1 = _ from hget]
    change (Records.get limits split r₁ 8 >>= fun x => Except.ok
      (Value.integer (UInt64.ofNat (word x.1)).toInt64, x.2, g)) = _
    rw [hget']
    change Except.ok (Value.integer (UInt64.ofNat (word (wordBytes n.toUInt64.toNat))).toInt64,
      r', g) = _
    rw [word_wordBytes n.toUInt64.toNat_lt, UInt64.ofNat_toNat]
    rfl
  | real d =>
    simp only [tagOf] at h
    cases hfinite : isFinite d with
    | false =>
      simp only [hfinite] at h
      cases h
    | true =>
      simp only [hfinite, if_true] at h
      obtain ⟨c₁, hput, h⟩ := bind_ok h
      obtain ⟨hwrites, hentries⟩ := hc.put hput
      obtain ⟨hwrites', hentries'⟩ := hwrites.put h
      rw [List.append_assoc] at hwrites'
      refine ⟨_, hwrites', hentries'.trans hentries, fun table' r rest tail g hr => ?_⟩
      rw [List.append_assoc] at hr
      obtain ⟨r₁, hget, hr₁, hsame⟩ := Presents.get split hr
      obtain ⟨r', hget', hr', hsame'⟩ := Presents.get split hr₁
      refine ⟨r', ?_, hr', hsame'.trans hsame⟩
      rw [length_wordBytes] at hget'
      have hword : (⟨.ofNat (word (wordBytes d.bits.toNat))⟩ : Binary64) = d := by
        rw [word_wordBytes d.bits.toNat_lt, UInt64.ofNat_toNat]
      unfold readTagged
      rw [show Records.get limits split r 1 = _ from hget]
      change (Records.get limits split r₁ 8 >>= fun x =>
        if isFinite ⟨.ofNat (word x.1)⟩ then Except.ok (Value.real ⟨.ofNat (word x.1)⟩, x.2, g)
        else .error .malformed) = _
      simp only [bind, Except.bind, hget', hword]
      rw [if_pos hfinite]
  | string text =>
    obtain ⟨c₁, hput, h⟩ := bind_ok h
    obtain ⟨c₂, hvar, h⟩ := bind_ok h
    obtain ⟨hwrites, hentries⟩ := hc.put hput
    obtain ⟨hwrites', hentries'⟩ := hwrites.putVar hvar
    obtain ⟨hwrites'', hentries''⟩ := hwrites'.put h
    rw [List.append_assoc, List.append_assoc] at hwrites''
    refine ⟨_, hwrites'', hentries''.trans (hentries'.trans hentries),
      fun table' r rest tail g hr => ?_⟩
    rw [List.append_assoc, List.append_assoc] at hr
    obtain ⟨r₁, hget, hr₁, hsame⟩ := Presents.get split hr
    -- A text within the budget is one whose length the reader takes.
    have hlen : text.length ≤ limits.maxBytes := by
      have := hr₁.length_le
      simp only [List.length_append] at this
      omega
    obtain ⟨r₂, hget', hr₂, hsame'⟩ := hr₁.getVar split
      (lt_of_le_of_lt hlen limits.bytes_lt)
    obtain ⟨r', hget'', hr', hsame''⟩ := Presents.get split hr₂
    refine ⟨r', ?_, hr', hsame''.trans (hsame'.trans hsame)⟩
    unfold readTagged
    rw [show Records.get limits split r 1 = _ from hget]
    change (Records.getVar limits split r₁ >>= fun x =>
      if limits.maxBytes < x.1 then Except.error .limit
      else Records.get limits split x.2 x.1 >>= fun y =>
        Except.ok (Value.string y.1, y.2, g)) = _
    simp only [bind, Except.bind, hget']
    rw [if_neg (Nat.not_lt.mpr hlen)]
    simp only [hget'']
  | table a => exact absurd rfl (hv a)
  | other a => cases h

end Lhat.Records

/-!
# A table that is filled

The positions are set one after the other, and then the entries. An entry that stands apart from
the sequence is laid beside it. Any other either is refused or leaves a mark in the sequence
that stays: a hole that is filled, or a position too many.
-/

namespace Lhat.Records

namespace Table

variable {t t' : Table} {key value : Value} {i : Nat}

theorem find_eq_none (h : key ∉ keysOf t.entries) : t.find key = none := by
  rw [keysOf_eq, List.mem_map] at h
  unfold find live
  rw [List.find?_eq_none.mpr, Option.map_none]
  intro e he hkey
  exact h ⟨e, he, of_decide_eq_true hkey⟩

theorem get_eq_nil (hkey : Held key) (hindex : arrayIndex t.array.length key = none)
    (hnew : key ∉ keysOf t.entries) : t.get key = .nil := by
  unfold get
  rw [if_neg (by rw [hkey.usable]; exact Bool.noConfusion)]
  simp only [hkey.normal, hindex, find_eq_none hnew, Option.getD_none]

theorem get_inside (hkey : Held key) (hindex : arrayIndex t.array.length key = some i) :
    t.get key = t.array.getD i .nil := by
  unfold get
  rw [if_neg (by rw [hkey.usable]; exact Bool.noConfusion)]
  simp only [hkey.normal, hindex]

variable (value) in
theorem set_inside (hkey : Held key) (hindex : arrayIndex t.array.length key = some i) :
    ∃ t', t.set key value = .done t' ∧ t'.array = t.array.set i value ∧ t'.entries = t.entries := by
  unfold set
  rw [dif_neg (by rw [hkey.usable]; exact Bool.noConfusion)]
  simp only [hkey.normal]
  split
  · rename_i j hj
    rw [hindex] at hj
    cases hj
    exact ⟨_, rfl, rfl, rfl⟩
  · rename_i hnone
    rw [hindex] at hnone
    cases hnone

theorem set_new (hkey : Held key) (hindex : arrayIndex t.array.length key = none)
    (hnext : key ≠ .integer (.ofNat t.array.length)) (hvalue : value ≠ .nil)
    (hnew : key ∉ keysOf t.entries) :
    ∃ t', t.set key value = .done t' ∧ t'.array = t.array ∧
      t'.entries = t.entries ++ [⟨key, value⟩] := by
  unfold set
  rw [dif_neg (by rw [hkey.usable]; exact Bool.noConfusion)]
  simp only [hkey.normal]
  split
  · rename_i j hj
    rw [hindex] at hj
    cases hj
  · rw [if_neg hnext]
    refine ⟨_, rfl, ?_, ?_⟩
    · unfold setEntry
      rw [if_neg hvalue, dif_neg hnew]
    · unfold setEntry
      rw [if_neg hvalue, dif_neg hnew]

theorem append_array (h : t.append value = some t') : t'.array = t.array ++ [value] := by
  unfold append at h
  split at h
  · cases h
    rfl
  · cases h

theorem drainIntoArray_array (turns : Nat) (t : Table) :
    t.array <+: (drainIntoArray turns t).array := by
  induction turns generalizing t with
  | zero => exact List.prefix_rfl
  | succ turns ih =>
    unfold drainIntoArray
    dsimp only
    split
    · exact List.prefix_rfl
    · split
      · exact List.prefix_rfl
      · rename_i happend
        refine List.IsPrefix.trans ?_ (ih _)
        rw [append_array happend]
        exact List.prefix_append ..

theorem setEntry_array (hkey : Held key) : (t.setEntry key value hkey).array = t.array := by
  unfold setEntry
  split
  · rfl
  · split <;> rfl

theorem set_outside (hkey : Held key) (hindex : arrayIndex t.array.length key = none)
    (h : t.set key value = .done t') : t.array <+: t'.array := by
  unfold set at h
  rw [dif_neg (by rw [hkey.usable]; exact Bool.noConfusion)] at h
  simp only [hkey.normal] at h
  split at h
  · rename_i j hj
    rw [hindex] at hj
    cases hj
  · split at h
    · split at h
      · cases h
      · rename_i happend
        cases h
        refine List.IsPrefix.trans ?_ (drainIntoArray_array _ _)
        rw [append_array happend]
        exact List.prefix_append ..
    · cases h
      rewrite [setEntry_array]
      exact List.prefix_rfl

theorem set_next (hkey : Held key) (hindex : arrayIndex t.array.length key = none)
    (hnext : key = .integer (.ofNat t.array.length)) (h : t.set key value = .done t') :
    t.array.length < t'.array.length := by
  unfold set at h
  rw [dif_neg (by rw [hkey.usable]; exact Bool.noConfusion)] at h
  simp only [hkey.normal] at h
  split at h
  · rename_i j hj
    rw [hindex] at hj
    cases hj
  · rw [if_pos hnext] at h
    split at h
    · cases h
    · rename_i longer happend
      cases h
      have hprefix := (drainIntoArray_array longer.entryCount longer).length_le
      rw [append_array happend, List.length_append, List.length_singleton] at hprefix
      exact hprefix

theorem not_refused (hkey : Held key) : t.set key value ≠ .refused := by
  unfold set
  rw [dif_neg (by rw [hkey.usable]; exact Bool.noConfusion)]
  split
  · rintro ⟨⟩
  · split
    · split
      · rintro ⟨⟩
      · rintro ⟨⟩
    · rintro ⟨⟩

theorem held_integer (n : Int64) : Held (.integer n) := ⟨rfl, rfl⟩

theorem arrayIndex_position {length : Nat} (hi : i < length) (hlen : length < 2 ^ 63) :
    arrayIndex length (.integer (.ofNat i)) = some i := by
  have htoInt : (Int64.ofNat i).toInt = i := Int64.toInt_ofNat_of_lt (by omega)
  unfold arrayIndex
  simp only [htoInt]
  rw [if_neg (by omega), Int.toNat_natCast]

end Table

end Lhat.Records
