import Lhat.Binary.Leaves
import Lhat.Binary.Fill

/-!
# The cursor of a record

The numbers of a record stand one after another, and what one writes no other touches. So each
is read where it was written.
-/

namespace Lhat.Binary

variable {ss : List Scalar} {vs ws : List Value} {out out' bytes : List UInt8} {p q r : Nat}

/-- Nothing is written from the cursor on. -/
def Clear (out : List UInt8) (p : Nat) : Prop := ∀ i, p ≤ i → bit out i = false

def AllNear : List Scalar → List Value → List Value → Prop
  | [], [], [] => True
  | s :: ss, v :: vs, w :: ws => s.Near v w ∧ AllNear ss vs ws
  | _, _, _ => False

def NoneHalfBelow : List Scalar → List Value → Prop
  | s :: ss, v :: vs => ¬s.HalfBelow v ∧ NoneHalfBelow ss vs
  | _, _ => True

/-- What one number leaves of the bytes. -/
structure Put (out out' : List UInt8) (p width n : Nat) : Prop where
  length : out'.length = out.length
  below : ∀ i, i < p → bit out' i = bit out i
  number : getBits out' p width = n % 2 ^ width
  clear : Clear out' (p + width)

theorem putBits_put (width n : Nat) (hroom : p + width ≤ 8 * out.length) (hclear : Clear out p) :
    Put out (putBits out p n width) p width n where
  length := length_putBits
  below i hi := by
    have h : ¬p ≤ i := by omega
    simp [bit_putBits hroom, h]
  number := getBits_putBits hroom fun j _ => hclear _ (by omega)
  clear i hi := by
    have h : ¬i < p + width := by omega
    simp [bit_putBits hroom, h, hclear i (by omega)]

/-- What a list of numbers leaves of the bytes. -/
structure PutAll (out out' : List UInt8) (p q : Nat) : Prop where
  length : out'.length = out.length
  below : ∀ i, i < p → bit out' i = bit out i
  clear : Clear out' q

theorem putAll_frame (h : putAll ss vs (out, p) = some (out', q))
    (hroom : p + total ss ≤ 8 * out.length) (hclear : Clear out p) :
    q = p + total ss ∧ PutAll out out' p q := by
  induction ss generalizing vs out p with
  | nil =>
    cases vs with
    | nil =>
      cases h
      exact ⟨rfl, rfl, fun _ _ => rfl, hclear⟩
    | cons => cases h
  | cons s ss ih =>
    cases vs with
    | nil => cases h
    | cons v vs =>
      have htotal : total (s :: ss) = s.width + total ss := by simp [total]
      unfold putAll at h
      split at h
      · rename_i packed _
        have hput := putBits_put s.width packed (by omega) hclear
        obtain ⟨hq, hrest⟩ := ih h (by rw [hput.length]; omega) hput.clear
        refine ⟨by omega, hrest.length.trans hput.length, fun i hi => ?_, hrest.clear⟩
        rw [hrest.below i (by omega), hput.below i hi]
      · cases h

theorem getAll_of_putAll (hsound : ∀ s ∈ ss, s.Sound)
    (h : putAll ss vs (out, p) = some (out', q)) (hroom : p + total ss ≤ 8 * out.length)
    (hclear : Clear out p) (hsame : ∀ j < total ss, bit bytes (r + j) = bit out' (p + j)) :
    ∃ ws, getAll bytes ss r = some (ws, r + total ss) ∧
      (AllNear ss vs ws ↔ NoneHalfBelow ss vs) := by
  induction ss generalizing vs out p r with
  | nil =>
    cases vs with
    | nil => exact ⟨[], rfl, Iff.rfl⟩
    | cons => cases h
  | cons s ss ih =>
    cases vs with
    | nil => cases h
    | cons v vs =>
      have htotal : total (s :: ss) = s.width + total ss := by simp [total]
      unfold putAll at h
      split at h
      · rename_i packed hpack
        have hput := putBits_put s.width packed (by omega) hclear
        have hroom' : p + s.width + total ss ≤ 8 * (putBits out p packed s.width).length := by
          rw [hput.length]
          omega
        obtain ⟨_, hrest⟩ := putAll_frame h hroom' hput.clear
        obtain ⟨w, hunpack, hnear⟩ := Scalar.returns (hsound s List.mem_cons_self) v packed hpack
        obtain ⟨ws, hgot, hall⟩ := ih (fun t ht => hsound t (List.mem_cons_of_mem _ ht)) h hroom'
          hput.clear (r := r + s.width) fun j hj => by
            rw [Nat.add_assoc, hsame _ (by omega), Nat.add_assoc]
        have hfirst : getBits bytes r s.width = packed % 2 ^ s.width := by
          rw [← hput.number]
          refine getBits_congr fun j hj => ?_
          rw [hsame j (by omega), hrest.below _ (by omega)]
        refine ⟨w :: ws, ?_, and_congr hnear hall⟩
        simp [getAll, hfirst, hunpack, hgot, htotal, Nat.add_assoc]
      · cases h

theorem putAll_of_getAll (hsound : ∀ s ∈ ss, s.Sound) (h : getAll bytes ss r = some (ws, q))
    (hroom : p + total ss ≤ 8 * out.length) (hclear : Clear out p) :
    ∃ out', putAll ss ws (out, p) = some (out', p + total ss) ∧
      ∀ j < total ss, bit out' (p + j) = bit bytes (r + j) := by
  induction ss generalizing ws out p r with
  | nil =>
    cases h
    exact ⟨out, rfl, fun j hj => absurd hj (Nat.not_lt_zero j)⟩
  | cons s ss ih =>
    have htotal : total (s :: ss) = s.width + total ss := by simp [total]
    simp only [getAll, Option.bind_eq_bind, Option.bind_eq_some_iff] at h
    obtain ⟨w, hunpack, ⟨ws', q'⟩, hgot, h⟩ := h
    cases h
    obtain ⟨packed, hpack, hmod⟩ :=
      Scalar.repacks (hsound s List.mem_cons_self) getBits_lt w hunpack
    have hput := putBits_put s.width packed (by omega) hclear
    have hroom' : p + s.width + total ss ≤ 8 * (putBits out p packed s.width).length := by
      rw [hput.length]
      omega
    obtain ⟨out', hrest, hbits⟩ :=
      ih (fun t ht => hsound t (List.mem_cons_of_mem _ ht)) hgot hroom' hput.clear
    obtain ⟨_, hframe⟩ := putAll_frame hrest hroom' hput.clear
    refine ⟨out', ?_, fun j hj => ?_⟩
    · simp [putAll, hpack, hrest, htotal, Nat.add_assoc]
    · by_cases hj' : j < s.width
      · have hsame := congrArg (Nat.testBit · j) (hput.number.trans hmod)
        simp only [testBit_getBits, hj', decide_true, Bool.true_and] at hsame
        rw [hframe.below _ (by omega), hsame]
      · have := hbits (j - s.width) (by omega)
        rwa [show p + s.width + (j - s.width) = p + j by omega,
          show r + s.width + (j - s.width) = r + j by omega] at this

end Lhat.Binary

/-!
# A record comes back

What is encoded is decoded again from wherever the bytes stand, and bytes that decode are
encoded again as they were. A fixed number half a step below the least of its kind packs as the
largest: it rounds to one step below, which no number of the packing stands for.
-/

namespace Lhat.Binary

/-- What a record promises of a value that encoded to these bytes, decoded where they stand in
a longer input and into any heap. -/
def RoundTrips (h : Heap) (k : Kind) (v : Value) (bytes : List UInt8) : Prop :=
  encodeInto h k v = .ok (bytes, k.bits) ∧ bytes.length = k.size ∧ Clear bytes k.bits ∧
  ∀ (g : Heap) (before after : List UInt8) (start : Int64), start.toInt = before.length →
    ∃ table g' vs ws,
      decodeKind (bytes ++ after) k (g, 0) .nil = .ok (table, g', k.bits) ∧
      formatDecode g (some k) (some (before ++ bytes ++ after)) (.integer start) =
        .ok (.decoded table g' (Int64.ofNat (before.length + bytes.length))) ∧
      read h k v = some vs ∧ read g' k table = some ws ∧ AllNear k.leaves vs ws

/-- No fixed kind of several steps is handed a number exactly half a step below its least. -/
def NotHalfBelow (h : Heap) (k : Kind) (v : Value) : Prop :=
  ∀ vs, read h k v = some vs → NoneHalfBelow k.leaves vs

variable {h g : Heap} {k : Kind} {v : Value} {bytes : List UInt8}

theorem bits_le_size (k : Kind) : k.bits ≤ 8 * k.size := by
  unfold Kind.size
  omega

theorem bit_append {bytes after : List UInt8} {i : Nat} (hi : i < 8 * bytes.length) :
    bit (bytes ++ after) i = bit bytes i := by
  unfold bit
  rw [List.getD_eq_getElem?_getD, List.getElem?_append_left (by omega),
    ← List.getD_eq_getElem?_getD]

theorem clear_zeros (n p : Nat) : Clear (List.replicate n 0) p := by
  intro i _
  unfold bit
  rw [List.getD_eq_getElem?_getD, List.getElem?_replicate]
  split <;> simp

theorem encodeInto_ok {w : Written} :
    encodeInto h k v = .ok w ↔
      ∃ vs, read h k v = some vs ∧ putAll k.leaves vs (List.replicate k.size 0, 0) = some w := by
  have heq := encodeKind_eq (h := h) k v {} (List.replicate k.size 0, 0)
  rw [← Option.bind_eq_some_iff, ← heq]
  change encodeKind _ _ _ _ _ = _ ↔ _
  cases encodeKind h k v {} (List.replicate k.size 0, 0) with
  | error => exact ⟨fun h => (nomatch h), fun h => (nomatch h)⟩
  | ok w' => exact ⟨fun h => by cases h; rfl, fun h => by cases h; rfl⟩

theorem formatEncode_ok :
    formatEncode h (some k) v = .ok bytes ↔ ∃ p, encodeInto h k v = .ok (bytes, p) := by
  unfold formatEncode
  dsimp only
  cases encodeInto h k v with
  | error => exact ⟨fun h => (nomatch h), fun ⟨_, h⟩ => (nomatch h)⟩
  | ok w =>
    exact ⟨fun h => ⟨w.2, by cases h; rfl⟩, fun ⟨p, h⟩ => by cases h; rfl⟩

theorem decodeKind_nil (hk : k.Sound) {vs : List Value} {q : Nat} {p : Nat}
    (hgot : getAll bytes k.leaves p = some (vs, q)) :
    ∃ table g', decodeKind bytes k (g, p) .nil = .ok (table, g', q) ∧
      read g' k table = some vs := by
  have hfits := fits_nil g k
  obtain ⟨hdone, hruns⟩ := fills k hk g .nil p bytes hfits
  obtain ⟨⟨table, g', r⟩, hdecode⟩ := hruns (by rw [hgot]; rfl) fun s hs => by
    rw [slots_nil] at hs
    cases hs
  obtain ⟨_, _, ws, hws, hread⟩ := hdone table g' r hdecode
  rw [hgot] at hws
  cases hws
  exact ⟨table, g', hdecode, hread⟩

theorem formatDecode_of_decodeKind {before : List UInt8} {start : Int64} {table : Value} {g' : Heap}
    {p : Nat} {rest : List UInt8} (hstart : start.toInt = before.length)
    (hroom : k.size ≤ rest.length) (hdecode : decodeKind rest k (g, 0) .nil = .ok (table, g', p)) :
    formatDecode g (some k) (some (before ++ rest)) (.integer start) =
      .ok (.decoded table g' (Int64.ofNat (before.length + k.size))) := by
  have hpos : ¬start < 0 := by
    rw [Int64.lt_iff_toInt_lt]
    change ¬start.toInt < 0
    omega
  have hfrom : start.toInt.toNat = before.length := by omega
  simp only [formatDecode, decode]
  rw [if_neg hpos, hfrom, if_neg (by simpa using hroom), List.drop_left, hdecode]

theorem roundTrips_of_encode (hk : k.Sound) {p : Nat} (hencode : encodeInto h k v = .ok (bytes, p)) :
    RoundTrips h k v bytes ↔ NotHalfBelow h k v := by
  obtain ⟨vs, hread, hput⟩ := encodeInto_ok.mp hencode
  have hsound := leaves_sound hk
  have htotal := total_leaves k
  have hroom : 0 + total k.leaves ≤ 8 * (List.replicate k.size (0 : UInt8)).length := by
    rw [List.length_replicate, htotal, Nat.zero_add]
    exact bits_le_size k
  obtain ⟨hp, hframe⟩ := putAll_frame hput hroom (clear_zeros _ _)
  rw [htotal, Nat.zero_add] at hp
  subst hp
  have hlength : bytes.length = k.size := hframe.length.trans List.length_replicate
  have hback : ∀ after, ∃ ws, getAll (bytes ++ after) k.leaves 0 = some (ws, k.bits) ∧
      (AllNear k.leaves vs ws ↔ NoneHalfBelow k.leaves vs) := by
    intro after
    have hsame : ∀ j < total k.leaves, bit (bytes ++ after) (0 + j) = bit bytes (0 + j) :=
      fun j hj => bit_append (by
        have := bits_le_size k
        omega)
    obtain ⟨ws, hws, hnear⟩ := getAll_of_putAll hsound hput hroom (clear_zeros _ _) hsame
    rw [htotal, Nat.zero_add] at hws
    exact ⟨ws, hws, hnear⟩
  constructor
  · rintro ⟨_, _, _, hdecodes⟩ us hus
    rw [hread] at hus
    cases hus
    obtain ⟨table, g', us, ws, hdecode, _, hus, hws, hnear⟩ := hdecodes h [] [] 0 rfl
    obtain ⟨ws', hgot, hiff⟩ := hback []
    obtain ⟨table', g'', hdecode', hread'⟩ := decodeKind_nil (g := h) hk hgot
    rw [hdecode] at hdecode'
    cases hdecode'
    rw [hread] at hus
    cases hus
    rw [hws] at hread'
    cases hread'
    exact hiff.mp hnear
  · intro hnot
    refine ⟨hencode, hlength, hframe.clear, fun g before after start hstart => ?_⟩
    obtain ⟨ws, hgot, hiff⟩ := hback after
    obtain ⟨table, g', hdecode, hread'⟩ := decodeKind_nil (g := g) hk hgot
    refine ⟨table, g', vs, ws, hdecode, ?_, hread, hread', hiff.mpr (hnot vs hread)⟩
    rw [List.append_assoc, hlength]
    exact formatDecode_of_decodeKind hstart (by simp [hlength]) hdecode

theorem encode_of_decode (hk : k.Sound) (hlength : bytes.length = k.size)
    (hclear : Clear bytes k.bits) {table : Value} {g' : Heap} {position : Int64}
    (hdecode : formatDecode g (some k) (some bytes) (.integer 0) = .ok (.decoded table g' position))
    : formatEncode g' (some k) table = .ok bytes := by
  obtain ⟨n, hn, _, p, hread⟩ := decode_ok hdecode
  cases hn
  have hfits := fits_nil g k
  obtain ⟨_, _, vs, hgot, hvs⟩ := (fills k hk g .nil 0 _ hfits).1 _ _ _ hread
  have htotal := total_leaves k
  have hroom : 0 + total k.leaves ≤ 8 * (List.replicate k.size (0 : UInt8)).length := by
    rw [List.length_replicate, htotal, Nat.zero_add]
    exact bits_le_size k
  obtain ⟨out, hput, hsame⟩ := putAll_of_getAll (leaves_sound hk) hgot hroom (clear_zeros _ _)
  obtain ⟨_, hframe⟩ := putAll_frame hput hroom (clear_zeros _ _)
  have hout : out = bytes := by
    refine bytes_ext (by rw [hframe.length, List.length_replicate, hlength]) fun i => ?_
    by_cases hi : i < k.bits
    · have := hsame i (by omega)
      rwa [Nat.zero_add] at this
    · rw [hframe.clear i (by omega), hclear i (by omega)]
  subst hout
  exact formatEncode_ok.mpr ⟨_, encodeInto_ok.mpr ⟨vs, hvs, hput⟩⟩

theorem record_roundTrips (hk : Made k) :
    (∀ h v bytes, formatEncode h (some k) v = .ok bytes →
      (RoundTrips h k v bytes ↔ NotHalfBelow h k v)) ∧
    ∀ g bytes table g' position, bytes.length = k.size → Clear bytes k.bits →
      formatDecode g (some k) (some bytes) (.integer 0) = .ok (.decoded table g' position) →
      formatEncode g' (some k) table = .ok bytes := by
  refine ⟨fun h v bytes hencode => ?_, fun g bytes table g' position hlength hclear hdecode => ?_⟩
  · obtain ⟨p, hencode⟩ := formatEncode_ok.mp hencode
    exact roundTrips_of_encode hk.sound hencode
  · exact encode_of_decode hk.sound hlength hclear hdecode

/-- One coordinate from 0 to 10, in steps of one. -/
def coordinate : Kind := .format (.cons [120] (.scalar (.fixed 0 1 10)) .nil)

/-- A table with a number for the coordinate. -/
def standing (x : ℚ) : Heap where
  tables a := if a = 0 then { own := fun key => if key = .name [120] then some (.real x) else none }
    else {}
  next := 1

theorem made_coordinate : Made coordinate := by
  have hfixed : Made (.scalar (.fixed 0 1 10)) := .fixed 0 10 1 (by
    norm_num [binaryFixed, llround]
    rfl)
  refine .format (fun _ => true) [⟨some [120], some (.scalar (.fixed 0 1 10))⟩] ?_ rfl
  intro row hrow kind hkind
  rw [List.mem_singleton.mp hrow] at hkind
  cases hkind
  exact hfixed

theorem read_standing (x : ℚ) : read (standing x) coordinate (.table 0) = some [.real x] := by
  have hget : (standing x).get 0 (.name [120]) = .real x :=
    Heap.get_of_own (by simp [Heap.own, standing])
  simp [coordinate, read, readFields, hget]

theorem record_roundTrips_nearest : RoundTrips (standing (5 / 2)) coordinate (.table 0) [3] := by
  refine ((record_roundTrips made_coordinate).1 _ _ _ (by decide +kernel)).mpr fun vs hvs => ?_
  rw [read_standing] at hvs
  cases hvs
  exact ⟨fun h => by simp [Scalar.HalfBelow, Value.number] at h; norm_num at h, trivial⟩

theorem not_roundTrips_halfBelow :
    ¬∀ k, Made k → ∀ h v bytes, formatEncode h (some k) v = .ok bytes → RoundTrips h k v bytes := by
  intro hall
  have hencode : formatEncode (standing (-1 / 2)) (some coordinate) (.table 0) = .ok [10] := by
    decide +kernel
  obtain ⟨_, _, _, hdecodes⟩ := hall coordinate made_coordinate _ _ _ hencode
  obtain ⟨table, g', vs, ws, hdecode, _, hvs, hws, hnear⟩ :=
    hdecodes (standing (-1 / 2)) [] [] 0 rfl
  have hread : (decodeKind ([10] ++ []) coordinate (standing (-1 / 2), 0) .nil).toOption.bind
      (fun x => read x.2.1 coordinate x.1) = some [.real 10] := by
    decide +kernel
  rw [hdecode] at hread
  rw [read_standing] at hvs
  cases hvs
  cases hws.symm.trans hread
  obtain ⟨⟨x, y, hx, hy, hle⟩, _⟩ := hnear
  cases hx
  cases hy
  norm_num [abs_le] at hle

end Lhat.Binary
