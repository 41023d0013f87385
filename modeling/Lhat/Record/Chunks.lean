import Lhat.Record.Basic

/-!
# Chunks

What is put goes into a buffer, and a full buffer goes out as a chunk: its length in four bytes,
and then itself. The budget of a record counts what goes out, and what comes in.
-/

namespace Lhat.Records

/-- `LhatBinaryDataStatus`, where it is not OK. -/
inductive Status where
  | truncated
  | malformed
  | unsupported
  | cycle
  | limit
  | io
  | outOfMemory
deriving DecidableEq

/-- `LhatBinaryDataLimits`. The first two are sizes of the machine. -/
structure Limits where
  maxBytes : Nat
  maxEntries : Nat
  maxDepth : Nat
  bytes_lt : maxBytes < 2 ^ 64
  entries_lt : maxEntries < 2 ^ 64

/-- `CHUNK`. -/
def chunk : Nat := 16384

theorem chunk_pos : 0 < chunk := Nat.succ_pos _

def magic : List UInt8 := [0x89, 76, 72, 84, 1, 13, 10, 0x1a]

/-- `budget`. -/
def budget (limits : Limits) (bytes n : Nat) : Except Status Nat :=
  if limits.maxBytes < bytes ∨ limits.maxBytes - bytes < n then .error .limit else .ok (bytes + n)

/-! ### Writing -/

/-- `Codec` of a record that is written. What the callback took is kept. -/
structure Writer where
  bytes : Nat := 0
  entries : Nat := 0
  buffer : List UInt8 := []
  written : List UInt8 := []

section Writing

variable (limits : Limits) (write : List UInt8 → List UInt8 → Bool)

/-- `raw_write`. The callback is handed what comes after what it took. -/
def rawWrite (c : Writer) (data : List UInt8) : Except Status Writer := do
  let bytes ← budget limits c.bytes data.length
  if write c.written data then return { c with bytes := bytes, written := c.written ++ data }
  else throw .io

/-- The four bytes of a length, the lowest first. -/
def header (n : Nat) : List UInt8 :=
  [.ofNat n, .ofNat (n >>> 8), .ofNat (n >>> 16), .ofNat (n >>> 24)]

def flushChunk (c : Writer) : Except Status Writer :=
  if c.buffer.length = 0 then .ok c
  else do
    let c ← rawWrite limits write c (header c.buffer.length)
    let c ← rawWrite limits write c c.buffer
    return { c with buffer := [] }

/-- What `put` does with a buffer that may be full. -/
def flushFull (c : Writer) : Except Status Writer :=
  if c.buffer.length = chunk then flushChunk limits write c else .ok c

/-- The loop of `put`, which takes a byte at least in each turn. -/
def putLoop : Nat → Writer → List UInt8 → Except Status Writer
  | 0, c, _ => .ok c
  | turns + 1, c, data =>
    if data.length = 0 then .ok c
    else do
      let take := min data.length (chunk - c.buffer.length)
      let c ← flushFull limits write { c with buffer := c.buffer ++ data.take take }
      putLoop turns c (data.drop take)

def put (c : Writer) (data : List UInt8) : Except Status Writer :=
  putLoop limits write data.length c data

end Writing

/-! ### Reading -/

/-- How a Reader splits what it has: how many bytes it gives at a call, where so many are asked
for and so many are left. -/
structure Splitting where
  gives : Nat → Nat → Nat → Nat
  le_asked : ∀ call asked left, gives call asked left ≤ asked
  le_left : ∀ call asked left, gives call asked left ≤ left
  some : ∀ call asked left, 0 < asked → 0 < left → 0 < gives call asked left

/-- `Codec` of a record that is read, and what the stream has left. -/
structure Reader where
  bytes : Nat := 0
  entries : Nat := 0
  buffer : List UInt8 := []
  position : Nat := 0
  calls : Nat := 0
  left : List UInt8

section Reading

variable (limits : Limits) (split : Splitting)

/-- The loop of `raw_read`, which takes a byte at least in each turn. -/
def rawLoop : Nat → Nat → Reader → Except Status (List UInt8 × Reader)
  | 0, _, c => .ok ([], c)
  | turns + 1, n, c =>
    if n = 0 then .ok ([], c)
    else do
      let got := split.gives c.calls n c.left.length
      if n < got then throw .io
      if got = 0 then throw .truncated
      let (data, c') ← rawLoop turns (n - got)
        { c with calls := c.calls + 1, left := c.left.drop got }
      return (c.left.take got ++ data, c')

/-- `raw_read`. -/
def rawRead (c : Reader) (n : Nat) : Except Status (List UInt8 × Reader) := do
  let bytes ← budget limits c.bytes n
  rawLoop split n n { c with bytes := bytes }

/-- The length that four bytes say. -/
def lengthOf (h : List UInt8) : Nat :=
  (h.getD 0 0).toNat ||| (h.getD 1 0).toNat <<< 8 ||| (h.getD 2 0).toNat <<< 16 |||
    (h.getD 3 0).toNat <<< 24

def nextChunk (c : Reader) : Except Status Reader := do
  let (h, c) ← rawRead limits split c 4
  let n := lengthOf h
  if n = 0 then throw .truncated
  if chunk < n then throw .malformed
  let (buffer, c) ← rawRead limits split c n
  return { c with buffer := buffer, position := 0 }

/-- What `get` does with a buffer that may be used up. -/
def fill (c : Reader) : Except Status Reader :=
  if c.position = c.buffer.length then nextChunk limits split c else .ok c

/-- The loop of `get`, which takes a byte at least in each turn. -/
def getLoop : Nat → Reader → Nat → Except Status (List UInt8 × Reader)
  | 0, c, _ => .ok ([], c)
  | turns + 1, c, n =>
    if n = 0 then .ok ([], c)
    else do
      let c ← fill limits split c
      let take := min n (c.buffer.length - c.position)
      let (data, c') ← getLoop turns { c with position := c.position + take } (n - take)
      return ((c.buffer.drop c.position).take take ++ data, c')

def get (c : Reader) (n : Nat) : Except Status (List UInt8 × Reader) := getLoop limits split n c n

end Reading

end Lhat.Records

/-!
# What is put is got

However a Reader splits the chunks, the bytes that were put come out again, and no more of the
stream is taken than the chunks they stand in.
-/

namespace Lhat.Records

variable {payload data : List UInt8} {n : Nat} {c : Reader} {c' : Writer}
variable {limits : Limits} {write : List UInt8 → List UInt8 → Bool} {split : Splitting}

/-- Bytes as the chunks of a stream. -/
inductive Framed : List UInt8 → List UInt8 → Prop where
  | nil : Framed [] []
  | cons {piece payload stream : List UInt8} : 0 < piece.length → piece.length ≤ chunk →
      Framed payload stream →
      Framed (piece ++ payload) (header piece.length ++ (piece ++ stream))

theorem Framed.snoc {stream piece : List UInt8} (h : Framed payload stream)
    (hpos : 0 < piece.length) (hle : piece.length ≤ chunk) :
    Framed (payload ++ piece) (stream ++ (header piece.length ++ piece)) := by
  induction h with
  | nil => simpa using Framed.cons hpos hle .nil
  | cons hpos' hle' _ ih => simpa using Framed.cons hpos' hle' ih

theorem bind_ok {α β ε : Type} {x : Except ε α} {f : α → Except ε β} {b : β}
    (h : x >>= f = .ok b) : ∃ a, x = .ok a ∧ f a = .ok b := by
  cases x with
  | error => cases h
  | ok a => exact ⟨a, rfl, h⟩

theorem budget_ok {bytes m : Nat} (h : budget limits bytes n = .ok m) :
    m = bytes + n ∧ bytes + n ≤ limits.maxBytes := by
  unfold budget at h
  split at h
  · cases h
  · cases h
    exact ⟨rfl, by omega⟩

theorem budget_of_le {bytes : Nat} (h : bytes + n ≤ limits.maxBytes) :
    budget limits bytes n = .ok (bytes + n) :=
  if_neg (by omega)

/-! ### Writing -/

/-- What was put so far: the chunks that went out, and the buffer. -/
structure Holds (limits : Limits) (c : Writer) (payload : List UInt8) : Prop where
  out : ∃ sent stream, payload = sent ++ c.buffer ∧ Framed sent stream ∧
    c.written = magic ++ stream
  full : c.buffer.length ≤ chunk
  bytes : c.bytes = c.written.length
  budget : c.bytes ≤ limits.maxBytes

theorem rawWrite_ok {c : Writer}
    (h : rawWrite limits write c data = .ok c') :
    c' = { c with bytes := c.bytes + data.length, written := c.written ++ data } ∧
      c.bytes + data.length ≤ limits.maxBytes := by
  obtain ⟨bytes, hbudget, h⟩ := bind_ok h
  obtain ⟨rfl, hle⟩ := budget_ok hbudget
  split at h
  · cases h
    exact ⟨rfl, hle⟩
  · cases h

theorem length_header (n : Nat) : (header n).length = 4 := rfl

theorem Holds.flushChunk {c : Writer} (hc : Holds limits c payload)
    (h : flushChunk limits write c = .ok c') :
    Holds limits c' payload ∧ c'.buffer = [] ∧ c'.entries = c.entries := by
  unfold Records.flushChunk at h
  split at h
  · rename_i hempty
    cases h
    exact ⟨hc, List.length_eq_zero_iff.mp hempty, rfl⟩
  · rename_i hsome
    obtain ⟨c₁, hheader, h⟩ := bind_ok h
    obtain ⟨rfl, _⟩ := rawWrite_ok hheader
    obtain ⟨c₂, hdata, h⟩ := bind_ok h
    obtain ⟨rfl, hle⟩ := rawWrite_ok hdata
    cases h
    obtain ⟨sent, stream, rfl, hframed, hwritten⟩ := hc.out
    have hbytes := hc.bytes
    refine ⟨⟨⟨sent ++ c.buffer, stream ++ (header c.buffer.length ++ c.buffer), ?_, ?_, ?_⟩,
      Nat.zero_le _, ?_, hle⟩, rfl, rfl⟩
    · simp
    · exact hframed.snoc (Nat.pos_of_ne_zero hsome) hc.full
    · simp [hwritten]
    · simp [hbytes, Nat.add_assoc]

theorem Holds.putLoop (turns : Nat) : ∀ {c c' : Writer} {payload data : List UInt8},
    Holds limits c payload → c.buffer.length < chunk → data.length ≤ turns →
    putLoop limits write turns c data = .ok c' →
    Holds limits c' (payload ++ data) ∧ c'.buffer.length < chunk ∧ c'.entries = c.entries := by
  induction turns with
  | zero =>
    intro c c' payload data hc hroom hlen h
    cases h
    have hnil : data = [] := List.length_eq_zero_iff.mp (Nat.le_zero.mp hlen)
    exact ⟨by rwa [hnil, List.append_nil], hroom, rfl⟩
  | succ turns ih =>
    intro c c' payload data hc hroom hlen h
    unfold Records.putLoop at h
    split at h
    · rename_i hempty
      cases h
      exact ⟨by rwa [List.length_eq_zero_iff.mp hempty, List.append_nil], hroom, rfl⟩
    · rename_i hsome
      obtain ⟨c₁, hflushed, h⟩ := bind_ok h
      have htake : 0 < min data.length (chunk - c.buffer.length) := by omega
      have hlonger : Holds limits { c with
          buffer := c.buffer ++ data.take (min data.length (chunk - c.buffer.length)) }
          (payload ++ data.take (min data.length (chunk - c.buffer.length))) := by
        obtain ⟨sent, stream, rfl, hframed, hwritten⟩ := hc.out
        refine ⟨⟨sent, stream, by simp, hframed, hwritten⟩, ?_, hc.bytes, hc.budget⟩
        simp only [List.length_append, List.length_take]
        omega
      have hnext : Holds limits c₁
          (payload ++ data.take (min data.length (chunk - c.buffer.length))) ∧
          c₁.buffer.length < chunk ∧ c₁.entries = c.entries := by
        unfold flushFull at hflushed
        split at hflushed
        · obtain ⟨hholds, hbuffer, hentries⟩ := hlonger.flushChunk hflushed
          exact ⟨hholds, by rw [hbuffer]; exact chunk_pos, hentries⟩
        · rename_i hnot
          cases hflushed
          refine ⟨hlonger, ?_, rfl⟩
          have := hlonger.full
          exact lt_of_le_of_ne this hnot
      obtain ⟨hholds, hroom', hentries⟩ := hnext
      obtain ⟨hholds', hroom'', hentries'⟩ := ih hholds hroom' (by
        rw [List.length_drop]
        omega) h
      rw [List.append_assoc, List.take_append_drop] at hholds'
      exact ⟨hholds', hroom'', hentries'.trans hentries⟩

/-- A writer between two values. -/
structure Writes (limits : Limits) (c : Writer) (payload : List UInt8) : Prop
    extends Holds limits c payload where
  room : c.buffer.length < chunk

theorem Writes.put {c : Writer} (hc : Writes limits c payload)
    (h : put limits write c data = .ok c') :
    Writes limits c' (payload ++ data) ∧ c'.entries = c.entries := by
  obtain ⟨hholds, hroom, hentries⟩ := hc.toHolds.putLoop _ hc.room le_rfl h
  exact ⟨⟨hholds, hroom⟩, hentries⟩

/-! ### Reading -/

/-- What is still to be got: the rest of the chunk that was read, and of those behind it in the
stream. The four bytes of the end are within the budget too. -/
structure Presents (limits : Limits) (c : Reader) (payload tail : List UInt8) : Prop where
  position : c.position ≤ c.buffer.length
  bytes : c.buffer.length ≤ c.bytes
  left : ∃ behind stream, payload = c.buffer.drop c.position ++ behind ∧ Framed behind stream ∧
    c.left = stream ++ tail ∧ c.bytes + stream.length + 4 ≤ limits.maxBytes

theorem rawLoop_ok (turns : Nat) : ∀ {n : Nat} {c : Reader} {data rest : List UInt8},
    n ≤ turns → c.left = data ++ rest → data.length = n →
    ∃ calls, rawLoop split turns n c = .ok (data, { c with calls := calls, left := rest }) := by
  induction turns with
  | zero =>
    intro n c data rest hn hleft hlen
    have hnil : data = [] := List.length_eq_zero_iff.mp (by omega)
    subst hnil
    exact ⟨c.calls, by rw [rawLoop, ← List.nil_append rest, ← hleft]⟩
  | succ turns ih =>
    intro n c data rest hn hleft hlen
    unfold rawLoop
    by_cases hzero : n = 0
    · have hnil : data = [] := List.length_eq_zero_iff.mp (by omega)
      subst hnil
      rw [if_pos hzero]
      exact ⟨c.calls, by rw [← List.nil_append rest, ← hleft]⟩
    · rw [if_neg hzero]
      obtain ⟨got, hgot⟩ : ∃ got, got = split.gives c.calls n c.left.length := ⟨_, rfl⟩
      have hlelen : n ≤ c.left.length := by
        rw [hleft, List.length_append]
        omega
      have hpos : 0 < got := hgot ▸ split.some _ _ _ (by omega) (by omega)
      have hle : got ≤ n := hgot ▸ split.le_asked _ _ _
      have hdrop : c.left.drop got = data.drop got ++ rest := by
        rw [hleft, List.drop_append_of_le_length (by omega)]
      obtain ⟨calls, hloop⟩ := ih (n := n - got)
        (c := { c with calls := c.calls + 1, left := c.left.drop got }) (by omega) hdrop
        (by rw [List.length_drop, hlen])
      refine ⟨calls, ?_⟩
      simp only [← hgot]
      rw [if_neg (by omega), if_neg (by omega)]
      simp only [bind, Except.bind, hloop]
      have htake : c.left.take got = data.take got := by
        rw [hleft, List.take_append_of_le_length (by omega)]
      rw [htake, List.take_append_drop]
      rfl

variable (limits split) in
theorem rawRead_ok {rest : List UInt8} (hleft : c.left = data ++ rest)
    (hbudget : c.bytes + data.length ≤ limits.maxBytes) :
    ∃ calls, rawRead limits split c data.length =
      .ok (data, { c with bytes := c.bytes + data.length, calls := calls, left := rest }) := by
  unfold rawRead
  rw [budget_of_le hbudget]
  exact rawLoop_ok (c := { c with bytes := c.bytes + data.length }) _ le_rfl hleft rfl

theorem or_shiftLeft {low : Nat} (k : Nat) (h : low < 2 ^ k) :
    low ||| n <<< k = low + n * 2 ^ k := by
  rw [Nat.or_comm, Nat.shiftLeft_eq, Nat.mul_comm, ← Nat.two_pow_add_eq_or_of_lt h, Nat.add_comm]

theorem lengthOf_header (h : n < 2 ^ 32) : lengthOf (header n) = n := by
  have hbyte : ∀ k : Nat, (UInt8.ofNat (n >>> k)).toNat = n / 2 ^ k % 256 := fun k => by
    rw [UInt8.toNat_ofNat', Nat.shiftRight_eq_div_pow]
  have hlow : (UInt8.ofNat n).toNat = n % 256 := UInt8.toNat_ofNat'
  change (UInt8.ofNat n).toNat ||| (UInt8.ofNat (n >>> 8)).toNat <<< 8 |||
    (UInt8.ofNat (n >>> 16)).toNat <<< 16 ||| (UInt8.ofNat (n >>> 24)).toNat <<< 24 = n
  rw [hbyte, hbyte, hbyte, hlow, or_shiftLeft 8 (by omega), or_shiftLeft 16 (by omega),
    or_shiftLeft 24 (by omega)]
  omega

variable (limits split) in
theorem nextChunk_ok {piece rest : List UInt8} (hpos : 0 < piece.length)
    (hle : piece.length ≤ chunk) (hleft : c.left = header piece.length ++ (piece ++ rest))
    (hbudget : c.bytes + 4 + piece.length ≤ limits.maxBytes) :
    ∃ calls, nextChunk limits split c = .ok { c with
      bytes := c.bytes + 4 + piece.length, buffer := piece, position := 0, calls := calls,
      left := rest } := by
  obtain ⟨calls, hheader⟩ := rawRead_ok limits split hleft
    (by rw [length_header]; omega)
  obtain ⟨calls', hdata⟩ := rawRead_ok limits split
    (c := { c with bytes := c.bytes + 4, calls := calls, left := piece ++ rest }) rfl hbudget
  have hlength : lengthOf (header piece.length) = piece.length := by
    refine lengthOf_header (lt_of_le_of_lt hle ?_)
    decide
  refine ⟨calls', ?_⟩
  rw [length_header] at hheader
  unfold nextChunk
  simp only [bind, Except.bind, hheader, hlength]
  rw [if_neg (by omega), if_neg (by omega)]
  simp only [hdata]
  rfl

variable (split) in
theorem Presents.getLoop (turns : Nat) : ∀ {c : Reader} {data payload tail : List UInt8},
    Presents limits c (data ++ payload) tail → data.length ≤ turns →
    ∃ c', getLoop limits split turns c data.length = .ok (data, c') ∧
      Presents limits c' payload tail ∧ c'.entries = c.entries := by
  induction turns with
  | zero =>
    intro c data payload tail hc hlen
    have hnil : data = [] := List.length_eq_zero_iff.mp (Nat.le_zero.mp hlen)
    subst hnil
    exact ⟨c, rfl, hc, rfl⟩
  | succ turns ih =>
    intro c data payload tail hc hlen
    unfold Records.getLoop
    by_cases hzero : data.length = 0
    · have hnil : data = [] := List.length_eq_zero_iff.mp hzero
      subst hnil
      exact ⟨c, if_pos rfl, hc, rfl⟩
    · rw [if_neg hzero]
      -- Once the chunk is used up the next one is read, and either way some of it is left.
      have hfilled : ∃ c₁, fill limits split c = .ok c₁ ∧
          Presents limits c₁ (data ++ payload) tail ∧ c₁.position < c₁.buffer.length ∧
          c₁.entries = c.entries := by
        unfold fill
        split
        · rename_i hused
          obtain ⟨behind, stream, hpayload, hframed, hleft, hbudget⟩ := hc.left
          rw [hused, List.drop_length, List.nil_append] at hpayload
          cases hframed with
          | nil =>
            have := congrArg List.length hpayload
            rw [List.length_append, List.length_nil] at this
            exact absurd (Nat.eq_zero_of_add_eq_zero_right this) hzero
          | @cons piece behind stream hpos hle hframed =>
            simp only [List.length_append, length_header] at hbudget
            have hahead : c.left = header piece.length ++ (piece ++ (stream ++ tail)) := by
              rw [hleft]
              simp only [List.append_assoc]
            obtain ⟨calls, hnext⟩ := nextChunk_ok limits split hpos hle hahead (by omega)
            refine ⟨_, hnext, ⟨Nat.zero_le _, Nat.le_add_left _ _, behind, stream, ?_, hframed, rfl,
              ?_⟩, hpos, rfl⟩
            · rw [hpayload]
              rfl
            · dsimp only
              omega
        · rename_i hnot
          have := hc.position
          exact ⟨c, rfl, hc, lt_of_le_of_ne this hnot, rfl⟩
      obtain ⟨c₁, hfill, hc₁, hroom, hentries⟩ := hfilled
      obtain ⟨behind, stream, hpayload, hframed, hleft, hbudget⟩ := hc₁.left
      obtain ⟨take, htake⟩ : ∃ take, take = min data.length (c₁.buffer.length - c₁.position) :=
        ⟨_, rfl⟩
      have hdata : (c₁.buffer.drop c₁.position).take take = data.take take := by
        have := congrArg (List.take take) hpayload
        rw [List.take_append_of_le_length (by omega),
          List.take_append_of_le_length (by rw [List.length_drop]; omega)] at this
        exact this.symm
      have hpresents : Presents limits { c₁ with position := c₁.position + take }
          (data.drop take ++ payload) tail := by
        refine ⟨by dsimp only; omega, hc₁.bytes, behind, stream, ?_, hframed, hleft, hbudget⟩
        have := congrArg (List.drop take) hpayload
        rw [List.drop_append_of_le_length (by omega),
          List.drop_append_of_le_length (by rw [List.length_drop]; omega), List.drop_drop] at this
        exact this
      obtain ⟨c', hloop, hc', hentries'⟩ := ih hpresents (by rw [List.length_drop]; omega)
      rw [List.length_drop] at hloop
      refine ⟨c', ?_, hc', hentries'.trans hentries⟩
      simp only [bind, Except.bind, hfill, ← htake, hloop, hdata]
      rw [List.take_append_drop]
      rfl

variable (split) in
theorem Presents.get {tail : List UInt8} (hc : Presents limits c (data ++ payload) tail) :
    ∃ c', get limits split c data.length = .ok (data, c') ∧ Presents limits c' payload tail ∧
      c'.entries = c.entries :=
  hc.getLoop split _ le_rfl

theorem Framed.length_le {stream : List UInt8} (h : Framed payload stream) :
    payload.length ≤ stream.length := by
  induction h with
  | nil => exact le_rfl
  | cons _ _ _ ih =>
    simp only [List.length_append]
    omega

theorem Presents.length_le {tail : List UInt8}
    (hc : Presents limits c payload tail) : payload.length ≤ limits.maxBytes := by
  obtain ⟨behind, stream, rfl, hframed, -, hbudget⟩ := hc.left
  have := hframed.length_le
  have := hc.bytes
  rw [List.length_append, List.length_drop]
  omega

end Lhat.Records
