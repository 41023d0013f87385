import Lhat.Table.Runs
import Mathlib

/-!
# The representation of a table

`LhatTable.Sound` says of one table what its loops and its readers rely on: the
counter, a capacity with a free slot in it, entries that their own probes reach and
that no second entry equals, and a mapping that stays clear of the sequence.
`calls_sound` has it of every table in every state that a run of calls reaches from
fresh tables, as long as a key that is laid down equals none held under another
hash.
-/

namespace Lhat

/-- A slot with a key and a value. -/
def entryIsLive (entry : LhatTableEntry) : Bool := !entry.key.isNil && !entry.value.isNil

/-- The slots from the home of a hash up to one are used. -/
def ReachedFrom (entries : List LhatTableEntry) (hash : UInt32) (i : Nat) : Prop :=
  ∃ m < entries.length, i = ((hash.toNat &&& (entries.length - 1)) + m) % entries.length ∧
    ∀ d < m, ∀ entry,
      entries[((hash.toNat &&& (entries.length - 1)) + d) % entries.length]? = some entry →
        entryIsFree entry = false

/-- What a table is in, after memory was refused or before. -/
structure LhatTable.Sound (h : Heap) (refused : Bool) (t : LhatTable) : Prop where
  counted : t.entryCount = t.entries.countP fun entry => !entry.key.isNil
  capacity : t.entries ≠ [] → ∃ k, t.entries.length = 2 ^ k
  room : t.entries ≠ [] → ∃ entry ∈ t.entries, entryIsFree entry = true
  ends : t.entries ≠ [] → ∀ key text hash, (text = none →
    ∀ held ∈ t.keys, ∃ r, lhatValueEqual h held key = some r) →
      ∃ i, probeSpelt h t.entries key text hash = some i
  reached : ∀ (i : Nat) entry, t.entries[i]? = some entry → entryIsLive entry = true →
    ReachedFrom t.entries (hashKey h entry.key) i
  apart : ∀ (i j : Nat) entry other, t.entries[i]? = some entry → t.entries[j]? = some other →
    entryIsLive entry = true → entryIsLive other = true → i ≠ j →
      lhatValueEqual h entry.key other.key ≠ some true
  settled : refused = false → ∀ entry ∈ t.entries, entryIsLive entry = true →
    ∀ i : Int64, entry.key = .integer i → ¬(0 ≤ i.toInt ∧ i.toInt ≤ t.array.length)

section Soundness

variable {h : Heap} {t : LhatTable}

theorem entryIsLive_iff {entry : LhatTableEntry} :
    entryIsLive entry = true ↔ entry.key ≠ .nil ∧ entry.value ≠ .nil := by
  simp [entryIsLive]

theorem LhatTable.Wf.probe_ends (hw : t.Wf h) (hne : t.entries ≠ []) (key : LhatValue)
    (text : Option (List UInt8)) (hash : UInt32)
    (hanswers : text = none → ∀ held ∈ t.keys, ∃ r, lhatValueEqual h held key = some r) :
    ∃ i, probeSpelt h t.entries key text hash = some i := by
  have hp := hw.placed hne
  obtain ⟨e, hpow⟩ := hp.capacity
  obtain ⟨entry, hmem, hfree⟩ := hp.room
  obtain ⟨i, hi⟩ := List.getElem?_of_mem hmem
  have hlt : i < t.entries.length := (List.getElem?_eq_some_iff.1 hi).1
  obtain ⟨m, hm, hsteps⟩ := OpenAddressing.SlotView.exists_steps hash.toNat hlt
  unfold probeSpelt
  rw [OpenAddressing.and_capacity hpow]
  refine OpenAddressing.search_ends _ _ _ _ hpow _ _ _ hm ?_ ⟨entry, by rw [hsteps, hi], hfree⟩
  intro s hs hused hkeyed
  cases text with
  | some text => exact ⟨_, rfl⟩
  | none =>
    have hne : s.key ≠ .nil := by
      intro hnil
      simp only [entryIsFree, entryIsTombstone, hnil] at hused hkeyed
      cases hv : s.value.isNil <;> simp [hv, LhatValue.isNil_iff.2] at hused hkeyed
    exact hanswers rfl s.key (LhatTable.mem_keys.2 ⟨hne, s, hs, rfl⟩)

theorem LhatTable.Wf.entries_apart (hw : t.Wf h) {i j : Nat} {entry other : LhatTableEntry}
    (hi : t.entries[i]? = some entry) (hj : t.entries[j]? = some other) (hkey : entry.key ≠ .nil)
    (hother : other.key ≠ .nil) (heq : lhatValueEqual h entry.key other.key = some true) :
    i = j := by
  have hin : entry.key ∈ t.keys :=
    LhatTable.mem_keys.2 ⟨hkey, entry, List.mem_of_getElem? hi, rfl⟩
  have hin' : other.key ∈ t.keys :=
    LhatTable.mem_keys.2 ⟨hother, other, List.mem_of_getElem? hj, rfl⟩
  obtain ⟨r, hr, hhash⟩ := (hw.told _ hin' _ hin).1
  obtain rfl : r = true := Option.some.inj (hr.symm.trans heq)
  have hs := hw.storable _ hin
  obtain ⟨form, hform, hform'⟩ :=
    (lhatValueEqual_decides hs.normal (hw.storable _ hin').normal hs.usable true hr).1 rfl
  have hplaced := hw.placed (List.ne_nil_of_mem (List.mem_of_getElem? hi))
  refine hplaced.distinct i j entry other (form, hashKey h other.key) hi hj ?_ ?_
  · exact canonKey_entry.2 ⟨hkey, placeForm_eq_some.2 ⟨hform, hhash rfl⟩⟩
  · exact canonKey_entry.2 ⟨hother, placeForm_eq_some.2 ⟨hform', rfl⟩⟩

theorem Upkept.sound {refused : Bool} (hu : Upkept h refused t) : t.Sound h refused := by
  have hw := hu.wf
  refine ⟨?_, fun hne => (hw.placed hne).capacity, fun hne => (hw.placed hne).room,
    fun hne key text hash => hw.probe_ends hne key text hash, fun i entry hi hlive => ?_,
    fun i j entry other hi hj hlive hlive' hij heq => hij ?_, fun hr entry hmem hlive i hkey => ?_⟩
  · rw [hw.counted]
    refine List.countP_congr fun entry _ => ?_
    cases hk : entry.key.isNil <;> simp [entryKey, hk]
  · obtain ⟨hkey, -⟩ := entryIsLive_iff.1 hlive
    have hp := hw.placed (List.ne_nil_of_mem (List.mem_of_getElem? hi))
    obtain ⟨e, hpow⟩ := hp.capacity
    obtain ⟨m, hm, him, hcrossed⟩ := hp.reached i entry _ hi (entryKey_eq_some.2 ⟨rfl, hkey⟩)
    unfold ReachedFrom
    simp only [OpenAddressing.and_capacity hpow, Nat.mod_add_mod]
    exact ⟨m, hm, him, hcrossed⟩
  · exact hw.entries_apart hi hj (entryIsLive_iff.1 hlive).1 (entryIsLive_iff.1 hlive').1 heq
  · rintro ⟨hnonneg, hle⟩
    obtain ⟨hne, hvalue⟩ := entryIsLive_iff.1 hlive
    have hlen := hw.length_lt
    have hi : i = Int64.ofNat i.toInt.toNat := by
      rw [← Int64.toInt_inj, Int64.toInt_ofNat_of_lt (by omega)]
      omega
    refine hvalue (hu.settled hr i.toInt.toNat (by omega) entry.value ?_)
    refine hw.find_eq_some.2 ⟨entry, hmem, hne, ?_, rfl⟩
    rw [hkey]
    exact (congrArg (fun j => placeForm h (.integer j)) hi).trans (placeForm_integer h _)

end Soundness

/-! ### Calls -/

/-- A call that writes tables. -/
inductive TableCall where
  | set (table : Address) (key value : LhatValue)
  | reserve (table : Address) (key : LhatValue)
  | vacate (table : Address) (key : LhatValue)
  | pruneSeats (proto definition : Address)
  | resize (table : Address) (length : Nat) (fill : LhatValue)
  | native (kind : TableNative) (table : Address) (args : List LhatValue)

def TableState.made (st : TableState) (table : Address) (made : Outcome) : TableState :=
  { store := st.store.write table made.table, memory := made.memory }

def TableCall.run (h : Heap) (mc : Machine) (st : TableState) : TableCall → Option TableState
  | .set table key value => do
    let t ← st.store.table table
    (lhatTableSet h st.memory t key value).map (st.made table)
  | .reserve table key => do
    let t ← st.store.table table
    (lhatTableReserve h st.memory t key).map (st.made table)
  | .vacate table key => do
    let t ← st.store.table table
    (lhatTableVacate h t key).map (st.write table)
  | .pruneSeats proto definition => do
    let t ← st.store.table proto
    (lhatTablePruneSeats h t (← st.store.table definition)).map (st.write proto)
  | .resize table length fill => do
    let t ← st.store.table table
    (lhatTableResize h st.memory t length fill).map (st.made table)
  | .native kind table args => (vmTableNative h mc st kind table args).map Answered.state

def runCalls (h : Heap) (mc : Machine) : List TableCall → TableState → Option TableState
  | [], st => some st
  | call :: calls, st =>
    match call.run h mc st with
    | none => none
    | some st' => runCalls h mc calls st'

/-- A key told from every key a table holds. -/
def TableState.KeyTold (h : Heap) (st : TableState) (table : Address) (key : LhatValue) : Prop :=
  ∀ t, st.store.table table = some t → usableKey key = true →
    ∀ held ∈ t.keys, KeysTold h held (normaliseKey key)

/-- The keys that a call lays down are told from those of the table: a comparison
answers, and what is equal hashes alike. -/
def TableCall.Told (h : Heap) (st : TableState) : TableCall → Prop
  | .set table key value => value ≠ .nil → st.KeyTold h table key
  | .reserve table key => st.KeyTold h table key
  | .native kind table args =>
    ∀ source, kind = .assign → args = [.object source] → st.Told h table source
  | _ => True

/-- Every call of a run is told in the state it is made in. -/
def ToldRun (h : Heap) (mc : Machine) : List TableCall → TableState → Prop
  | [], _ => True
  | call :: calls, st =>
    call.Told h st ∧ ∀ st', call.run h mc st = some st' → ToldRun h mc calls st'

/-- The comparisons of a key with the keys of a table answer. -/
def LhatTable.Compares (h : Heap) (t : LhatTable) (key : LhatValue) : Prop :=
  ∀ held ∈ t.keys, ∃ r, lhatValueEqual h held key = some r

/-- The tables of a call are there, and what it compares answers. The operations of
the program look keys up besides, and are left out. -/
def TableCall.Ready (h : Heap) (st : TableState) : TableCall → Prop
  | .set table key _ | .reserve table key =>
    (∃ t, st.store.table table = some t) ∧ st.KeyTold h table key
  | .vacate table key => ∃ t, st.store.table table = some t ∧ t.Compares h (normaliseKey key)
  | .pruneSeats proto definition => ∃ t owner, st.store.table proto = some t ∧
      st.store.table definition = some owner ∧ ∀ key ∈ t.keys, owner.Compares h key
  | .resize table _ _ => ∃ t, st.store.table table = some t
  | .native _ _ _ => False

/-- A table as the allocator hands it out, however it is linked. -/
def FreshlyLinked (t : LhatTable) : Prop :=
  ∃ made, Fresh made ∧ t = { made with
    definition := t.definition, delegateKey := t.delegateKey
    delegateFromSelf := t.delegateFromSelf, isDefinition := t.isDefinition
    isSealed := t.isSealed, shared := t.shared }

section Calls

variable {h : Heap} {mc : Machine} {st : TableState}

theorem FreshlyLinked.upkept (h : Heap) {t : LhatTable} (hfresh : FreshlyLinked t)
    (refused : Bool) : Upkept h refused t := by
  obtain ⟨made, hmade, heq⟩ := hfresh
  obtain ⟨n, rfl, -⟩ := hmade.entries
  have hwf : t.Wf h := by
    refine (hmade.wf h).of_entries ?_ ?_ ?_ ?_ ?_ <;> rw [heq] <;> simp
  refine ⟨hwf, fun _ n' _ value hvalue => ?_⟩
  rw [LhatTable.find_of_blank hwf (n := n) (by rw [heq])] at hvalue
  cases hvalue

theorem TableState.KeyTold.fits {table : Address} {t : LhatTable}
    (htable : st.store.table table = some t) {key : LhatValue} (htold : st.KeyTold h table key)
    (husable : usableKey key = true) : KeyFits h t (normaliseKey key) :=
  ⟨storable_normaliseKey husable, htold t htable husable⟩

theorem TableCall.run_upkept {call : TableCall} (hu : st.Upkept h) (htold : call.Told h st)
    {st' : TableState} (hrun : call.run h mc st = some st') : st'.Upkept h := by
  cases call with
  | set table key value =>
    obtain ⟨t, htable, hrun⟩ := Option.bind_eq_some_iff.1 hrun
    obtain ⟨made, hmade, rfl⟩ := Option.map_eq_some_iff.1 hrun
    obtain ⟨hmade', hrefused, -⟩ := (hu table t htable).set
      (fun hvalue => TableState.KeyTold.fits htable (htold hvalue)) hmade
    exact hu.write hmade' hrefused
  | reserve table key =>
    obtain ⟨t, htable, hrun⟩ := Option.bind_eq_some_iff.1 hrun
    obtain ⟨made, hmade, rfl⟩ := Option.map_eq_some_iff.1 hrun
    obtain ⟨hmade', hrefused, -⟩ :=
      (hu table t htable).reserve (TableState.KeyTold.fits htable htold) hmade
    exact hu.write hmade' hrefused
  | vacate table key =>
    obtain ⟨t, htable, hrun⟩ := Option.bind_eq_some_iff.1 hrun
    obtain ⟨left, hleft, rfl⟩ := Option.map_eq_some_iff.1 hrun
    exact hu.write ((hu table t htable).vacate hleft).1 id
  | pruneSeats proto definition =>
    obtain ⟨t, htable, hrun⟩ := Option.bind_eq_some_iff.1 hrun
    obtain ⟨owner, -, hrun⟩ := Option.bind_eq_some_iff.1 hrun
    obtain ⟨left, hleft, rfl⟩ := Option.map_eq_some_iff.1 hrun
    exact hu.write ((hu proto t htable).pruneSeats hleft).1 id
  | resize table length fill =>
    obtain ⟨t, htable, hrun⟩ := Option.bind_eq_some_iff.1 hrun
    obtain ⟨made, hmade, rfl⟩ := Option.map_eq_some_iff.1 hrun
    exact hu.resizeTable (hu table t htable) hmade
  | native kind table args =>
    obtain ⟨answered, hanswered, rfl⟩ := Option.map_eq_some_iff.1 hrun
    exact hu.native htold hanswered

theorem runCalls_upkept {calls : List TableCall} (hu : st.Upkept h) (htold : ToldRun h mc calls st)
    {st' : TableState} (hrun : runCalls h mc calls st = some st') : st'.Upkept h := by
  induction calls generalizing st with
  | nil =>
    obtain rfl := Option.some.inj hrun
    exact hu
  | cons call calls ih =>
    unfold runCalls at hrun
    split at hrun
    · cases hrun
    · next st₁ hcall => exact ih (TableCall.run_upkept hu htold.1 hcall) (htold.2 st₁ hcall) hrun

theorem pruneFrom_comes_back {definition : LhatTable} (hw : definition.Wf h)
    (hne : definition.entries ≠ []) (left i : Nat) {t : LhatTable}
    (hcompares : ∀ key ∈ t.keys, definition.Compares h key) :
    ∃ t', pruneFrom h definition left i t = some t' := by
  induction left generalizing i t with
  | zero => exact ⟨t, rfl⟩
  | succ left ih =>
    unfold pruneFrom
    simp only
    split
    · exact ih (i + 1) hcompares
    · next hseat =>
        have hkey : (t.entryAt i).key ≠ .nil := by
          intro hnil
          simp [hnil] at hseat
        obtain ⟨j, hj⟩ := hw.probe_ends hne (t.entryAt i).key none
          (hashKey h (t.entryAt i).key) fun _ =>
            hcompares _ (LhatTable.entryAt_key_mem hkey)
        simp only [probe, hj]
        split
        · refine ih (i + 1) fun key hmem => hcompares key ?_
          rcases LhatTable.keys_set (t := t) rfl hmem with hin | hnew
          · exact hin
          · cases hnew
        · exact ih (i + 1) hcompares

theorem TableCall.run_comes_back (mc : Machine) {call : TableCall} (hu : st.Upkept h)
    (hready : call.Ready h st) : ∃ st', call.run h mc st = some st' := by
  cases call with
  | set table key value =>
    obtain ⟨⟨t, htable⟩, htold⟩ := hready
    have hmade : ∃ made, lhatTableSet h st.memory t key value = some made := by
      cases hkey : refusedKey h key with
      | true => exact ⟨_, by rw [lhatTableSet, hkey, if_pos rfl]⟩
      | false =>
        have husable : usableKey key = true := by
          unfold refusedKey at hkey
          cases hk : usableKey key with
          | true => rfl
          | false => simp [hk] at hkey
        obtain ⟨made, hmade, -⟩ :=
          (hu table t htable).wf.set st.memory hkey (htold.fits htable husable) value
        exact ⟨made, hmade⟩
    obtain ⟨made, hmade⟩ := hmade
    exact ⟨st.made table made, by simp [TableCall.run, htable, hmade]⟩
  | reserve table key =>
    obtain ⟨⟨t, htable⟩, htold⟩ := hready
    have hmade : ∃ made, lhatTableReserve h st.memory t key = some made := by
      cases husable : usableKey key with
      | false => exact ⟨_, by rw [lhatTableReserve, husable, if_pos rfl]⟩
      | true =>
        cases hindex : arrayIndex t (normaliseKey key) with
        | some index =>
          exact ⟨{ ok := true, table := t, memory := st.memory },
            by simp [lhatTableReserve, husable, hindex]⟩
        | none =>
          obtain ⟨made, hmade, -⟩ := (hu table t htable).wf.reserve st.memory husable hindex
            (htold.fits htable husable)
          exact ⟨made, hmade⟩
    obtain ⟨made, hmade⟩ := hmade
    exact ⟨st.made table made, by simp [TableCall.run, htable, hmade]⟩
  | vacate table key =>
    obtain ⟨t, htable, hcompares⟩ := hready
    have hleft : ∃ left, lhatTableVacate h t key = some left := by
      unfold lhatTableVacate
      split
      · exact ⟨t, rfl⟩
      · next hsome =>
          have hne : t.entries ≠ [] := by
            intro he
            exact hsome (Or.inr (by rw [he]; rfl))
          obtain ⟨i, hi⟩ := (hu table t htable).wf.probe_ends hne (normaliseKey key) none
            (hashKey h (normaliseKey key)) fun _ => hcompares
          simp only [probe, hi, Option.map_some]
          exact ⟨_, rfl⟩
    obtain ⟨left, hleft⟩ := hleft
    exact ⟨st.write table left, by simp [TableCall.run, htable, hleft]⟩
  | pruneSeats proto definition =>
    obtain ⟨t, owner, htable, howner, hcompares⟩ := hready
    have hleft : ∃ left, lhatTablePruneSeats h t owner = some left := by
      unfold lhatTablePruneSeats
      split
      · exact ⟨t, rfl⟩
      · next hne =>
          exact pruneFrom_comes_back (hu definition owner howner).wf (by simpa using hne) _ _
            hcompares
    obtain ⟨left, hleft⟩ := hleft
    exact ⟨st.write proto left, by simp [TableCall.run, htable, howner, hleft]⟩
  | resize table length fill =>
    obtain ⟨t, htable⟩ := hready
    obtain ⟨made, hmade, -⟩ := (hu table t htable).wf.resize st.memory length fill
    exact ⟨st.made table made, by simp [TableCall.run, htable, hmade]⟩
  | native kind table args => exact absurd hready id

/-- In every state that a run reaches from fresh tables every table is sound and
every ready call comes back, when no key that the run lays down equals one held
under another hash. -/
theorem calls_sound (mc : Machine) {calls : List TableCall}
    (hfresh : ∀ a t, st.store.table a = some t → FreshlyLinked t)
    (htold : ToldRun h mc calls st) {st' : TableState} (hrun : runCalls h mc calls st = some st') :
    (∀ a t, st'.store.table a = some t → t.Sound h st'.memory.refused) ∧
      ∀ call : TableCall, call.Ready h st' → ∃ st'', call.run h mc st' = some st'' := by
  have hu : st'.Upkept h :=
    runCalls_upkept (fun a t htable => (hfresh a t htable).upkept h _) htold hrun
  exact ⟨fun a t htable => (hu a t htable).sound, fun call hready =>
    TableCall.run_comes_back mc hu hready⟩

end Calls

/-! ### Two runs -/

def quietMachine : Machine where
  selfKey := 0
  misread _ _ := false

/-- One table with room for forty keys, and memory enough. -/
def roomyTable : TableState where
  store := [(48, { entries := List.replicate 64 {} })]
  memory := { grants := fun _ => true }

theorem roomyTable_fresh (a : Address) (t : LhatTable) (htable : roomyTable.store.table a = some t) :
    FreshlyLinked t := by
  have hfresh : Fresh { entries := List.replicate 64 {} } :=
    Fresh.reserved (show lhatTableNewReserved { grants := fun _ => true } 40 = some _ by rfl)
  unfold roomyTable Store.table at htable
  rw [List.lookup_cons] at htable
  split at htable
  · obtain rfl := Option.some.inj htable
    exact ⟨_, hfresh, rfl⟩
  · cases htable

/-- A run of a key that waits, a sequence that grows and a table that is cleared. -/
theorem calls_sound_growing : ∃ st', runCalls twoTypes quietMachine
      [.set 48 (.integer 1) (.bool true), .native .push 48 [.bool true], .native .clear 48 []]
      roomyTable = some st' ∧
    (∀ a t, st'.store.table a = some t → t.Sound twoTypes st'.memory.refused) ∧
      ∀ call : TableCall, call.Ready twoTypes st' →
        ∃ st'', call.run twoTypes quietMachine st' = some st'' := by
  have hrun : (runCalls twoTypes quietMachine
      [.set 48 (.integer 1) (.bool true), .native .push 48 [.bool true], .native .clear 48 []]
      roomyTable).isSome = true := by decide +kernel
  obtain ⟨st', hst'⟩ := Option.isSome_iff_exists.1 hrun
  have htold : ToldRun twoTypes quietMachine
      [.set 48 (.integer 1) (.bool true), .native .push 48 [.bool true], .native .clear 48 []]
      roomyTable := by
    refine ⟨fun _ t htable _ held hmem => ?_, fun st₁ _ => ⟨fun source hkind => ?_,
      fun st₂ _ => ⟨fun source hkind => ?_, fun _ _ => trivial⟩⟩⟩
    · obtain ⟨made, hmade, heq⟩ := roomyTable_fresh 48 t htable
      obtain ⟨n, rfl, -⟩ := hmade.entries
      obtain ⟨hne, entry, hin, rfl⟩ := LhatTable.mem_keys.1 hmem
      rw [heq] at hin
      rw [List.eq_of_mem_replicate hin] at hne
      exact absurd rfl hne
    · cases hkind
    · cases hkind
  exact ⟨st', hst', calls_sound quietMachine roomyTable_fresh htold hst'⟩

/-- Two runtime types that say the same are laid down as two keys. -/
theorem calls_sound_fails : ∃ st', runCalls twoTypes quietMachine
      [.set 48 (.object 16) (.bool true), .set 48 (.object 32) (.bool true)] roomyTable =
        some st' ∧
    ∃ t, st'.store.table 48 = some t ∧ ¬t.Sound twoTypes st'.memory.refused := by
  have hrun : ((runCalls twoTypes quietMachine
      [.set 48 (.object 16) (.bool true), .set 48 (.object 32) (.bool true)] roomyTable).bind
        fun st' => (st'.store.table 48).map fun t => (t.entries[16]?, t.entries[32]?)) =
      some (some ⟨.object 16, .bool true⟩, some ⟨.object 32, .bool true⟩) := by decide_cbv
  obtain ⟨st', hst', hread⟩ := Option.bind_eq_some_iff.1 hrun
  obtain ⟨t, htable, hslots⟩ := Option.map_eq_some_iff.1 hread
  obtain ⟨hfirst, hsecond⟩ := Prod.mk.inj hslots
  refine ⟨st', hst', t, htable, fun hsound => ?_⟩
  exact hsound.apart 16 32 _ _ hfirst hsecond rfl rfl (by decide) (by decide_cbv)

end Lhat
