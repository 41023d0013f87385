import Lhat.Foundation.OpenAddressing
import Mathlib.Data.List.Perm.Subperm
import Mathlib.Logic.Function.Basic

/-!
# A table that is never more than half full

Open addressing over slots that are free or hold a key with what is kept of it. A key is never
taken out, and a wider ring is made before more than half of the slots are held. `get` is the map
the table is.
-/

/-- The slots, and how many of them are held. The capacity is the number of slots. -/
structure HalfFull (K V : Type*) where
  slots : List (Option (K × V)) := []
  count : Nat := 0

namespace HalfFull

variable {K V : Type*} (home : K → Nat)

/-- The loop over the slots, to a free one or to one the comparison answers. -/
def probe (slots : List (Option (K × V))) (hit : Option (K × V) → Option Bool) (key : K) :
    Option Nat :=
  OpenAddressing.search Option.isNone (fun _ => false) hit slots slots.length
    (home key &&& (slots.length - 1)) none

section Operations

variable [DecidableEq K]

/-- The place of a key, or the free slot where it would go. -/
def place (t : HalfFull K V) (key : K) : Option Nat :=
  probe home t.slots (fun slot => some (decide (slot.map Prod.fst = some key))) key

/-- What is kept of a key. -/
def find (t : HalfFull K V) (key : K) : Option (Option V) :=
  if t.slots = [] then some none
  else (t.place home key).map fun i => (t.slots.getD i none).map Prod.snd

end Operations

/-- The capacity that is asked for when the table grows. -/
def wider (first : Nat) (t : HalfFull K V) : Nat :=
  if t.slots = [] then first else t.slots.length * 2

/-- The held slots, moved into a wider ring. -/
def widen (first : Nat) (t : HalfFull K V) : Option (HalfFull K V) :=
  (OpenAddressing.rehash Option.isNone (fun _ => false) (fun slot => slot.map Prod.fst) home
    (fun _ _ => some false) t.slots (List.replicate (wider first t) none) 0).map
    fun (slots, _) => { t with slots := slots }

/-- A key goes where the probe ends. -/
def enter (hit : Option (K × V) → Option Bool) (t : HalfFull K V) (key : K) (value : V) :
    Option (HalfFull K V) :=
  (probe home t.slots hit key).map fun i =>
    { slots := t.slots.set i (some (key, value)), count := t.count + 1 }

/-- What is kept of a key, written over in its place. -/
def update [DecidableEq K] (t : HalfFull K V) (key : K) (f : V → V) : Option (HalfFull K V) :=
  (t.place home key).map fun i =>
    { t with slots := t.slots.set i ((t.slots.getD i none).map (Prod.map id f)) }

/-- The slots as slots of open addressing. -/
def view : OpenAddressing.SlotView (Option (K × V)) K K where
  key slot := slot.map Prod.fst
  free := Option.isNone
  keyless _ := false
  home := home
  canon := some
  key_of_free slot h := by
    rw [Option.isNone_iff_eq_none.mp h]
    rfl
  keyless_iff slot h := by
    obtain ⟨p, rfl⟩ := Option.ne_none_iff_exists'.mp (Option.isNone_eq_false_iff.mp h |>
      Option.isSome_iff_ne_none.mp)
    simp
  home_congr k l c hk hl := by rw [Option.some.inj (hk.trans hl.symm)]

theorem canonKey_view {slot : Option (K × V)} {key : K} :
    (view home).canonKey slot = some key ↔ ∃ v, slot = some (key, v) := by
  rw [OpenAddressing.SlotView.canonKey_eq_some]
  constructor
  · rintro ⟨k, hk, hc⟩
    obtain ⟨⟨_, v⟩, rfl, rfl⟩ := Option.map_eq_some_iff.mp hk
    exact ⟨v, congrArg (fun k => some (k, v)) (Option.some.inj hc)⟩
  · rintro ⟨v, rfl⟩
    exact ⟨key, rfl, rfl⟩

/-- The map the table is. -/
def get [DecidableEq K] (t : HalfFull K V) (key : K) : Option V :=
  ((view home).lookup t.slots key).bind fun slot => slot.map Prod.snd

/-- What is kept of a table. -/
structure Wf (t : HalfFull K V) : Prop where
  placed : t.slots ≠ [] → (view home).Placed t.slots
  counted : t.slots.countP Option.isSome = t.count
  load : t.count * 2 ≤ t.slots.length

variable {home} {t : HalfFull K V} {key : K}

theorem Wf.empty : Wf home ({} : HalfFull K V) :=
  ⟨fun h => absurd rfl h, rfl, Nat.le_refl _⟩

section Map

variable [DecidableEq K]

theorem answers (slots : List (Option (K × V))) (key : K) :
    (view home).Answers slots key fun slot => some (decide (slot.map Prod.fst = some key)) := by
  intro slot _ l hl
  have hl : slot.map Prod.fst = some l := hl
  simp only [hl, Option.some.injEq]
  by_cases hkey : l = key
  · exact .inl ⟨by simp [hkey], l, rfl, by rw [hkey]; rfl⟩
  · refine .inr ⟨by simp [hkey], ?_⟩
    rintro ⟨c, hc, hk⟩
    exact hkey (Option.some.inj (hc.trans hk.symm))

theorem Wf.get_eq_some (hw : Wf home t) {value : V} :
    get home t key = some value ↔ some (key, value) ∈ t.slots := by
  have hlookup : ∀ slot, (view home).lookup t.slots key = some slot ↔
      slot ∈ t.slots ∧ (view home).canonKey slot = some key := by
    intro slot
    by_cases hne : t.slots = []
    · simp [hne, OpenAddressing.SlotView.lookup]
    · exact (hw.placed hne).lookup_eq_some
  unfold get
  rw [Option.bind_eq_some_iff]
  constructor
  · rintro ⟨slot, hslot, hvalue⟩
    obtain ⟨hmem, hcanon⟩ := (hlookup slot).mp hslot
    obtain ⟨v, rfl⟩ := (canonKey_view home).mp hcanon
    obtain rfl : v = value := Option.some.inj hvalue
    exact hmem
  · exact fun hmem => ⟨_, (hlookup _).mpr ⟨hmem, (canonKey_view home).mpr ⟨value, rfl⟩⟩, rfl⟩

theorem get_eq_none : get home t key = none ↔ ∀ v, some (key, v) ∉ t.slots := by
  unfold get
  constructor
  · intro h v hmem
    cases hlookup : (view home).lookup t.slots key with
    | none =>
      exact OpenAddressing.SlotView.lookup_eq_none.mp hlookup _ hmem
        ((canonKey_view home).mpr ⟨v, rfl⟩)
    | some slot =>
      rw [hlookup] at h
      have hcanon : (view home).canonKey slot = some key := by
        unfold OpenAddressing.SlotView.lookup at hlookup
        simpa using List.find?_some hlookup
      obtain ⟨w, rfl⟩ := (canonKey_view home).mp hcanon
      cases h
  · intro h
    have hnone : (view home).lookup t.slots key = none := by
      refine OpenAddressing.SlotView.lookup_eq_none.mpr fun slot hmem hcanon => ?_
      obtain ⟨v, rfl⟩ := (canonKey_view home).mp hcanon
      exact h v hmem
    rw [hnone]
    rfl

section

variable (hw : Wf home t)
include hw

/-- The probe of a key finds its slot, or a free one where there is none. -/
theorem Wf.place_spec (hne : t.slots ≠ []) (key : K) :
    ∃ i slot, t.place home key = some i ∧ t.slots[i]? = some slot ∧
      ((∃ v, slot = some (key, v) ∧ get home t key = some v) ∨
        slot = none ∧ get home t key = none) := by
  have hp := hw.placed hne
  obtain ⟨e, hpow⟩ := hp.capacity
  have hanswers : (view home).Answers t.slots key _ := answers t.slots key
  unfold place probe
  rw [OpenAddressing.and_capacity hpow]
  cases hget : get home t key with
  | some v =>
    have hmem := hw.get_eq_some.mp hget
    obtain ⟨i, hi, hslot⟩ := List.getElem_of_mem hmem
    have hat : t.slots[i]? = some (some (key, v)) := by rw [List.getElem?_eq_getElem hi, hslot]
    have hsearch := hp.search_held hanswers hat ((canonKey_view home).mpr ⟨v, rfl⟩) rfl
    exact ⟨i, _, hsearch, hat, .inl ⟨v, rfl, rfl⟩⟩
  | none =>
    have habsent := get_eq_none.mp hget
    obtain ⟨j, slot, hsearch, hj, hfree, -⟩ := hp.search_absent hanswers.tells
      (fun slot hmem c hcanon hc => by
        obtain ⟨v, rfl⟩ := (canonKey_view home).mp hcanon
        cases hc
        exact habsent v hmem)
    exact ⟨j, slot, hsearch, hj, .inr ⟨Option.map_eq_none_iff.mp hfree, rfl⟩⟩

theorem Wf.find_eq (key : K) : t.find home key = some (get home t key) := by
  unfold find
  split
  · rename_i hempty
    have hnone : get home t key = none := get_eq_none.mpr (by simp [hempty])
    rw [hnone]
  · rename_i hne
    obtain ⟨i, slot, hplace, hi, hcase⟩ := hw.place_spec hne key
    rw [hplace, Option.map_some, List.getD_eq_getElem?_getD, hi]
    obtain ⟨v, rfl, hget⟩ | ⟨rfl, hget⟩ := hcase <;> rw [hget] <;> rfl

theorem get_congr {t' : HalfFull K V} (hw' : Wf home t')
    (hsame : ∀ p, some p ∈ t'.slots ↔ some p ∈ t.slots) : get home t' = get home t := by
  funext key
  refine Option.ext fun value => ?_
  rw [hw'.get_eq_some, hw.get_eq_some, hsame]

theorem Wf.widen {first : Nat} (hfirst : ∃ e, first = 2 ^ (e + 1)) :
    ∃ t', t.widen home first = some t' ∧ Wf home t' ∧ get home t' = get home t ∧
      t'.count = t.count ∧ t'.slots ≠ [] ∧ (t.count + 1) * 2 ≤ t'.slots.length := by
  obtain ⟨e, he⟩ : ∃ e, wider first t = 2 ^ e := by
    unfold wider
    split
    · exact hfirst.imp' (· + 1) fun _ h => h
    · rename_i hne
      obtain ⟨e, he⟩ := (hw.placed hne).capacity
      exact ⟨e + 1, by rw [he, Nat.pow_succ]⟩
  have hload := hw.load
  have hroom : (t.count + 1) * 2 ≤ wider first t := by
    unfold wider
    split
    · rename_i hempty
      obtain ⟨e, rfl⟩ := hfirst
      rw [hempty, List.length_nil] at hload
      have := Nat.two_pow_pos e
      rw [Nat.pow_succ]
      omega
    · rename_i hne
      have := List.length_pos_iff.mpr hne
      omega
  have hheld : ∀ slots : List (Option (K × V)),
      slots.countP (fun s => ((view home).key s).isSome) = slots.countP Option.isSome :=
    fun slots => List.countP_congr fun slot _ => by
      show (slot.map Prod.fst).isSome = true ↔ _
      rw [Option.isSome_map]
  obtain ⟨out, hout, hplaced, hlen, -, hsame, hcount⟩ :=
    OpenAddressing.SlotView.rehash_replicate (V := view home) (fun _ _ => some false)
      t.slots none e rfl hw.placed (fun _ _ _ _ _ _ _ _ _ => rfl)
      (by rw [hheld, hw.counted, ← he]; omega)
  rw [← he] at hout hlen
  have hcounted : out.countP Option.isSome = t.count := by
    rw [← hw.counted, ← hheld, ← hheld]
    exact hcount
  have hwf : Wf home { t with slots := out } :=
    ⟨fun _ => hplaced, hcounted, by show t.count * 2 ≤ out.length; omega⟩
  refine ⟨{ t with slots := out }, ?_, hwf, get_congr hw hwf fun p =>
    hsame (some p) nofun, rfl, ?_, ?_⟩
  · unfold HalfFull.widen
    rw [show OpenAddressing.rehash Option.isNone (fun _ => false) (fun slot => slot.map Prod.fst)
      home (fun _ _ => some false) t.slots (List.replicate (wider first t) none) 0 = _ from hout]
    rfl
  · have : 0 < out.length := by omega
    exact List.length_pos_iff.mp this
  · show (t.count + 1) * 2 ≤ out.length
    omega

/-- A key that is not there is entered. -/
theorem Wf.enter (hne : t.slots ≠ [])
    (hroom : (t.count + 1) * 2 ≤ t.slots.length) (hget : get home t key = none)
    (hit : Option (K × V) → Option Bool) (htells : (view home).Tells t.slots key hit) (value : V) :
    ∃ t', t.enter home hit key value = some t' ∧ Wf home t' ∧
      get home t' = Function.update (get home t) key (some value) := by
  have hp := hw.placed hne
  obtain ⟨e, hpow⟩ := hp.capacity
  have habsent := get_eq_none.mp hget
  have hcanon : ∀ slot ∈ t.slots, ∀ c, (view home).canonKey slot = some c →
      (view (V := V) home).canon key ≠ some c := by
    intro slot hmem c hcanon hc
    obtain ⟨v, rfl⟩ := (canonKey_view home).mp hcanon
    cases hc
    exact habsent v hmem
  obtain ⟨j, slot, hsearch, hj, hfree, hreach⟩ := hp.search_absent htells hcanon
  obtain rfl : slot = none := Option.map_eq_none_iff.mp hfree
  have hlt : j < t.slots.length := (List.getElem?_eq_some_iff.mp hj).1
  have hkey : (view home).key (some (key, value)) = some key := rfl
  have hcount : (t.slots.set j (some (key, value))).countP Option.isSome = t.count + 1 := by
    rw [← hw.counted, List.countP_set hlt, (List.getElem?_eq_some_iff.mp hj).2]
    simp
  have hused : t.slots.countP (fun slot => !(view home).free slot) = t.count := by
    rw [← hw.counted]
    refine List.countP_congr fun slot _ => ?_
    show (!slot.isNone) = true ↔ _
    simp
  have hset : (view home).Placed (t.slots.set j (some (key, value))) := by
    refine hp.set (OpenAddressing.SlotView.free_eq_false hkey)
      (OpenAddressing.SlotView.exists_free ?_) fun k hk => ?_
    · have := OpenAddressing.SlotView.countP_used_set (V := view home) t.slots j
        (some (key, value))
      rw [List.length_set]
      omega
    · obtain rfl : key = k := Option.some.inj hk
      exact ⟨hreach, fun i u c _ hu => hcanon u (List.mem_of_getElem? hu) c⟩
  refine ⟨{ slots := t.slots.set j (some (key, value)), count := t.count + 1 }, ?_,
    ⟨fun _ => hset, hcount, by rw [List.length_set]; exact hroom⟩, ?_⟩
  · unfold HalfFull.enter probe
    rw [OpenAddressing.and_capacity hpow, show OpenAddressing.search Option.isNone (fun _ => false)
      hit t.slots t.slots.length (home key % t.slots.length) none = some j from hsearch]
    rfl
  · funext k
    unfold get
    rw [hp.lookup_set hj hset, Function.update_apply]
    by_cases hk : k = key
    · subst hk
      rw [if_pos ((canonKey_view home).mpr ⟨value, rfl⟩), if_pos rfl]
      rfl
    · rw [if_neg, if_neg hk, if_neg nofun]
      rintro hsame
      obtain ⟨v, hv⟩ := (canonKey_view home).mp hsame
      exact hk (congrArg Prod.fst (Option.some.inj hv)).symm

theorem Wf.update {value : V} (hget : get home t key = some value) (f : V → V) :
    ∃ t', t.update home key f = some t' ∧ Wf home t' ∧
      get home t' = Function.update (get home t) key (some (f value)) := by
  have hne : t.slots ≠ [] := by
    have hmem := hw.get_eq_some.mp hget
    exact List.ne_nil_of_mem hmem
  have hp := hw.placed hne
  obtain ⟨i, slot, hplace, hi, hcase⟩ := hw.place_spec hne key
  obtain ⟨v, rfl, hv⟩ | ⟨-, hnone⟩ := hcase
  swap
  · rw [hget] at hnone
    cases hnone
  obtain rfl : value = v := Option.some.inj (hget.symm.trans hv)
  have hlt : i < t.slots.length := (List.getElem?_eq_some_iff.mp hi).1
  have hsame : (t.slots.set i (some (key, f value))).map
      (fun s => ((view home).key s, (view home).free s)) =
      t.slots.map fun s => ((view home).key s, (view home).free s) := by
    rw [List.map_set]
    refine List.ext_getElem? fun j => ?_
    by_cases hij : i = j
    · subst hij
      rw [List.getElem?_set_self (by simpa using hlt), List.getElem?_map, hi]
      rfl
    · rw [List.getElem?_set_ne hij]
  have hset := hp.congr hsame
  have hcount : (t.slots.set i (some (key, f value))).countP Option.isSome = t.count := by
    rw [← hw.counted, List.countP_set hlt, (List.getElem?_eq_some_iff.mp hi).2]
    have hpos : 0 < t.slots.countP Option.isSome :=
      List.countP_pos_iff.mpr ⟨_, List.mem_of_getElem? hi, rfl⟩
    simp
    omega
  refine ⟨{ t with slots := t.slots.set i (some (key, f value)) }, ?_,
    ⟨fun _ => hset, hcount, by rw [List.length_set]; exact hw.load⟩, ?_⟩
  · unfold HalfFull.update
    rw [hplace, Option.map_some, List.getD_eq_getElem?_getD, hi]
    rfl
  · funext k
    unfold get
    rw [hp.lookup_set hi hset, Function.update_apply]
    by_cases hk : k = key
    · subst hk
      rw [if_pos ((canonKey_view home).mpr ⟨f value, rfl⟩), if_pos rfl]
      rfl
    · have hother : ∀ v : V, (view home).canonKey (some (key, v)) ≠ some k := by
        intro v hsame
        obtain ⟨w, hw⟩ := (canonKey_view home).mp hsame
        exact hk (congrArg Prod.fst (Option.some.inj hw)).symm
      rw [if_neg (hother _), if_neg hk, if_neg (hother _)]

theorem Wf.length_le {keys : List K} (hnodup : keys.Nodup)
    (hall : ∀ key ∈ keys, get home t key ≠ none) : keys.length ≤ t.count := by
  have hsub : keys ⊆ t.slots.filterMap fun slot => slot.map Prod.fst := by
    intro key hkey
    obtain ⟨v, hv⟩ := Option.ne_none_iff_exists'.mp (hall key hkey)
    exact List.mem_filterMap.mpr ⟨_, hw.get_eq_some.mp hv, rfl⟩
  have hle := (List.subperm_of_subset hnodup hsub).length_le
  rw [List.length_filterMap_eq_countP] at hle
  rw [← hw.counted]
  refine Nat.le_trans hle (Nat.le_of_eq (List.countP_congr fun slot _ => ?_))
  rw [Option.isSome_map]

end

end Map

end HalfFull
