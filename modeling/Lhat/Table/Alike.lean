import Lhat.Table.Own

/-!
# Lookups in two stores

A lookup reads of every table on its way what that table has under the key, its links
and whom it lends to, and nothing else. So it answers the same in a store where these
are the same (`lhatTableGet_congr`), and `nil` stays `nil` where tables lend to nobody
that lent to somebody (`lhatTableGet_nil`). What is delegated to is found under a name,
and no write under an integer key touches that.
-/

namespace Lhat

open scoped Classical

/-- A table of one store and the table of another, for lookups of a key. -/
structure TableAlike (h : Heap) (key : LhatValue) (hash : UInt32) (t t' : LhatTable) : Prop where
  links : t'.links = t.links
  own : (ownRead h t' key none hash).map (Option.map Prod.fst) =
    (ownRead h t key none hash).map (Option.map Prod.fst)

/-- The tables of two stores are alike, for lookups of a key. -/
structure Store.Alike (h : Heap) (key : LhatValue) (hash : UInt32) (s s' : Store) : Prop where
  length : s'.length = s.length
  tables : ∀ a, Option.Rel (TableAlike h key hash) (s.table a) (s'.table a)

section Alike

variable {h : Heap} {s s' : Store} {key : LhatValue} {hash : UInt32}

theorem TableAlike.refl (t : LhatTable) : TableAlike h key hash t t := ⟨rfl, rfl⟩

theorem TableAlike.definition {t t' : LhatTable} (ha : TableAlike h key hash t t') :
    t'.definition = t.definition := congrArg Prod.fst ha.links

theorem TableAlike.isDefinition {t t' : LhatTable} (ha : TableAlike h key hash t t') :
    t'.isDefinition = t.isDefinition := congrArg (fun l => l.2.2.2.1) ha.links

theorem Store.Alike.of_write {table : Address} {t t' : LhatTable} (htable : s.table table = some t)
    (halike : TableAlike h key hash t t') : Store.Alike h key hash s (s.write table t') := by
  refine ⟨Store.length_write table t', fun a => ?_⟩
  by_cases hat : a = table
  · subst hat
    rw [htable, Store.table_write_self (by rw [htable]; rfl)]
    exact .some halike
  · rw [Store.table_write_other hat]
    cases s.table a with
    | none => exact .none
    | some u => exact .some (TableAlike.refl u)

/-- What a table that has something under the key answers, wherever it stands. -/
def answerOf (h : Heap) (bound : Bool) (value : LhatValue) : Option LhatValue :=
  if bound then (lhatTakesReceiver h h.depth value).map fun takes => if takes then value else .nil
  else some value

theorem readDefinitions_value (restricted delegated : Bool) (receiver : LhatValue) (fuel : Nat)
    (node : Address) (inherited : Bool) :
    (readDefinitions h s key none hash restricted delegated receiver (fuel + 1) node inherited).map
        (Option.map Found.value) =
      if node = 0 then some none
      else (s.table node).bind fun t =>
        match (ownRead h t key none hash).map (Option.map Prod.fst) with
        | none => none
        | some none => (readDefinitions h s key none hash restricted delegated receiver fuel
            t.definition true).map (Option.map Found.value)
        | some (some value) =>
          (answerOf h ((restricted && inherited) || delegated) value).map some := by
  conv_lhs => unfold readDefinitions
  split
  · rfl
  · cases s.table node with
    | none => rfl
    | some t =>
      cases hread : ownRead h t key none hash with
      | none => simp [hread]
      | some read =>
        cases read with
        | none => simp [hread]
        | some at_ =>
          obtain ⟨value, slot⟩ := at_
          simp only [hread, Option.bind_some, Option.map_some, answerOf]
          cases (restricted && inherited) || delegated with
          | false => cases slot <;> rfl
          | true =>
            cases lhatTakesReceiver h h.depth value with
            | none => rfl
            | some takes => cases takes <;> cases slot <;> rfl

theorem Store.Alike.readDefinitions (ha : Store.Alike h key hash s s') (restricted delegated : Bool)
    (receiver : LhatValue) (fuel : Nat) (node : Address) (inherited : Bool) :
    (readDefinitions h s' key none hash restricted delegated receiver fuel node inherited).map
        (Option.map Found.value) =
      (Lhat.readDefinitions h s key none hash restricted delegated receiver fuel node inherited).map
        (Option.map Found.value) := by
  induction fuel generalizing node inherited with
  | zero => rfl
  | succ fuel ih =>
    rw [readDefinitions_value, readDefinitions_value]
    refine if_congr Iff.rfl rfl ?_
    have htables := ha.tables node
    generalize s.table node = held at htables ⊢
    generalize s'.table node = held' at htables ⊢
    cases htables with
    | none => rfl
    | some halike =>
      simp only [Option.bind_some, halike.own, halike.definition, ih]

theorem readDelegates_value (root : Address) (fuel : Nat) (visited : List Address) (node :
    Address) :
    (readDelegates h s key none hash root (fuel + 1) visited node).map Found.value =
      if node = 0 ∨ node ∈ visited then some .nil
      else (s.table (membersTableOf h (.object node))).bind fun t =>
        ((readDefinitions h s key none hash (!t.isDefinition) (node != root) (.object node)
            (s.length + 1) (membersTableOf h (.object node)) false).map
              (Option.map Found.value)).bind fun found =>
          match found with
          | some value => some value
          | none => (delegateNext h s node).bind fun next =>
            (readDelegates h s key none hash root fuel (node :: visited) next).map Found.value :=
              by
  conv_lhs => unfold readDelegates
  split
  · rfl
  · simp only [Option.bind_eq_bind]
    cases s.table (membersTableOf h (.object node)) with
    | none => rfl
    | some t =>
      simp only [Option.bind_some]
      cases readDefinitions h s key none hash (!t.isDefinition) (node != root) (.object node)
          (s.length + 1) (membersTableOf h (.object node)) false with
      | none => rfl
      | some found =>
        cases found with
        | some found => rfl
        | none =>
          simp only [Option.bind_some, Option.map_some, Option.map_none]
          cases delegateNext h s node <;> rfl

theorem Store.Alike.readDelegates (ha : Store.Alike h key hash s s')
    (hnext : ∀ a, delegateNext h s' a = delegateNext h s a) (root : Address) (fuel : Nat)
    (visited : List Address) (node : Address) :
    (readDelegates h s' key none hash root fuel visited node).map Found.value =
      (Lhat.readDelegates h s key none hash root fuel visited node).map Found.value := by
  induction fuel generalizing visited node with
  | zero => rfl
  | succ fuel ih =>
    rw [readDelegates_value, readDelegates_value]
    refine if_congr Iff.rfl rfl ?_
    have htables := ha.tables (membersTableOf h (.object node))
    generalize s.table (membersTableOf h (.object node)) = held at htables ⊢
    generalize s'.table (membersTableOf h (.object node)) = held' at htables ⊢
    cases htables with
    | none => rfl
    | some halike =>
      simp only [Option.bind_some, halike.isDefinition, ha.length, ha.readDefinitions, hnext,
        ih]

end Alike

/-! ### Lookups -/

section Lookups

variable {h : Heap} {s s' : Store} {key : LhatValue}

theorem lhatTableGet_value (table : Address) :
    lhatTableGet h s table key =
      if table = 0 ∨ usableKey key = false then some .nil
      else (readDelegates h s (normaliseKey key) none (hashKey h (normaliseKey key)) table
        (s.length + 2) [] table).map Found.value := by
  unfold lhatTableGet tableGetIn
  simp only [Option.isNone_none, true_and, if_true]
  split <;> rfl

theorem lhatTableGet_congr (table : Address)
    (ha : Store.Alike h (normaliseKey key) (hashKey h (normaliseKey key)) s s')
    (hnext : ∀ a, delegateNext h s' a = delegateNext h s a) :
    lhatTableGet h s' table key = lhatTableGet h s table key := by
  rw [lhatTableGet_value, lhatTableGet_value, ha.length, ha.readDelegates hnext]

end Lookups

/-! ### What is lent to -/

/-- What stands among the entries of a table under a key, `nil` where nothing does. -/
def heldAt (h : Heap) (t : LhatTable) (key : LhatValue) : Option LhatValue :=
  if t.entries.isEmpty then some .nil
  else (probe h t.entries key (hashKey h key)).map fun i =>
    if (t.entryAt i).key.isNil then .nil else (t.entryAt i).value

/-- The object that a held value lends to. -/
def lentTo (h : Heap) : LhatValue → Address
  | .object o => if membersTableOf h (.object o) != 0 then o else 0
  | _ => 0

/-- Whatever a definition of a store delegates to stands under a name. -/
def Store.LendsByName (h : Heap) (s : Store) : Prop :=
  ∀ a t, s.table a = some t → t.delegateKey = .nil ∨
    ∃ o text, t.delegateKey = .object o ∧ h.object o = some (.string text)

section Lending

variable {h : Heap} {s : Store} {table : Address} {t t' : LhatTable}

theorem delegateNext_eq_heldAt (object : Address) :
    delegateNext h s object =
      match h.object object with
      | some .table => (s.table object).bind fun receiver =>
        if receiver.isDefinition || receiver.definition == 0 then some 0
        else (s.table receiver.definition).bind fun owner =>
          if owner.delegateKey.isNil then some 0
          else (heldAt h (if owner.delegateFromSelf then receiver else owner)
            owner.delegateKey).map (lentTo h)
      | _ => some 0 := by
  unfold delegateNext
  split
  · next hobject =>
      simp only [hobject, Option.bind_eq_bind, Option.pure_def]
      cases s.table object with
      | none => rfl
      | some receiver =>
        simp only [Option.bind_some]
        refine if_congr Iff.rfl rfl ?_
        cases s.table receiver.definition with
        | none => rfl
        | some owner =>
          simp only [Option.bind_some]
          refine if_congr Iff.rfl rfl ?_
          generalize (if owner.delegateFromSelf = true then receiver else owner) = holder
          unfold heldAt
          split
          · rfl
          · cases probe h holder.entries owner.delegateKey (hashKey h owner.delegateKey) with
            | none => rfl
            | some i =>
              simp only [Option.bind_some, Option.map_some]
              cases hv : (holder.entryAt i).value with
              | object o =>
                cases hk : (holder.entryAt i).key.isNil <;> simp [lentTo]
              | _ => cases hk : (holder.entryAt i).key.isNil <;> simp [lentTo]
  · next hobject => simp [hobject]

theorem LhatTable.Wf.heldAt (hw : t.Wf h) {key : LhatValue} (hfit : KeyFits h t key)
    {c : KeyForm × UInt32} (hc : placeForm h key = some c) :
    heldAt h t key = some ((t.find h c).getD .nil) := by
  unfold Lhat.heldAt
  by_cases he : t.entries = []
  · simp [he, LhatTable.find_of_empty he]
  · obtain ⟨i, hi, hprobe, hprobed⟩ := hw.probe_spec he hfit
    rw [if_neg (by simpa using he), hprobe, Option.map_some]
    by_cases hkey : (t.entryAt i).key = .nil
    · rw [hprobed.find_absent hw hkey hc]
      simp [hkey]
    · obtain ⟨c', -, hkc, hfind⟩ := hprobed.find_held hw hi hkey
      obtain rfl := Option.some.inj (hc.symm.trans hkc)
      rw [hfind]
      simp [hkey]

theorem delegateKey_of_links (hlinks : t'.links = t.links) : t'.delegateKey = t.delegateKey :=
  congrArg (fun l => l.2.1) hlinks

theorem delegateFromSelf_of_links (hlinks : t'.links = t.links) :
    t'.delegateFromSelf = t.delegateFromSelf := congrArg (fun l => l.2.2.1) hlinks

theorem delegateNext_write {R : Option Address → Option Address → Prop} (hrefl : ∀ next,
    R next next)
    (htable : s.table table = some t) (hlinks : t'.links = t.links)
    (hheld : ∀ a owner, s.table a = some owner → owner.delegateKey.isNil = false →
      R ((heldAt h t' owner.delegateKey).map (lentTo h))
        ((heldAt h t owner.delegateKey).map (lentTo h))) (a : Address) :
    R (delegateNext h (s.write table t') a) (delegateNext h s a) := by
  have hdefinition : t'.definition = t.definition := congrArg Prod.fst hlinks
  have hmarked : t'.isDefinition = t.isDefinition := congrArg (fun l => l.2.2.2.1) hlinks
  have hkey := delegateKey_of_links hlinks
  have hself := delegateFromSelf_of_links hlinks
  have hwritten : (s.write table t').table table = some t' :=
    Store.table_write_self (by rw [htable]; rfl)
  rw [delegateNext_eq_heldAt, delegateNext_eq_heldAt]
  split
  · -- The tables that are read are those of the first store but for the one written.
    have hread : ∀ b, ∃ u u', s.table b = some u ∧ (s.write table t').table b = some u' ∧
        (u' = u ∨ b = table ∧ u = t ∧ u' = t') ∨ s.table b = none ∧
          (s.write table t').table b = none := by
      intro b
      by_cases hb : b = table
      · subst hb
        exact ⟨t, t', .inl ⟨htable, hwritten, .inr ⟨rfl, rfl, rfl⟩⟩⟩
      · rw [Store.table_write_other hb]
        cases hu : s.table b with
        | none => exact ⟨t, t, .inr ⟨rfl, rfl⟩⟩
        | some u => exact ⟨u, u, .inl ⟨rfl, rfl, .inl rfl⟩⟩
    obtain ⟨receiver, receiver', ⟨hr, hr', hreceiver⟩ | ⟨hr, hr'⟩⟩ := hread a
    · have hsame : receiver'.isDefinition = receiver.isDefinition ∧
          receiver'.definition = receiver.definition := by
        rcases hreceiver with rfl | ⟨-, rfl, rfl⟩
        · exact ⟨rfl, rfl⟩
        · exact ⟨hmarked, hdefinition⟩
      simp only [hr, hr', Option.bind_some, hsame.1, hsame.2]
      split
      · exact hrefl _
      · obtain ⟨owner, owner', ⟨ho, ho', howner⟩ | ⟨ho, ho'⟩⟩ := hread receiver.definition
        · have hsame' : owner'.delegateKey = owner.delegateKey ∧
              owner'.delegateFromSelf = owner.delegateFromSelf := by
            rcases howner with rfl | ⟨-, rfl, rfl⟩
            · exact ⟨rfl, rfl⟩
            · exact ⟨hkey, hself⟩
          simp only [ho, ho', Option.bind_some, hsame'.1, hsame'.2]
          split
          · exact hrefl _
          · next hnamed =>
              have hlends := hheld _ owner ho (by simpa using hnamed)
              cases owner.delegateFromSelf with
              | true =>
                rcases hreceiver with rfl | ⟨-, rfl, rfl⟩
                · exact hrefl _
                · exact hlends
              | false =>
                rcases howner with rfl | ⟨-, rfl, rfl⟩
                · exact hrefl _
                · exact hlends
        · simp only [ho, ho', Option.bind_none]
          exact hrefl _
    · simp only [hr, hr', Option.bind_none]
      exact hrefl _
  · exact hrefl _

theorem fits_string (hw : t.Wf h) {o : Address} {text : LhatString}
    (ho : h.object o = some (.string text)) : KeyFits h t (.object o) := by
  refine hw.keyFits_of_not_type ⟨rfl, rfl⟩ ?_
  rintro ⟨o', s', heq, hs⟩
  cases heq
  rw [ho] at hs
  cases hs

theorem delegateNext_of_beside (hnames : s.LendsByName h) (htable : s.table table = some t)
    (hw : t.Wf h) (hw' : t'.Wf h) (hlinks : t'.links = t.links)
    (hbeside : ∀ c, (∀ i, c ≠ integerPlace i) → t'.find h c = t.find h c) (a : Address) :
    delegateNext h (s.write table t') a = delegateNext h s a := by
  refine delegateNext_write (R := Eq) (fun _ => rfl) htable hlinks
    (fun b owner howner hnamed => ?_) a
  rcases hnames b owner howner with hnil | ⟨o, text, hkey, ho⟩
  · rw [hnil] at hnamed
    cases hnamed
  · have hplace : placeForm h (.object o) = some (objectForm h o, hashKey h (.object o)) := rfl
    rw [hkey, hw.heldAt (fits_string hw ho) hplace, hw'.heldAt (fits_string hw' ho) hplace,
      hbeside]
    intro i heq
    have hform : objectForm h o = .integer i := congrArg Prod.fst heq
    unfold objectForm at hform
    rw [ho] at hform
    cases hform

end Lending

/-! ### Integer keys -/

section Integers

variable {h : Heap} {s : Store} {table : Address} {t t' : LhatTable}

theorem lhatTableGet_of_own (hobject : h.object table = some .table)
    (htable : s.table table = some t) (hw : t.Wf h) {i : Int64} {value : LhatValue}
    (hown : t.own h (.integer i) = some value) :
    lhatTableGet h s table (.integer i) = some value := by
  have hread := hw.ownRead_eq_own (hw.keyFits_integer i) (placeForm_integerPlace h i)
  rw [hown] at hread
  obtain ⟨at_, hat, hvalue⟩ := Option.map_eq_some_iff.1 hread
  obtain ⟨⟨value', slot⟩, rfl, rfl⟩ := Option.map_eq_some_iff.1 hvalue
  exact lhatTableGet_of_ownRead slot hobject htable rfl hat

theorem lhatTableGet_integer_write (hnames : s.LendsByName h) (htable : s.table table = some t)
    (hw : t.Wf h) (hw' : t'.Wf h) (hlinks : t'.links = t.links)
    (hbeside : ∀ c, (∀ i, c ≠ integerPlace i) → t'.find h c = t.find h c) {i : Int64}
    (hown : t'.own h (.integer i) = t.own h (.integer i)) (a : Address) :
    lhatTableGet h (s.write table t') a (.integer i) = lhatTableGet h s a (.integer i) := by
  have halike : TableAlike h (.integer i) (hashKey h (.integer i)) t t' := by
    refine ⟨hlinks, ?_⟩
    rw [hw.ownRead_eq_own (hw.keyFits_integer i) (placeForm_integerPlace h i),
      hw'.ownRead_eq_own (hw'.keyFits_integer i) (placeForm_integerPlace h i), hown]
  exact lhatTableGet_congr a (Store.Alike.of_write htable halike)
    (delegateNext_of_beside hnames htable hw hw' hlinks hbeside)

theorem Store.LendsByName.write (hnames : s.LendsByName h) (htable : s.table table = some t)
    (hlinks : t'.links = t.links) : (s.write table t').LendsByName h := by
  intro a u hau
  rcases Store.table_write_cases hau with ⟨-, rfl⟩ | ⟨-, hold⟩
  · rw [delegateKey_of_links hlinks]
    exact hnames table t htable
  · exact hnames a u hold

end Integers

end Lhat
