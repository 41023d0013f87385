import Lhat.Lton.Made
import Lhat.Table.Walk

/-!
# Texts and tables

What `stringify` answers is lexed without a diagnostic, is read as the datum that was written, and
makes a table that holds it, unless a key is put into the sequence. The text is one of what the
table holds, however it is laid out.
-/

namespace Lhat.Lton

open Lexing (Text Token ascii isDecimalDigit)
open Lexing.Lexer (run start)

/-! ### One reading -/

theorem run_isPrefix (l : Lexing.Lexer) (n m : Nat) : (run n l).1 <+: (run (n + m) l).1 := by
  induction m with
  | zero => exact List.prefix_rfl
  | succ m ih =>
    rw [← Nat.add_assoc, Lexing.Lexer.run_succ]
    exact ih.trans (List.prefix_append _ _)

theorem whole_unique {text : Text} {tokens tokens' : List Token} {l l' : Lexing.Lexer}
    (h : Lexing.Lexer.Whole text tokens l) (h' : Lexing.Lexer.Whole text tokens' l') :
    tokens = tokens' ∧ l = l' := by
  obtain ⟨n, hrun, hall, heof⟩ := h
  obtain ⟨n', hrun', hall', heof'⟩ := h'
  have hle : ∀ {n n' : Nat} {tokens tokens' : List Token} {l l' : Lexing.Lexer},
      run n (start text) = (tokens, l) → run n' (start text) = (tokens', l') →
      (∀ t ∈ tokens', t.kind ≠ .eof) → l.next.2.kind = .eof → n' ≤ n := by
    intro n n' tokens tokens' l l' hrun hrun' hall heof
    by_contra hlt
    obtain ⟨m, rfl⟩ := Nat.exists_eq_add_of_lt (Nat.not_le.mp hlt)
    have hfront := run_isPrefix (start text) (n + 1) m
    rw [Lexing.Lexer.run_succ, hrun, Nat.add_right_comm, hrun'] at hfront
    exact hall _ (hfront.subset (List.mem_append_right _ List.mem_cons_self)) heof
  obtain rfl := Nat.le_antisymm (hle hrun' hrun hall heof') (hle hrun hrun' hall' heof)
  rw [hrun] at hrun'
  cases hrun'
  exact ⟨rfl, rfl⟩

/-- A text is lexed without a diagnostic, and its tokens are read as a literal. -/
def ReadsAs (c : Printing) (text : Text) (read : Literal maxDepth) : Prop :=
  ∃ tokens l, Lexing.Lexer.Whole text tokens l ∧ l.next.1.diagnostics = [] ∧
    readDocument c 95 (tokens.map (Token.spelled text)) = some read

/-! ### What is written -/

section Written

variable {c : Printing} {h : Heap} {store : Store} {value : LhatValue} {text : Text}

theorem table_of_stringify (hok : stringify c h store value = .ok text) :
    ∃ o t, value = .object o ∧ h.object o = some .table ∧ store.table o = some t ∧
      textTable c h store maxDepth [] o = .ok text := by
  cases value with
  | object o =>
    unfold stringify at hok
    dsimp only at hok
    split at hok
    · rename_i hobject
      obtain ⟨n, t, -, ht⟩ := table_of_ok hok
      exact ⟨o, t, rfl, hobject, ht, hok⟩
    · cases hok
  | _ => cases hok

theorem stringify_spec (hwf : ∀ o t, store.table o = some t → t.Wf h)
    (hok : stringify c h store value = .ok text) :
    (∀ s : SequenceMap Scalar (Datum 95), Holds h store isWalked maxDepth value (.inr s) →
      text = textLines c (textDatum c 95 1) 0 s) ∧
    ∃ s : SequenceMap Scalar (Datum 95), Holds h store isWalked maxDepth value (.inr s) := by
  obtain ⟨o, t, rfl, hobject, ht, hok⟩ := table_of_stringify hok
  obtain ⟨hlines, s, hs⟩ :=
    @written_table t o 95 text c h store [] (hwf o t ht) ht (written_value hwf 95 [o]) hok
  refine ⟨fun s hs => ?_, s, o, t, rfl, hobject, ht, hs⟩
  obtain ⟨_, t', heq, -, ht', hs⟩ := hs
  cases heq
  obtain rfl : t = t' := Option.some.inj (ht.symm.trans ht')
  exact hlines s hs

theorem readsAs_textLines (hc : c.Sound) {s : SequenceMap Scalar (Datum 95)}
    (hlength : (textLines c (textDatum c 95 1) 0 s).length < 2 ^ 32) :
    ReadsAs c (textLines c (textDatum c 95 1) 0 s) (Datum.literal maxDepth (.inr s)) := by
  obtain ⟨tokens, l, hwhole, hspelled, hdiagnostics⟩ :=
    ((reads_lines hc (reads_datum hc 95 1) 0 s).mono fun _ _ => trivial).whole hlength
  refine ⟨tokens, l, hwhole, hdiagnostics, ?_⟩
  rw [hspelled]
  exact readDocument_spelled hc s

/-- A text that is answered is lexed without a diagnostic, and its tokens are read as what the
table holds. Where no key is put into a sequence they make a table that holds the same. Another
table that holds the same, where there is a text for it, has this one. -/
theorem stringify_denotes (hc : c.Sound) (hwf : ∀ o t, store.table o = some t → t.Wf h)
    (hok : stringify c h store value = .ok text) (hlength : text.length < 2 ^ 32) :
    (∃ d : Datum maxDepth, Holds h store isWalked maxDepth value d ∧ ReadsAs c text d.literal ∧
      (Apart maxDepth d → ∃ d', denote maxDepth d.literal = some d' ∧
        Holds h store isValued maxDepth value d')) ∧
    ∀ (h' : Heap) (store' : Store) (value' : LhatValue) (text' : Text),
      (∀ o t, store'.table o = some t → t.Wf h') →
      (∃ d : Datum maxDepth, Holds h store isWalked maxDepth value d ∧
        Holds h' store' isWalked maxDepth value' d) →
      stringify c h' store' value' = .ok text' → text' = text := by
  obtain ⟨hlines, s, hs⟩ := stringify_spec hwf hok
  refine ⟨⟨.inr s, hs, ?_, fun hapart => ?_⟩, ?_⟩
  · rw [hlines s hs] at hlength ⊢
    exact readsAs_textLines hc hlength
  · obtain ⟨d', hd'⟩ := exists_denotes hwf maxDepth value (.inr s) hs hapart
    exact ⟨d', hd'.denote, hd'.holds⟩
  · rintro h' store' value' text' hwf' ⟨d, hd, hd'⟩ hok'
    obtain ⟨hlines', -⟩ := stringify_spec hwf' hok'
    obtain ⟨o, t, rfl, hobject, -⟩ := table_of_stringify hok
    match d, hd with
    | .inl scalar, hd =>
      obtain ⟨string, hstring, -⟩ := scalarOf_object hd
      rw [hobject] at hstring
      cases hstring
    | .inr s, hd => rw [hlines s hd, hlines' s hd']

end Written

/-! ### Two tables -/

section Sample

def half : Binary64 := ⟨0x3FE0000000000000⟩

def spelledHalf : Text := [ascii '0', ascii '.', ascii '5']

def sampleSource (x : Text) : Binary64 :=
  if x = spelledHalf then half
  else ⟨UInt64.ofNat (Lexing.digitsValue 10 (x.takeWhile isDecimalDigit) % 2 ^ 63)⟩

/-- A library that spells a half as one, and any other number by its bits. -/
def sample : Printing where
  printed _ d :=
    signed d.isNegative
      (if d.magnitudeBits = half.magnitudeBits then spelledHalf else decimal d.magnitudeBits)
  point := [ascii '.']
  strtod x :=
    if x.head? = some (ascii '-') then (sampleSource x.tail).negate else sampleSource x
  source := sampleSource
  nearest x := sampleSource (x.spelled [ascii '.'])

theorem digits_ne_half {x : Text} (hx : ∀ c ∈ x, isDecimalDigit c = true) : x ≠ spelledHalf := by
  rintro rfl
  exact absurd (hx (ascii '.') (by decide)) (by decide)

theorem sampleSource_digits {x rest : Text} (hx : ∀ c ∈ x, isDecimalDigit c = true)
    (hrest : ∀ c ∈ rest.head?, isDecimalDigit c = false) (hhalf : x ++ rest ≠ spelledHalf) :
    sampleSource (x ++ rest) = ⟨UInt64.ofNat (Lexing.digitsValue 10 x % 2 ^ 63)⟩ := by
  unfold sampleSource
  rw [if_neg hhalf, List.takeWhile_append_of_pos hx]
  cases rest with
  | nil => rw [List.takeWhile_nil, List.append_nil]
  | cons c rest => rw [List.takeWhile_cons_of_neg (by simp [hrest c rfl]), List.append_nil]

theorem sampleSource_whole {x : Text} (hx : ∀ c ∈ x, isDecimalDigit c = true) :
    sampleSource x = ⟨UInt64.ofNat (Lexing.digitsValue 10 x % 2 ^ 63)⟩ := by
  have hsource := @sampleSource_digits x [] hx (fun _ h => (nomatch h))
  rw [List.append_nil] at hsource
  exact hsource (digits_ne_half hx)

theorem sampleSource_unsigned (x : Text) : (sampleSource x).isNegative = false := by
  unfold sampleSource
  split
  · decide
  · unfold Binary64.isNegative
    rw [UInt64.toNat_ofNat', decide_eq_false_iff_not]
    have := Nat.mod_lt (Lexing.digitsValue 10 (x.takeWhile isDecimalDigit))
      (show 0 < 2 ^ 63 by decide)
    omega

theorem withSign_eq {d e : Binary64} (hunsigned : e.isNegative = false)
    (hmag : e.magnitudeBits = d.magnitudeBits) : withSign d.isNegative e = d := by
  unfold withSign
  cases hsign : d.isNegative with
  | false => exact Binary64.eq_of_parts (hunsigned.trans hsign.symm) hmag
  | true =>
    refine Binary64.eq_of_parts ?_ ((Binary64.magnitudeBits_negate e).trans hmag)
    rw [if_pos rfl, Binary64.isNegative_negate, hunsigned, hsign]
    rfl

theorem sample_printed (precision : Nat) (d : Binary64) : ∃ x : Decimal,
    sample.printed precision d = signed d.isNegative (x.spelled sample.point) ∧
      (x.spelled sample.point).length < 95 ∧
      withSign d.isNegative (sample.nearest x) = d := by
  by_cases hhalf : d.magnitudeBits = half.magnitudeBits
  · refine ⟨⟨[ascii '0'], [ascii '5'], none, List.cons_ne_nil _ _,
      List.forall_mem_singleton.2 (by decide), List.forall_mem_singleton.2 (by decide), nofun⟩,
      congrArg (signed d.isNegative) (if_pos hhalf), by decide,
      withSign_eq (sampleSource_unsigned _) ?_⟩
    rw [hhalf]
    rfl
  · have hlt := d.magnitudeBits_lt
    have hdigits := decimal_digits d.magnitudeBits
    refine ⟨⟨decimal d.magnitudeBits, [], none, decimal_ne_nil _, hdigits, nofun, nofun⟩, ?_, ?_,
      withSign_eq (sampleSource_unsigned _) ?_⟩
    · unfold Decimal.spelled
      exact congrArg (signed d.isNegative) ((if_neg hhalf).trans (List.append_nil _).symm)
    · have := @decimal_length 18 d.magnitudeBits (by omega)
      show (decimal d.magnitudeBits ++ []).length < 95
      rw [List.append_nil]
      omega
    · show (sampleSource (decimal d.magnitudeBits ++ [])).magnitudeBits = _
      rw [List.append_nil, sampleSource_whole hdigits, digitsValue_decimal, Nat.mod_eq_of_lt hlt]
      unfold Binary64.magnitudeBits at hlt ⊢
      rw [UInt64.toNat_ofNat']
      omega

theorem sample_strtod (negative : Bool) (x : Decimal) :
    sample.strtod (signed negative (x.spelled sample.point)) =
      withSign negative (sample.nearest x) := by
  unfold sample signed withSign
  dsimp only
  cases negative with
  | true =>
    rw [if_pos rfl, if_pos rfl, List.head?_cons, if_pos rfl]
    rfl
  | false =>
    obtain ⟨c, tail, hcons, hc⟩ := spelled_head x [ascii '.']
    refine if_neg fun hminus => ?_
    have hhead : (x.spelled [ascii '.']).head? = some (ascii '-') := hminus
    rw [hcons] at hhead
    exact ne_of_isDecimalDigit hc (by decide) (Option.some.inj hhead)

theorem sample_pointed (x : Decimal) : sample.nearest x.pointed = sample.nearest x := by
  unfold Decimal.pointed
  split
  · rename_i h
    obtain ⟨hfraction, hexponent⟩ := h
    have hspelled : x.spelled [ascii '.'] = x.whole := by
      unfold Decimal.spelled Decimal.spelledFraction Decimal.spelledExponent
      simp only [hfraction, hexponent, if_true, List.append_nil]
    show sampleSource (Decimal.spelled _ [ascii '.']) = sampleSource (x.spelled [ascii '.'])
    rw [hspelled, sampleSource_whole x.whole_digits]
    unfold Decimal.spelled Decimal.spelledFraction Decimal.spelledExponent
    simp only [hexponent]
    refine sampleSource_digits x.whole_digits (fun c hc => ?_) fun hhalf => ?_
    · rw [← Option.some.inj hc]
      decide
    · have := congrArg List.getLast? hhalf
      simp [spelledHalf] at this
      exact absurd this (by decide)
  · rfl

theorem sample_sound : sample.Sound where
  point := ⟨ascii '.', [], rfl, by decide, by decide, by decide, by decide⟩
  shape precision d _ := by
    obtain ⟨x, hx, -⟩ := sample_printed precision d
    exact ⟨x, hx⟩
  short precision d _ := by
    obtain ⟨x, hx, hlength, -⟩ := sample_printed precision d
    rw [hx]
    unfold signed
    split
    · rw [List.length_cons]
      omega
    · omega
  exact d hd := by
    obtain ⟨x, hx, -, hread⟩ := sample_printed 17 d
    have hnan := Binary64.isNan_of_isFinite hd
    rw [hx, sample_strtod, hread]
    simp [Binary64.eq, hnan]
  strtod := sample_strtod
  source _ := rfl
  unsigned _ := sampleSource_unsigned _
  pointed := sample_pointed

/-- A half laid down before the sequence, which then comes to so many tens. -/
def sampleOps (n : Nat) : List TableOp :=
  [.set (.real half) (.integer 30), .resize n (.integer 10)]

theorem sample_steady (n : Nat) :
    SteadyRun twoTypes { grants := fun _ => true } lhatTableNew (sampleOps n) := by
  refine ⟨⟨fun _ _ => ⟨by decide_cbv, fun held hmem => ?_⟩, fun hnext => ?_⟩, fun _ _ =>
    ⟨trivial, fun _ _ => trivial⟩⟩
  · cases hmem
  · exact absurd hnext (by decide +kernel)

theorem sample_wf {n : Nat} {t : LhatTable} {m' : Memory}
    (hrun : runOps twoTypes { grants := fun _ => true } lhatTableNew (sampleOps n) = some (t, m')) :
    ∀ o t', Store.table [(48, t)] o = some t' → t'.Wf twoTypes := by
  intro o t' ht'
  have hwf : t.Wf twoTypes := ((Fresh.new.unshadowed twoTypes).run (sample_steady n) hrun).wf
  unfold Store.table at ht'
  rw [List.lookup_cons] at ht'
  split at ht'
  · rwa [← Option.some.inj ht']
  · cases ht'

/-- A position and a half past it. -/
theorem stringify_denotes_half : ∃ t m',
    runOps twoTypes { grants := fun _ => true } lhatTableNew (sampleOps 1) = some (t, m') ∧
    stringify sample twoTypes [(48, t)] (.object 48) =
      .ok (Lexing.text "10,\n[0.5] = 30,\n") ∧
    ∃ d : Datum maxDepth, Holds twoTypes [(48, t)] isWalked maxDepth (.object 48) d ∧
      ReadsAs sample (Lexing.text "10,\n[0.5] = 30,\n") d.literal ∧
      (Apart maxDepth d → ∃ d', denote maxDepth d.literal = some d' ∧
        Holds twoTypes [(48, t)] isValued maxDepth (.object 48) d') := by
  have hwritten : (runOps twoTypes { grants := fun _ => true } lhatTableNew (sampleOps 1)).map
      (fun left => stringify sample twoTypes [(48, left.1)] (.object 48)) =
        some (.ok (Lexing.text "10,\n[0.5] = 30,\n")) := by decide +kernel
  obtain ⟨⟨t, m'⟩, hrun, hok⟩ := Option.map_eq_some_iff.mp hwritten
  exact ⟨t, m', hrun, hok,
    (stringify_denotes sample_sound (sample_wf hrun) hok (by decide_cbv)).1⟩

/-- The second element of a table. -/
def Datum.second : Datum maxDepth → Option (Datum 95)
  | .inr s => s.seq[1]?
  | .inl _ => none

/-- A half behind two positions is put into the second. -/
theorem stringify_denotes_fails : ∃ t m',
    runOps twoTypes { grants := fun _ => true } lhatTableNew (sampleOps 2) = some (t, m') ∧
    stringify sample twoTypes [(48, t)] (.object 48) =
      .ok (Lexing.text "10,\n10,\n[0.5] = 30,\n") ∧
    ¬∃ read d', ReadsAs sample (Lexing.text "10,\n10,\n[0.5] = 30,\n") read ∧
      denote maxDepth read = some d' ∧
      Holds twoTypes [(48, t)] isValued maxDepth (.object 48) d' := by
  have hwritten : (runOps twoTypes { grants := fun _ => true } lhatTableNew (sampleOps 2)).map
      (fun left => (stringify sample twoTypes [(48, left.1)] (.object 48), left.1.array)) =
        some (.ok (Lexing.text "10,\n10,\n[0.5] = 30,\n"), [.integer 10, .integer 10]) := by
    decide +kernel
  obtain ⟨⟨t, m'⟩, hrun, hwritten⟩ := Option.map_eq_some_iff.mp hwritten
  obtain ⟨hok, harray⟩ := Prod.mk.inj hwritten
  refine ⟨t, m', hrun, hok, ?_⟩
  rintro ⟨read, d', ⟨tokens, l, hwhole, -, hread⟩, hdenote, hholds⟩
  have hlexed : (∀ token ∈ (run 10 (start (Lexing.text "10,\n10,\n[0.5] = 30,\n"))).1,
      token.kind ≠ .eof) ∧
      (run 10 (start (Lexing.text "10,\n10,\n[0.5] = 30,\n"))).2.next.2.kind = .eof ∧
      ((readDocument sample 95 ((run 10 (start (Lexing.text "10,\n10,\n[0.5] = 30,\n"))).1.map
        (Token.spelled (Lexing.text "10,\n10,\n[0.5] = 30,\n")))).bind fun read =>
          (denote maxDepth read).bind Datum.second) = some (.inl (.integer 30)) := by
    decide +kernel
  have hwhole' : Lexing.Lexer.Whole (Lexing.text "10,\n10,\n[0.5] = 30,\n")
      (run 10 (start (Lexing.text "10,\n10,\n[0.5] = 30,\n"))).1
      (run 10 (start (Lexing.text "10,\n10,\n[0.5] = 30,\n"))).2 :=
    ⟨10, rfl, hlexed.1, hlexed.2.1⟩
  obtain ⟨heq, -⟩ := whole_unique hwhole hwhole'
  have hread' := hlexed.2.2
  rw [← heq, hread] at hread'
  have hsecond : (denote maxDepth read).bind Datum.second = some (.inl (.integer 30)) := hread'
  rw [hdenote, Option.bind_some] at hsecond
  match d', hholds, hsecond with
  | .inr s, ⟨_, t', heq, _, ht', hs⟩, hsecond =>
    cases heq
    obtain rfl : t = t' := Option.some.inj ht'
    have hseq := hs.seq
    rw [harray] at hseq
    obtain ⟨d₀, _, -, hone, hseq⟩ := List.forall₂_cons_left_iff.mp hseq
    obtain ⟨d₁, _, hten, -, rfl⟩ := List.forall₂_cons_left_iff.mp hone
    have hsecond' : s.seq[1]? = some (.inl (.integer 30)) := hsecond
    rw [hseq] at hsecond'
    obtain rfl : d₁ = .inl (.integer 30) := Option.some.inj hsecond'
    cases hten

end Sample

end Lhat.Lton
