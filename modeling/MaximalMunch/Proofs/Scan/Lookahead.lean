import MaximalMunch.Proofs.Scan.Attempt

/-!
# What the lookahead decides

The capacity of a tape does not change what a scan of a text commits, only how far it gets.  At
every fetch the tape holds exactly the characters of the attempt, so an attempt fails if and only
if more characters remain than may be held and those that may be held can still become a match.
Where no span start of the reference scan is of that kind, the scan commits all spans of the
reference; otherwise it commits those in front of the first such start and fails.
-/

namespace MaximalMunch

/-! ## Reading ahead within bounds -/

namespace Tape

variable {t : Tape} {text : List Char}

theorem Holds.next_end (h : t.Holds text) (hlength : t.taken.length = text.length) :
    ∃ rest, t.next = .ok (none, rest) := by
  obtain ⟨unread, rfl, hsource⟩ := h
  obtain ⟨taken, ahead, capacity, source⟩ := t
  simp only [held, List.length_append, List.length_reverse] at hlength
  obtain rfl : ahead = [] := List.length_eq_zero_iff.mp (by omega)
  obtain rfl : unread = [] := List.length_eq_zero_iff.mp (by omega)
  obtain ⟨source', hread, -⟩ := Source.next_nil hsource
  exact ⟨⟨taken, [], capacity, source'⟩, by simp only [Tape.next, hread]⟩

theorem Holds.next_room (h : t.Holds text) (hlt : t.taken.length < text.length)
    (hroom : t.taken.length < t.capacity) : ∃ c rest, t.next = .ok (some c, rest) := by
  obtain ⟨unread, rfl, hsource⟩ := h
  obtain ⟨taken, ahead, capacity, source⟩ := t
  cases ahead with
  | cons c ahead => exact ⟨c, ⟨c :: taken, ahead, capacity, source⟩, rfl⟩
  | nil =>
      cases unread with
      | nil => simp [held] at hlt
      | cons c unread =>
          obtain ⟨source', hread, -⟩ := Source.next_cons hsource
          have hnot : ¬ capacity ≤ taken.length := Nat.not_le.mpr hroom
          exact ⟨c, ⟨c :: taken, [], capacity, source'⟩,
            by simp only [Tape.next, hread, if_neg hnot]⟩

/-- With as many characters handed out as may be held, none is held ahead of them. -/
theorem Holds.next_full (h : t.Holds text) (hfits : t.Fits) (hlt : t.taken.length < text.length)
    (hfull : t.capacity ≤ t.taken.length) :
    t.next = .error (.lookaheadExceeded t.capacity) := by
  obtain ⟨unread, rfl, hsource⟩ := h
  obtain ⟨taken, ahead, capacity, source⟩ := t
  simp only [Fits, held, List.length_append, List.length_reverse] at hfits hlt hfull
  obtain rfl : ahead = [] := List.length_eq_zero_iff.mp (by omega)
  cases unread with
  | nil => simp at hlt
  | cons c unread =>
      obtain ⟨source', hread, -⟩ := Source.next_cons hsource
      simp only [Tape.next, hread, if_pos hfull]

end Tape

/-! ## Attempts within bounds -/

namespace Scanner

/-- Whether an attempt at the front of a text needs more characters than may be held: more than
that remain, and those that may be held are the beginning of a match. -/
def Overruns (s : Scanner) (capacity : Nat) (text : List Char) : Prop :=
  capacity < text.length ∧ s.Viable (text.take capacity)

variable {s : Scanner} {text : List Char} {tape : Tape} {e : Error}

/-- A start that overruns a larger capacity overruns a smaller one, too. -/
theorem Overruns.of_le {capacity capacity' : Nat} (h : s.Overruns capacity' text)
    (hle : capacity ≤ capacity') : s.Overruns capacity text := by
  refine ⟨hle.trans_lt h.1, ?_⟩
  obtain ⟨v, hv⟩ := List.take_prefix_take_left (l := text) hle
  exact Viable.of_append (hv ▸ h.2)

/-- Attempts on a text fail only by overrunning. -/
theorem run_eq_error_iff (hs : Compiled s.definitions) (htape : tape.Holds text) (hfits : tape.Fits)
    {n : Nat} (htaken : tape.taken.length = n) (hle : n ≤ text.length) (hpos : 0 < tape.capacity)
    (hviable : n = 0 ∨ s.Viable (text.take n)) {best : Option Match} :
    Attempt.run (s.lanesAfter (text.take n)) best n tape = .error e ↔
      e = .lookaheadExceeded tape.capacity ∧ s.Overruns tape.capacity text := by
  have hbound : n ≤ tape.capacity := htaken ▸ hfits.taken_le
  -- on the characters of the text that have not been read in this attempt
  induction hleft : text.length - n using Nat.strongRecOn generalizing n best tape with
  | ind left ih =>
      rcases Nat.lt_or_ge n text.length with hlt | hge
      · rcases Nat.lt_or_ge n tape.capacity with hroom | hfull
        · obtain ⟨c, rest, hnext⟩ := htape.next_room (htaken ▸ hlt) (htaken ▸ hroom)
          obtain ⟨hc, hrest, hread⟩ := htape.next hnext
          have htake : text.take (n + 1) = text.take n ++ [c] := by
            rw [List.take_add_one, ← htaken, ← hc]
            rfl
          by_cases hnew : s.Viable (text.take n ++ [c])
          · have hcapacity := Tape.capacity_next hnext
            have htaken' : rest.taken.length = n + 1 := by
              rw [hread, List.length_append, htaken]
              exact Nat.add_comm _ _
            rw [Attempt.run_viable hs hnext hnew, ← htake, ← hcapacity]
            exact ih _ (by omega) hrest (hfits.next hnext) htaken' hlt (hcapacity ▸ hpos)
              (.inr (htake ▸ hnew)) (hcapacity ▸ hroom) rfl
          · rw [Attempt.run_not_viable hs hnext hnew]
            refine iff_of_false (by simp) fun h => hnew ?_
            rw [← htake]
            exact (h.2.of_le (Nat.succ_le_of_lt hroom)).2
        · obtain rfl : n = tape.capacity := Nat.le_antisymm hbound hfull
          have hviable := hviable.resolve_left (Nat.ne_of_gt hpos)
          rw [Attempt.run_error (htape.next_full hfits (htaken ▸ hlt) (Nat.le_of_eq htaken.symm)),
            Except.error.injEq, eq_comm]
          exact ⟨fun heq => ⟨heq, hlt, hviable⟩, And.left⟩
      · obtain ⟨rest, hnext⟩ := htape.next_end (htaken.trans (Nat.le_antisymm hle hge))
        rw [Attempt.run_end hnext]
        refine iff_of_false ?_ fun h => ?_
        · split <;> simp
        · have hlt := h.2.1
          omega

/-- Steps on a text fail only by overrunning. -/
theorem step_eq_error_iff_overruns (hs : Compiled s.definitions) {position : Position} {count : Nat}
    (htape : tape.Holds text) (hfits : tape.Fits) (htaken : tape.taken = [])
    (hpos : 0 < tape.capacity) : s.step position count tape = .error e ↔
      e = .lookaheadExceeded tape.capacity ∧ s.Overruns tape.capacity text := by
  rw [step_eq_error_iff hs htaken]
  exact run_eq_error_iff hs htape hfits (by rw [htaken]; rfl) (Nat.zero_le _) hpos (.inl rfl)

/-! ## The reference scan exists -/

variable {position : Position} {count : Nat} {spans before : List Span} {rest : List Char}
  {span : Span}

/-- A text that may be held as a whole is scanned to its end. -/
theorem outcome_of_length_le (hs : Compiled s.definitions) (htape : tape.Holds text)
    (hfits : tape.Fits) (htaken : tape.taken = []) (hpos : 0 < tape.capacity)
    (hle : text.length ≤ tape.capacity) :
    ∃ source, (s.scanFrom position count tape).outcome = .ok source := by
  fun_induction scanFrom s position count tape generalizing text with
  | case1 position count tape e hstep =>
      have hoverruns := ((step_eq_error_iff_overruns hs htape hfits htaken hpos).mp hstep).2
      exact absurd hoverruns.1 (Nat.not_lt.mpr hle)
  | case2 position count tape rest hstep => exact ⟨_, rfl⟩
  | case3 position count tape w span rest hstep later =>
      rename_i ih
      obtain ⟨back, rfl, -, -, hrest, hnone⟩ := nextSpan_step hs htape htaken hstep
      obtain ⟨hfits', hcapacity, -⟩ := fits_of_span hfits hstep
      rw [List.length_append] at hle
      exact ih hrest hfits' hnone (by omega) (by omega)

/-- Every text has its spans: a scan that may hold all of it commits them. -/
theorem exists_reference (hs : Compiled s.definitions) (position : Position) (count : Nat)
    (text : List Char) : ∃ spans, s.Reference position count text spans := by
  have htape : (Tape.ofSource (text.length + 1) (.ofText (.ofList text))).Holds text := by
    have hholds := Tape.holds_ofText (text.length + 1) (.ofList text)
    rwa [String.toList_ofList] at hholds
  obtain ⟨source, hsource⟩ := outcome_of_length_le hs htape (.ofSource _ _) rfl (Nat.succ_pos _)
    (Nat.le_succ _)
  exact ⟨_, reference_scanFrom hs htape rfl hsource⟩

/-- The reference scan depends on the definitions and on what ends a line, not on the lookahead. -/
theorem Reference.of_definitions_eq {s' : Scanner} (hdefinitions : s.definitions = s'.definitions)
    (hending : s.config.lineEnding = s'.config.lineEnding)
    (h : s.Reference position count text spans) : s'.Reference position count text spans := by
  have hwinner : s.winner? = s'.winner? := by
    funext w
    rw [winner?, winner?, hdefinitions]
  have hmatches (w : List Char) : s.Matches w ↔ s'.Matches w := by
    rw [Matches, Matches, hdefinitions]
  have hviable (w : List Char) : s.Viable w ↔ s'.Viable w := exists_congr fun v => hmatches _
  induction h with
  | done => exact .done
  | span htext hw hspan _ ih =>
      refine .span htext hw ?_ (hending ▸ ih)
      cases hspan with
      | token hd hlongest =>
          exact .token (hwinner ▸ hd) fun v hv hlt => mt (hmatches v).mpr (hlongest v hv hlt)
      | error hnone hviable' hend =>
          refine .error (fun v hv hne => mt (hmatches v).mpr (hnone v hv hne)) ?_ ?_
          · exact fun v hv hne hproper => (hviable v).mp (hviable' v hv hne hproper)
          · exact hend.imp_left (mt (hviable _).mpr)

/-! ## How far a scan gets -/

/-- A span starts behind `before`, with which the spans of a text begin, or the text ends there;
`rest` is what remains of the text. -/
structure StartsAt (text : List Char) (spans before : List Span) (rest : List Char) : Prop where
  front : before <+: spans
  text_eq : text = before.flatMap (·.text.toList) ++ rest

theorem startsAt_nil (text : List Char) (spans : List Span) : StartsAt text spans [] text :=
  ⟨List.nil_prefix, rfl⟩

theorem startsAt_cons_iff {back : List Char} :
    StartsAt (span.text.toList ++ back) (span :: spans) before rest ↔
      before = [] ∧ rest = span.text.toList ++ back ∨
        ∃ before', before = span :: before' ∧ StartsAt back spans before' rest := by
  constructor
  · rintro ⟨hfront, htext⟩
    cases before with
    | nil => exact .inl ⟨rfl, htext.symm⟩
    | cons span' before =>
        obtain ⟨heq, hback⟩ := List.cons_prefix_cons.mp hfront
        subst heq
        rw [List.flatMap_cons, List.append_assoc] at htext
        exact .inr ⟨before, rfl, hback, List.append_cancel_left htext⟩
  · rintro (⟨rfl, rfl⟩ | ⟨before, rfl, hfront, rfl⟩)
    · exact startsAt_nil _ _
    · refine ⟨List.cons_prefix_cons.mpr ⟨rfl, hfront⟩, ?_⟩
      rw [List.flatMap_cons, List.append_assoc]

/-- The first span start that overruns the capacity. -/
structure FirstOverrun (s : Scanner) (capacity : Nat) (text : List Char)
    (spans before : List Span) : Prop where
  overruns : ∃ rest, StartsAt text spans before rest ∧ s.Overruns capacity rest
  first : ∀ earlier rest, StartsAt text spans earlier rest → s.Overruns capacity rest →
    before.length ≤ earlier.length

theorem FirstOverrun.unique {capacity : Nat} {before' : List Span}
    (h : s.FirstOverrun capacity text spans before)
    (h' : s.FirstOverrun capacity text spans before') : before = before' := by
  obtain ⟨rest, hstart, hoverruns⟩ := h.overruns
  obtain ⟨rest', hstart', hoverruns'⟩ := h'.overruns
  have hlength : before.length = before'.length :=
    Nat.le_antisymm (h.first _ _ hstart' hoverruns') (h'.first _ _ hstart hoverruns)
  exact (List.prefix_of_prefix_length_le hstart.front hstart'.front
    (Nat.le_of_eq hlength)).eq_of_length hlength

/-- A span in front of which nothing overruns does not come behind the first start that does. -/
theorem FirstOverrun.cons {capacity : Nat} {back : List Char}
    (hnot : ¬ s.Overruns capacity (span.text.toList ++ back))
    (h : s.FirstOverrun capacity back spans before) :
    s.FirstOverrun capacity (span.text.toList ++ back) (span :: spans) (span :: before) := by
  constructor
  · obtain ⟨rest, hstart, hoverruns⟩ := h.overruns
    exact ⟨rest, startsAt_cons_iff.mpr (.inr ⟨before, rfl, hstart⟩), hoverruns⟩
  · intro earlier rest hstart hoverruns
    rcases startsAt_cons_iff.mp hstart with ⟨-, rfl⟩ | ⟨earlier, rfl, hbehind⟩
    · exact absurd hoverruns hnot
    · exact Nat.succ_le_succ (h.first earlier rest hbehind hoverruns)

theorem not_overruns_cons {capacity : Nat} {back : List Char}
    (hnot : ¬ s.Overruns capacity (span.text.toList ++ back))
    (hnone : ∀ before rest, StartsAt back spans before rest → ¬ s.Overruns capacity rest)
    (hstart : StartsAt (span.text.toList ++ back) (span :: spans) before rest) :
    ¬ s.Overruns capacity rest := by
  rcases startsAt_cons_iff.mp hstart with ⟨-, rfl⟩ | ⟨before, rfl, hbehind⟩
  · exact hnot
  · exact hnone before rest hbehind

/-- What a scan that may hold so many characters makes of a text with the given spans: it fails at
the first start that overruns, or there is none and all spans are committed. -/
inductive Bounded (s : Scanner) (capacity : Nat) (text : List Char) (spans : List Span) :
    Scan → Prop where
  | fails {before : List Span} (hfirst : s.FirstOverrun capacity text spans before) :
      Bounded s capacity text spans ⟨before, .error (.lookaheadExceeded capacity)⟩
  | succeeds {source : Source}
      (hnone : ∀ before rest, StartsAt text spans before rest → ¬ s.Overruns capacity rest) :
      Bounded s capacity text spans ⟨spans, .ok source⟩

/-- A span in front of which nothing overruns is committed before all that follows. -/
theorem Bounded.cons {capacity : Nat} {back : List Char} {scan : Scan}
    (hnot : ¬ s.Overruns capacity (span.text.toList ++ back))
    (h : s.Bounded capacity back spans scan) :
    s.Bounded capacity (span.text.toList ++ back) (span :: spans)
      { scan with spans := span :: scan.spans } := by
  cases h with
  | fails hfirst => exact .fails (hfirst.cons hnot)
  | succeeds hnone => exact .succeeds fun _ _ => not_overruns_cons hnot hnone

theorem step_nil (hs : Compiled s.definitions) (position : Position) (count : Nat)
    (htape : tape.Holds []) (hfits : tape.Fits) (htaken : tape.taken = [])
    (hpos : 0 < tape.capacity) : ∃ rest, s.step position count tape = .ok (.finished rest) := by
  cases hstep : s.step position count tape with
  | error e =>
      obtain ⟨-, hlt, -⟩ := (step_eq_error_iff_overruns hs htape hfits htaken hpos).mp hstep
      cases hlt
  | ok step =>
      cases step with
      | finished rest => exact ⟨rest, rfl⟩
      | span w span rest =>
          obtain ⟨back, htext, hw, -⟩ := nextSpan_step hs htape htaken hstep
          exact absurd (List.append_eq_nil_iff.mp htext.symm).1 hw

/-- Where nothing overruns, a step commits the span of the reference. -/
theorem step_of_nextSpan (hs : Compiled s.definitions) {w back : List Char}
    (htape : tape.Holds (w ++ back)) (hfits : tape.Fits) (htaken : tape.taken = [])
    (hpos : 0 < tape.capacity) (hw : w ≠ []) (hspan : s.NextSpan position count w back span)
    (hnot : ¬ s.Overruns tape.capacity (w ++ back)) :
    ∃ rest, s.step position count tape = .ok (.span w span rest) ∧ rest.Holds back ∧
      rest.taken = [] := by
  cases hstep : s.step position count tape with
  | error e =>
      exact absurd ((step_eq_error_iff_overruns hs htape hfits htaken hpos).mp hstep).2 hnot
  | ok step =>
      cases step with
      | finished rest =>
          have htext := eq_nil_of_finished hs htape htaken hstep
          exact absurd (List.append_eq_nil_iff.mp htext).1 hw
      | span w' span' rest =>
          obtain ⟨back', htext, hw', hspan', hback, hnone⟩ := nextSpan_step hs htape htaken hstep
          obtain ⟨rfl, rfl, rfl⟩ := hspan.unique hspan' hw hw' htext
          exact ⟨rest, rfl, hback, hnone⟩

/-- A scan commits the spans of the reference up to the first start that overruns, and all of them
if there is none. -/
theorem bounded_scanFrom (hs : Compiled s.definitions) (htape : tape.Holds text)
    (hfits : tape.Fits) (htaken : tape.taken = []) (hpos : 0 < tape.capacity)
    (h : s.Reference position count text spans) :
    s.Bounded tape.capacity text spans (s.scanFrom position count tape) := by
  induction h generalizing tape with
  | @done position count =>
      obtain ⟨rest, hstep⟩ := step_nil hs position count htape hfits htaken hpos
      rw [scanFrom_finished hstep]
      refine .succeeds fun before rest hstart hoverruns => ?_
      rw [(List.append_eq_nil_iff.mp hstart.text_eq.symm).2] at hoverruns
      exact Nat.not_lt_zero _ hoverruns.1
  | @span position count text w back span spans htext hw hspan _ ih =>
      by_cases hoverruns : s.Overruns tape.capacity text
      · -- the attempt at the front overruns, so nothing is committed
        have hstep : s.step position count tape = .error (.lookaheadExceeded tape.capacity) :=
          (step_eq_error_iff_overruns hs htape hfits htaken hpos).mpr ⟨rfl, hoverruns⟩
        rw [scanFrom_error hstep]
        exact .fails ⟨⟨text, startsAt_nil _ _, hoverruns⟩, fun _ _ _ _ => Nat.zero_le _⟩
      · obtain rfl : w = span.text.toList := by rw [hspan.text_eq, String.toList_ofList]
        subst htext
        obtain ⟨rest, hstep, hback, hnone⟩ :=
          step_of_nextSpan hs htape hfits htaken hpos hw hspan hoverruns
        obtain ⟨hfits', hcapacity, -⟩ := fits_of_span hfits hstep
        have hlater := ih hback hfits' hnone (hcapacity ▸ hpos)
        rw [hcapacity] at hlater
        rw [scanFrom_span hstep]
        exact hlater.cons hoverruns

theorem bounded_scan {b : Builder} (hb : b.Made) (text : String)
    (h : b.build.Reference {} 0 text.toList spans) :
    b.build.Bounded b.config.lookahead text.toList spans (b.build.scan (.ofText text)) :=
  bounded_scanFrom hb.compiled (Tape.holds_ofText _ text) (.ofSource _ _) rfl hb.lookahead_pos h

/-- With any lookahead, a scan of a text fails at the first start that overruns, or there is none
and the output is that of the reference. -/
theorem tokenizeText_setLookahead {b : Builder} (hb : b.Made) {capacity : Nat} (hpos : 1 ≤ capacity)
    {text : String} (h : b.build.Reference {} 0 text.toList spans) :
    (b.build.FirstOverrun capacity text.toList spans
        ((b.setLookahead capacity).build.scan (.ofText text)).spans ∧
      (b.setLookahead capacity).build.tokenizeText text = .error (.lookaheadExceeded capacity)) ∨
    (∀ before rest, StartsAt text.toList spans before rest → ¬ b.build.Overruns capacity rest) ∧
      (b.setLookahead capacity).build.tokenizeText text =
        .ok ⟨spans.filterMap Span.token?, spans.filterMap Span.error?⟩ := by
  have hcapacity : (b.setLookahead capacity).config.lookahead = capacity := Nat.max_eq_left hpos
  have hreference : (b.setLookahead capacity).build.Reference {} 0 text.toList spans :=
    Reference.of_definitions_eq (s := b.build) rfl rfl h
  have hscan := bounded_scan (hb.setLookahead capacity) text hreference
  rw [hcapacity] at hscan
  rw [tokenizeText, tokenize, Scan.output]
  generalize (b.setLookahead capacity).build.scan (.ofText text) = scan at hscan ⊢
  cases hscan with
  | fails hfirst => exact .inl ⟨⟨hfirst.overruns, hfirst.first⟩, rfl⟩
  | succeeds hnone => exact .inr ⟨hnone, rfl⟩

/-- The lookahead decides whether a scan of a text succeeds, but not what it commits.  The spans of
the text are the same for every capacity.  A scan fails if and only if more than the capacity
remains behind some span start and as much of it as may be held can still become a match; up to the
first such start it has committed the spans all the same. -/
theorem lookahead_decides_success {b : Builder} (hb : b.Made) (text : String) :
    ∃ spans, (∀ spans', b.build.Reference {} 0 text.toList spans' ↔ spans' = spans) ∧
      ∀ capacity, 1 ≤ capacity →
        ((b.setLookahead capacity).build.tokenizeText text = .error (.lookaheadExceeded capacity) ↔
          ∃ before rest, StartsAt text.toList spans before rest ∧ b.build.Overruns capacity rest) ∧
        ((b.setLookahead capacity).build.tokenizeText text = .error (.lookaheadExceeded capacity) →
          ∃ before, b.build.FirstOverrun capacity text.toList spans before) ∧
        (∀ before, b.build.FirstOverrun capacity text.toList spans before →
          ((b.setLookahead capacity).build.scan (.ofText text)).spans = before ∧
          ((b.setLookahead capacity).build.scan (.ofText text)).errors =
            before.filterMap Span.error?) ∧
        ((¬ ∃ before rest, StartsAt text.toList spans before rest ∧
            b.build.Overruns capacity rest) →
          (b.setLookahead capacity).build.tokenizeText text =
            .ok ⟨spans.filterMap Span.token?, spans.filterMap Span.error?⟩) ∧
        (text.length ≤ capacity →
          ∃ out, (b.setLookahead capacity).build.tokenizeText text = .ok out) ∧
        ∀ capacity' out, capacity ≤ capacity' →
          (b.setLookahead capacity).build.tokenizeText text = .ok out →
          (b.setLookahead capacity').build.tokenizeText text = .ok out := by
  obtain ⟨spans, hspans⟩ := exists_reference (s := b.build) hb.compiled {} 0 text.toList
  refine ⟨spans, fun spans' => ⟨fun h => h.unique hspans, fun h => h ▸ hspans⟩, ?_⟩
  intro capacity hpos
  rcases tokenizeText_setLookahead hb hpos hspans with ⟨hfirst, hfail⟩ | ⟨hnone, hok⟩
  · obtain ⟨rest, hstart, hoverruns⟩ := hfirst.overruns
    refine ⟨iff_of_true hfail ⟨_, rest, hstart, hoverruns⟩, fun _ => ⟨_, hfirst⟩, ?_, ?_, ?_, ?_⟩
    · intro before hbefore
      obtain rfl := hfirst.unique hbefore
      exact ⟨rfl, rfl⟩
    · intro hnot
      exact absurd ⟨_, rest, hstart, hoverruns⟩ hnot
    · intro hle
      have hlength := congrArg List.length hstart.text_eq
      have hlt := hoverruns.1
      rw [String.length_toList, List.length_append] at hlength
      omega
    · intro capacity' out _ hout
      rw [hfail] at hout
      cases hout
  · have hnot : ¬ ∃ before rest, StartsAt text.toList spans before rest ∧
        b.build.Overruns capacity rest := by
      rintro ⟨before, rest, hstart, hoverruns⟩
      exact hnone before rest hstart hoverruns
    have hne : (b.setLookahead capacity).build.tokenizeText text ≠
        .error (.lookaheadExceeded capacity) := by
      rw [hok]
      exact fun heq => by cases heq
    refine ⟨iff_of_false hne hnot, fun hfail => absurd hfail hne, ?_, fun _ => hok,
      fun _ => ⟨_, hok⟩, ?_⟩
    · intro before hfirst
      obtain ⟨rest, hstart, hoverruns⟩ := hfirst.overruns
      exact absurd hoverruns (hnone before rest hstart)
    · -- a start that overruns the larger capacity would overrun the smaller one
      intro capacity' out hle hout
      rw [← hout, hok]
      rcases tokenizeText_setLookahead hb (hpos.trans hle) hspans with ⟨hfirst, -⟩ | ⟨-, hok'⟩
      · obtain ⟨rest, hstart, hoverruns⟩ := hfirst.overruns
        exact absurd (hoverruns.of_le hle) (hnone _ rest hstart)
      · exact hok'

/-- Five characters have to be held for a token of five, whatever has been committed before. -/
theorem lookahead_decides_success_token_of_five :
    let b := (Builder.add {} "A" "aa*").builder
    (b.setLookahead 4).build.tokenizeText "xaaaaa" = .error (.lookaheadExceeded 4) ∧
      (∃ spans before, b.build.Reference {} 0 "xaaaaa".toList spans ∧
        b.build.FirstOverrun 4 "xaaaaa".toList spans before ∧
        before.filterMap Span.error? = [⟨1, 1, "x"⟩]) ∧
      ∀ capacity, 5 ≤ capacity → (b.setLookahead capacity).build.tokenizeText "xaaaaa" =
        .ok ⟨[⟨0, 1, 2, "A", "aaaaa"⟩], [⟨1, 1, "x"⟩]⟩ := by
  intro b
  have hmade : b.Made := Builder.Made.empty.add "A" "aa*"
  have hfail : (b.setLookahead 4).build.tokenizeText "xaaaaa" = .error (.lookaheadExceeded 4) := by
    decide +kernel
  have herrors : ((b.setLookahead 4).build.scan (.ofText "xaaaaa")).errors = [⟨1, 1, "x"⟩] := by
    decide +kernel
  have hok : (b.setLookahead 5).build.tokenizeText "xaaaaa" =
      .ok ⟨[⟨0, 1, 2, "A", "aaaaa"⟩], [⟨1, 1, "x"⟩]⟩ := by
    decide +kernel
  obtain ⟨spans, hspans, hbounded⟩ := lookahead_decides_success hmade "xaaaaa"
  refine ⟨hfail, ?_, ?_⟩
  · obtain ⟨-, hexists, hfirst, -⟩ := hbounded 4 (by decide)
    obtain ⟨before, hbefore⟩ := hexists hfail
    exact ⟨spans, before, (hspans spans).mpr rfl, hbefore, (hfirst before hbefore).2 ▸ herrors⟩
  · intro capacity hle
    obtain ⟨-, -, -, -, -, hlarger⟩ := hbounded 5 (by decide)
    exact hlarger capacity _ hle hok

end Scanner

end MaximalMunch
