import MaximalMunch.Proofs.Scan.Delivery
import MaximalMunch.Proofs.Scan.Lookahead
import MaximalMunch.Proofs.Scan.Tandem

/-!
# Sources that break off

A source may hand out the characters of a text and then fail.  The span at the front of a text is
decided by the text alone if some beginning of the text begins no match: no more than that is ever
read for it.  So a scan commits the spans of the reference as long as they are decided, and fails
with the source at the first start where they are not, unless more characters than may be held are
needed before.  What has been committed by then is committed whatever the source does instead of
failing.
-/

namespace MaximalMunch

/-! ## Reading up to a failure -/

/-- A source that hands out the characters of a text and then fails. -/
inductive Source.BreaksOff (e : Error) : Source → List Char → Prop where
  | fails {source : Source} (hnext : source.next = .error e) : BreaksOff e source []
  | reads {source rest : Source} {c : Char} {text : List Char}
      (hnext : source.next = .ok (some c, rest)) (hrest : BreaksOff e rest text) :
      BreaksOff e source (c :: text)

namespace Source

variable {e : Error} {source tail rest : Source} {text unread : List Char} {later : List UInt8}
  {reads : List (Option Char)}

/-- Up to its failure, a source only reads on in the text. -/
theorem BreaksOff.of_reads (h : source.BreaksOff e unread) (hreads : source.Reads reads rest) :
    ∃ chars behind, reads = chars.map some ∧ unread = chars ++ behind ∧ rest.BreaksOff e behind := by
  induction hreads generalizing unread with
  | nil source => exact ⟨[], unread, rfl, rfl, h⟩
  | cons hread _ ih =>
      cases h with
      | fails hnext =>
          rw [hread] at hnext
          cases hnext
      | reads hnext hrest =>
          rw [hread] at hnext
          obtain ⟨rfl, rfl⟩ := Prod.mk.inj (Except.ok.inj hnext)
          obtain ⟨chars, behind, rfl, rfl, hbehind⟩ := ih hrest
          exact ⟨_ :: chars, behind, rfl, rfl, hbehind⟩

/-- A delivery breaks off where the bytes behind a text cannot be read. -/
theorem Delivers.breaksOff (h : Delivers tail source (encode text ++ later))
    (hlater : ∀ source, Delivers tail source later → source.next = .error e) :
    source.BreaksOff e text := by
  induction text generalizing source with
  | nil => exact .fails (hlater source h)
  | cons c text ih =>
      have hbytes : encode (c :: text) ++ later = String.utf8EncodeChar c ++ (encode text ++ later) :=
        List.append_assoc _ _ _
      rw [hbytes] at h
      obtain ⟨rest, hnext, hrest⟩ := h.next_char
      exact .reads hnext (ih hrest)

end Source

namespace Tape

/-- A tape that has a text left to hand out before its source fails. -/
def BreaksOff (e : Error) (t : Tape) (text : List Char) : Prop :=
  ∃ unread, text = t.held ++ unread ∧ t.source.BreaksOff e unread

variable {e : Error} {t : Tape} {text : List Char}

/-- What a read makes of a text that breaks off: the failure comes behind its last character, and
the bound of what may be held comes in between. -/
theorem BreaksOff.next_cases (h : t.BreaksOff e text) (hfits : t.Fits) :
    (t.taken.length = text.length ∧ t.next = .error e) ∨
    (t.taken.length < text.length ∧ t.capacity ≤ t.taken.length ∧
      t.next = .error (.lookaheadExceeded t.capacity)) ∨
    (t.taken.length < t.capacity ∧ ∃ c rest, text[t.taken.length]? = some c ∧
      t.next = .ok (some c, rest) ∧ rest.BreaksOff e text) := by
  obtain ⟨unread, rfl, hsource⟩ := h
  obtain ⟨taken, ahead, capacity, source⟩ := t
  cases ahead with
  | cons c ahead =>
      right; right
      unfold Fits held at hfits
      simp only [List.length_append, List.length_reverse, List.length_cons] at hfits
      refine ⟨by show taken.length < capacity; omega, c, ⟨c :: taken, ahead, capacity, source⟩, ?_, rfl,
        unread, ?_, hsource⟩
      · simp [held]
      · simp [held]
  | nil =>
      cases hsource with
      | fails hnext =>
          left
          refine ⟨by simp [held], ?_⟩
          simp only [Tape.next, hnext]
      | @reads _ rest c unread hnext hrest =>
          right
          by_cases hroom : capacity ≤ taken.length
          · left
            refine ⟨by simp [held], hroom, ?_⟩
            simp only [Tape.next, hnext, if_pos hroom]
          · right
            refine ⟨Nat.lt_of_not_le hroom, c, ⟨c :: taken, [], capacity, rest⟩, ?_, ?_, unread, ?_,
              hrest⟩
            · simp [held]
            · simp only [Tape.next, hnext, if_neg hroom]
            · simp [held]

end Tape

namespace Scanner

variable {s : Scanner} {position : Position} {count : Nat} {text w back rest more : List Char}
  {span : Span} {spans before : List Span} {tape : Tape} {e : Error}

/-! ## Decided spans -/

/-- Some beginning of the text begins no match, so what follows the text does not matter for the
span at its front. -/
def Decided (s : Scanner) (text : List Char) : Prop := ∃ v, v <+: text ∧ v ≠ [] ∧ ¬ s.Viable v

/-- The spans of a text, up to the first start where they are not decided. -/
inductive DecidedSpans (s : Scanner) : Position → Nat → List Char → List Span → Prop where
  | stop {position : Position} {count : Nat} {text : List Char} (hopen : ¬ s.Decided text) :
      DecidedSpans s position count text []
  | span {position : Position} {count : Nat} {text w rest : List Char} {span : Span}
      {spans : List Span} (hdecided : s.Decided text) (htext : text = w ++ rest) (hw : w ≠ [])
      (hspan : s.NextSpan position count w rest span)
      (hrest : DecidedSpans s (position.advance s.config.lineEnding w) (countBehind count span) rest
        spans) :
      DecidedSpans s position count text (span :: spans)

/-- More text behind a start that is decided does not change the span. -/
theorem NextSpan.extend (h : s.NextSpan position count w rest span)
    (hdead : ¬ s.Viable (w ++ rest)) : s.NextSpan position count w (rest ++ more) span := by
  -- what is longer than the text that is decided begins no match
  have hlonger {v : List Char} (hv : v <+: w ++ (rest ++ more)) (hmatch : s.Matches v) :
      v <+: w ++ rest := by
    rw [← List.append_assoc] at hv
    rcases List.prefix_or_prefix_of_prefix hv (List.prefix_append _ _) with hfront | ⟨v', rfl⟩
    · exact hfront
    · exact absurd hmatch.viable.of_append hdead
  cases h with
  | token hd hlongest =>
      exact .token hd fun v hv hlt hmatch => hlongest v (hlonger hv hmatch) hlt hmatch
  | error hnone hviable hend =>
      refine .error (fun v hv hne hmatch => hnone v (hlonger hv hmatch) hne hmatch) hviable ?_
      rcases hend with hend | rfl
      · exact .inl hend
      · rw [List.append_nil] at hdead
        exact .inl hdead

/-- The decided spans are the first ones of the reference. -/
theorem DecidedSpans.prefix_of_reference {all : List Span}
    (h : s.DecidedSpans position count text spans) (hall : s.Reference position count text all) :
    spans <+: all := by
  induction h generalizing all with
  | stop => exact List.nil_prefix
  | span _ htext hw hspan _ ih =>
      cases hall with
      | done => exact absurd (List.append_eq_nil_iff.mp htext.symm).1 hw
      | span htext' hw' hspan' hrest' =>
          obtain ⟨rfl, rfl, rfl⟩ := hspan.unique hspan' hw hw' (htext.symm.trans htext')
          exact List.cons_prefix_cons.mpr ⟨rfl, ih hrest'⟩

theorem DecidedSpans.unique {spans' : List Span} (h : s.DecidedSpans position count text spans)
    (h' : s.DecidedSpans position count text spans') : spans = spans' := by
  induction h generalizing spans' with
  | stop hopen =>
      cases h' with
      | stop => rfl
      | span hdecided => exact absurd hdecided hopen
  | span hdecided htext hw hspan _ ih =>
      cases h' with
      | stop hopen => exact absurd hdecided hopen
      | span _ htext' hw' hspan' hrest' =>
          obtain ⟨rfl, rfl, rfl⟩ := hspan.unique hspan' hw hw' (htext.symm.trans htext')
          rw [ih hrest']

theorem Reference.exists_decidedSpans (h : s.Reference position count text spans) :
    ∃ decided, s.DecidedSpans position count text decided := by
  induction h with
  | done => exact ⟨[], .stop fun ⟨v, hv, hne, _⟩ => hne (List.prefix_nil.mp hv)⟩
  | @span position count text w rest span spans htext hw hspan _ ih =>
      by_cases hdecided : s.Decided text
      · obtain ⟨decided, hrest⟩ := ih
        exact ⟨span :: decided, .span hdecided htext hw hspan hrest⟩
      · exact ⟨[], .stop hdecided⟩

/-- Behind the decided spans, the text is not decided. -/
theorem DecidedSpans.exists_open (h : s.DecidedSpans position count text spans) :
    ∃ rest, StartsAt text spans spans rest ∧ ¬ s.Decided rest := by
  induction h with
  | @stop _ _ text hopen => exact ⟨text, startsAt_nil _ _, hopen⟩
  | @span _ _ text w back span spans _ htext _ hspan _ ih =>
      obtain ⟨rest, hstart, hopen⟩ := ih
      obtain rfl : w = span.text.toList := by rw [hspan.text_eq, String.toList_ofList]
      subst htext
      exact ⟨rest, startsAt_cons_iff.mpr (.inr ⟨spans, rfl, hstart⟩), hopen⟩

/-! ## Attempts and steps up to a failure -/

/-- An attempt that has read characters only has stopped at the last of them. -/
theorem Stop.not_viable_of_chars {reads : List (Option Char)} (h : s.Stop back reads text)
    (hchars : none ∉ reads) : ¬ s.Viable text := by
  cases h with
  | killed _ hdead => exact hdead
  | reported => exact absurd (by simp) hchars

/-- An attempt on a text that breaks off fails by overrunning, or with the source if the text does
not decide what is at its front. -/
theorem run_breaksOff_iff (hs : Compiled s.definitions) (htape : tape.BreaksOff e text)
    (hfits : tape.Fits) {n : Nat} (htaken : tape.taken.length = n) (hpos : 0 < tape.capacity)
    (hviable : n = 0 ∨ s.Viable (text.take n)) {best : Option Match} {e' : Error} :
    Attempt.run (s.lanesAfter (text.take n)) best n tape = .error e' ↔
      e' = .lookaheadExceeded tape.capacity ∧ s.Overruns tape.capacity text ∨
        e' = e ∧ ¬ s.Overruns tape.capacity text ∧ ¬ s.Decided text := by
  have hbound : n ≤ tape.capacity := htaken ▸ hfits.taken_le
  -- on the characters of the text that have not been read in this attempt
  induction hleft : text.length - n using Nat.strongRecOn generalizing n best tape with
  | ind left ih =>
      rcases htape.next_cases hfits with ⟨hlength, hnext⟩ | ⟨hlt, hfull, hnext⟩ |
        ⟨hroom, c, rest, hc, hnext, hrest⟩
      · -- the source fails behind the text, all of which can be held and is viable
        have hnot : ¬ s.Overruns tape.capacity text := fun h => by
          have hlt := h.1
          omega
        have hopen : ¬ s.Decided text := by
          rintro ⟨v, ⟨v', rfl⟩, hne, hdead⟩
          rw [← htaken, hlength, List.take_length] at hviable
          rcases hviable with hzero | hviable
          · rw [List.length_eq_zero_iff, List.append_eq_nil_iff] at hzero
            exact hne hzero.1
          · exact hdead hviable.of_append
        rw [Attempt.run_error hnext, Except.error.injEq, eq_comm]
        simp [hnot, hopen]
      · -- as many characters as may be held do not decide the text, and more remain
        have hcapacity : tape.capacity = n := Nat.le_antisymm (htaken ▸ hfull) hbound
        have hoverruns : s.Overruns tape.capacity text := by
          rw [hcapacity]
          exact ⟨htaken ▸ hlt, hviable.resolve_left (by omega)⟩
        rw [Attempt.run_error hnext, Except.error.injEq, eq_comm]
        simp [hoverruns]
      · rw [htaken] at hc hroom
        have htake : text.take (n + 1) = text.take n ++ [c] := by
          rw [List.take_add_one, hc]
          rfl
        by_cases hnew : s.Viable (text.take n ++ [c])
        · have hcapacity := Tape.capacity_next hnext
          have htaken' : rest.taken.length = n + 1 := by
            rw [Tape.taken_next hnext, List.length_append, htaken]
            exact Nat.add_comm _ _
          have hlt : n < text.length := (List.getElem?_eq_some_iff.mp hc).1
          rw [Attempt.run_viable hs hnext hnew, ← htake, ← hcapacity]
          exact ih _ (by omega) hrest (hfits.next hnext) htaken' (hcapacity ▸ hpos)
            (.inr (htake ▸ hnew)) (hcapacity ▸ hroom) rfl
        · rw [Attempt.run_not_viable hs hnext hnew]
          refine iff_of_false (by simp) ?_
          rintro (⟨-, hoverruns⟩ | ⟨-, -, hopen⟩)
          · exact hnew (htake ▸ (hoverruns.of_le (Nat.succ_le_of_lt hroom)).2)
          · exact hopen ⟨_, List.take_prefix _ _, by simp [htake], htake ▸ hnew⟩

theorem step_breaksOff_iff (hs : Compiled s.definitions) (htape : tape.BreaksOff e text)
    (hfits : tape.Fits) (htaken : tape.taken = []) (hpos : 0 < tape.capacity) {e' : Error} :
    s.step position count tape = .error e' ↔
      e' = .lookaheadExceeded tape.capacity ∧ s.Overruns tape.capacity text ∨
        e' = e ∧ ¬ s.Overruns tape.capacity text ∧ ¬ s.Decided text := by
  rw [step_eq_error_iff hs htaken]
  exact run_breaksOff_iff hs htape hfits (by rw [htaken]; rfl) hpos (.inl rfl)

/-- A step on a text that breaks off commits the span of the reference. -/
theorem step_of_decided (hs : Compiled s.definitions) (htape : tape.BreaksOff e (w ++ back))
    (hfits : tape.Fits) (htaken : tape.taken = []) (hpos : 0 < tape.capacity) (hw : w ≠ [])
    (hspan : s.NextSpan position count w back span)
    (hnot : ¬ s.Overruns tape.capacity (w ++ back)) (hdecided : s.Decided (w ++ back)) :
    ∃ rest, s.step position count tape = .ok (.span w span rest) ∧ rest.BreaksOff e back := by
  cases hstep : s.step position count tape with
  | error e' =>
      rcases (step_breaksOff_iff hs htape hfits htaken hpos).mp hstep with ⟨-, hoverruns⟩ |
        ⟨-, -, hopen⟩
      · exact absurd hoverruns hnot
      · exact absurd hdecided hopen
  | ok step =>
      obtain ⟨unread, htext, hsource⟩ := htape
      cases step with
      | finished rest =>
          obtain ⟨-, hreads⟩ := reads_of_finished hs htaken hstep
          obtain ⟨chars, behind, hchars, -, -⟩ := hsource.of_reads hreads
          cases chars <;> simp at hchars
      | span w' span' rest =>
          obtain ⟨reads, hreads, hstop, hw', hspan'⟩ := stop_of_span hs htaken hstep
          obtain ⟨chars, behind, rfl, rfl, hbehind⟩ := hsource.of_reads hreads
          -- the attempt has stopped at a character, so what it has in hand decides the span
          have hdead : ¬ s.Viable (w' ++ rest.held) := hstop.not_viable_of_chars (by simp)
          have hhand : w' ++ rest.held = tape.held ++ chars := by
            rw [hstop.text_eq]
            simp [List.reduceOption]
          have htext' : w ++ back = w' ++ (rest.held ++ behind) := by
            rw [htext, ← List.append_assoc, ← hhand, List.append_assoc]
          obtain ⟨rfl, rfl, rfl⟩ := hspan.unique (hspan'.extend hdead) hw hw' htext'
          exact ⟨rest, rfl, behind, rfl, hbehind⟩

/-! ## Scans up to a failure -/

/-- What a scan that may hold so many characters makes of a text that breaks off, with the given
decided spans: it fails at the first start that overruns, or there is none and it commits the spans
and fails with the source. -/
inductive Broken (s : Scanner) (capacity : Nat) (e : Error) (text : List Char) (spans : List Span) :
    Scan → Prop where
  | exceeds {before : List Span} (hfirst : s.FirstOverrun capacity text spans before) :
      Broken s capacity e text spans ⟨before, .error (.lookaheadExceeded capacity)⟩
  | fails (hnone : ∀ before rest, StartsAt text spans before rest → ¬ s.Overruns capacity rest) :
      Broken s capacity e text spans ⟨spans, .error e⟩

theorem Broken.cons {capacity : Nat} {scan : Scan}
    (hnot : ¬ s.Overruns capacity (span.text.toList ++ back))
    (h : s.Broken capacity e back spans scan) :
    s.Broken capacity e (span.text.toList ++ back) (span :: spans)
      { scan with spans := span :: scan.spans } := by
  cases h with
  | exceeds hfirst => exact .exceeds (hfirst.cons hnot)
  | fails hnone => exact .fails fun _ _ => not_overruns_cons hnot hnone

theorem broken_scanFrom (hs : Compiled s.definitions) (htape : tape.BreaksOff e text)
    (hfits : tape.Fits) (htaken : tape.taken = []) (hpos : 0 < tape.capacity)
    (h : s.DecidedSpans position count text spans) :
    s.Broken tape.capacity e text spans (s.scanFrom position count tape) := by
  induction h generalizing tape with
  | @stop position count text hopen =>
      by_cases hoverruns : s.Overruns tape.capacity text
      · have hstep : s.step position count tape = .error (.lookaheadExceeded tape.capacity) :=
          (step_breaksOff_iff hs htape hfits htaken hpos).mpr (.inl ⟨rfl, hoverruns⟩)
        rw [scanFrom_error hstep]
        exact .exceeds ⟨⟨text, startsAt_nil _ _, hoverruns⟩, fun _ _ _ _ => Nat.zero_le _⟩
      · have hstep : s.step position count tape = .error e :=
          (step_breaksOff_iff hs htape hfits htaken hpos).mpr (.inr ⟨rfl, hoverruns, hopen⟩)
        rw [scanFrom_error hstep]
        refine .fails fun before rest hstart => ?_
        obtain rfl := List.prefix_nil.mp hstart.front
        obtain rfl : text = rest := hstart.text_eq
        exact hoverruns
  | @span position count text w back span spans hdecided htext hw hspan _ ih =>
      by_cases hoverruns : s.Overruns tape.capacity text
      · have hstep : s.step position count tape = .error (.lookaheadExceeded tape.capacity) :=
          (step_breaksOff_iff hs htape hfits htaken hpos).mpr (.inl ⟨rfl, hoverruns⟩)
        rw [scanFrom_error hstep]
        exact .exceeds ⟨⟨text, startsAt_nil _ _, hoverruns⟩, fun _ _ _ _ => Nat.zero_le _⟩
      · obtain rfl : w = span.text.toList := by rw [hspan.text_eq, String.toList_ofList]
        subst htext
        obtain ⟨rest, hstep, hback⟩ :=
          step_of_decided hs htape hfits htaken hpos hw hspan hoverruns hdecided
        obtain ⟨hfits', hcapacity, -⟩ := fits_of_span hfits hstep
        have hlater := ih hback hfits' (taken_of_span hstep) (hcapacity ▸ hpos)
        rw [hcapacity] at hlater
        rw [scanFrom_span hstep]
        exact hlater.cons hoverruns

/-- Sources that go the same way until the first of them fails. -/
def SharesFront (source source' : Source) : Prop :=
  ∃ (events : Source) (message : String) (behind others : Source),
    source = events ++ .failure message :: behind ∧ source' = events ++ others

theorem tandem_sharesFront : Source.Tandem False SharesFront := by
  rintro _ _ ⟨events, message, behind, others, rfl, rfl⟩
  induction events with
  | nil => exact .error False.elim
  | cons event events ih =>
      cases event with
      | chunk bytes =>
          cases bytes with
          | nil => exact .ok ⟨rfl, events, message, behind, others, rfl, rfl⟩
          | cons b bytes =>
              cases bytes with
              | nil => exact .ok ⟨rfl, events, message, behind, others, rfl, rfl⟩
              | cons b' bytes =>
                  exact .ok ⟨rfl, .chunk (b' :: bytes) :: events, message, behind, others, rfl, rfl⟩
      | interrupt => exact ih
      | failure message' => exact .error False.elim

/-- A scan of a text that is followed by a failure fails, with the source or because more characters
than may be held would be needed at some start before.  The spans that it commits are those of the
reference that are decided, unless it has failed before the first start that is not.  Whatever a
source does, the errors that are reported before a failure are reported, too, if other events take
the place of the failure.  Every error is reported with its line, in the same order. -/
theorem errors_before_failure {b : Builder} (hb : b.Made) :
    (∀ (text : String) (events : Source) (message : String) (behind : Source),
      events.Undisturbed → events.bytes = text.toUTF8.toList →
      ∃ spans, (∀ spans', b.build.DecidedSpans {} 0 text.toList spans' ↔ spans' = spans) ∧
        (∀ all, b.build.Reference {} 0 text.toList all → spans <+: all) ∧
        let source := events ++ .failure message :: behind
        (b.build.tokenize source = .error (.lookaheadExceeded b.config.lookahead) ∧
          b.build.FirstOverrun b.config.lookahead text.toList spans (b.build.scan source).spans) ∨
        (b.build.tokenize source = .error (.sourceUnavailable (.failed message)) ∧
          (∀ before rest, StartsAt text.toList spans before rest →
            ¬ b.build.Overruns b.config.lookahead rest) ∧
          (b.build.scan source).spans = spans ∧
          (b.build.scan source).errors = spans.filterMap Span.error?)) ∧
    (∀ (events : Source) (message : String) (behind others : Source),
      (b.build.scan (events ++ .failure message :: behind)).errors <+:
          (b.build.scan (events ++ others)).errors ∧
        (b.build.scan (events ++ .failure message :: behind)).records <+:
          (b.build.scan (events ++ others)).records) ∧
    ∀ source, (b.build.scan source).records =
      (b.build.scan source).errors.map fun error => .warn error.line := by
  refine ⟨?_, ?_, fun _ => rfl⟩
  · intro text events message behind hevents hbytes
    obtain ⟨all, hall⟩ := exists_reference (s := b.build) hb.compiled {} 0 text.toList
    obtain ⟨spans, hspans⟩ := hall.exists_decidedSpans
    refine ⟨spans, fun spans' => ⟨fun h => h.unique hspans, fun h => h ▸ hspans⟩,
      fun all hall => hspans.prefix_of_reference hall, ?_⟩
    intro source
    have hsource : source.BreaksOff (.sourceUnavailable (.failed message)) text.toList := by
      have hdelivers := hevents.delivers (.failure message :: behind)
      rw [hbytes, Source.toList_toUTF8, ← List.append_nil (Source.encode _)] at hdelivers
      exact hdelivers.breaksOff fun source hnil => hnil.next_nil
    have hbroken : b.build.Broken b.config.lookahead (.sourceUnavailable (.failed message))
        text.toList spans (b.build.scan source) :=
      broken_scanFrom hb.compiled ⟨text.toList, rfl, hsource⟩ (.ofSource _ _) rfl hb.lookahead_pos
        hspans
    unfold tokenize Scan.output
    generalize b.build.scan source = scan at hbroken
    cases hbroken with
    | exceeds hfirst => exact .inl ⟨rfl, hfirst⟩
    | fails hnone => exact .inr ⟨rfl, hnone, rfl, rfl⟩
  · intro events message behind others
    have herrors := (b.build.follows_scan tandem_sharesFront
      ⟨events, message, behind, others, rfl, rfl⟩).prefix_errors
    exact ⟨herrors, herrors.map _⟩

/-- The `x` is an error whatever follows, but `ab` could become a longer match. -/
theorem errors_before_failure_open_match :
    let b := ((Builder.add {} "AB" "ab").builder.add "ABABD" "ababd").builder
    let events : Source := [.chunk [120, 97], .interrupt, .chunk [98]]
    b.build.tokenize (events ++ [.failure "gone"]) = .error (.sourceUnavailable (.failed "gone")) ∧
      (∃ spans, b.build.DecidedSpans {} 0 "xab".toList spans ∧
        spans.filterMap Span.error? = [⟨1, 1, "x"⟩]) ∧
      ∀ others, [⟨1, 1, "x"⟩] <+: (b.build.scan (events ++ others)).errors := by
  intro b events
  have hmade : b.Made := (Builder.Made.empty.add "AB" "ab").add "ABABD" "ababd"
  have hfail : b.build.tokenize (events ++ [.failure "gone"]) =
      .error (.sourceUnavailable (.failed "gone")) := by
    decide +kernel
  have herrors : (b.build.scan (events ++ [.failure "gone"])).errors = [⟨1, 1, "x"⟩] := by
    decide +kernel
  obtain ⟨hdecided, hkept, -⟩ := errors_before_failure hmade
  obtain ⟨spans, hspans, -, hscan⟩ :=
    hdecided "xab" events "gone" [] (by simp [events, Source.Undisturbed]) (by decide +kernel)
  refine ⟨hfail, ⟨spans, (hspans spans).mpr rfl, ?_⟩, ?_⟩
  · rcases hscan with ⟨hexceeded, -⟩ | ⟨-, -, -, hreported⟩
    · rw [hfail] at hexceeded
      cases hexceeded
    · exact hreported.symm.trans herrors
  · intro others
    exact herrors ▸ (hkept events "gone" [] others).1

end Scanner

end MaximalMunch
