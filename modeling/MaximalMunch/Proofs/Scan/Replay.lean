import MaximalMunch.Proofs.Scan.Attempt

/-!
# Scans of any source

`Replay` says what a scan makes of the characters and the reports of the end of input that its
source hands out, however they are mixed.  An attempt goes through the uncommitted text and on into
the source; a span is committed from the front of what it then has in hand, and the rest is scanned
again.  A report ends an attempt like the end of a text does, and the scan if there is nothing to
attempt.  So a scan that ends well has committed all that it has read, in the order of the source.
-/

namespace MaximalMunch

namespace Scanner

/-- The spans of a scan that starts at the given position behind `count` tokens, with uncommitted
text in front of all that it reads from the source. -/
inductive Replay (s : Scanner) :
    Position → Nat → List Char → List (Option Char) → List Span → Prop where
  | done {position : Position} {count : Nat} : Replay s position count [] [none] []
  | span {position : Position} {count : Nat} {pending text w rest : List Char}
      {reads later : List (Option Char)} {span : Span} {spans : List Span}
      (hstop : s.Stop pending reads text) (htext : text = w ++ rest) (hw : w ≠ [])
      (hspan : s.NextSpan position count w rest span)
      (hrest : Replay s (position.advance s.config.lineEnding w) (countBehind count span) rest later
        spans) :
      Replay s position count pending (reads ++ later) (span :: spans)

variable {s : Scanner} {position : Position} {count : Nat} {pending w rest : List Char}
  {reads : List (Option Char)} {span : Span} {spans : List Span} {tape : Tape}

/-- Nothing is lost, repeated or put into another order. -/
theorem Replay.text_eq (h : s.Replay position count pending reads spans) :
    spans.flatMap (·.text.toList) = pending ++ reads.reduceOption := by
  induction h with
  | done => rfl
  | span hstop htext _ hspan _ ih =>
      rw [List.flatMap_cons, ih, hspan.text_eq, String.toList_ofList, ← List.append_assoc, ← htext,
        hstop.text_eq, List.reduceOption_append, List.append_assoc]

/-- No report comes before characters that stand in front of it. -/
theorem exists_front {chars : List Char} {later front back : List (Option Char)}
    (h : chars.map some ++ later = front ++ none :: back) :
    ∃ front', front = chars.map some ++ front' ∧ later = front' ++ none :: back := by
  induction chars generalizing front with
  | nil => exact ⟨front, rfl, h⟩
  | cons c chars ih =>
      cases front with
      | nil => cases (List.cons.inj h).1
      | cons o front =>
          obtain ⟨hc, hrest⟩ := List.cons.inj h
          obtain ⟨front', rfl, hlater⟩ := ih hrest
          exact ⟨front', by rw [← hc]; rfl, hlater⟩

/-- What a report of the end of input does to a scan that has committed `before` and holds
`uncommitted` text: if there is none the scan is over, and if there is some one span is committed
from its front, and what it leaves over is scanned again with what is read behind the report. -/
def Resolves (s : Scanner) (uncommitted : List Char) (back : List (Option Char))
    (after : List Span) : Prop :=
  uncommitted = [] ∧ back = [] ∧ after = [] ∨
    ∃ position count w rest span spans, uncommitted = w ++ rest ∧ w ≠ [] ∧ after = span :: spans ∧
      s.NextSpan position count w rest span ∧
      s.Replay (position.advance s.config.lineEnding w) (countBehind count span) rest back spans

/-- Every report is resolved when it comes. -/
theorem Replay.resolves (h : s.Replay position count pending reads spans)
    {front back : List (Option Char)} (hreads : reads = front ++ none :: back) :
    ∃ before after uncommitted, spans = before ++ after ∧
      pending ++ front.reduceOption = before.flatMap (·.text.toList) ++ uncommitted ∧
      s.Resolves uncommitted back after := by
  induction h generalizing front with
  | done =>
      obtain ⟨rfl, rfl⟩ : front = [] ∧ back = [] := by
        cases front with
        | nil => exact ⟨rfl, (List.cons.inj hreads).2.symm⟩
        | cons o front => simp at hreads
      exact ⟨[], [], [], rfl, rfl, .inl ⟨rfl, rfl, rfl⟩⟩
  | @span position count pending text w rest reads later span spans hstop htext hw hspan hrest ih =>
      -- a report behind the attempt is resolved by the scan of what the attempt leaves over
      have hbehind {front' : List (Option Char)} (hfront : front = reads ++ front')
          (hlater : later = front' ++ none :: back) : ∃ before after uncommitted,
          span :: spans = before ++ after ∧
            pending ++ front.reduceOption = before.flatMap (·.text.toList) ++ uncommitted ∧
            s.Resolves uncommitted back after := by
        obtain ⟨before, after, uncommitted, rfl, hcut, hresolves⟩ := ih hlater
        refine ⟨span :: before, after, uncommitted, rfl, ?_, hresolves⟩
        rw [hfront, List.reduceOption_append, ← List.append_assoc, ← hstop.text_eq, htext,
          List.append_assoc, hcut, List.flatMap_cons, hspan.text_eq, String.toList_ofList,
          List.append_assoc]
      cases hstop with
      | killed =>
          obtain ⟨front', hfront, hlater⟩ := exists_front hreads
          exact hbehind hfront hlater
      | @reported chars hviable =>
          rw [List.append_assoc] at hreads
          obtain ⟨front', hfront, hlater⟩ := exists_front hreads
          cases front' with
          | nil =>
              -- the report that has stopped the attempt
              obtain rfl := (List.cons.inj hlater).2
              refine ⟨[], span :: spans, pending ++ chars, rfl, ?_, ?_⟩
              · rw [hfront]
                simp [List.reduceOption]
              · exact .inr ⟨_, _, w, rest, span, spans, htext, hw, rfl, hspan, hrest⟩
          | cons o front' =>
              obtain ⟨ho, hbehind'⟩ := List.cons.inj hlater
              exact hbehind (by rw [hfront, ← ho]; simp) hbehind'

/-- A scan that ends well is a replay of what it has read. -/
theorem replay_scanFrom (hs : Compiled s.definitions) (htaken : tape.taken = []) {source : Source}
    (h : (s.scanFrom position count tape).outcome = .ok source) :
    ∃ reads, tape.source.Reads reads source ∧
      s.Replay position count tape.held reads (s.scanFrom position count tape).spans := by
  fun_induction scanFrom s position count tape with
  | case1 => cases h
  | case2 position count tape rest hstep =>
      obtain ⟨hheld, hreads⟩ := reads_of_finished hs htaken hstep
      obtain rfl := Except.ok.inj h
      rw [hheld]
      exact ⟨_, hreads, .done⟩
  | case3 position count tape w span rest hstep later =>
      rename_i ih
      obtain ⟨reads, hreads, hstop, hw, hspan⟩ := stop_of_span hs htaken hstep
      obtain ⟨behind, hbehind, hreplay⟩ := ih (taken_of_span hstep) h
      exact ⟨reads ++ behind, hreads.trans hbehind, .span hstop rfl hw hspan hreplay⟩

/-- Every span has a character, and none has more than may be held. -/
theorem length_of_mem_scanFrom (hs : Compiled s.definitions) (htaken : tape.taken = [])
    (hfits : tape.Fits) : ∀ span ∈ (s.scanFrom position count tape).spans,
      1 ≤ span.text.length ∧ span.text.length ≤ tape.capacity := by
  fun_induction scanFrom s position count tape with
  | case1 =>
      intro span hmem
      cases hmem
  | case2 =>
      intro span hmem
      cases hmem
  | case3 position count tape w span rest hstep later =>
      rename_i ih
      obtain ⟨-, -, -, hw, hspan⟩ := stop_of_span hs htaken hstep
      obtain ⟨hrest, hcapacity, hle⟩ := fits_of_span hfits hstep
      intro span' hmem
      rcases List.mem_cons.mp hmem with rfl | hmem
      · rw [hspan.text_eq, String.length_ofList]
        exact ⟨List.length_pos_iff.mpr hw, hle⟩
      · rw [← hcapacity]
        exact ih (taken_of_span hstep) hrest span' hmem

/-- A scan that ends well has read characters and reports of the end of input, the bytes of which
are all that the source has lost, and its spans make up these characters.  It is over with the first
report that comes while nothing is uncommitted, and each one before commits one span of the text
that is uncommitted when it comes. -/
theorem replay_of_scan {b : Builder} (hb : b.Made) {source rest : Source}
    (hscan : (b.build.scan source).outcome = .ok rest) :
    ∃ reads, source.Reads reads rest ∧ b.build.Replay {} 0 [] reads (b.build.scan source).spans ∧
      source.bytes =
        Source.encode ((b.build.scan source).spans.flatMap (·.text.toList)) ++ rest.bytes ∧
      (b.build.scan source).spans.flatMap (·.text.toList) = reads.reduceOption ∧
      (∀ span ∈ (b.build.scan source).spans,
        1 ≤ span.text.length ∧ span.text.length ≤ b.config.lookahead) ∧
      ∀ front back, reads = front ++ none :: back → ∃ before after uncommitted,
        (b.build.scan source).spans = before ++ after ∧
          front.reduceOption = before.flatMap (·.text.toList) ++ uncommitted ∧
          b.build.Resolves uncommitted back after := by
  obtain ⟨reads, hreads, hreplay⟩ := replay_scanFrom hb.compiled rfl hscan
  have htext : (b.build.scan source).spans.flatMap (·.text.toList) = reads.reduceOption :=
    hreplay.text_eq
  refine ⟨reads, hreads, hreplay, ?_, htext, ?_, ?_⟩
  · rw [htext]
    exact hreads.bytes_eq
  · exact length_of_mem_scanFrom hb.compiled rfl (.ofSource _ _)
  · intro front back hcut
    exact hreplay.resolves hcut

/-- The first report comes behind `aba` and commits `ab`; the `a` that is left over becomes a token
with the `b` behind the report. -/
theorem replay_of_scan_report_between :
    let b := ((Builder.add {} "AB" "ab").builder.add "ABABD" "ababd").builder
    let source : Source := [.chunk [97, 98, 97], .chunk [], .interrupt, .chunk [98]]
    (b.build.scan source).outcome = .ok [] ∧
      (b.build.scan source).spans =
        [.token ⟨0, 1, 1, "AB", "ab"⟩, .token ⟨1, 1, 3, "AB", "ab"⟩] ∧
      ∃ reads, source.Reads reads [] ∧
        b.build.Replay {} 0 [] reads (b.build.scan source).spans ∧
        reads.reduceOption = ['a', 'b', 'a', 'b'] := by
  intro b source
  have hmade : b.Made := (Builder.Made.empty.add "AB" "ab").add "ABABD" "ababd"
  have hscan : (b.build.scan source).outcome = .ok [] := by decide +kernel
  have hspans : (b.build.scan source).spans =
      [.token ⟨0, 1, 1, "AB", "ab"⟩, .token ⟨1, 1, 3, "AB", "ab"⟩] := by decide +kernel
  obtain ⟨reads, hreads, hreplay, -, htext, -⟩ := replay_of_scan hmade hscan
  refine ⟨hscan, hspans, reads, hreads, hreplay, ?_⟩
  rw [← htext, hspans]
  decide +kernel

end Scanner

end MaximalMunch
