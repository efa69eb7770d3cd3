import MaximalMunch.Proofs.Scan.Lookahead

/-!
# Spans on their own

A span is found with more of the text behind it, often after reading further than its end.  None of
that has a say in what the span is: the text of a span, scanned on its own, is the one span that it
was, and it needs no more lookahead than it needed there.
-/

namespace MaximalMunch

/-- The span that has the same text at the start of a scan. -/
def Span.atStart : Span → Span
  | .token t => .token ⟨0, 1, 1, t.type, t.lexeme⟩
  | .error e => .error ⟨1, 1, e.text⟩

theorem Span.text_atStart (span : Span) : span.atStart.text = span.text := by
  cases span <;> rfl

namespace Scanner

variable {s : Scanner} {position : Position} {count capacity : Nat} {text w rest : List Char}
  {span : Span} {spans : List Span}

/-! ## One span -/

/-- What follows a span has no say in it, and neither has what is in front of it. -/
theorem NextSpan.atStart (h : s.NextSpan position count w rest span) :
    s.NextSpan {} 0 w [] span.atStart := by
  have hfront {v : List Char} (hv : v <+: w ++ []) : v <+: w := by
    rwa [List.append_nil] at hv
  cases h with
  | token hd _ =>
      apply NextSpan.token hd
      -- no beginning of the text is longer than the text
      intro v hv hlt
      have hle := (hfront hv).length_le
      omega
  | error hnone hviable _ =>
      apply NextSpan.error _ hviable (.inr rfl)
      intro v hv hne
      exact hnone v ((hfront hv).trans (List.prefix_append w rest)) hne

theorem NextSpan.reference_alone (hw : w ≠ []) (h : s.NextSpan position count w rest span) :
    s.Reference {} 0 w [span.atStart] :=
  .span (List.append_nil w).symm hw h.atStart .done

/-- More text behind a start that overruns changes nothing. -/
theorem Overruns.append (h : s.Overruns capacity w) (rest : List Char) :
    s.Overruns capacity (w ++ rest) := by
  obtain ⟨hlt, hviable⟩ := h
  constructor
  · rw [List.length_append]
    omega
  · rwa [List.take_append_of_le_length (Nat.le_of_lt hlt)]

/-- Every span of a reference scan starts somewhere in the text. -/
theorem Reference.exists_nextSpan (h : s.Reference position count text spans)
    (hspan : span ∈ spans) : ∃ position count before w rest, w ≠ [] ∧
      s.NextSpan position count w rest span ∧ StartsAt text spans before (w ++ rest) := by
  induction h with
  | done => cases hspan
  | @span position count text w rest first spans htext hw hfirst _ ih =>
      rcases List.mem_cons.mp hspan with rfl | hspan
      · rw [htext]
        exact ⟨position, count, [], w, rest, hw, hfirst, startsAt_nil _ _⟩
      · obtain ⟨position', count', before, w', rest', hw', hspan', hstart⟩ := ih hspan
        refine ⟨position', count', first :: before, w', rest', hw', hspan', ?_⟩
        have hfront : w = first.text.toList := by rw [hfirst.text_eq, String.toList_ofList]
        rw [htext, hfront]
        exact startsAt_cons_iff.mpr (.inr ⟨before, rfl, hstart⟩)

/-! ## Whole scans -/

/-- A scan of a text that succeeds has the spans of the reference, and no span overruns. -/
theorem reference_of_output {b : Builder} (hb : b.Made) {text : String} {out : Output}
    (hout : b.build.tokenizeText text = .ok out) : ∃ spans,
      b.build.Reference {} 0 text.toList spans ∧
      (∀ before rest, StartsAt text.toList spans before rest →
        ¬ b.build.Overruns b.config.lookahead rest) ∧
      out = ⟨spans.filterMap Span.token?, spans.filterMap Span.error?⟩ := by
  obtain ⟨spans, hspans⟩ := exists_reference (s := b.build) hb.compiled {} 0 text.toList
  refine ⟨spans, hspans, ?_⟩
  have hbounded := bounded_scan hb text hspans
  rw [tokenizeText, tokenize, Scan.output] at hout
  generalize b.build.scan (.ofText text) = scan at hbounded hout
  cases hbounded with
  | fails _ => cases hout
  | succeeds hnone => exact ⟨hnone, (Except.ok.inj hout).symm⟩

/-- Of a text that is a single span, only the start can overrun. -/
theorem not_overruns_of_startsAt_single {before : List Span} (hw : span.text.toList = w)
    (hnot : ¬ s.Overruns capacity w) (hstart : StartsAt w [span] before rest) :
    ¬ s.Overruns capacity rest := by
  have htext : w = span.text.toList ++ [] := by rw [hw, List.append_nil]
  rw [htext] at hstart
  rcases startsAt_cons_iff.mp hstart with ⟨-, rfl⟩ | ⟨behind, -, hbehind⟩
  · rwa [← htext]
  · -- behind the span nothing is left
    have hnil := hbehind.text_eq.symm
    rw [List.append_eq_nil_iff] at hnil
    rw [hnil.2]
    rintro ⟨hlt, -⟩
    exact Nat.not_lt_zero _ hlt

theorem tokenizeText_of_single {b : Builder} (hb : b.Made) {text : String}
    (h : b.build.Reference {} 0 text.toList [span]) (htext : span.text = text)
    (hnot : ¬ b.build.Overruns b.config.lookahead text.toList) :
    b.build.tokenizeText text = .ok ⟨[span].filterMap Span.token?, [span].filterMap Span.error?⟩ := by
  have hbounded := bounded_scan hb text h
  rw [tokenizeText, tokenize, Scan.output]
  generalize b.build.scan (.ofText text) = scan at hbounded ⊢
  cases hbounded with
  | succeeds _ => rfl
  | fails hfirst =>
      obtain ⟨rest, hstart, hoverruns⟩ := hfirst.overruns
      have hw : span.text.toList = text.toList := congrArg String.toList htext
      exact absurd hoverruns (not_overruns_of_startsAt_single hw hnot hstart)

/-- The text of every span of a scan that succeeds is one span, the same, when it is scanned on its
own. -/
theorem tokenizeText_of_mem {b : Builder} (hb : b.Made) {text : String}
    (h : b.build.Reference {} 0 text.toList spans)
    (hnone : ∀ before rest, StartsAt text.toList spans before rest →
      ¬ b.build.Overruns b.config.lookahead rest) (hspan : span ∈ spans) :
    b.build.tokenizeText span.text =
      .ok ⟨[span.atStart].filterMap Span.token?, [span.atStart].filterMap Span.error?⟩ := by
  obtain ⟨position, count, before, w, rest, hw, hnext, hstart⟩ := h.exists_nextSpan hspan
  have htext : span.text.toList = w := by rw [hnext.text_eq, String.toList_ofList]
  apply tokenizeText_of_single hb
  · rw [htext]
    exact hnext.reference_alone hw
  · exact span.text_atStart
  · -- an overrun at the front of the span's text would be one where the span stands
    rw [htext]
    intro hoverruns
    exact hnone before (w ++ rest) hstart (hoverruns.append rest)

/-- Every span stands on its own.  Where a scan of a text succeeds, the lexeme of each of its tokens
is scanned with the same scanner to one token of the same type, and the text of each of its lexical
errors to one lexical error. -/
theorem spans_stand_alone {b : Builder} (hb : b.Made) {text : String} {out : Output}
    (hout : b.build.tokenizeText text = .ok out) :
    (∀ t ∈ out.tokens,
      b.build.tokenizeText t.lexeme = .ok ⟨[⟨0, 1, 1, t.type, t.lexeme⟩], []⟩) ∧
    ∀ e ∈ out.errors, b.build.tokenizeText e.text = .ok ⟨[], [⟨1, 1, e.text⟩]⟩ := by
  obtain ⟨spans, hspans, hnone, rfl⟩ := reference_of_output hb hout
  constructor
  · intro t ht
    obtain ⟨span, hspan, htoken⟩ := List.mem_filterMap.mp ht
    cases span with
    | error e => cases htoken
    | token t' =>
        obtain rfl := Option.some.inj htoken
        exact tokenizeText_of_mem hb hspans hnone hspan
  · intro e he
    obtain ⟨span, hspan, herror⟩ := List.mem_filterMap.mp he
    cases span with
    | token t => cases herror
    | error e' =>
        obtain rfl := Option.some.inj herror
        exact tokenizeText_of_mem hb hspans hnone hspan

/-- The error ends with a character that is read for nothing else, and the last two characters are
read together before the end of the text makes a token of each. -/
theorem spans_stand_alone_given_back :
    let b := ((Builder.add {} "LONG" "aab").builder.add "SHORT" "a|bc").builder
    b.build.tokenizeText "baaabaa" = .ok ⟨[⟨0, 1, 3, "LONG", "aab"⟩, ⟨1, 1, 6, "SHORT", "a"⟩,
        ⟨2, 1, 7, "SHORT", "a"⟩], [⟨1, 1, "ba"⟩]⟩ ∧
      b.build.tokenizeText "a" = .ok ⟨[⟨0, 1, 1, "SHORT", "a"⟩], []⟩ ∧
      b.build.tokenizeText "ba" = .ok ⟨[], [⟨1, 1, "ba"⟩]⟩ := by
  intro b
  have hmade : b.Made := (Builder.Made.empty.add "LONG" "aab").add "SHORT" "a|bc"
  have hout : b.build.tokenizeText "baaabaa" = .ok ⟨[⟨0, 1, 3, "LONG", "aab"⟩,
      ⟨1, 1, 6, "SHORT", "a"⟩, ⟨2, 1, 7, "SHORT", "a"⟩], [⟨1, 1, "ba"⟩]⟩ := by
    decide +kernel
  obtain ⟨htokens, herrors⟩ := spans_stand_alone hmade hout
  exact ⟨hout, htokens ⟨2, 1, 7, "SHORT", "a"⟩ (by simp), herrors ⟨1, 1, "ba"⟩ (by simp)⟩

end Scanner

end MaximalMunch
