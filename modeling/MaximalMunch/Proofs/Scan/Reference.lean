import MaximalMunch.Proofs.Scan.Lanes
import MaximalMunch.Proofs.Scan.Text

/-!
# The reference scan

`Reference` says which spans a scan of a text has to commit, without a word about lanes, tapes or
rewinding: the longest match at the front of the text, of the first definition that has it, or
else the shortest beginning of the text with which no match begins.  The scan of a text that ends
well commits these spans and no others.
-/

namespace MaximalMunch

namespace Scanner

/-- Whether `span` is what has to be committed for `w` at the front of a text; `rest` is the text
behind it. -/
inductive NextSpan (s : Scanner) (position : Position) (count : Nat) (w rest : List Char) :
    Span → Prop where
  | token {d : Definition} (hd : s.winner? w = some d)
      (hlongest : ∀ v, v <+: w ++ rest → w.length < v.length → ¬ s.Matches v) :
      NextSpan s position count w rest
        (.token ⟨count, position.row, position.col, d.type, .ofList w⟩)
  | error (hnone : ∀ v, v <+: w ++ rest → v ≠ [] → ¬ s.Matches v)
      (hviable : ∀ v, v <+: w → v ≠ [] → v ≠ w → s.Viable v) (hend : ¬ s.Viable w ∨ rest = []) :
      NextSpan s position count w rest (.error ⟨position.row, position.col, .ofList w⟩)

/-- The spans of a text that starts at the given position behind `count` tokens. -/
inductive Reference (s : Scanner) : Position → Nat → List Char → List Span → Prop where
  | done {position count} : Reference s position count [] []
  | span {position count text w rest span spans} (htext : text = w ++ rest) (hw : w ≠ [])
      (hspan : s.NextSpan position count w rest span)
      (hrest : Reference s (position.advance s.config.lineEnding w) (countBehind count span) rest
        spans) :
      Reference s position count text (span :: spans)

variable {s : Scanner} {position : Position} {count : Nat} {w rest w' rest' : List Char}
  {span span' : Span}

theorem NextSpan.text_eq (h : s.NextSpan position count w rest span) : span.text = .ofList w := by
  cases h <;> rfl

/-! ## The reference scan is determined -/

/-- The span at the front of a text is not longer than any other that could be there. -/
theorem NextSpan.length_le (h : s.NextSpan position count w rest span)
    (h' : s.NextSpan position count w' rest' span') (hw : w ≠ []) (hw' : w' ≠ [])
    (htext : w ++ rest = w' ++ rest') : w'.length ≤ w.length := by
  by_contra hlt
  rw [not_le] at hlt
  -- `w` lies properly inside `w'`, so what the one rules out the other contains
  have hfront : w <+: w' :=
    List.prefix_of_prefix_length_le (List.prefix_append w rest) (htext ▸ List.prefix_append w' rest')
      (Nat.le_of_lt hlt)
  have hne : w ≠ w' := fun heq => Nat.lt_irrefl _ (heq ▸ hlt)
  have hback : w' <+: w ++ rest := htext ▸ List.prefix_append w' rest'
  cases h' with
  | token hd' =>
      cases h with
      | token _ hlongest => exact hlongest w' hback hlt (Matches.of_winner? hd')
      | error hnone => exact hnone w' hback hw' (Matches.of_winner? hd')
  | error hnone' hviable' _ =>
      cases h with
      | token hd => exact hnone' w (htext ▸ List.prefix_append w rest) hw (Matches.of_winner? hd)
      | error _ _ hend =>
          rcases hend with hend | rfl
          · exact hend (hviable' w hfront hw hne)
          · -- `w` is the whole text, and nothing is longer
            have hlength := congrArg List.length htext
            simp at hlength
            omega

theorem NextSpan.unique (h : s.NextSpan position count w rest span)
    (h' : s.NextSpan position count w' rest' span') (hw : w ≠ []) (hw' : w' ≠ [])
    (htext : w ++ rest = w' ++ rest') : w = w' ∧ rest = rest' ∧ span = span' := by
  have hlength : w.length = w'.length :=
    Nat.le_antisymm (h'.length_le h hw' hw htext.symm) (h.length_le h' hw hw' htext)
  obtain ⟨rfl, rfl⟩ := List.append_inj htext hlength
  refine ⟨rfl, rfl, ?_⟩
  cases h with
  | token hd =>
      cases h' with
      | token hd' =>
          obtain rfl := Option.some.inj (hd.symm.trans hd')
          rfl
      | error hnone => exact absurd (Matches.of_winner? hd) (hnone w (List.prefix_append w rest) hw)
  | error hnone =>
      cases h' with
      | token hd => exact absurd (Matches.of_winner? hd) (hnone w (List.prefix_append w rest) hw)
      | error => rfl

theorem Reference.unique {text : List Char} {spans spans' : List Span}
    (h : s.Reference position count text spans) (h' : s.Reference position count text spans') :
    spans = spans' := by
  induction h generalizing spans' with
  | done =>
      cases h' with
      | done => rfl
      | span htext hw => exact absurd (List.append_eq_nil_iff.mp htext.symm).1 hw
  | span htext hw hspan _ ih =>
      cases h' with
      | done => exact absurd (List.append_eq_nil_iff.mp htext.symm).1 hw
      | span htext' hw' hspan' hrest' =>
          obtain ⟨rfl, rfl, rfl⟩ := hspan.unique hspan' hw hw' (htext.symm.trans htext')
          rw [ih hrest']

end Scanner

/-! ## Attempts on a text -/

namespace Attempt

/-- The best match among the first `n` characters of a text. -/
inductive Best (s : Scanner) (text : List Char) (n : Nat) : Option Match → Prop where
  | none (hnone : ∀ k, 0 < k → k ≤ n → ¬ s.Matches (text.take k)) : Best s text n none
  | some {m : Match} {d : Definition} (hle : m.length ≤ n)
      (hd : s.winner? (text.take m.length) = some d) (hid : d.id = m.id)
      (hlater : ∀ k, m.length < k → k ≤ n → ¬ s.Matches (text.take k)) : Best s text n (some m)

/-- What an attempt has to find at the front of a text. -/
inductive Settled (s : Scanner) (text : List Char) : Verdict → Prop where
  | finished (htext : text = []) : Settled s text .finished
  | found {m : Match} (hbest : Best s text text.length (some m)) : Settled s text (.found m)
  | unmatched {n : Nat} {pos : 0 < n} (hbest : Best s text text.length none)
      (hle : n ≤ text.length) (hviable : ∀ k, 0 < k → k < n → s.Viable (text.take k))
      (hend : ¬ s.Viable (text.take n) ∨ n = text.length) : Settled s text (.unmatched n pos)

variable {s : Scanner} {text : List Char} {n : Nat} {best : Option Match} {tape rest : Tape}
  {verdict : Verdict}

/-- Characters behind which nothing matches leave the best match as it is. -/
theorem Best.extend {n' : Nat} (h : Best s text n best) (hle : n ≤ n')
    (hnone : ∀ k, n < k → k ≤ n' → ¬ s.Matches (text.take k)) : Best s text n' best := by
  cases h with
  | none hbefore =>
      apply Best.none
      intro k hpos hk
      by_cases hkn : k ≤ n
      · exact hbefore k hpos hkn
      · exact hnone k (by omega) hk
  | some hm hd hid hlater =>
      apply Best.some (hm.trans hle) hd hid
      intro k hlt hk
      by_cases hkn : k ≤ n
      · exact hlater k hlt hkn
      · exact hnone k (by omega) hk

theorem Best.improve (h : Best s text n best) :
    Best s text (n + 1)
      (Attempt.improve (s.lanesAfter (text.take (n + 1))) best (n + 1) n.succ_pos) := by
  rw [Scanner.improve_lanesAfter]
  cases hd : s.winner? (text.take (n + 1)) with
  | some d =>
      refine Best.some (m := ⟨n + 1, d.id, n.succ_pos⟩) (Nat.le_refl _) hd rfl ?_
      intro k hlt hk
      exact absurd (hlt.trans_le hk) (Nat.lt_irrefl _)
  | none =>
      apply h.extend n.le_succ
      intro k hlt hk
      obtain rfl : k = n + 1 := by omega
      exact Scanner.winner?_eq_none_iff.mp hd

theorem settled_conclude {pos : 0 < n} (hbest : Best s text text.length best)
    (hle : n ≤ text.length) (hviable : ∀ k, 0 < k → k < n → s.Viable (text.take k))
    (hend : ¬ s.Viable (text.take n) ∨ n = text.length) :
    Settled s text (conclude best n pos) := by
  cases best with
  | none => exact .unmatched hbest hle hviable hend
  | some m => exact .found hbest

/-- The end of the text ends an attempt. -/
theorem settled_of_end {pos : 0 < n} (hbest : Best s text n best) (hlength : n = text.length)
    (hviable : ∀ k, 0 < k → k ≤ n → s.Viable (text.take k)) :
    Settled s text (conclude best n pos) := by
  refine settled_conclude (hlength ▸ hbest) (Nat.le_of_eq hlength) ?_ (.inr hlength)
  intro k hpos hk
  exact hviable k hpos (Nat.le_of_lt hk)

/-- The first character behind which no match is possible ends an attempt, too. -/
theorem settled_of_not_viable (hbest : Best s text n best) (hlt : n < text.length)
    (hviable : ∀ k, 0 < k → k ≤ n → s.Viable (text.take k))
    (hdead : ¬ s.Viable (text.take (n + 1))) :
    Settled s text (conclude best (n + 1) n.succ_pos) := by
  -- nothing that goes on from the last character read can match
  have hnone : ∀ k, n < k → k ≤ text.length → ¬ s.Matches (text.take k) := by
    intro k hk _ hmatch
    obtain ⟨v, hv⟩ := List.take_prefix_take_left (l := text) (Nat.succ_le_of_lt hk)
    exact hdead (Scanner.Viable.of_append (hv ▸ hmatch.viable))
  refine settled_conclude (hbest.extend (Nat.le_of_lt hlt) hnone) hlt ?_ (.inl hdead)
  intro k hpos hk
  exact hviable k hpos (Nat.le_of_lt_succ hk)

/-- An attempt that has read the first `n` characters of a text, all of them viable, settles what is
at the front of the text. -/
theorem settled_run (hs : Compiled s.definitions) (htape : tape.Holds text)
    (htaken : tape.taken.length = n) (hle : n ≤ text.length)
    (hviable : ∀ k, 0 < k → k ≤ n → s.Viable (text.take k)) (hbest : Best s text n best)
    (hrun : run (s.lanesAfter (text.take n)) best n tape = .ok (verdict, rest)) :
    Settled s text verdict ∧ rest.Holds text := by
  -- on the characters of the text that have not been read in this attempt
  induction hleft : text.length - n using Nat.strongRecOn generalizing n best tape with
  | ind left ih =>
      cases hnext : tape.next with
      | error e =>
          rw [run_error hnext] at hrun
          cases hrun
      | ok read =>
          obtain ⟨c, middle⟩ := read
          obtain ⟨hc, hmiddle, hread⟩ := htape.next hnext
          rw [htaken] at hc
          cases c with
          | none =>
              have hlength : n = text.length :=
                Nat.le_antisymm hle (List.getElem?_eq_none_iff.mp hc.symm)
              rw [run_end hnext] at hrun
              split at hrun
              · next hzero =>
                  obtain ⟨rfl, rfl⟩ := Prod.mk.inj (Except.ok.inj hrun)
                  exact ⟨.finished (List.length_eq_zero_iff.mp (hlength ▸ hzero)), hmiddle⟩
              · obtain ⟨rfl, rfl⟩ := Prod.mk.inj (Except.ok.inj hrun)
                exact ⟨settled_of_end hbest hlength hviable, hmiddle⟩
          | some c =>
              have hlt : n < text.length := (List.getElem?_eq_some_iff.mp hc.symm).1
              have htake : text.take (n + 1) = text.take n ++ [c] := by
                rw [List.take_add_one, ← hc]
                rfl
              by_cases hnew : s.Viable (text.take n ++ [c])
              · rw [run_viable hs hnext hnew, ← htake] at hrun
                refine ih _ (by omega) hmiddle ?_ hlt ?_ hbest.improve hrun rfl
                · rw [hread]
                  simp [htaken]
                · intro k hpos hk
                  by_cases hkn : k ≤ n
                  · exact hviable k hpos hkn
                  · obtain rfl : k = n + 1 := by omega
                    rwa [htake]
              · rw [run_not_viable hs hnext hnew] at hrun
                obtain ⟨rfl, rfl⟩ := Prod.mk.inj (Except.ok.inj hrun)
                exact ⟨settled_of_not_viable hbest hlt hviable (htake ▸ hnew), hmiddle⟩

end Attempt

/-! ## Scans of a text -/

namespace Scanner

variable {s : Scanner} {position : Position} {count : Nat} {text w : List Char} {span : Span}
  {tape rest : Tape}

theorem not_matches_of_prefix {n : Nat} {v : List Char}
    (hnone : ∀ k, n < k → k ≤ text.length → ¬ s.Matches (text.take k)) (hv : v <+: text)
    (hlt : n < v.length) : ¬ s.Matches v := by
  have hmatch := hnone v.length hlt hv.length_le
  rwa [← List.prefix_iff_eq_take.mp hv] at hmatch

theorem take_ne_nil_of_le {n : Nat} (hle : n ≤ text.length) (hpos : 0 < n) : text.take n ≠ [] := by
  intro hnil
  have hlength := List.length_take_of_le hle
  rw [hnil, List.length_nil] at hlength
  omega

theorem nextSpan_found (hs : Compiled s.definitions) {m : Match} {d : Definition}
    (hbest : Attempt.Best s text text.length (some m)) (hd : s.definitions[m.id]? = some d) :
    text.take m.length ≠ [] ∧
      s.NextSpan position count (text.take m.length) (text.drop m.length)
        (.token ⟨count, position.row, position.col, d.type, .ofList (text.take m.length)⟩) := by
  cases hbest with
  | @some _ winner hle hwinner hid hlater =>
      -- the number of the match leads back to the definition that has won
      have hget := getElem?_winner? hs hwinner
      rw [hid, hd] at hget
      obtain rfl := Option.some.inj hget
      refine ⟨take_ne_nil_of_le hle m.length_pos, .token hwinner ?_⟩
      intro v hv hlt
      rw [List.take_append_drop] at hv
      rw [List.length_take_of_le hle] at hlt
      exact not_matches_of_prefix hlater hv hlt

theorem nextSpan_unmatched {n : Nat} {pos : 0 < n}
    (h : Attempt.Settled s text (.unmatched n pos)) :
    text.take n ≠ [] ∧ s.NextSpan position count (text.take n) (text.drop n)
      (.error ⟨position.row, position.col, .ofList (text.take n)⟩) := by
  cases h with
  | unmatched hbest hle hviable hend =>
      cases hbest with
      | none hnone =>
          have hlength := List.length_take_of_le hle
          refine ⟨take_ne_nil_of_le hle pos, .error ?_ ?_ ?_⟩
          · intro v hv hne
            rw [List.take_append_drop] at hv
            exact not_matches_of_prefix hnone hv (List.length_pos_iff.mpr hne)
          · intro v hv hne hproper
            have hlt : v.length < n := by
              apply Nat.lt_of_le_of_ne (hlength ▸ hv.length_le)
              intro heq
              exact hproper (hv.eq_of_length (heq.trans hlength.symm))
            have hviable' := hviable v.length (List.length_pos_iff.mpr hne) hlt
            rwa [← List.prefix_iff_eq_take.mp (hv.trans (List.take_prefix n text))] at hviable'
          · rcases hend with hend | rfl
            · exact .inl hend
            · exact .inr List.drop_length

/-- An attempt at the start of a span settles what is at the front of the text. -/
theorem settled_lanes (hs : Compiled s.definitions) (htape : tape.Holds text)
    (htaken : tape.taken = []) {verdict : Verdict}
    (hrun : Attempt.run s.lanes none 0 tape = .ok (verdict, rest)) :
    Attempt.Settled s text verdict ∧ rest.Holds text := by
  have hnone : Attempt.Best s text 0 none := .none (by omega)
  exact Attempt.settled_run hs htape (by rw [htaken]; rfl) (Nat.zero_le _) (by omega) hnone hrun

/-- What a step commits is what the reference scan asks for. -/
theorem nextSpan_step (hs : Compiled s.definitions) (htape : tape.Holds text)
    (htaken : tape.taken = []) (hstep : s.step position count tape = .ok (.span w span rest)) :
    ∃ back, text = w ++ back ∧ w ≠ [] ∧ s.NextSpan position count w back span ∧
      rest.Holds back ∧ rest.taken = [] := by
  obtain ⟨⟨verdict, middle⟩, hrun, hstep⟩ := bind_eq_ok.mp hstep
  obtain ⟨hsettled, hmiddle⟩ := settled_lanes hs htape htaken hrun
  -- what has been read ahead stays on the tape, so the tape holds the text behind the span
  cases verdict with
  | finished => cases hstep
  | found m =>
      obtain ⟨⟨lexeme, last⟩, hcommit, hstep⟩ := bind_eq_ok.mp hstep
      obtain ⟨rfl, hlast⟩ := hmiddle.commit hcommit
      cases hsettled with
      | found hbest =>
          cases hd : s.definitions[m.id]? with
          | none =>
              simp only [hd] at hstep
              cases hstep
          | some d =>
              simp only [hd] at hstep
              obtain ⟨rfl, rfl, rfl⟩ := Step.span.inj (Except.ok.inj hstep)
              obtain ⟨hne, hspan⟩ := nextSpan_found hs hbest hd
              exact ⟨_, (List.take_append_drop _ _).symm, hne, hspan, hlast.rewind, rfl⟩
  | unmatched n pos =>
      obtain ⟨⟨lexeme, last⟩, hcommit, hstep⟩ := bind_eq_ok.mp hstep
      obtain ⟨rfl, hlast⟩ := hmiddle.commit hcommit
      obtain ⟨rfl, rfl, rfl⟩ := Step.span.inj (Except.ok.inj hstep)
      obtain ⟨hne, hspan⟩ := nextSpan_unmatched hsettled
      exact ⟨_, (List.take_append_drop _ _).symm, hne, hspan, hlast.rewind, rfl⟩

theorem eq_nil_of_finished (hs : Compiled s.definitions) (htape : tape.Holds text)
    (htaken : tape.taken = []) (hstep : s.step position count tape = .ok (.finished rest)) :
    text = [] := by
  obtain ⟨⟨verdict, middle⟩, hrun, hstep⟩ := bind_eq_ok.mp hstep
  obtain ⟨hsettled, -⟩ := settled_lanes hs htape htaken hrun
  cases hsettled with
  | finished htext => exact htext
  | found =>
      obtain ⟨_, -, hstep⟩ := bind_eq_ok.mp hstep
      simp only at hstep
      split at hstep <;> cases hstep
  | unmatched =>
      obtain ⟨_, -, hstep⟩ := bind_eq_ok.mp hstep
      cases hstep

theorem reference_scanFrom (hs : Compiled s.definitions) (htape : tape.Holds text)
    (htaken : tape.taken = []) {source : Source}
    (h : (s.scanFrom position count tape).outcome = .ok source) :
    s.Reference position count text (s.scanFrom position count tape).spans := by
  fun_induction scanFrom s position count tape generalizing text with
  | case1 => cases h
  | case2 position count tape rest hstep =>
      rw [eq_nil_of_finished hs htape htaken hstep]
      exact .done
  | case3 position count tape w span rest hstep later =>
      rename_i ih
      obtain ⟨back, htext, hw, hspan, hrest, hnone⟩ := nextSpan_step hs htape htaken hstep
      exact .span htext hw hspan (ih hrest hnone h)

/-- The spans of a text on which a scan succeeds are those of the reference scan and no others, and
they make up the output. -/
theorem spans_iff_reference {b : Builder} (hb : b.Made) {text : String} {out : Output}
    (hout : b.build.tokenizeText text = .ok out) :
    (∀ spans, b.build.Reference {} 0 text.toList spans ↔
      spans = (b.build.scan (.ofText text)).spans) ∧
    out.tokens = (b.build.scan (.ofText text)).spans.filterMap Span.token? ∧
    out.errors = (b.build.scan (.ofText text)).spans.filterMap Span.error? := by
  rw [tokenizeText, tokenize, Scan.output] at hout
  cases houtcome : (b.build.scan (.ofText text)).outcome with
  | error e =>
      rw [houtcome] at hout
      cases hout
  | ok source =>
      rw [houtcome] at hout
      obtain rfl := Except.ok.inj hout
      have hscan : b.build.Reference {} 0 text.toList (b.build.scan (.ofText text)).spans :=
        reference_scanFrom hb.compiled (Tape.holds_ofText _ text) rfl houtcome
      refine ⟨?_, rfl, rfl⟩
      intro spans
      constructor
      · intro hspans
        exact hspans.unique hscan
      · rintro rfl
        exact hscan

/-- The third `a` shows that the text does not begin with `aab`, and the two that were read ahead
are read again. -/
theorem spans_iff_reference_reread :
    let b := ((Builder.add {} "LONG" "aab").builder.add "SHORT" "a").builder
    b.build.tokenizeText "aaab" =
        .ok ⟨[⟨0, 1, 1, "SHORT", "a"⟩, ⟨1, 1, 2, "LONG", "aab"⟩], []⟩ ∧
      ∀ spans, b.build.Reference {} 0 "aaab".toList spans ↔
        spans = (b.build.scan (.ofText "aaab")).spans := by
  intro b
  have hmade : b.Made := (Builder.Made.empty.add "LONG" "aab").add "SHORT" "a"
  have hout : b.build.tokenizeText "aaab" =
      .ok ⟨[⟨0, 1, 1, "SHORT", "a"⟩, ⟨1, 1, 2, "LONG", "aab"⟩], []⟩ := by
    decide +kernel
  exact ⟨hout, (spans_iff_reference hmade hout).1⟩

end Scanner

end MaximalMunch
