import Mathlib.Logic.Equiv.Defs
import MaximalMunch.Proofs.Scan.Lanes

/-!
# Scanners that give every word the same type

What a scanner commits depends on the automata of its definitions only through the type that each
word gets.  The automata are trim, so when their runs die is a matter of the words, too: two
scanners that agree on the words go through the same characters in every attempt, and their scans
stay in step whatever the source does.
-/

namespace MaximalMunch

namespace Scanner

variable {s s' : Scanner} {w : List Char}

/-- The type that a word gets. -/
def type? (s : Scanner) (w : List Char) : Option String := (s.winner? w).map (·.type)

/-- Scanners that read alike and give every word the same type.  No scanner looks at the empty
word. -/
structure Agree (s s' : Scanner) : Prop where
  compiled : Compiled s.definitions
  compiled' : Compiled s'.definitions
  lineEnding_eq : s.config.lineEnding = s'.config.lineEnding
  lookahead_eq : s.config.lookahead = s'.config.lookahead
  type?_eq : ∀ w, w ≠ [] → s.type? w = s'.type? w

theorem matches_iff_type? : s.Matches w ↔ s.type? w ≠ none := by
  rw [type?, Ne, Option.map_eq_none_iff, winner?_eq_none_iff, not_not]

theorem Agree.viable_iff (h : s.Agree s') (hw : w ≠ []) : s.Viable w ↔ s'.Viable w := by
  simp only [Viable, matches_iff_type?]
  have hne : ∀ v, w ++ v ≠ [] := fun v hv => hw (List.append_eq_nil_iff.mp hv).1
  constructor
  · rintro ⟨v, hv⟩
    exact ⟨v, by rwa [← h.type?_eq _ (hne v)]⟩
  · rintro ⟨v, hv⟩
    exact ⟨v, by rwa [h.type?_eq _ (hne v)]⟩

/-! ## Attempts in step -/

/-- Matches of the same length whose definitions have the same type. -/
inductive SameMatch (s s' : Scanner) : Option Match → Option Match → Prop where
  | none : SameMatch s s' none none
  | some {m m' : Match} {d d' : Definition} (hlength : m.length = m'.length)
      (hd : s.definitions[m.id]? = some d) (hd' : s'.definitions[m'.id]? = some d')
      (htype : d.type = d'.type) : SameMatch s s' (some m) (some m')

/-- Verdicts of which a scan makes the same. -/
inductive SameVerdict (s s' : Scanner) : Verdict → Verdict → Prop where
  | finished : SameVerdict s s' .finished .finished
  | found {m m' : Match} (h : SameMatch s s' (some m) (some m')) :
      SameVerdict s s' (.found m) (.found m')
  | unmatched {length : Nat} {pos : 0 < length} :
      SameVerdict s s' (.unmatched length pos) (.unmatched length pos)

/-- Attempts that fail in the same way, or leave the same tape behind with the same verdict. -/
inductive SameAttempt (s s' : Scanner) :
    Except Error (Verdict × Tape) → Except Error (Verdict × Tape) → Prop where
  | error {e : Error} : SameAttempt s s' (.error e) (.error e)
  | ok {verdict verdict' : Verdict} {tape : Tape} (h : SameVerdict s s' verdict verdict') :
      SameAttempt s s' (.ok (verdict, tape)) (.ok (verdict', tape))

theorem SameMatch.conclude {best best' : Option Match} (h : SameMatch s s' best best')
    {length : Nat} {pos : 0 < length} :
    SameVerdict s s' (Attempt.conclude best length pos) (Attempt.conclude best' length pos) := by
  cases h with
  | none => exact .unmatched
  | some hlength hd hd' htype => exact .found (.some hlength hd hd' htype)

theorem Agree.improve (h : s.Agree s') {best best' : Option Match}
    (hbest : SameMatch s s' best best') (hw : w ≠ []) {length : Nat} {pos : 0 < length} :
    SameMatch s s' (Attempt.improve (s.lanesAfter w) best length pos)
      (Attempt.improve (s'.lanesAfter w) best' length pos) := by
  have htype := h.type?_eq w hw
  rw [type?, type?] at htype
  rw [improve_lanesAfter, improve_lanesAfter]
  cases hd : s.winner? w with
  | none =>
      cases hd' : s'.winner? w with
      | none => exact hbest
      | some d' =>
          rw [hd, hd'] at htype
          cases htype
  | some d =>
      cases hd' : s'.winner? w with
      | none =>
          rw [hd, hd'] at htype
          cases htype
      | some d' =>
          rw [hd, hd'] at htype
          exact .some rfl (getElem?_winner? h.compiled hd) (getElem?_winner? h.compiled' hd')
            (Option.some.inj htype)

/-- Behind the same text, with best matches that are the same, two attempts end in the same way. -/
theorem Agree.run (h : s.Agree s') {best best' : Option Match}
    (hbest : SameMatch s s' best best') (w : List Char) (length : Nat) (tape : Tape) :
    SameAttempt s s' (Attempt.run (s.lanesAfter w) best length tape)
      (Attempt.run (s'.lanesAfter w) best' length tape) := by
  -- on what is left to be read, which every character that is read diminishes
  induction hunread : tape.unread using Nat.strongRecOn generalizing best best' w length tape with
  | ind unread ih =>
      cases hnext : tape.next with
      | error e =>
          rw [Attempt.run_error hnext, Attempt.run_error hnext]
          exact .error
      | ok read =>
          obtain ⟨c, rest⟩ := read
          cases c with
          | none =>
              rw [Attempt.run_end hnext, Attempt.run_end hnext]
              split
              · exact .ok .finished
              · exact .ok hbest.conclude
          | some c =>
              have hne : w ++ [c] ≠ [] := by simp
              have hlt := Tape.unread_next hnext
              -- the attempts die together, for the same words are viable for both
              by_cases hviable : s.Viable (w ++ [c])
              · rw [Attempt.run_viable h.compiled hnext hviable,
                  Attempt.run_viable h.compiled' hnext ((h.viable_iff hne).mp hviable)]
                exact ih _ (hunread ▸ hlt) (h.improve hbest hne) _ _ _ rfl
              · rw [Attempt.run_not_viable h.compiled hnext hviable,
                  Attempt.run_not_viable h.compiled' hnext (mt (h.viable_iff hne).mpr hviable)]
                exact .ok hbest.conclude

/-! ## Scans in step -/

theorem Agree.step_eq (h : s.Agree s') (position : Position) (count : Nat) (tape : Tape) :
    s.step position count tape = s'.step position count tape := by
  have hrun : SameAttempt s s' (Attempt.run s.lanes none 0 tape) (Attempt.run s'.lanes none 0 tape) :=
    h.run .none [] 0 tape
  unfold step
  generalize Attempt.run s.lanes none 0 tape = attempt at hrun ⊢
  generalize Attempt.run s'.lanes none 0 tape = attempt' at hrun ⊢
  cases hrun with
  | error => rfl
  | ok hverdict =>
      cases hverdict with
      | finished => rfl
      | unmatched => rfl
      | found hmatch =>
          -- the numbers may differ, but a token shows the type only
          cases hmatch with
          | some hlength hd hd' htype => simp only [ok_bind, hlength, hd, hd', htype]

theorem Agree.scanFrom_eq (h : s.Agree s') (position : Position) (count : Nat) (tape : Tape) :
    s.scanFrom position count tape = s'.scanFrom position count tape := by
  induction hsize : tape.size using Nat.strongRecOn generalizing position count tape with
  | ind size ih =>
      have heq := h.step_eq position count tape
      cases hstep : s.step position count tape with
      | error e => rw [scanFrom_error hstep, scanFrom_error (heq ▸ hstep)]
      | ok step =>
          cases step with
          | finished rest => rw [scanFrom_finished hstep, scanFrom_finished (heq ▸ hstep)]
          | span text span rest =>
              have hlt : rest.size < size := hsize ▸ size_step hstep
              have hstep' : s'.step position count tape = .ok (.span text span rest) := heq ▸ hstep
              rw [scanFrom_span hstep, scanFrom_span hstep', ← h.lineEnding_eq, ih _ hlt _ _ _ rfl]

/-- Scanners that make the same of every source: the same spans in the same order, the same
failure, and the same output. -/
def SameScans (s s' : Scanner) : Prop :=
  ∀ source, s.scan source = s'.scan source ∧ s.tokenize source = s'.tokenize source

theorem Agree.sameScans (h : s.Agree s') : s.SameScans s' := by
  intro source
  have hscan : s.scan source = s'.scan source := by
    rw [scan, scan, h.lookahead_eq, h.scanFrom_eq]
  exact ⟨hscan, by rw [tokenize, tokenize, hscan]⟩

end Scanner

/-! ## Definitions that give the same types -/

/-- Definitions of the same type that match the same words. -/
structure Definition.Alike (d d' : Definition) : Prop where
  type_eq : d.type = d'.type
  language_eq : d.language = d'.language

theorem Definition.Alike.accepts_eq {d d' : Definition} (h : d.Alike d') (w : List Char) :
    d.dfa.accepts w = d'.dfa.accepts w := by
  have hmem : w ∈ d.language ↔ w ∈ d'.language := by rw [h.language_eq]
  exact Bool.eq_iff_iff.mpr hmem

/-- The same definitions in another order, in which two that match a common word have kept
theirs. -/
def Rearranged (definitions definitions' : List Definition) : Prop :=
  ∃ move : Fin definitions.length ≃ Fin definitions'.length,
    (∀ i, (definitions.get i).Alike (definitions'.get (move i))) ∧
    ∀ i j, i < j → (∃ w, w ≠ [] ∧ w ∈ (definitions.get i).language ∧
      w ∈ (definitions.get j).language) → move i < move j

namespace Scanner

variable {s s' : Scanner} {w : List Char}

theorem type?_eq_of_alike (h : List.Forall₂ Definition.Alike s.definitions s'.definitions)
    (w : List Char) : s.type? w = s'.type? w := by
  unfold type? winner?
  generalize s.definitions = definitions at h
  generalize s'.definitions = definitions' at h
  induction h with
  | nil => rfl
  | cons hd _ ih =>
      rw [List.find?_cons, List.find?_cons, ← hd.accepts_eq w]
      split
      · exact congrArg some hd.type_eq
      · exact ih

theorem type?_eq_of_append {d : Definition} (h : s'.definitions = s.definitions ++ [d])
    (hd : ∀ w, w ≠ [] → w ∈ d.language → s.Matches w) (hw : w ≠ []) :
    s.type? w = s'.type? w := by
  have hfind : s'.winner? w = (s.winner? w).or ([d].find? (·.dfa.accepts w)) := by
    rw [winner?, h, List.find?_append]
    rfl
  rw [type?, type?, hfind]
  cases hwinner : s.winner? w with
  | some d' => rfl
  | none =>
      have hnone : ¬ d.dfa.accepts w = true := fun hmem =>
        winner?_eq_none_iff.mp hwinner (hd w hw hmem)
      simp [hnone]

/-- The first definition that matches keeps its place in front of the others that match. -/
theorem type?_eq_of_rearranged (h : Rearranged s.definitions s'.definitions) (hw : w ≠ []) :
    s.type? w = s'.type? w := by
  obtain ⟨move, halike, horder⟩ := h
  have haccepts (i : Fin s'.definitions.length) :
      (s'.definitions.get i).dfa.accepts w = (s.definitions.get (move.symm i)).dfa.accepts w := by
    rw [(halike (move.symm i)).accepts_eq, Equiv.apply_symm_apply]
  cases hd : s.winner? w with
  | none =>
      have hnone : s'.winner? w = none := by
        rw [winner?, List.find?_eq_none] at hd ⊢
        intro d' hd'
        obtain ⟨i, rfl⟩ := List.mem_iff_get.mp hd'
        rw [haccepts]
        exact hd _ (List.get_mem _ _)
      rw [type?, type?, hd, hnone]
  | some d =>
      obtain ⟨hmatch, i, hi, rfl, hfirst⟩ := List.find?_eq_some_iff_getElem.mp hd
      have hwinner : s'.winner? w = some (s'.definitions.get (move ⟨i, hi⟩)) := by
        refine List.find?_eq_some_iff_getElem.mpr ⟨?_, _, (move ⟨i, hi⟩).isLt, rfl, ?_⟩
        · rw [haccepts, Equiv.symm_apply_apply]
          exact hmatch
        · intro j hj
          by_contra hmatch'
          rw [Bool.not_eq_true, Bool.not_eq_false'] at hmatch'
          obtain ⟨k, hk⟩ := move.surjective ⟨j, hj.trans (move ⟨i, hi⟩).isLt⟩
          have hmatchk : (s.definitions.get k).dfa.accepts w = true := by
            rw [← move.symm_apply_apply k, ← haccepts, hk]
            exact hmatch'
          -- a definition that comes to stand in front was in front before, or shares no word
          rcases Nat.lt_trichotomy k.val i with hlt | heq | hgt
          · have hnot := hfirst k hlt
            rw [Bool.not_eq_true', ← Bool.not_eq_true] at hnot
            exact hnot hmatchk
          · obtain rfl : k = ⟨i, hi⟩ := Fin.ext heq
            rw [hk] at hj
            exact Nat.lt_irrefl _ hj
          · have hmove : move ⟨i, hi⟩ < move k := horder ⟨i, hi⟩ k hgt ⟨w, hw, hmatch, hmatchk⟩
            rw [hk] at hmove
            exact Nat.lt_irrefl _ (hj.trans hmove)
      rw [type?, type?, hd, hwinner]
      exact congrArg some (halike ⟨i, hi⟩).type_eq

/-- What a scanner does depends only on the type that each word gets.  So other patterns for the
same words, one more definition whose words all match before, and another order of definitions
that have no word in common do not change any result. -/
theorem sameScans_of_same_types {b b' : Builder} (hb : b.Made) (hb' : b'.Made)
    (hending : b.config.lineEnding = b'.config.lineEnding)
    (hlookahead : b.config.lookahead = b'.config.lookahead) :
    ((∀ w, w ≠ [] → b.build.type? w = b'.build.type? w) → b.build.SameScans b'.build) ∧
    (List.Forall₂ Definition.Alike b.definitions b'.definitions → b.build.SameScans b'.build) ∧
    (∀ d, b'.definitions = b.definitions ++ [d] →
      (∀ w, w ≠ [] → w ∈ d.language → b.build.Matches w) → b.build.SameScans b'.build) ∧
    (Rearranged b.definitions b'.definitions → b.build.SameScans b'.build) := by
  have hagree (htype : ∀ w, w ≠ [] → b.build.type? w = b'.build.type? w) :
      b.build.SameScans b'.build :=
    Agree.sameScans ⟨hb.compiled, hb'.compiled, hending, hlookahead, htype⟩
  refine ⟨hagree, ?_, ?_, ?_⟩
  · intro halike
    exact hagree fun w _ => type?_eq_of_alike halike w
  · intro d hd hwords
    exact hagree fun w hw => type?_eq_of_append hd hwords hw
  · intro hmoved
    exact hagree fun w hw => type?_eq_of_rearranged hmoved hw

theorem sameScans_of_same_types_doubled :
    (Builder.add {} "A" "a").builder.build.SameScans (Builder.add {} "A" "a|a").builder.build := by
  have hread : Pattern.read "a" = .ok ⟨"a", [.char 'a']⟩ := by decide
  have hread' : Pattern.read "a|a" = .ok ⟨"a|a", [.char 'a', .union, .char 'a']⟩ := by decide
  have hparse : Expr.ofPattern ⟨"a", [.char 'a']⟩ = .ok (.char 'a') := by decide
  have hparse' : Expr.ofPattern ⟨"a|a", [.char 'a', .union, .char 'a']⟩ =
      .ok (.union (.char 'a') (.char 'a')) := by decide
  obtain ⟨c, hc, -, hexpr⟩ := Compilation.exists_ofText hread hparse
  obtain ⟨c', hc', -, hexpr'⟩ := Compilation.exists_ofText hread' hparse'
  have hlanguage : c.dfa.language = c'.dfa.language := by
    rw [(Compilation.languages hc).2.1, (Compilation.languages hc').2.1, hexpr, hexpr']
    exact (add_idem _).symm
  have hb := Builder.builder_add {} "A" hc
  have hb' := Builder.builder_add {} "A" hc'
  apply (sameScans_of_same_types (Builder.Made.empty.add "A" "a")
    (Builder.Made.empty.add "A" "a|a") (by rw [hb, hb']) (by rw [hb, hb'])).2.1
  rw [hb, hb']
  exact .cons ⟨rfl, hlanguage⟩ .nil

end Scanner

end MaximalMunch
