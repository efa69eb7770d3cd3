import MaximalMunch.Proofs.Definition.Text
import MaximalMunch.Proofs.Scan.Builder

/-!
# What calls of a builder add

Single definitions are added or refused, lists are added up to the first definition that does not
compile, and texts with a malformed line are not added at all.  Whatever calls are made and however
they end, the definitions are those that were taken, in their order, and each has its index, its
automaton and the type and pattern that were given (`definitions_after_calls`).
-/

namespace MaximalMunch

namespace Builder

/-! ## Calls and what they bring -/

/-- A call that goes to a builder. -/
inductive Call where
  | add (type pattern : String)
  | addMany (pairs : List (String × String))
  | addText (text : String)
  | addFile (contents : Option ByteArray)
  | setLineEnding (ending : LineEnding)
  | setLookahead (capacity : Nat)
  | setVerbose (verbose : Bool)

/-- Whether a call is there to add definitions. -/
def Call.adds : Call → Bool
  | .add _ _ | .addMany _ | .addText _ | .addFile _ => true
  | .setLineEnding _ | .setLookahead _ | .setVerbose _ => false

/-- The builder that a call leaves behind. -/
def Call.on (b : Builder) : Call → Builder
  | .add type pattern => (b.add type pattern).builder
  | .addMany pairs => (b.addMany pairs).builder
  | .addText text => (b.addText text).builder
  | .addFile contents => (b.addFile contents).builder
  | .setLineEnding ending => b.setLineEnding ending
  | .setLookahead capacity => b.setLookahead capacity
  | .setVerbose verbose => b.setVerbose verbose

/-- The builder that calls leave behind, one after the other, of a new one. -/
def after (calls : List Call) : Builder := calls.foldl Call.on {}

/-- Whether the pattern of a pair compiles. -/
def compiles (pair : String × String) : Bool := (Compilation.ofText pair.2).isOk

/-- The pairs of a text, if no line of it is malformed. -/
def textPairs (text : String) : List (String × String) :=
  match Definition.readText text with
  | .ok pairs => pairs
  | .error _ => []

/-- The pairs of type and pattern that a call brings. -/
def Call.pairs : Call → List (String × String)
  | .add type pattern => [(type, pattern)]
  | .addMany pairs => pairs
  | .addText text => textPairs text
  | .addFile contents =>
    match contents.bind String.fromUTF8? with
    | some text => textPairs text
    | none => []
  | .setLineEnding _ | .setLookahead _ | .setVerbose _ => []

/-- How a pair is refused whose definition would have got the given index: its pattern is malformed,
and the reason names the definition. -/
def Refused (index : Nat) (pair : String × String) (e : Error) : Prop :=
  ∃ fault, Compilation.ofText pair.2 = .error (.malformedPattern pair.2 none fault) ∧
    e = .malformedPattern pair.2 (some ⟨index, pair.1⟩) fault ∧
    e.message? = some ("Malformed pattern '" ++ pair.2 ++ "': " ++ ("definition #" ++
      toString index ++ " '" ++ pair.1 ++ "': " ++ fault.message))

/-- A reply to a call that brings pairs: those in front of the first one that does not compile are
added, and that one is refused. -/
structure Takes {α : Type} (b : Builder) (pairs : List (String × String)) (reply : Reply α) :
    Prop where
  added : ∃ added : List Definition,
    reply.builder = { b with definitions := b.definitions ++ added } ∧
      added.map (fun d => (d.type, d.pattern)) = pairs.takeWhile compiles
  fails_iff : Fails reply.result ↔ ∃ pair ∈ pairs, compiles pair = false
  refused : ∀ pair, pairs.find? (fun p => !compiles p) = some pair →
    ∃ e, reply.result = .error e ∧ Refused reply.builder.definitions.length pair e

variable {b : Builder} {type pattern text : String} {pairs : List (String × String)}

/-! ## One definition -/

theorem compiles_iff {pair : String × String} :
    compiles pair = true ↔ ∃ c, Compilation.ofText pair.2 = .ok c := by
  rw [compiles]
  cases Compilation.ofText pair.2 with
  | error e => simp [Except.isOk, Except.toBool]
  | ok c => simp [Except.isOk, Except.toBool]

theorem not_compiles_iff {pair : String × String} : compiles pair = false ↔
    ∃ fault, Compilation.ofText pair.2 = .error (.malformedPattern pair.2 none fault) := by
  rw [compiles]
  cases h : Compilation.ofText pair.2 with
  | error e =>
      rcases Compilation.exists_fault h with ⟨fault, rfl⟩
      simp [Except.isOk, Except.toBool]
  | ok c => simp [Except.isOk, Except.toBool]

theorem result_add {c : Compilation} (hc : Compilation.ofText pattern = .ok c) :
    (b.add type pattern).result = .ok b.definitions.length := by
  have hcompile : Definition.compile b.definitions.length type pattern b.config.verbose =
      .ok (⟨b.definitions.length, type, pattern, c.dfa⟩,
        if b.config.verbose then c.records type else []) :=
    Definition.compile_eq_ok_iff.mpr ⟨c, hc, rfl, rfl⟩
  simp only [add, hcompile]

theorem add_of_error {fault : Pattern.Fault}
    (h : Compilation.ofText pattern = .error (.malformedPattern pattern none fault)) :
    b.add type pattern = ⟨b, [], .error
      (.malformedPattern pattern (some ⟨b.definitions.length, type⟩) fault)⟩ := by
  have hcompile : Definition.compile b.definitions.length type pattern b.config.verbose =
      .error (.malformedPattern pattern none fault) := by
    rw [Definition.compile, h]
    rfl
  simp only [add, hcompile]
  rfl

/-- A definition that is refused leaves no trace. -/
theorem builder_add_of_fails (h : Fails (b.add type pattern).result) :
    (b.add type pattern).builder = b := by
  cases hcompiles : compiles (type, pattern) with
  | true =>
      rcases compiles_iff.mp hcompiles with ⟨c, hc⟩
      rw [result_add hc] at h
      rcases h with ⟨e, he⟩
      cases he
  | false =>
      rcases not_compiles_iff.mp hcompiles with ⟨fault, hfault⟩
      rw [add_of_error hfault]

theorem takes_add (b : Builder) (type pattern : String) :
    Takes b [(type, pattern)] (b.add type pattern) := by
  cases hcompiles : compiles (type, pattern) with
  | true =>
      rcases compiles_iff.mp hcompiles with ⟨c, hc⟩
      refine ⟨⟨_, builder_add b type hc, ?_⟩, ?_, ?_⟩
      · simp [hcompiles]
      · rw [result_add hc]
        simp [Fails, hcompiles]
      · simp [hcompiles]
  | false =>
      rcases not_compiles_iff.mp hcompiles with ⟨fault, hfault⟩
      rw [add_of_error hfault]
      refine ⟨⟨[], ?_, ?_⟩, ?_, ?_⟩
      · simp
      · simp [hcompiles]
      · simp [Fails, hcompiles]
      · intro pair hfind
        have hpair : (type, pattern) = pair := by simpa [hcompiles] using hfind
        rw [← hpair]
        exact ⟨_, rfl, fault, hfault, rfl, rfl⟩

/-! ## Several definitions -/

theorem addMany_cons_of_error {e : Error} {rest : List (String × String)}
    (h : (b.add type pattern).result = .error e) :
    b.addMany ((type, pattern) :: rest) =
      ⟨(b.add type pattern).builder, (b.add type pattern).records, .error e⟩ := by
  simp only [addMany, h]

theorem addMany_cons_of_ok {id : Nat} {rest : List (String × String)}
    (h : (b.add type pattern).result = .ok id) :
    b.addMany ((type, pattern) :: rest) =
      { (b.add type pattern).builder.addMany rest with
        records := (b.add type pattern).records ++
          ((b.add type pattern).builder.addMany rest).records } := by
  simp only [addMany, h]

theorem takes_addMany (b : Builder) (pairs : List (String × String)) :
    Takes b pairs (b.addMany pairs) := by
  induction pairs generalizing b with
  | nil => exact ⟨⟨[], by simp [addMany], rfl⟩, by simp [addMany, Fails], by simp⟩
  | cons pair rest ih =>
      rcases pair with ⟨type, pattern⟩
      cases hcompiles : compiles (type, pattern) with
      | true =>
          -- the first pair is added, and the others go to the builder behind it
          rcases compiles_iff.mp hcompiles with ⟨c, hc⟩
          have hbuilder := builder_add b type hc
          rw [addMany_cons_of_ok (result_add hc), hbuilder]
          rcases ih (b := { b with
            definitions := b.definitions ++ [⟨b.definitions.length, type, pattern, c.dfa⟩] }) with
            ⟨⟨added, hadded, hpairs⟩, hfails, hrefused⟩
          refine ⟨⟨⟨b.definitions.length, type, pattern, c.dfa⟩ :: added, ?_, ?_⟩, ?_, ?_⟩
          · rw [hadded, List.append_assoc]
            rfl
          · rw [List.map_cons, hpairs, List.takeWhile_cons_of_pos hcompiles]
          · simpa [hcompiles] using hfails
          · rw [List.find?_cons_of_neg (by simp [hcompiles])]
            exact hrefused
      | false =>
          have htakes := takes_add b type pattern
          rcases htakes.refused (type, pattern) (by simp [hcompiles]) with ⟨e, he, hrefused⟩
          rw [addMany_cons_of_error he]
          rcases htakes.added with ⟨added, hadded, hpairs⟩
          refine ⟨⟨added, hadded, ?_⟩, ?_, ?_⟩
          · rw [hpairs]
            simp [hcompiles]
          · simp [Fails, hcompiles]
          · intro pair hfind
            have hpair : (type, pattern) = pair := by simpa [hcompiles] using hfind
            rw [← hpair]
            exact ⟨e, rfl, hrefused⟩

/-! ## Texts and files -/

theorem addText_of_error {e : Error} (h : Definition.readText text = .error e) :
    b.addText text = ⟨b, [], .error e⟩ := by
  rw [addText, h]

theorem addText_of_ok (h : Definition.readText text = .ok pairs) :
    b.addText text = { b.addMany pairs with
      records := .debug ("Adding " ++ toString pairs.length ++ " definitions") ::
        (b.addMany pairs).records } := by
  rw [addText, h]

/-- A text with a malformed line is refused as a whole. -/
theorem addText_of_malformed
    (h : ∃ line ∈ Text.lines text.toList, Definition.Malformed line) :
    (b.addText text).builder = b ∧ Fails (b.addText text).result := by
  rcases Definition.exists_readLines_error_iff.mpr h with ⟨e, he⟩
  rw [addText_of_error he]
  exact ⟨rfl, e, rfl⟩

/-- Any other text brings the pairs that its lines are written for. -/
theorem addText_of_not_malformed
    (h : ∀ line ∈ Text.lines text.toList, ¬Definition.Malformed line) :
    ∃ pairs : List (String × String), pairs.map Definition.writeLine =
        (Text.lines text.toList).filter (fun line => !line.all Text.isBlank) ∧
      (∀ pair ∈ pairs, Definition.Writable pair) ∧
      (b.addText text).builder = (b.addMany pairs).builder ∧
      (b.addText text).result = (b.addMany pairs).result := by
  cases hread : Definition.readText text with
  | error e =>
      rcases Definition.exists_readLines_error_iff.mp ⟨e, hread⟩ with ⟨line, hline, hmalformed⟩
      exact absurd hmalformed (h line hline)
  | ok pairs =>
      rcases Definition.readLines_eq_ok_iff.mp hread with ⟨hlines, hwritable⟩
      rw [addText_of_ok hread]
      exact ⟨pairs, hlines, hwritable, rfl, rfl⟩

theorem fromUTF8?_eq_some_iff {bytes : ByteArray} :
    String.fromUTF8? bytes = some text ↔ bytes = text.toUTF8 := by
  rw [String.fromUTF8?]
  constructor
  · intro h
    split at h
    · rw [← Option.some.inj h]
      rfl
    · cases h
  · rintro rfl
    exact dif_pos text.isValidUTF8

/-- A file that is missing or no text is refused. -/
theorem addFile_of_no_text {contents : Option ByteArray}
    (h : ∀ text : String, contents ≠ some text.toUTF8) :
    b.addFile contents = ⟨b, [], .error .unreadableFile⟩ := by
  have hnone : contents.bind String.fromUTF8? = none := by
    rw [Option.bind_eq_none_iff]
    intro bytes hbytes
    cases htext : String.fromUTF8? bytes with
    | none => rfl
    | some text =>
        rw [fromUTF8?_eq_some_iff.mp htext] at hbytes
        exact absurd hbytes (h text)
  rw [addFile, hnone]

theorem addFile_of_text (b : Builder) (text : String) :
    b.addFile (some text.toUTF8) = b.addText text := by
  rw [addFile, Option.bind_some, fromUTF8?_eq_some_iff.mpr rfl]

/-! ## Any calls -/

theorem definitions_addText (b : Builder) (text : String) :
    (b.addText text).builder.definitions.map (fun d => (d.type, d.pattern)) =
      b.definitions.map (fun d => (d.type, d.pattern)) ++ (textPairs text).takeWhile compiles := by
  rw [textPairs]
  cases hread : Definition.readText text with
  | error e =>
      rw [addText_of_error hread]
      simp
  | ok pairs =>
      rcases (takes_addMany b pairs).added with ⟨added, hadded, hpairs⟩
      rw [addText_of_ok hread]
      dsimp only
      rw [hadded, List.map_append, hpairs]

theorem definitions_on (b : Builder) (call : Call) :
    (call.on b).definitions.map (fun d => (d.type, d.pattern)) =
      b.definitions.map (fun d => (d.type, d.pattern)) ++ call.pairs.takeWhile compiles := by
  cases call with
  | add type pattern =>
      rcases (takes_add b type pattern).added with ⟨added, hadded, hpairs⟩
      rw [Call.on, hadded, List.map_append, hpairs, Call.pairs]
  | addMany pairs =>
      rcases (takes_addMany b pairs).added with ⟨added, hadded, hpairs⟩
      rw [Call.on, hadded, List.map_append, hpairs, Call.pairs]
  | addText text => exact definitions_addText b text
  | addFile contents =>
      rw [Call.on, Call.pairs, addFile]
      cases contents.bind String.fromUTF8? with
      | none => simp
      | some text => exact definitions_addText b text
  | setLineEnding | setLookahead | setVerbose => simp [Call.on, Call.pairs, setLineEnding,
      setLookahead, setVerbose]

theorem config_on (b : Builder) {call : Call} (h : call.adds = true) :
    (call.on b).config = b.config := by
  cases call with
  | add type pattern => exact config_add b type pattern
  | addMany pairs => exact config_addMany b pairs
  | addText text => exact config_addText b text
  | addFile contents => exact config_addFile b contents
  | setLineEnding | setLookahead | setVerbose => cases h

theorem Made.on (h : b.Made) (call : Call) : (call.on b).Made := by
  cases call with
  | add type pattern => exact h.add type pattern
  | addMany pairs => exact h.addMany pairs
  | addText text => exact h.addText text
  | addFile contents => exact h.addFile contents
  | setLineEnding ending => exact h.setLineEnding ending
  | setLookahead capacity => exact h.setLookahead capacity
  | setVerbose verbose => exact h.setVerbose verbose

theorem after_snoc (calls : List Call) (call : Call) :
    after (calls ++ [call]) = call.on (after calls) := by
  rw [after, List.foldl_append]
  rfl

theorem made_after (calls : List Call) : (after calls).Made := by
  induction calls using List.reverseRecOn with
  | nil => exact .empty
  | append_singleton calls call ih =>
      rw [after_snoc]
      exact ih.on call

theorem definitions_after (calls : List Call) :
    (after calls).definitions.map (fun d => (d.type, d.pattern)) =
      calls.flatMap fun call => call.pairs.takeWhile compiles := by
  induction calls using List.reverseRecOn with
  | nil => rfl
  | append_singleton calls call ih =>
      rw [after_snoc, definitions_on, ih, List.flatMap_append]
      simp

/-- Behind any calls of a new builder, the definitions are the pairs that were taken, in the order
of the calls.  Each has its index for an id and the automaton of its pattern. -/
theorem definitions_after_calls (calls : List Call) :
    let b := after calls
    b.definitions.map (fun d => (d.type, d.pattern)) =
      calls.flatMap (fun call => call.pairs.takeWhile compiles) ∧
    (∀ (i : Nat) d, b.definitions[i]? = some d →
      d.id = i ∧ ∃ c, Compilation.ofText d.pattern = .ok c ∧ d.dfa = c.dfa) ∧
    1 ≤ b.config.lookahead ∧
    (∀ call : Call, call.adds = true → (call.on b).config = b.config) ∧
    (∀ type pattern, Takes b [(type, pattern)] (b.add type pattern) ∧
      (Fails (b.add type pattern).result → (b.add type pattern).builder = b)) ∧
    (∀ pairs, Takes b pairs (b.addMany pairs)) ∧
    (∀ text, (∃ line ∈ Text.lines text.toList, Definition.Malformed line) →
      (b.addText text).builder = b ∧ Fails (b.addText text).result) ∧
    (∀ text, (∀ line ∈ Text.lines text.toList, ¬Definition.Malformed line) →
      ∃ pairs : List (String × String), pairs.map Definition.writeLine =
          (Text.lines text.toList).filter (fun line => !line.all Text.isBlank) ∧
        (∀ pair ∈ pairs, Definition.Writable pair) ∧
        (b.addText text).builder = (b.addMany pairs).builder ∧
        (b.addText text).result = (b.addMany pairs).result) ∧
    (∀ contents, (∀ text : String, contents ≠ some text.toUTF8) →
      (b.addFile contents).builder = b ∧ (b.addFile contents).result = .error .unreadableFile) ∧
    ∀ text : String, b.addFile (some text.toUTF8) = b.addText text := by
  intro b
  have hcompiled : Compiled b.definitions := (made_after calls).compiled
  refine ⟨definitions_after calls, ?_, (made_after calls).lookahead_pos, ?_, ?_, takes_addMany b,
    ?_, ?_, ?_, addFile_of_text b⟩
  · intro i d hi
    exact ⟨hcompiled.id_eq hi, hcompiled.dfa_eq (List.mem_of_getElem? hi)⟩
  · intro call hadds
    exact config_on b hadds
  · intro type pattern
    exact ⟨takes_add b type pattern, builder_add_of_fails⟩
  · intro text hmalformed
    exact addText_of_malformed hmalformed
  · intro text hlines
    exact addText_of_not_malformed hlines
  · intro contents hno
    rw [addFile_of_no_text hno]
    exact ⟨rfl, rfl⟩

/-- The second of three definitions is refused, so the third is not looked at.  Neither a text with
a malformed line nor a file that is missing adds anything to the first. -/
theorem definitions_after_calls_refused :
    let b := after [.addMany [("A", "a"), ("B", "(b"), ("C", "c")], .setLookahead 0]
    b.definitions.map (fun d => (d.type, d.pattern)) = [("A", "a")] ∧ 1 ≤ b.config.lookahead ∧
      (b.addText "D d\nE").builder = b ∧ (b.addFile none).builder = b ∧
      ∃ e, (b.add "B" "(b").result = .error e ∧ Refused 1 ("B", "(b") e := by
  intro b
  have hfirst : compiles ("A", "a") = true := by
    have hread : Pattern.read "a" = .ok ⟨"a", [.char 'a']⟩ := by decide
    have hexpr : Expr.ofPattern ⟨"a", [.char 'a']⟩ = .ok (.char 'a') := by decide
    rcases Compilation.exists_ofText hread hexpr with ⟨c, hc, -, -⟩
    exact compiles_iff.mpr ⟨c, hc⟩
  have hsecond : compiles ("B", "(b") = false :=
    not_compiles_iff.mpr ⟨.unmatchedOpen, rfl⟩
  rcases definitions_after_calls
    [.addMany [("A", "a"), ("B", "(b"), ("C", "c")], .setLookahead 0] with
    ⟨hpairs, -, hlookahead, -, hadd, -, htext, -, hfile, -⟩
  have hdefinitions : b.definitions.map (fun d => (d.type, d.pattern)) = [("A", "a")] := by
    rw [hpairs]
    simp [Call.pairs, hfirst, hsecond]
  have hlength : b.definitions.length = 1 := by
    have hlength := congrArg List.length hdefinitions
    rwa [List.length_map] at hlength
  have hmalformed : ∃ line ∈ Text.lines "D d\nE".toList, Definition.Malformed line :=
    ⟨['E'], by decide, by decide, .inl (by decide)⟩
  have hmissing : ∀ text : String, none ≠ some text.toUTF8 := by
    intro text h
    cases h
  rcases (hadd "B" "(b").1.refused ("B", "(b") (by simp [hsecond]) with ⟨e, he, hrefused⟩
  have hsame : (b.add "B" "(b").builder = b := (hadd "B" "(b").2 ⟨e, he⟩
  rw [hsame, hlength] at hrefused
  exact ⟨hdefinitions, hlookahead, (htext _ hmalformed).1, (hfile none hmissing).1, e, he, hrefused⟩

end Builder

end MaximalMunch
