import MaximalMunch.Scan.Attempt
import MaximalMunch.Scan.Position
import MaximalMunch.Scan.Span

/-!
# The scanner

A scanner cuts a text into spans.  From the start of a span it takes the longest text that some
definition matches, and of those that match it the first definition gives the token its type.
Where nothing matches, the span is a lexical error and ends with the first character behind which
no match is possible.  `Scanner.scan` commits span after span until the source reports the end of
input at the start of a span.
-/

namespace MaximalMunch

/-- How a scanner reads and what is reported about its construction. -/
structure Config where
  lineEnding : LineEnding := .lf
  /-- The number of characters that may be read ahead of the committed text. -/
  lookahead : Nat := 512
  /-- Whether compiling a definition is reported step by step. -/
  verbose : Bool := false
  deriving DecidableEq, Repr

/-- Definitions in the order of precedence, and how to read. -/
structure Scanner where
  definitions : List Definition
  config : Config

/-- What a scan has committed, and how it ended: with the rest of the source, or with a failure. -/
structure Scan where
  spans : List Span
  outcome : Except Error Source

/-- The tokens of a text and its lexical errors. -/
structure Output where
  tokens : List LexToken
  errors : List LexicalError
  deriving DecidableEq, Repr

/-- What comes next in a scan. -/
inductive Step where
  /-- There is no more text. -/
  | finished (tape : Tape)
  /-- A span is committed. -/
  | span (text : List Char) (span : Span) (tape : Tape)

namespace Scanner

/-- A lane for each definition. -/
def lanes (s : Scanner) : List Lane := s.definitions.map Lane.atStart

/-- Commits the next span, which starts at the given position behind `count` tokens. -/
def step (s : Scanner) (position : Position) (count : Nat) (tape : Tape) : Except Error Step := do
  let (verdict, tape) ← Attempt.run s.lanes none 0 tape
  match verdict with
  | .finished => return .finished tape
  | .found m =>
    let (text, tape) ← tape.commit m.length
    match s.definitions[m.id]? with
    | none => .error (.breach .unknownDefinition)
    | some d =>
      return .span text (.token ⟨count, position.row, position.col, d.type, .ofList text⟩)
        tape.rewind
  | .unmatched length _ =>
    let (text, tape) ← tape.commit length
    return .span text (.error ⟨position.row, position.col, .ofList text⟩) tape.rewind

/-- A span that is committed is not empty. -/
theorem size_step {s : Scanner} {position : Position} {count : Nat} {tape rest : Tape}
    {text : List Char} {span : Span} (h : s.step position count tape = .ok (.span text span rest)) :
    rest.size < tape.size := by
  obtain ⟨⟨verdict, middle⟩, hrun, h⟩ := bind_eq_ok.1 h
  have hrun := Attempt.size_run hrun
  cases verdict with
  | finished => cases h
  | found m =>
    obtain ⟨⟨lexeme, last⟩, hcommit, h⟩ := bind_eq_ok.1 h
    have hcommit := Tape.size_commit hcommit
    have := m.length_pos
    simp only at h
    split at h
    · cases h
    · obtain ⟨rfl, rfl, rfl⟩ := Step.span.inj (Except.ok.inj h)
      rw [Tape.size_rewind]
      omega
  | unmatched length length_pos =>
    obtain ⟨⟨lexeme, last⟩, hcommit, h⟩ := bind_eq_ok.1 h
    have hcommit := Tape.size_commit hcommit
    obtain ⟨rfl, rfl, rfl⟩ := Step.span.inj (Except.ok.inj h)
    rw [Tape.size_rewind]
    omega

/-- The number of tokens behind a span. -/
def countBehind (count : Nat) : Span → Nat
  | .token _ => count + 1
  | .error _ => count

/-- Goes on with a scan at the given position behind `count` tokens. -/
def scanFrom (s : Scanner) (position : Position) (count : Nat) (tape : Tape) : Scan :=
  match _ : s.step position count tape with
  | .error e => ⟨[], .error e⟩
  | .ok (.finished rest) => ⟨[], .ok rest.source⟩
  | .ok (.span text span rest) =>
    let later :=
      s.scanFrom (position.advance s.config.lineEnding text) (countBehind count span) rest
    { later with spans := span :: later.spans }
termination_by tape.size
decreasing_by exact size_step ‹_›

/-- Scans a source. -/
def scan (s : Scanner) (source : Source) : Scan :=
  s.scanFrom {} 0 (.ofSource s.config.lookahead source)

end Scanner

namespace Scan

/-- The tokens that a scan has committed. -/
def tokens (scan : Scan) : List LexToken := scan.spans.filterMap Span.token?

/-- The lexical errors that a scan has committed, also before a failure. -/
def errors (scan : Scan) : List LexicalError := scan.spans.filterMap Span.error?

/-- The tokens and the lexical errors, unless the scan failed. -/
def output (scan : Scan) : Except Error Output :=
  scan.outcome.map fun _ => ⟨scan.tokens, scan.errors⟩

/-- A warning for every lexical error. -/
def records (scan : Scan) : List Record := scan.errors.map (.warn ·.line)

end Scan

namespace Scanner

/-- The tokens and lexical errors of a source. -/
def tokenize (s : Scanner) (source : Source) : Except Error Output :=
  (s.scan source).output

/-- The tokens and lexical errors of a text. -/
def tokenizeText (s : Scanner) (text : String) : Except Error Output :=
  s.tokenize (.ofText text)

end Scanner

namespace Output

/-- The output without the tokens of one type; the others keep their numbers. -/
def withoutType (out : Output) (type : String) : Output :=
  { out with tokens := out.tokens.filter (·.type != type) }

/-- The heading, the tokens and the lexical errors, a line each. -/
def listing (out : Output) : List String :=
  LexToken.heading :: out.tokens.map LexToken.line ++ out.errors.map LexicalError.line

end Output

end MaximalMunch
