import MaximalMunch.Text.Column
import MaximalMunch.Text.Escape

/-!
# Spans

A scan cuts a text into spans: tokens, and lexical errors, which are the stretches of text that no
definition matches.
-/

namespace MaximalMunch

/-- A stretch of text that matches a definition. -/
structure LexToken where
  /-- The number of tokens before this one. -/
  id : Nat
  row : Nat
  col : Nat
  type : String
  lexeme : String
  deriving DecidableEq, Repr

/-- A stretch of text that begins no match. -/
structure LexicalError where
  row : Nat
  col : Nat
  text : String
  deriving DecidableEq, Repr

/-- A stretch of text that a scan has committed. -/
inductive Span where
  | token (token : LexToken)
  | error (error : LexicalError)
  deriving DecidableEq, Repr

/-- A line of a listing of tokens. -/
def LexToken.columns (id row col type lexeme : String) : String :=
  Text.alignRight 5 id ++ " " ++ Text.alignRight 5 row ++ " " ++ Text.alignRight 5 col ++ " " ++
    Text.alignLeft 15 type ++ lexeme

/-- The line above a listing of tokens. -/
def LexToken.heading : String :=
  columns "ID" "ROW" "COL" "TYPE" "LEXEME"

/-- The line of a token. -/
def LexToken.line (t : LexToken) : String :=
  columns (toString t.id) (toString t.row) (toString t.col) t.type (Text.escape t.lexeme)

/-- The line of a lexical error. -/
def LexicalError.line (e : LexicalError) : String :=
  "Invalid match @ row " ++ toString e.row ++ " col " ++ toString e.col ++ ": " ++
    Text.escape e.text

namespace Span

/-- The text of a span. -/
def text : Span → String
  | token t => t.lexeme
  | error e => e.text

/-- The token of a span, if it is one. -/
def token? : Span → Option LexToken
  | token t => some t
  | error _ => none

/-- The lexical error of a span, if it is one. -/
def error? : Span → Option LexicalError
  | token _ => none
  | error e => some e

end Span

end MaximalMunch
