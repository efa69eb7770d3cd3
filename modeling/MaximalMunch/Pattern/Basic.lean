import MaximalMunch.Error
import MaximalMunch.Pattern.Sign

/-!
# Patterns

A pattern keeps the text it was read from and the tokens that the text stands for.  Its normal
form has all range blocks and all concatenations written out.
-/

namespace MaximalMunch

/-- A pattern whose symbols have been read; its structure has not been looked at. -/
structure Pattern where
  /-- The text the pattern was read from. -/
  raw : String
  /-- Its tokens, with range blocks written out. -/
  tokens : List Pattern.Token
  deriving DecidableEq, Repr

namespace Pattern

/-- The tokens of a text, which must not be empty. -/
def readTokens (text : List Char) : Except Fault (List Token) := do
  let tokens ← expand (← signs text)
  if tokens = [] then .error .emptyPattern else .ok tokens

/-- Reads a pattern. -/
def read (raw : String) : Except Error Pattern :=
  match readTokens raw.toList with
  | .error fault => .error (.malformedPattern raw none fault)
  | .ok tokens => .ok ⟨raw, tokens⟩

/-- The tokens with all concatenations written out. -/
def normalized (p : Pattern) : List Token :=
  juxtapose p.tokens

/-- The normal form as a text. -/
def text (p : Pattern) : String :=
  String.ofList (tokensText p.normalized)

end Pattern

end MaximalMunch
