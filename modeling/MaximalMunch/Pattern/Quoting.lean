import MaximalMunch.Pattern.Token

/-!
# Quoted literals

A backslash in front of a special character makes it stand for itself, so that any text can be
written as a pattern for exactly that text.
-/

namespace MaximalMunch.Pattern

/-- Puts a backslash in front of every special character. -/
def quoteChars (text : List Char) : List Char :=
  text.flatMap fun c => if c ∈ specials then ['\\', c] else [c]

/-- Drops every backslash that has a character behind it to protect. -/
def unquoteChars : List Char → List Char
  | [] => []
  | '\\' :: c :: rest => c :: unquoteChars rest
  | c :: rest => c :: unquoteChars rest

/-- `quoteChars` on strings. -/
def quote (text : String) : String :=
  String.ofList (quoteChars text.toList)

/-- `unquoteChars` on strings. -/
def unquote (text : String) : String :=
  String.ofList (unquoteChars text.toList)

end MaximalMunch.Pattern
