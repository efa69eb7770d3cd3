import MaximalMunch.Error
import MaximalMunch.Text.Blank
import MaximalMunch.Text.Lines

/-!
# Definitions as text

A definitions text has one definition on each line: the token type, a space, and the pattern, which
is the whole rest of the line.  Blank lines are skipped.
-/

namespace MaximalMunch.Definition

/-- The type and the pattern on a line.  The first space separates them. -/
def readLine (line : List Char) : Except LineFault (String × String) :=
  match line.span (· ≠ ' ') with
  | (_, []) => .error .missingSeparator
  | ([], _ :: _) => .error .missingType
  | (type, _ :: pattern) => .ok (String.ofList type, String.ofList pattern)

/-- The definitions on the given lines, the first of which has the given number. -/
def readLines (number : Nat) : List (List Char) → Except Error (List (String × String))
  | [] => .ok []
  | line :: rest =>
    if line.all Text.isBlank then readLines (number + 1) rest
    else
      match readLine line with
      | .error fault => .error (.invalidDefinition number fault)
      | .ok pair => (readLines (number + 1) rest).map (pair :: ·)

/-- The definitions of a text, as pairs of type and pattern. -/
def readText (text : String) : Except Error (List (String × String)) :=
  readLines 1 (Text.lines text.toList)

end MaximalMunch.Definition
