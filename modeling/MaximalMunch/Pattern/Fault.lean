/-!
# What can be wrong with a pattern

The faults are listed in the order of the stages that find them: reading escapes, expanding range
blocks, and building the expression.
-/

namespace MaximalMunch.Pattern

/-- The reasons for which a text is no pattern. -/
inductive Fault where
  /-- The last character is a backslash that escapes nothing. -/
  | danglingEscape
  /-- A range block is closed outside of any block. -/
  | blockNeverOpened
  /-- A special character inside a range block. -/
  | unexpectedInBlock (c : Char)
  /-- A range block that the pattern does not close. -/
  | unterminatedBlock
  /-- A range block without characters. -/
  | emptyBlock
  /-- A range block whose characters do not pair up. -/
  | unpairedBlock
  /-- A range whose last character comes before its first. -/
  | reversedRange (first last : Char)
  /-- A pattern without symbols. -/
  | emptyPattern
  /-- A group is closed that is not open. -/
  | unmatchedClose
  /-- A group is open at the end. -/
  | unmatchedOpen
  /-- An operator finds too few operands. -/
  | missingOperand
  /-- The number of expressions left at the end is not one. -/
  | expressionCount (found : Nat)
  deriving DecidableEq, Repr

/-- The wording of a fault. -/
def Fault.message : Fault → String
  | .danglingEscape => "dangling escape character at the end"
  | .blockNeverOpened => "range block closed but never opened"
  | .unexpectedInBlock c => "unexpected '" ++ c.toString ++ "' inside a range block"
  | .unterminatedBlock => "unterminated range block"
  | .emptyBlock => "empty range block"
  | .unpairedBlock => "range block must contain pairs of characters"
  | .reversedRange first last =>
    "range end '" ++ last.toString ++ "' falls before range start '" ++ first.toString ++ "'"
  | .emptyPattern => "empty pattern"
  | .unmatchedClose => "unmatched ')'"
  | .unmatchedOpen => "unmatched '('"
  | .missingOperand => "operator without operand"
  | .expressionCount found => "expected exactly one expression, found " ++ toString found

end MaximalMunch.Pattern
