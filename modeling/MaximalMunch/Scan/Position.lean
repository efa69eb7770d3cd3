/-!
# Positions

The row and the column of a character, both counted from one.  What ends a line depends on the
line ending: a line feed alone, or a carriage return, a line feed, or both in this order.
-/

namespace MaximalMunch

/-- What ends a line. -/
inductive LineEnding where
  | lf
  | crLf
  deriving DecidableEq, Repr

/-- The place of the next character of a text. -/
structure Position where
  row : Nat := 1
  col : Nat := 1
  /-- The last character was a carriage return that ended a line. -/
  afterReturn : Bool := false
  deriving DecidableEq, Repr

namespace Position

/-- The position behind one more character.  A line feed belongs to the line end of the carriage
return in front of it. -/
def step (ending : LineEnding) (p : Position) (c : Char) : Position :=
  if ending = .crLf ∧ c = '\n' ∧ p.afterReturn then { p with afterReturn := false }
  else if c = '\n' ∨ (ending = .crLf ∧ c = '\x0d') then ⟨p.row + 1, 1, c = '\x0d'⟩
  else ⟨p.row, p.col + 1, false⟩

/-- The position behind a text. -/
def advance (ending : LineEnding) (p : Position) (text : List Char) : Position :=
  text.foldl (step ending) p

end Position

end MaximalMunch
