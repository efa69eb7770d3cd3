import MaximalMunch.Pattern.Fault
import MaximalMunch.Pattern.Token
import MaximalMunch.Text.Escape

/-!
# Signs and range blocks

The characters of a pattern are read as signs: the tokens and the two brackets of a range block.
A block such as `[az09]` pairs up its characters, and each pair is a range of code points.  Its
meaning is the group of the alternatives, `(a|b|…|z|0|…|9)`, and `expand` writes that out.
-/

namespace MaximalMunch.Pattern

/-- What a character of a pattern, or an escaped pair of characters, means. -/
inductive Sign where
  | token (token : Token)
  | blockOpen
  | blockClose
  deriving DecidableEq, Repr

namespace Sign

/-- A character that no backslash precedes. -/
def ofChar : Char → Sign
  | '(' => .token .groupOpen
  | ')' => .token .groupClose
  | '*' => .token .closure
  | '.' => .token .concat
  | 'ε' => .token .epsilon
  | '|' => .token .union
  | '[' => .blockOpen
  | ']' => .blockClose
  | c => .token (.char c)

/-- The character that stands for a sign. -/
def symbol : Sign → Char
  | token t => t.symbol
  | blockOpen => '['
  | blockClose => ']'

end Sign

/-- The signs of a pattern.  A backslash makes the character behind it stand for itself. -/
def signs : List Char → Except Fault (List Sign)
  | [] => .ok []
  | ['\\'] => .error .danglingEscape
  | '\\' :: c :: rest => (signs rest).map (.token (.char c) :: ·)
  | c :: rest => (signs rest).map (Sign.ofChar c :: ·)

/-- The characters of a range in the order of their code points. -/
def charRange (first last : Char) : List Char :=
  (List.range' first.toNat (last.toNat + 1 - first.toNat)).filterMap Text.scalar?

/-- The characters of a range given by its ends, which must not be reversed. -/
def rangeChars (ends : Char × Char) : Except Fault (List Char) :=
  if ends.2 < ends.1 then .error (.reversedRange ends.1 ends.2)
  else .ok (charRange ends.1 ends.2)

/-- Consecutive characters in pairs, if their number is even. -/
def pairs? : List Char → Option (List (Char × Char))
  | [] => some []
  | [_] => none
  | first :: last :: rest => (pairs? rest).map ((first, last) :: ·)

/-- The group that offers a choice between the given characters. -/
def choice (chars : List Char) : List Token :=
  .groupOpen :: (chars.map Token.char).intersperse .union ++ [.groupClose]

/-- The tokens that a range block with the given characters stands for. -/
def blockTokens (chars : List Char) : Except Fault (List Token) :=
  if chars = [] then .error .emptyBlock
  else
    match pairs? chars with
    | none => .error .unpairedBlock
    | some ranges => (ranges.mapM rangeChars).map fun alternatives => choice alternatives.flatten

mutual

/-- Writes out the range blocks of a pattern. -/
def expand : List Sign → Except Fault (List Token)
  | [] => .ok []
  | .token t :: rest => (expand rest).map (t :: ·)
  | .blockOpen :: rest => expandBlock [] rest
  | .blockClose :: _ => .error .blockNeverOpened

/-- Goes on inside a range block; `chars` are its characters so far, the latest first. -/
def expandBlock (chars : List Char) : List Sign → Except Fault (List Token)
  | [] => .error .unterminatedBlock
  | .token (.char c) :: rest => expandBlock (c :: chars) rest
  | .blockClose :: rest => do
    let block ← blockTokens chars.reverse
    (expand rest).map (block ++ ·)
  | sign :: _ => .error (.unexpectedInBlock sign.symbol)

end

end MaximalMunch.Pattern
