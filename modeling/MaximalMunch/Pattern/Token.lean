/-!
# Pattern tokens

A pattern is a row of tokens: characters that stand for themselves, the empty word, and the signs
for union, concatenation, closure and grouping.  Two operands that stand side by side are
concatenated; `juxtapose` writes that concatenation out.  `Token.text` writes a token so that it
reads back as the same token.
-/

namespace MaximalMunch.Pattern

/-- The characters with a meaning of their own in a pattern. -/
def specials : List Char :=
  [')', '(', '*', '.', 'ε', '\\', ']', '[', '|']

/-- A symbol of a pattern whose range blocks are written out. -/
inductive Token where
  | char (c : Char)
  | epsilon
  | union
  | concat
  | closure
  | groupOpen
  | groupClose
  deriving DecidableEq, Repr

namespace Token

/-- The character that stands for a token, without the backslash of an escaped one. -/
def symbol : Token → Char
  | char c => c
  | epsilon => 'ε'
  | union => '|'
  | concat => '.'
  | closure => '*'
  | groupOpen => '('
  | groupClose => ')'

/-- Whether a token is an expression by itself. -/
def isOperand : Token → Bool
  | char _ | epsilon => true
  | _ => false

/-- Whether an expression can end with this token. -/
def endsOperand : Token → Bool
  | char _ | epsilon | closure | groupClose => true
  | union | concat | groupOpen => false

/-- Whether an expression can begin with this token. -/
def beginsOperand : Token → Bool
  | char _ | epsilon | groupOpen => true
  | union | concat | closure | groupClose => false

/-- A token as a pattern writes it. -/
def text : Token → List Char
  | char c => if c ∈ specials then ['\\', c] else [c]
  | token => [token.symbol]

end Token

/-- Writes out the concatenation of neighbouring operands. -/
def juxtapose : List Token → List Token
  | [] => []
  | [token] => [token]
  | left :: right :: rest =>
    if left.endsOperand && right.beginsOperand then
      left :: .concat :: juxtapose (right :: rest)
    else
      left :: juxtapose (right :: rest)

/-- A row of tokens as a pattern writes it. -/
def tokensText (tokens : List Token) : List Char :=
  tokens.flatMap Token.text

end MaximalMunch.Pattern
