/-!
# Expressions

The structure of a pattern: characters and the empty word, combined by union, concatenation and
closure.
-/

namespace MaximalMunch

/-- A regular expression. -/
inductive Expr where
  | char (c : Char)
  | epsilon
  | union (left right : Expr)
  | concat (left right : Expr)
  | closure (operand : Expr)
  deriving DecidableEq, Repr

namespace Expr

/-- The nodes of an expression, each in front of its operands and the left operand first. -/
def preorder : Expr → List Expr
  | e@(char _) | e@epsilon => [e]
  | e@(union left right) | e@(concat left right) => e :: (left.preorder ++ right.preorder)
  | e@(closure operand) => e :: operand.preorder

end Expr

end MaximalMunch
