import MaximalMunch.Expr.Basic
import MaximalMunch.Pattern.Token
import MaximalMunch.Text.Escape

/-!
# Outlines

An outline shows an expression as a tree with one line for each node.  Branches are drawn in front
of the operands; the last operand of a node ends its branch.
-/

namespace MaximalMunch.Expr

/-- What an outline shows for a node.  A character that a pattern would escape is escaped. -/
def label : Expr → List Char
  | char c => if c ∈ Pattern.specials then ['\\', c] else Text.escapeChar c
  | epsilon => ['ε']
  | union _ _ => ['|']
  | concat _ _ => ['.']
  | closure _ => ['*']

/-- The drawing in front of an operand that others follow. -/
def branch : List Char := "|-- ".toList

/-- The drawing in front of the last operand. -/
def lastBranch : List Char := "\\-- ".toList

/-- The drawing that leads past an operand to those behind it. -/
def trunk : List Char := "|   ".toList

/-- The space below the last operand. -/
def gap : List Char := "    ".toList

/-- The lines of an outline: `lead` is drawn in front of the node, `margin` in front of all lines
below it. -/
def outlineLines (lead margin : List Char) : Expr → List (List Char)
  | e@(char _) | e@epsilon => [lead ++ e.label]
  | e@(union left right) | e@(concat left right) =>
    (lead ++ e.label) ::
      (left.outlineLines (margin ++ branch) (margin ++ trunk) ++
        right.outlineLines (margin ++ lastBranch) (margin ++ gap))
  | e@(closure operand) =>
    (lead ++ e.label) :: operand.outlineLines (margin ++ lastBranch) (margin ++ gap)

/-- The outline of an expression, every line ended by a line feed. -/
def outline (e : Expr) : String :=
  String.ofList ((e.outlineLines gap gap).flatMap (· ++ ['\n']))

end MaximalMunch.Expr
