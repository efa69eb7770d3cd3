import MaximalMunch.Expr.Postfix
import MaximalMunch.Nfa.Compose

/-!
# The automaton of an expression

Every node of an expression is turned into the composition that it names.
-/

namespace MaximalMunch

/-- The automaton of an expression. -/
def Nfa.ofExpr : Expr → Except Error Nfa
  | .char c => .ok (literal c)
  | .epsilon => .ok epsilon
  | .union left right => do (← ofExpr left).union (← ofExpr right)
  | .concat left right => do (← ofExpr left).concat (← ofExpr right)
  | .closure operand => do (← ofExpr operand).star

/-- The automaton of a pattern. -/
def Nfa.ofPattern (p : Pattern) : Except Error Nfa := do
  ofExpr (← Expr.ofPattern p)

end MaximalMunch
