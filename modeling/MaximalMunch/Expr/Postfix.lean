import MaximalMunch.Expr.Basic
import MaximalMunch.Pattern.Basic

/-!
# Postfix order

In postfix order every operator stands behind its operands and grouping is not needed.  The tokens
of a normalized pattern are brought into that order by operator precedence: closure binds tighter
than concatenation, concatenation tighter than union, and both binary operators group to the left.
Reading the items with a stack of operands then yields the expression.
-/

namespace MaximalMunch

open Pattern (Token Fault)

/-- The operators with two operands. -/
inductive Operator where
  | union
  | concat
  deriving DecidableEq, Repr

/-- How tightly an operator binds. -/
def Operator.precedence : Operator → Nat
  | union => 0
  | concat => 1

/-- Whether an operator that waits for its right operand gets it before `op` gets its left one. -/
def Operator.yields (op waiting : Operator) : Bool :=
  op.precedence ≤ waiting.precedence

/-- An item of an expression in postfix order. -/
inductive Item where
  | char (c : Char)
  | epsilon
  | closure
  | operator (op : Operator)
  deriving DecidableEq, Repr

namespace Postfix

/-- Where the conversion stands: the items written, the latest first, the operators that wait for
their right operand in the innermost open group, and those of each group around it. -/
structure Yard where
  items : List Item
  waiting : List Operator
  outer : List (List Operator)

/-- Writes the given operators, the first one first. -/
def Yard.write (yard : Yard) (ops : List Operator) : List Item :=
  (ops.map Item.operator).reverse ++ yard.items

/-- A binary operator first releases the waiting operators that bind at least as tightly. -/
def Yard.shift (yard : Yard) (op : Operator) : Yard :=
  { yard with
    items := yard.write (yard.waiting.takeWhile op.yields)
    waiting := op :: yard.waiting.dropWhile op.yields }

/-- Treats one token. -/
def Yard.step (yard : Yard) : Token → Except Fault Yard
  | .char c => .ok { yard with items := .char c :: yard.items }
  | .epsilon => .ok { yard with items := .epsilon :: yard.items }
  | .closure => .ok { yard with items := .closure :: yard.items }
  | .union => .ok (yard.shift .union)
  | .concat => .ok (yard.shift .concat)
  | .groupOpen => .ok { yard with waiting := [], outer := yard.waiting :: yard.outer }
  | .groupClose =>
    match yard.outer with
    | [] => .error .unmatchedClose
    | waiting :: outer => .ok { items := yard.write yard.waiting, waiting, outer }

/-- All items, once the tokens are used up. -/
def Yard.finish (yard : Yard) : Except Fault (List Item) :=
  match yard.outer with
  | [] => .ok (yard.write yard.waiting).reverse
  | _ :: _ => .error .unmatchedOpen

/-- The postfix order of a row of tokens. -/
def ofTokens (tokens : List Token) : Except Fault (List Item) := do
  let yard ← tokens.foldlM Yard.step ⟨[], [], []⟩
  yard.finish

/-- Applies an item to a stack of operands, the latest first. -/
def apply : List Expr → Item → Except Fault (List Expr)
  | operands, .char c => .ok (.char c :: operands)
  | operands, .epsilon => .ok (.epsilon :: operands)
  | operand :: operands, .closure => .ok (.closure operand :: operands)
  | right :: left :: operands, .operator .union => .ok (.union left right :: operands)
  | right :: left :: operands, .operator .concat => .ok (.concat left right :: operands)
  | _, _ => .error .missingOperand

/-- The expression that items in postfix order describe. -/
def build (items : List Item) : Except Fault Expr := do
  match ← items.foldlM apply [] with
  | [e] => .ok e
  | operands => .error (.expressionCount operands.length)

end Postfix

/-- The expression of a row of tokens in which all concatenations are written out. -/
def Expr.ofTokens (tokens : List Token) : Except Fault Expr := do
  Postfix.build (← Postfix.ofTokens tokens)

/-- The expression of a pattern. -/
def Expr.ofPattern (p : Pattern) : Except Error Expr :=
  match Expr.ofTokens p.normalized with
  | .error fault => .error (.malformedPattern p.raw none fault)
  | .ok e => .ok e

end MaximalMunch
