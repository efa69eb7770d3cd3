import MaximalMunch.Dfa.Listing
import MaximalMunch.Dfa.Subset
import MaximalMunch.Expr.Outline
import MaximalMunch.Expr.Postfix
import MaximalMunch.Log
import MaximalMunch.Nfa.Listing
import MaximalMunch.Nfa.OfExpr

/-!
# Token definitions

A definition gives a token type and the pattern of its lexemes.  It is compiled once: the pattern
is read, and its expression, its nondeterministic and its deterministic automaton are built.
-/

namespace MaximalMunch

/-- All that is built on the way from a pattern to its automaton. -/
structure Compilation where
  pattern : Pattern
  expr : Expr
  nfa : Nfa
  dfa : Dfa

/-- Builds the automaton of a pattern. -/
def Compilation.ofText (raw : String) : Except Error Compilation := do
  let pattern ← Pattern.read raw
  let expr ← Expr.ofPattern pattern
  let nfa ← Nfa.ofExpr expr
  return { pattern, expr, nfa, dfa := Dfa.ofNfa nfa }

/-- The records about a compilation. -/
def Compilation.records (c : Compilation) (type : String) : List Record :=
  [.debug ("Token Type: " ++ type),
   .debug ("Regex: " ++ c.pattern.text),
   .debug ("Regex Tree:\n" ++ c.expr.outline),
   .debug ("NFA:\n" ++ c.nfa.listing),
   .debug ("DFA:\n" ++ c.dfa.listing)]

/-- A token type with the automaton of its lexemes. -/
structure Definition where
  /-- The index of the definition among those of its scanner. -/
  id : Nat
  /-- The type of the tokens. -/
  type : String
  /-- The pattern as it was given. -/
  pattern : String
  /-- The automaton that accepts the lexemes. -/
  dfa : Dfa
  deriving DecidableEq

/-- Compiles a definition; the records are made if `verbose` is set. -/
def Definition.compile (id : Nat) (type raw : String) (verbose : Bool) :
    Except Error (Definition × List Record) := do
  let c ← Compilation.ofText raw
  return (⟨id, type, raw, c.dfa⟩, if verbose then c.records type else [])

end MaximalMunch
