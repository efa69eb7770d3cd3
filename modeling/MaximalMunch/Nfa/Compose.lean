import MaximalMunch.Nfa.Basic

/-!
# Composing automata

Automata with one final state are put together from smaller ones.  Each composition is given by
the row of every state of the result: the rows of the operands, renumbered by an offset, and the
transitions that join them.  A concatenation lets the transitions out of the second start state
leave the first final state instead; union and closure add a start and a final state of their own.
-/

namespace MaximalMunch.Nfa

/-- The automaton with the given row for each of its states. -/
def tabulate (states start final : Nat) (row : Nat → Row) : Nfa where
  start := start
  finals := .singleton final
  rows := Array.ofFn fun q : Fin states => row q

/-- An automaton for exactly one character. -/
def literal (c : Char) : Nfa :=
  tabulate 2 0 1 fun q => if q = 0 then Row.addSymbol {} c 1 else {}

/-- An automaton for the empty word. -/
def epsilon : Nfa :=
  tabulate 2 0 1 fun q => if q = 0 then Row.addEpsilon {} 1 else {}

/-- The row of state `q` once all states are raised by an offset. -/
def shiftedRow (n : Nfa) (offset q : Nat) : Row :=
  if offset ≤ q then (n.row (q - offset)).shift offset else {}

/-- The words of the first automaton, each followed by a word of the second.  The states of the
second one follow those of the first, except that its transitions out of its start state leave
the final state of the first. -/
def concat (n m : Nfa) : Except Error Nfa := do
  let final ← n.finalState
  let otherFinal ← m.finalState
  let offset := n.size - 1
  return tabulate (n.size + (m.size - 1)) n.start (otherFinal + offset) fun q =>
    n.row q
      ∪ (if q = m.start + offset then {} else m.shiftedRow offset q)
      ∪ (if q = final then (m.row m.start).shift offset else {})

/-- The words of either automaton. -/
def union (n m : Nfa) : Except Error Nfa := do
  let final ← n.finalState
  let otherFinal ← m.finalState
  let offset := n.size + 1
  let last := n.size + m.size + 1
  return tabulate (n.size + m.size + 2) 0 last fun q =>
    n.shiftedRow 1 q
      ∪ m.shiftedRow offset q
      ∪ (if q = 0 then (Row.addEpsilon {} (n.start + 1)).addEpsilon (m.start + offset) else {})
      ∪ (if q = final + 1 ∨ q = otherFinal + offset then Row.addEpsilon {} last else {})

/-- The concatenations of any number of words of an automaton. -/
def star (n : Nfa) : Except Error Nfa := do
  let final ← n.finalState
  let last := n.size + 1
  let enter (q : Nat) : Row :=
    if q = 0 ∨ q = final + 1 then (Row.addEpsilon {} (n.start + 1)).addEpsilon last else {}
  return tabulate (n.size + 2) 0 last fun q => n.shiftedRow 1 q ∪ enter q

end MaximalMunch.Nfa
