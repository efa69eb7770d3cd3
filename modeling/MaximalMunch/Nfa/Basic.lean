import MaximalMunch.Automaton.StateSet
import MaximalMunch.Automaton.SymbolMap
import MaximalMunch.Error

/-!
# Nondeterministic automata

The states of an automaton are the numbers below `size`, and each has a row with its transitions
on characters and without one.  `closure` adds to a set of states all that can be reached without
reading, `move` steps over one character.
-/

namespace MaximalMunch

namespace Nfa

/-- The transitions that leave a state. -/
structure Row where
  /-- The targets on each character. -/
  symbols : SymbolMap StateSet := ∅
  /-- The targets that are reached without reading. -/
  epsilon : StateSet := ∅
  deriving DecidableEq

namespace Row

instance : Inhabited Row := ⟨{}⟩

/-- The targets on one character. -/
def targets (row : Row) (c : Char) : StateSet :=
  (row.symbols.get? c).getD ∅

/-- A row with one more transition on a character. -/
def addSymbol (row : Row) (c : Char) (target : Nat) : Row :=
  { row with symbols := row.symbols.insertWith (· ∪ ·) c (.singleton target) }

/-- A row with one more transition that reads nothing. -/
def addEpsilon (row : Row) (target : Nat) : Row :=
  { row with epsilon := row.epsilon.insert target }

/-- The transitions of both rows. -/
def union (row other : Row) : Row where
  symbols := SymbolMap.mergeWith (· ∪ ·) row.symbols other.symbols
  epsilon := row.epsilon ∪ other.epsilon

instance : Union Row := ⟨union⟩

/-- The row with all targets raised by an offset. -/
def shift (row : Row) (offset : Nat) : Row where
  symbols := row.symbols.map (·.shift offset)
  epsilon := row.epsilon.shift offset

end Row

end Nfa

/-- A nondeterministic finite automaton. -/
structure Nfa where
  start : Nat
  finals : StateSet
  rows : Array Nfa.Row
  deriving DecidableEq

namespace Nfa

/-- The number of states. -/
def size (n : Nfa) : Nat := n.rows.size

/-- The transitions that leave a state; numbers that are no state have none. -/
def row (n : Nfa) (q : Nat) : Row := n.rows.getD q {}

/-- An automaton without transitions.  The start state is checked first and the final states in
ascending order. -/
def new (states start : Nat) (finals : List Nat) : Except Error Nfa :=
  if states ≤ start then .error (.invalidState (.nfaState start states))
  else
    match (finals.filter (states ≤ ·)).min? with
    | some state => .error (.invalidState (.nfaState state states))
    | none => .ok ⟨start, .ofList finals, Array.replicate states {}⟩

/-- Changes the row of `source`, if both ends of the transition are states. -/
def addBetween (n : Nfa) (source target : Nat) (change : Row → Row) : Except Error Nfa :=
  if n.size ≤ source ∨ n.size ≤ target then
    .error (.invalidState (.nfaTransition source target n.size))
  else .ok { n with rows := n.rows.modify source change }

/-- Adds a transition on a character. -/
def addTransition (n : Nfa) (source : Nat) (c : Char) (target : Nat) : Except Error Nfa :=
  n.addBetween source target (·.addSymbol c target)

/-- Adds a transition that reads nothing. -/
def addEpsilonTransition (n : Nfa) (source target : Nat) : Except Error Nfa :=
  n.addBetween source target (·.addEpsilon target)

/-- The characters on some transition, in ascending order. -/
def alphabet (n : Nfa) : List Char :=
  (n.rows.foldl (fun seen row => row.symbols.symbols.foldl (·.insert · ()) seen)
    (∅ : SymbolMap Unit)).symbols

/-- The states that one transition without reading reaches from a set. -/
def epsilonTargets (n : Nfa) (states : StateSet) : StateSet :=
  states.toList.foldl (fun found q => found ∪ (n.row q).epsilon) ∅

/-- The states that one transition on a character reaches from a set. -/
def move (n : Nfa) (states : StateSet) (c : Char) : StateSet :=
  states.toList.foldl (fun found q => found ∪ (n.row q).targets c) ∅

/-- All transitions on characters that leave the states of a set. -/
def departures (n : Nfa) (states : StateSet) : SymbolMap StateSet :=
  states.toList.foldl
    (fun found q => SymbolMap.mergeWith (· ∪ ·) (n.row q).symbols found) ∅

/-- Adds to `frontier` what can be reached from it without reading and through states of `unseen`
only.  Each round takes the states it reaches out of `unseen`. -/
def closeFrom (n : Nfa) (unseen frontier : StateSet) : StateSet :=
  let reached := unseen ∩ n.epsilonTargets frontier
  if _ : reached.isEmpty then frontier
  else frontier ∪ n.closeFrom (unseen \ reached) reached
termination_by unseen.mask
decreasing_by
  obtain ⟨i, hi⟩ := StateSet.exists_mem_of_not_isEmpty ‹_›
  exact StateSet.mask_diff_lt (StateSet.mem_inter.1 hi).1 hi

/-- A set of states and all that can be reached from it without reading. -/
def closure (n : Nfa) (states : StateSet) : StateSet :=
  n.closeFrom (.below n.size \ states) states

/-- A set of state numbers as a set of states, for callers that promise not to name others. -/
def checked (n : Nfa) (states : List Nat) : Except Error StateSet :=
  if states.all (· < n.size) then .ok (.ofList states) else .error (.breach .unknownState)

/-- The closure of a set that the caller names. -/
def epsilonClosure (n : Nfa) (states : List Nat) : Except Error StateSet :=
  (n.checked states).map n.closure

/-- The targets on a character from a set that the caller names. -/
def moveSet (n : Nfa) (states : List Nat) (c : Char) : Except Error StateSet :=
  (n.checked states).map (n.move · c)

/-- The final state of an automaton that has exactly one. -/
def finalState (n : Nfa) : Except Error Nat :=
  match n.finals.toList with
  | [q] => .ok q
  | states => .error (.invalidState (.finalCount states.length))

end Nfa

end MaximalMunch
