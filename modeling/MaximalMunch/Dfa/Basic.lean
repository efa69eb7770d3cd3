import MaximalMunch.Automaton.StateSet
import MaximalMunch.Automaton.SymbolMap
import MaximalMunch.Error

/-!
# Deterministic automata

Every state has at most one transition on a character.  A `Run` follows the transitions; it is
dead once it meets a character without one.
-/

namespace MaximalMunch

/-- A deterministic finite automaton. -/
structure Dfa where
  start : Nat
  finals : StateSet
  /-- The target on each character, for every state. -/
  rows : Array (SymbolMap Nat)
  deriving DecidableEq

namespace Dfa

/-- The number of states. -/
def size (d : Dfa) : Nat := d.rows.size

/-- The transitions that leave a state; numbers that are no state have none. -/
def row (d : Dfa) (q : Nat) : SymbolMap Nat := d.rows.getD q ∅

/-- The state behind a transition. -/
def next? (d : Dfa) (q : Nat) (c : Char) : Option Nat := (d.row q).get? c

/-- Whether a state is final. -/
def isFinal (d : Dfa) (q : Nat) : Bool := q ∈ d.finals

/-- The given states if all of them are below `states`, else the first that is not. -/
def checkStates (states : Nat) (qs : List Nat) : Except Error Unit :=
  match qs.find? (states ≤ ·) with
  | some state => .error (.invalidState (.dfaState state states))
  | none => .ok ()

/-- An automaton without transitions.  The start state is checked first and the final states in
the order given. -/
def new (states start : Nat) (finals : List Nat) : Except Error Dfa := do
  checkStates states (start :: finals)
  return ⟨start, .ofList finals, Array.replicate states ∅⟩

/-- Adds a transition, or replaces the one on the same character. -/
def addTransition (d : Dfa) (source : Nat) (c : Char) (target : Nat) : Except Error Dfa := do
  checkStates d.size [source, target]
  return { d with rows := d.rows.modify source (·.insert c target) }

/-- Makes a state final. -/
def addFinal (d : Dfa) (q : Nat) : Except Error Dfa := do
  checkStates d.size [q]
  return { d with finals := d.finals.insert q }

/-- The characters on some transition, in ascending order. -/
def alphabet (d : Dfa) : List Char :=
  (d.rows.foldl (fun seen row => row.symbols.foldl (·.insert · ()) seen)
    (∅ : SymbolMap Unit)).symbols

end Dfa

end MaximalMunch
