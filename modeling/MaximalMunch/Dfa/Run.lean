import MaximalMunch.Dfa.Basic

/-!
# Runs

A run is at a state of an automaton or dead.  It does not hold the automaton, so the same
automaton can be followed by many runs.
-/

namespace MaximalMunch.Dfa

/-- Where a run stands. -/
structure Run where
  /-- The state, unless the run is dead. -/
  state : Option Nat
  deriving DecidableEq, Repr

namespace Run

/-- A run at the start of an automaton. -/
def atStart (d : Dfa) : Run := ⟨some d.start⟩

/-- Whether the run met a character without a transition. -/
def isDead (r : Run) : Bool := r.state.isNone

/-- Whether the run is at a final state. -/
def accepts (r : Run) (d : Dfa) : Bool := r.state.any d.isFinal

/-- Follows the transition on a character.  The caller promises that the run is not dead. -/
def advance (r : Run) (d : Dfa) (c : Char) : Except Error Run :=
  match r.state with
  | none => .error (.breach .deadRun)
  | some q => .ok ⟨d.next? q c⟩

/-- The run after each character of a word, up to the one that kills it. -/
def trail (r : Run) (d : Dfa) : List Char → List Run
  | [] => []
  | c :: word =>
    match r.advance d c with
    | .error _ => []
    | .ok next => next :: if next.isDead then [] else next.trail d word

/-- The run after the characters of a word, none of which is read once the run is dead. -/
def follow (r : Run) (d : Dfa) (word : List Char) : Run :=
  (r.trail d word).getLastD r

end Run

/-- Whether the run over a word ends in a final state. -/
def accepts (d : Dfa) (word : List Char) : Bool :=
  ((Run.atStart d).follow d word).accepts d

end MaximalMunch.Dfa
