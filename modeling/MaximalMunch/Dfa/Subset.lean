import MaximalMunch.Dfa.Basic
import MaximalMunch.Nfa.Basic

/-!
# The subset construction

A state of the deterministic automaton stands for the set of states that the nondeterministic one
can be in.  Sets are numbered in the order in which they are found: the closure of the start state
first, then, set by set and character by character, every set that is reached and not yet known.
The empty set has no number; a transition into it is left out.
-/

namespace MaximalMunch

namespace Subset

/-- Where the construction stands: the sets found so far, in the order of their numbers, and the
transitions of those that have been treated. -/
structure Table where
  sets : Array StateSet
  rows : Array (SymbolMap Nat)

/-- The closure of every single state. -/
def closures (n : Nfa) : Array StateSet :=
  Array.ofFn fun q : Fin n.size => n.closure (.singleton q)

/-- The closure of a set, which is the union of the closures of its elements. -/
def close (closures : Array StateSet) (states : StateSet) : StateSet :=
  states.toList.foldl (fun found q => found ∪ closures.getD q ∅) ∅

/-- Adds the transition on one character to the row of a set, given the states that the character
itself leads to.  Their closure is the target; one that is not known yet gets the next number. -/
def link (closures : Array StateSet) (found : Array StateSet × SymbolMap Nat)
    (departure : Char × StateSet) : Array StateSet × SymbolMap Nat :=
  let target := close closures departure.2
  if target.isEmpty then found
  else
    match found.1.idxOf? target with
    | some id => (found.1, found.2.insert departure.1 id)
    | none => (found.1.push target, found.2.insert departure.1 found.1.size)

/-- Treats the sets that are found and not yet treated, at most `fuel` of them. -/
def explore (n : Nfa) (closures : Array StateSet) : Nat → Table → Table
  | 0, table => table
  | fuel + 1, table =>
    match table.sets[table.rows.size]? with
    | none => table
    | some states =>
      let (sets, row) := (n.departures states).entries.foldl (link closures) (table.sets, ∅)
      explore n closures fuel ⟨sets, table.rows.push row⟩

/-- All reachable sets with their transitions.  There are at most `2 ^ n` sets of `n` states. -/
def table (n : Nfa) : Table :=
  let closures := closures n
  explore n closures (1 <<< n.size) ⟨#[close closures (.singleton n.start)], #[]⟩

end Subset

/-- The deterministic automaton of a nondeterministic one. -/
def Dfa.ofNfa (n : Nfa) : Dfa :=
  let table := Subset.table n
  { start := 0
    finals := .ofList ((List.range table.sets.size).filter fun id =>
      (table.sets.getD id ∅).meets n.finals)
    rows := table.rows }

end MaximalMunch
