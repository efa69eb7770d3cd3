import MaximalMunch.Dfa.Basic
import MaximalMunch.Text.Column
import MaximalMunch.Text.Escape

/-!
# Listings of deterministic automata

The start state, the final states, the alphabet, and a table with one line for each state.
-/

namespace MaximalMunch.Dfa

/-- The transitions of a state between braces, in the order of the characters. -/
def listRow (row : SymbolMap Nat) : String :=
  Text.braced <| row.entries.map fun e =>
    String.ofList (Text.escapeChar e.1) ++ "=" ++ toString e.2

/-- A line of the table. -/
def listLine (state transitions : String) : String :=
  "        " ++ Text.alignRight 5 state ++ " " ++ transitions ++ "\n"

/-- The listing of an automaton. -/
def listing (d : Dfa) : String :=
  "    Start State: " ++ toString d.start ++ "\n"
    ++ "    Final States: " ++ Text.braced (d.finals.toList.map toString) ++ "\n"
    ++ "    Alphabet: " ++
      Text.braced (d.alphabet.map fun c => String.ofList (Text.escapeChar c)) ++ "\n"
    ++ "    Transitions:\n"
    ++ listLine "STATE" "TRANSITIONS"
    ++ String.join (d.rows.toList.zipIdx.map fun (row, q) => listLine (toString q) (listRow row))

end MaximalMunch.Dfa
