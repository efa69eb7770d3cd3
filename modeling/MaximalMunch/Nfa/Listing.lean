import MaximalMunch.Nfa.Basic
import MaximalMunch.Text.Column
import MaximalMunch.Text.Escape

/-!
# Listings of nondeterministic automata

The start state, the final states, the alphabet, and a table with one line for each state.
-/

namespace MaximalMunch.Nfa

/-- A set of states between braces. -/
def listSet (states : StateSet) : String :=
  Text.braced (states.toList.map toString)

/-- The transitions on characters, in the order of the characters. -/
def Row.listSymbols (row : Row) : String :=
  ", ".intercalate <| row.symbols.entries.map fun e =>
    String.ofList (Text.escapeChar e.1) ++ "=" ++ listSet e.2

/-- A line of the table. -/
def listLine (state normal epsilon : String) : String :=
  "        " ++ Text.alignRight 5 state ++ " " ++ Text.alignLeft 30 normal ++ " " ++ epsilon ++ "\n"

/-- The listing of an automaton. -/
def listing (n : Nfa) : String :=
  "    Start State: " ++ toString n.start ++ "\n"
    ++ "    Final States: " ++ listSet n.finals ++ "\n"
    ++ "    Alphabet: " ++
      Text.braced (n.alphabet.map fun c => String.ofList (Text.escapeChar c)) ++ "\n"
    ++ "    Transitions:\n"
    ++ listLine "STATE" "NORMAL" "EPSILON"
    ++ String.join (n.rows.toList.zipIdx.map fun (row, q) =>
      listLine (toString q) row.listSymbols (listSet row.epsilon))

end MaximalMunch.Nfa
