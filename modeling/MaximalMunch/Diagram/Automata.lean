import MaximalMunch.Dfa.Basic
import MaximalMunch.Diagram.Dot
import MaximalMunch.Nfa.Basic

/-!
# Automata as graphs

Every state is a vertex and every transition an edge.  The start state is blue and final states
are red.
-/

namespace MaximalMunch

open Diagram (Edge Vertex)

/-- The attributes of a start state. -/
def Diagram.startAttributes : List String :=
  circle :: outlined "blue"

/-- The edges that leave a state: those on characters, in the order of the characters and then of
the targets, and behind them those that read nothing. -/
def Nfa.Row.edges (row : Nfa.Row) : List Edge :=
  (row.symbols.entries.flatMap fun e =>
    e.2.toList.map fun target => ⟨target, Diagram.symbolLabel e.1⟩) ++
  row.epsilon.toList.map fun target => ⟨target, "ε"⟩

/-- The vertices of a nondeterministic automaton. -/
def Nfa.vertices (n : Nfa) : List Vertex :=
  n.rows.toList.zipIdx.map fun (row, q) =>
    { attributes :=
        (if q = n.start then Diagram.startAttributes else []) ++
          (if q ∈ n.finals then Diagram.circle :: Diagram.outlined "red" else [])
      edges := row.edges }

/-- The graph of a nondeterministic automaton. -/
def Nfa.dot (n : Nfa) (title : String) : String :=
  Diagram.dot title n.vertices

/-- The vertices of a deterministic automaton. -/
def Dfa.vertices (d : Dfa) : List Vertex :=
  d.rows.toList.zipIdx.map fun (row, q) =>
    { attributes :=
        (if q = d.start then Diagram.startAttributes else []) ++
          (if q ∈ d.finals then Diagram.outlined "red" else [])
      edges := row.entries.map fun e => ⟨e.2, Diagram.symbolLabel e.1⟩ }

/-- The graph of a deterministic automaton. -/
def Dfa.dot (d : Dfa) (title : String) : String :=
  Diagram.dot title d.vertices

end MaximalMunch
