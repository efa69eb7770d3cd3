import MaximalMunch.Text.Escape

/-!
# Graphs as text

A directed graph in the dot language.  The vertices are numbered from zero; each has one line with
its attributes, and behind it a line for each edge that leaves it.  Labels stand between quotes
and are written as they are, so whoever makes a label escapes it.
-/

namespace MaximalMunch.Diagram

/-- An edge that leaves a vertex. -/
structure Edge where
  target : Nat
  label : String
  deriving DecidableEq, Repr

/-- A vertex: its attributes besides the label, and the edges that leave it. -/
structure Vertex where
  attributes : List String
  edges : List Edge
  deriving DecidableEq, Repr

/-- A text between quotes. -/
def quoted (text : String) : String :=
  "\"" ++ text ++ "\""

/-- The name of a vertex. -/
def vertexName (id : Nat) : String :=
  "node_" ++ toString id

/-- The line of a vertex. -/
def vertexLine (id : Nat) (attributes : List String) : String :=
  "  " ++ vertexName id ++ " [" ++
    ", ".intercalate (("label=" ++ quoted (toString id)) :: attributes) ++ "];\n"

/-- The line of an edge. -/
def edgeLine (source : Nat) (edge : Edge) : String :=
  "  " ++ vertexName source ++ " -> " ++ vertexName edge.target ++
    " [label=" ++ quoted edge.label ++ "];\n"

/-- A graph that is drawn from left to right under a title. -/
def dot (title : String) (vertices : List Vertex) : String :=
  "digraph \x7b\n  label=" ++ quoted title ++ ";\n  rankdir=LR;\n"
    ++ String.join (vertices.zipIdx.map fun (vertex, id) =>
      vertexLine id vertex.attributes ++ String.join (vertex.edges.map (edgeLine id)))
    ++ "\x7d\n"

/-- The label of an edge on a character.  A quote or a backslash is escaped, so that it neither
ends the label nor escapes what follows. -/
def symbolLabel (c : Char) : String :=
  if c = '"' then "\\\""
  else if c = '\\' then "\\\\"
  else String.ofList (Text.escapeChar c)

/-- The attributes of a circle in the given colour with a thick line. -/
def outlined (color : String) : List String :=
  ["color=" ++ color, "penwidth=3"]

/-- The attribute of a vertex that is drawn as a circle. -/
def circle : String := "shape=circle"

end MaximalMunch.Diagram
