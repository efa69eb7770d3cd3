/-!
# Columns of a listing

A field is filled up with spaces to the width of its column, counted in characters; a longer
field keeps all its characters.
-/

namespace MaximalMunch.Text

/-- The spaces that fill a field up to the given width. -/
def filling (width : Nat) (field : String) : String :=
  String.ofList (List.replicate (width - field.length) ' ')

/-- A field at the left end of its column. -/
def alignLeft (width : Nat) (field : String) : String :=
  field ++ filling width field

/-- A field at the right end of its column. -/
def alignRight (width : Nat) (field : String) : String :=
  filling width field ++ field

/-- Items between braces, separated by a comma and a space. -/
def braced (items : List String) : String :=
  "\x7b" ++ ", ".intercalate items ++ "\x7d"

end MaximalMunch.Text
