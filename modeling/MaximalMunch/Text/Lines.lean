/-!
# Lines of a text

A line feed ends a line, and one carriage return directly in front of it belongs to the line end.
Behind the last line end there is a line only if there are characters.
-/

namespace MaximalMunch.Text

/-- The lines of a text without their line ends. -/
def lines : List Char → List (List Char)
  | [] => []
  | '\n' :: rest => [] :: lines rest
  | '\x0d' :: '\n' :: rest => [] :: lines rest
  | c :: rest =>
    match lines rest with
    | [] => [[c]]
    | line :: more => (c :: line) :: more

end MaximalMunch.Text
