/-!
# Log records

What the library reports besides its results.  An operation that has something to report returns
its records in the order in which they were made.
-/

namespace MaximalMunch

/-- A message to whoever watches. -/
inductive Record where
  | debug (message : String)
  | warn (message : String)
  deriving DecidableEq, Repr

end MaximalMunch
