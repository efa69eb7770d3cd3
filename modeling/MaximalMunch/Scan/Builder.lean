import MaximalMunch.Definition.Text
import MaximalMunch.Scan.Scanner

/-!
# Building scanners

A builder collects definitions in the order of precedence.  Definitions are compiled as they are
added, and one that does not compile is not added.  Every call leaves a builder behind, also one
that fails.
-/

namespace MaximalMunch

/-- The definitions of a scanner to be, and how it is to read. -/
structure Builder where
  definitions : List Definition := []
  config : Config := {}

/-- What a call leaves behind: the builder, the records it made, and its result. -/
structure Reply (α : Type) where
  builder : Builder
  records : List Record
  result : Except Error α

namespace Builder

/-- Adds a definition behind those that are there; the result is its index. -/
def add (b : Builder) (type pattern : String) : Reply Nat :=
  let id := b.definitions.length
  match Definition.compile id type pattern b.config.verbose with
  | .error e => ⟨b, [], .error (e.inDefinition id type)⟩
  | .ok (d, records) => ⟨{ b with definitions := b.definitions ++ [d] }, records, .ok id⟩

/-- Adds definitions in order, up to the first one that fails. -/
def addMany (b : Builder) : List (String × String) → Reply Unit
  | [] => ⟨b, [], .ok ()⟩
  | (type, pattern) :: rest =>
    let first := b.add type pattern
    match first.result with
    | .error e => ⟨first.builder, first.records, .error e⟩
    | .ok _ =>
      let later := first.builder.addMany rest
      { later with records := first.records ++ later.records }

/-- Adds the definitions of a text, none of them if a line of it is malformed. -/
def addText (b : Builder) (text : String) : Reply Unit :=
  match Definition.readText text with
  | .error e => ⟨b, [], .error e⟩
  | .ok pairs =>
    let reply := b.addMany pairs
    { reply with
      records := .debug ("Adding " ++ toString pairs.length ++ " definitions") :: reply.records }

/-- Adds the definitions of a file with the given contents, or of a file that does not exist. -/
def addFile (b : Builder) (contents : Option ByteArray) : Reply Unit :=
  match contents.bind String.fromUTF8? with
  | none => ⟨b, [], .error .unreadableFile⟩
  | some text => b.addText text

/-- Sets what ends a line. -/
def setLineEnding (b : Builder) (ending : LineEnding) : Builder :=
  { b with config := { b.config with lineEnding := ending } }

/-- Sets the lookahead.  At least one character has to be read, so zero counts as one. -/
def setLookahead (b : Builder) (capacity : Nat) : Builder :=
  { b with config := { b.config with lookahead := max capacity 1 } }

/-- Sets whether the definitions added from now on are reported. -/
def setVerbose (b : Builder) (verbose : Bool) : Builder :=
  { b with config := { b.config with verbose } }

/-- The scanner for the definitions added so far. -/
def build (b : Builder) : Scanner := ⟨b.definitions, b.config⟩

end Builder

end MaximalMunch
