import MaximalMunch.Definition.Basic
import MaximalMunch.Dfa.Run
import MaximalMunch.Scan.Tape

/-!
# Match attempts

An attempt reads from the start of a span for as long as some definition can still match, and
remembers the longest match.  Of the definitions that match the same text the first one counts.
-/

namespace MaximalMunch

/-- A definition with a run of its automaton. -/
structure Lane where
  definition : Definition
  run : Dfa.Run

namespace Lane

/-- A lane at the start of its automaton. -/
def atStart (d : Definition) : Lane := ⟨d, .atStart d.dfa⟩

/-- Whether no text that goes on from here can match. -/
def isDead (lane : Lane) : Bool := lane.run.isDead

/-- Whether the text read so far matches. -/
def accepts (lane : Lane) : Bool := lane.run.accepts lane.definition.dfa

/-- Reads a character, unless the lane is dead. -/
def advance (lane : Lane) (c : Char) : Except Error Lane :=
  if lane.isDead then .ok lane
  else (lane.run.advance lane.definition.dfa c).map fun run => { lane with run }

end Lane

/-- A definition that matches some of the text. -/
structure Match where
  length : Nat
  /-- The index of the definition. -/
  id : Nat
  length_pos : 0 < length

/-- What an attempt ends with. -/
inductive Verdict where
  /-- There is no more text. -/
  | finished
  /-- The longest match. -/
  | found (m : Match)
  /-- No definition matches, and the given number of characters show it. -/
  | unmatched (length : Nat) (length_pos : 0 < length)

namespace Attempt

/-- The match of the whole text read so far, if there is one, replaces the best one before. -/
def improve (lanes : List Lane) (best : Option Match) (length : Nat) (pos : 0 < length) :
    Option Match :=
  match lanes.find? Lane.accepts with
  | some lane => some ⟨length, lane.definition.id, pos⟩
  | none => best

/-- The verdict once the given number of characters have been read. -/
def conclude (best : Option Match) (length : Nat) (pos : 0 < length) : Verdict :=
  match best with
  | some m => .found m
  | none => .unmatched length pos

/-- Every lane reads a character. -/
def advance (lanes : List Lane) (c : Char) : Except Error (List Lane) :=
  lanes.mapM (·.advance c)

/-- Reads on from a point where `length` characters have been read.  The attempt ends with the
character that leaves no lane alive, or at the end of the input. -/
def run (lanes : List Lane) (best : Option Match) (length : Nat) (tape : Tape) :
    Except Error (Verdict × Tape) :=
  match _ : tape.next with
  | .error e => .error e
  | .ok (none, rest) =>
    if h : length = 0 then .ok (.finished, rest)
    else .ok (conclude best length (Nat.pos_of_ne_zero h), rest)
  | .ok (some c, rest) =>
    match advance lanes c with
    | .error e => .error e
    | .ok lanes =>
      if lanes.all Lane.isDead then
        .ok (conclude best (length + 1) (Nat.succ_pos length), rest)
      else
        run lanes (improve lanes best (length + 1) (Nat.succ_pos length)) (length + 1) rest
termination_by tape.unread
decreasing_by
  exact Tape.unread_next ‹tape.next = .ok (some c, rest)›

/-- An attempt commits nothing. -/
theorem size_run {lanes : List Lane} {best : Option Match} {length : Nat} {tape rest : Tape}
    {verdict : Verdict} (h : run lanes best length tape = .ok (verdict, rest)) :
    rest.size ≤ tape.size := by
  fun_induction run lanes best length tape with
  | case1 => cases h
  | case2 lanes best tape next hn =>
    obtain ⟨rfl, rfl⟩ := Prod.mk.inj (Except.ok.inj h)
    exact Tape.size_next hn
  | case3 lanes best length tape next hn =>
    obtain ⟨rfl, rfl⟩ := Prod.mk.inj (Except.ok.inj h)
    exact Tape.size_next hn
  | case4 => cases h
  | case5 lanes best length tape c next hn =>
    obtain ⟨rfl, rfl⟩ := Prod.mk.inj (Except.ok.inj h)
    exact Tape.size_next hn
  | case6 lanes best length tape c next hn advanced _ _ ih =>
    exact Nat.le_trans (ih h) (Tape.size_next hn)

end Attempt

end MaximalMunch
