import Mathlib.Data.List.Basic
import MaximalMunch.Text.Lines

/-!
# The lines of a text

`SplitsInto` says what the lines of a text are: what stands in front of a line feed, without one
carriage return directly in front of it, and what stands behind the last line feed, if anything
does.  Every text has exactly one row of lines, the one that `lines` finds (`splitsInto_iff`).  So
lines that are written one after the other are found again (`lines_flatMap`), unless a carriage
return of a line could belong to the line end.
-/

namespace MaximalMunch.Text

/-- A line without the carriage return that belongs to its line feed. -/
def withoutReturn (line : List Char) : List Char :=
  if line.getLast? = some '\x0d' then line.dropLast else line

/-- What the lines of a text are. -/
inductive SplitsInto : List Char → List (List Char) → Prop where
  | nil : SplitsInto [] []
  | unended {line} (hne : line ≠ []) (hfeed : '\n' ∉ line) : SplitsInto line [line]
  | ended {line rest ls} (hfeed : '\n' ∉ line) (h : SplitsInto rest ls) :
      SplitsInto (line ++ '\n' :: rest) (withoutReturn line :: ls)

variable {line rest text lineEnd : List Char} {ls : List (List Char)} {c : Char}

/-! ## Carriage returns -/

theorem withoutReturn_of_no_return (h : line.getLast? ≠ some '\x0d') : withoutReturn line = line :=
  if_neg h

theorem withoutReturn_return (line : List Char) : withoutReturn (line ++ ['\x0d']) = line := by
  rw [withoutReturn, if_pos List.getLast?_concat, List.dropLast_concat]

theorem withoutReturn_cons (hne : line ≠ []) :
    withoutReturn (c :: line) = c :: withoutReturn line := by
  rw [withoutReturn, withoutReturn, List.getLast?_cons_of_ne_nil hne,
    List.dropLast_cons_of_ne_nil hne]
  split
  · rfl
  · rfl

/-! ## Finding the lines -/

/-- A character that is no part of a line end belongs to the line that begins behind it. -/
theorem lines_cons (hfeed : c ≠ '\n') (hreturn : c = '\x0d' → rest.head? ≠ some '\n') :
    lines (c :: rest) =
      match lines rest with
      | [] => [[c]]
      | line :: more => (c :: line) :: more := by
  have hhead : ∀ rest', c = '\x0d' → rest = '\n' :: rest' → False := by
    intro rest' hc hrest
    apply hreturn hc
    rw [hrest, List.head?_cons]
  exact lines.eq_4 c rest hfeed hhead

theorem lines_of_no_feed (hne : line ≠ []) (hfeed : '\n' ∉ line) : lines line = [line] := by
  induction line with
  | nil => contradiction
  | cons c line ih =>
      rw [List.mem_cons, not_or] at hfeed
      have hhead : line.head? ≠ some '\n' := fun h => hfeed.2 (List.mem_of_head? h)
      rw [lines_cons (Ne.symm hfeed.1) fun _ => hhead]
      cases line with
      | nil => rfl
      | cons d line => rw [ih (List.cons_ne_nil d line) hfeed.2]

/-- The first line feed ends the first line. -/
theorem lines_append_feed (hfeed : '\n' ∉ line) :
    lines (line ++ '\n' :: rest) = withoutReturn line :: lines rest := by
  induction line with
  | nil => rfl
  | cons c line ih =>
      rw [List.mem_cons, not_or] at hfeed
      by_cases hline : line = []
      · subst hline
        by_cases hc : c = '\x0d'
        · subst hc
          rfl
        · have hlast : [c].getLast? ≠ some '\x0d' := by simpa using hc
          rw [withoutReturn_of_no_return hlast, List.singleton_append,
            lines_cons (Ne.symm hfeed.1) fun h => absurd h hc]
          rfl
      · -- the line goes on, so the character is in front of it and not part of its end
        have hhead : (line ++ '\n' :: rest).head? ≠ some '\n' := by
          rw [List.head?_append_of_ne_nil _ hline]
          exact fun h => hfeed.2 (List.mem_of_head? h)
        rw [List.cons_append, lines_cons (Ne.symm hfeed.1) fun _ => hhead, ih hfeed.2,
          withoutReturn_cons hline]

theorem SplitsInto.eq_lines (h : SplitsInto text ls) : ls = lines text := by
  induction h with
  | nil => rfl
  | unended hne hfeed => rw [lines_of_no_feed hne hfeed]
  | ended hfeed _ ih => rw [lines_append_feed hfeed, ih]

theorem splitsInto_lines (text : List Char) : SplitsInto text (lines text) := by
  induction hlength : text.length using Nat.strongRecOn generalizing text with
  | ind length ih =>
      by_cases hfeed : '\n' ∈ text
      · obtain ⟨line, rest, rfl, hline⟩ := List.eq_append_cons_of_mem hfeed
        rw [lines_append_feed hline]
        apply SplitsInto.ended hline
        apply ih _ _ rest rfl
        rw [← hlength, List.length_append, List.length_cons]
        omega
      · by_cases hne : text = []
        · rw [hne]
          exact .nil
        · rw [lines_of_no_feed hne hfeed]
          exact .unended hne hfeed

/-- Every text has one row of lines, and `lines` finds it. -/
theorem splitsInto_iff : SplitsInto text ls ↔ ls = lines text := by
  constructor
  · exact SplitsInto.eq_lines
  · rintro rfl
    exact splitsInto_lines text

/-! ## Writing lines -/

/-- Lines that are written with the same end are found again, if only the return of that end, if
it has one, is taken for part of it. -/
theorem lines_flatMap (hfeed : ∀ line ∈ ls, '\n' ∉ line ++ lineEnd)
    (hreturn : ∀ line ∈ ls, withoutReturn (line ++ lineEnd) = line) :
    lines (ls.flatMap (· ++ lineEnd ++ ['\n'])) = ls := by
  induction ls with
  | nil => rfl
  | cons line ls ih =>
      rw [List.forall_mem_cons] at hfeed hreturn
      rw [List.flatMap_cons, List.append_assoc (line ++ lineEnd), List.singleton_append,
        lines_append_feed hfeed.1, hreturn.1, ih hfeed.2 hreturn.2]

/-- A line feed is enough behind lines that do not end in a carriage return. -/
theorem lines_flatMap_feed (hfeed : ∀ line ∈ ls, '\n' ∉ line)
    (hreturn : ∀ line ∈ ls, line.getLast? ≠ some '\x0d') :
    lines (ls.flatMap (· ++ ['\n'])) = ls := by
  have hfeed : ∀ line ∈ ls, '\n' ∉ line ++ [] := by simpa only [List.append_nil] using hfeed
  have hreturn : ∀ line ∈ ls, withoutReturn (line ++ []) = line := by
    intro line hline
    rw [List.append_nil, withoutReturn_of_no_return (hreturn line hline)]
  simpa only [List.append_nil] using lines_flatMap hfeed hreturn

/-- With a carriage return in front of the line feed any lines will do. -/
theorem lines_flatMap_return_feed (hfeed : ∀ line ∈ ls, '\n' ∉ line) :
    lines (ls.flatMap (· ++ ['\x0d'] ++ ['\n'])) = ls := by
  apply lines_flatMap
  · intro line hline
    rw [List.mem_append, not_or]
    exact ⟨hfeed line hline, by decide⟩
  · intro line _
    exact withoutReturn_return line

end MaximalMunch.Text
