import Mathlib.Data.List.TakeDrop
import Mathlib.Data.List.TakeWhile
import MaximalMunch.Definition.Text
import MaximalMunch.Proofs.Text.Lines

/-!
# Definitions texts are read as they are written

`writeLine` is the line of a definition.  Reading undoes it: a text has the given definitions
exactly if their lines are its lines that are not blank (`readLines_eq_ok_iff`).  Reading fails at
the first line that is malformed, and the fault names that line (`readLines_eq_error_iff`).
`readText_of_lines` says both of whole texts.
-/

namespace MaximalMunch.Definition

/-- The line of a type and a pattern. -/
def writeLine (pair : String × String) : List Char := pair.1.toList ++ ' ' :: pair.2.toList

/-- A type that is found again in front of the first space of its line. -/
def Writable (pair : String × String) : Prop := pair.1.toList ≠ [] ∧ ' ' ∉ pair.1.toList

/-- A line that is neither blank nor a definition: it has no space, or nothing in front of it. -/
def Malformed (line : List Char) : Prop :=
  line.all Text.isBlank = false ∧ (' ' ∉ line ∨ line.head? = some ' ')

variable {line front rest : List Char} {lines : List (List Char)} {pair : String × String}
  {pairs : List (String × String)} {number : Nat} {e : Error}

/-! ## Lines -/

theorem readLine_of_no_space (h : ' ' ∉ line) : readLine line = .error .missingSeparator := by
  have hall : ∀ c ∈ line, decide (c ≠ ' ') = true := by
    intro c hc
    rw [decide_eq_true_iff]
    rintro rfl
    exact h hc
  rw [readLine, List.span_eq_takeWhile_dropWhile, List.takeWhile_eq_self_iff.mpr hall,
    List.dropWhile_eq_nil_iff.mpr hall]

/-- The first space of a line separates the type from the pattern. -/
theorem readLine_of_first_space (h : ' ' ∉ front) : readLine (front ++ ' ' :: rest) =
    if front = [] then .error .missingType
    else .ok (String.ofList front, String.ofList rest) := by
  have hall : ∀ c ∈ front, decide (c ≠ ' ') = true := by
    intro c hc
    rw [decide_eq_true_iff]
    rintro rfl
    exact h hc
  have hspan : (front ++ ' ' :: rest).span (fun c => decide (c ≠ ' ')) = (front, ' ' :: rest) := by
    rw [List.span_eq_takeWhile_dropWhile, List.takeWhile_append_of_pos hall,
      List.dropWhile_append_of_pos hall]
    simp
  rw [readLine, hspan]
  cases front <;> rfl

theorem readLine_eq_ok_iff : readLine line = .ok pair ↔ line = writeLine pair ∧ Writable pair := by
  constructor
  · intro h
    by_cases hspace : ' ' ∈ line
    · rcases List.eq_append_cons_of_mem hspace with ⟨front, rest, rfl, hfront⟩
      rw [readLine_of_first_space hfront] at h
      split at h
      · cases h
      · next hne =>
          rw [← Except.ok.inj h, writeLine, Writable, String.toList_ofList, String.toList_ofList]
          exact ⟨rfl, hne, hfront⟩
    · rw [readLine_of_no_space hspace] at h
      cases h
  · rintro ⟨rfl, hne, hspace⟩
    rw [writeLine, readLine_of_first_space hspace, if_neg hne, String.ofList_toList,
      String.ofList_toList]

theorem exists_readLine_error_iff :
    (∃ fault, readLine line = .error fault) ↔ ' ' ∉ line ∨ line.head? = some ' ' := by
  by_cases hspace : ' ' ∈ line
  · rcases List.eq_append_cons_of_mem hspace with ⟨front, rest, rfl, hfront⟩
    rw [readLine_of_first_space hfront]
    cases front with
    | nil => simp
    | cons c front =>
        have hc : c ≠ ' ' := by
          rintro rfl
          exact hfront List.mem_cons_self
        simp [hc]
  · rw [readLine_of_no_space hspace]
    simp [hspace]

/-! ## Texts -/

theorem readLines_cons_of_blank (h : line.all Text.isBlank = true) :
    readLines number (line :: lines) = readLines (number + 1) lines := if_pos h

theorem readLines_cons_of_not_blank (h : line.all Text.isBlank = false) :
    readLines number (line :: lines) =
      match readLine line with
      | .error fault => .error (.invalidDefinition number fault)
      | .ok pair => (readLines (number + 1) lines).map (pair :: ·) := by
  rw [readLines, h]
  rfl

/-- The definitions of a text are those whose lines are its lines that are not blank. -/
theorem readLines_eq_ok_iff : readLines number lines = .ok pairs ↔
    pairs.map writeLine = lines.filter (fun line => !line.all Text.isBlank) ∧
      ∀ pair ∈ pairs, Writable pair := by
  induction lines generalizing number pairs with
  | nil =>
      rw [readLines, List.filter_nil, List.map_eq_nil_iff, Except.ok.injEq]
      constructor
      · rintro rfl
        simp
      · rintro ⟨rfl, -⟩
        rfl
  | cons line lines ih =>
      cases hblank : line.all Text.isBlank with
      | true =>
          rw [readLines_cons_of_blank hblank, List.filter_cons_of_neg (by simp [hblank])]
          exact ih
      | false =>
          rw [readLines_cons_of_not_blank hblank, List.filter_cons_of_pos (by simp [hblank])]
          constructor
          · intro h
            split at h
            · cases h
            · next pair hpair =>
                cases hrest : readLines (number + 1) lines with
                | error e =>
                    rw [hrest] at h
                    cases h
                | ok more =>
                    rw [hrest] at h
                    have hmore := ih.mp hrest
                    have hline := readLine_eq_ok_iff.mp hpair
                    rw [← Except.ok.inj h, List.map_cons, hmore.1, ← hline.1]
                    exact ⟨rfl, List.forall_mem_cons.mpr ⟨hline.2, hmore.2⟩⟩
          · rintro ⟨hlines, hwritable⟩
            rcases List.map_eq_cons_iff.mp hlines with ⟨pair, more, rfl, rfl, hmore⟩
            rw [List.forall_mem_cons] at hwritable
            rw [readLine_eq_ok_iff.mpr ⟨rfl, hwritable.1⟩]
            dsimp only
            rw [ih.mpr ⟨hmore, hwritable.2⟩]
            rfl

theorem malformed_iff : Malformed line ↔
    line.all Text.isBlank = false ∧ ∃ fault, readLine line = .error fault := by
  rw [exists_readLine_error_iff, Malformed]

theorem readLines_cons_of_malformed {fault : LineFault} (hblank : line.all Text.isBlank = false)
    (hfault : readLine line = .error fault) :
    readLines number (line :: lines) = .error (.invalidDefinition number fault) := by
  rw [readLines_cons_of_not_blank hblank, hfault]

/-- A line that is not malformed has no part in a failure. -/
theorem readLines_cons_eq_error_iff (h : ¬Malformed line) :
    readLines number (line :: lines) = .error e ↔ readLines (number + 1) lines = .error e := by
  cases hblank : line.all Text.isBlank with
  | true => rw [readLines_cons_of_blank hblank]
  | false =>
      rw [readLines_cons_of_not_blank hblank]
      cases hline : readLine line with
      | error fault => exact absurd (malformed_iff.mpr ⟨hblank, fault, hline⟩) h
      | ok pair =>
          cases readLines (number + 1) lines with
          | error e' => rfl
          | ok more => exact iff_of_false nofun nofun

/-- Reading fails at the first malformed line. -/
theorem readLines_eq_error_iff : readLines number lines = .error e ↔
    ∃ front line rest fault, lines = front ++ line :: rest ∧ (∀ l ∈ front, ¬Malformed l) ∧
      line.all Text.isBlank = false ∧ readLine line = .error fault ∧
      e = .invalidDefinition (number + front.length) fault := by
  induction lines generalizing number with
  | nil =>
      rw [readLines]
      simp
  | cons first lines ih =>
      by_cases hfirst : Malformed first
      · rcases malformed_iff.mp hfirst with ⟨hblank, fault, hfault⟩
        rw [readLines_cons_of_malformed hblank hfault]
        constructor
        · intro h
          exact ⟨[], first, lines, fault, rfl, by simp, hblank, hfault, (Except.error.inj h).symm⟩
        · rintro ⟨front, line, rest, fault', hsplit, hfront, -, hfault', rfl⟩
          cases front with
          | nil =>
              rw [← (List.cons.inj hsplit).1, hfault] at hfault'
              rw [Except.error.inj hfault']
              rfl
          | cons head front =>
              rw [(List.cons.inj hsplit).1] at hfirst
              exact absurd hfirst (hfront head List.mem_cons_self)
      · rw [readLines_cons_eq_error_iff hfirst, ih]
        constructor
        · rintro ⟨front, line, rest, fault, rfl, hfront, hblank, hfault, rfl⟩
          refine ⟨first :: front, line, rest, fault, rfl, ?_, hblank, hfault, ?_⟩
          · exact List.forall_mem_cons.mpr ⟨hfirst, hfront⟩
          · rw [List.length_cons]
            congr 1
            omega
        · rintro ⟨front, line, rest, fault, hsplit, hfront, hblank, hfault, rfl⟩
          cases front with
          | nil =>
              rw [(List.cons.inj hsplit).1] at hfirst
              exact absurd (malformed_iff.mpr ⟨hblank, fault, hfault⟩) hfirst
          | cons head front =>
              refine ⟨front, line, rest, fault, (List.cons.inj hsplit).2, ?_, hblank, hfault, ?_⟩
              · exact (List.forall_mem_cons.mp hfront).2
              · rw [List.length_cons]
                congr 1
                omega

/-- A text with a malformed line has no definitions at all. -/
theorem exists_readLines_error_iff :
    (∃ e, readLines number lines = .error e) ↔ ∃ line ∈ lines, Malformed line := by
  constructor
  · rintro ⟨e, h⟩
    rcases readLines_eq_error_iff.mp h with ⟨front, line, rest, fault, rfl, -, hblank, hfault, -⟩
    exact ⟨line, by simp, malformed_iff.mpr ⟨hblank, fault, hfault⟩⟩
  · rintro ⟨line, hline, hmalformed⟩
    rcases malformed_iff.mp hmalformed with ⟨hblank, fault, hfault⟩
    cases hread : readLines number lines with
    | error e => exact ⟨e, rfl⟩
    | ok pairs =>
        -- the line would be that of a definition
        have hpairs := readLines_eq_ok_iff.mp hread
        have hmem : line ∈ pairs.map writeLine := by
          rw [hpairs.1]
          exact List.mem_filter.mpr ⟨hline, by simp [hblank]⟩
        rcases List.mem_map.mp hmem with ⟨pair, hpair, rfl⟩
        rw [readLine_eq_ok_iff.mpr ⟨rfl, hpairs.2 pair hpair⟩] at hfault
        cases hfault

/-- Which of the two faults a malformed line has depends on whether it has a space at all. -/
theorem readLine_of_malformed (h : Malformed line) :
    readLine line = .error (if ' ' ∈ line then .missingType else .missingSeparator) := by
  by_cases hspace : ' ' ∈ line
  · rw [if_pos hspace]
    obtain ⟨rest, rfl⟩ : ∃ rest, line = ' ' :: rest :=
      List.head?_eq_some_iff.mp (h.2.resolve_left (not_not_intro hspace))
    exact readLine_of_first_space List.not_mem_nil
  · rw [if_neg hspace]
    exact readLine_of_no_space hspace

/-! ## Whole texts -/

/-- The text of definitions, each on a line with the given end. -/
def writeText (lineEnd : List Char) (pairs : List (String × String)) : String :=
  String.ofList ((pairs.map writeLine).flatMap (· ++ lineEnd ++ ['\n']))

/-- The line of a definition that is not blank and that no line feed cuts. -/
structure OnOneLine (pair : String × String) : Prop where
  writable : Writable pair
  no_feed : '\n' ∉ writeLine pair
  not_blank : (writeLine pair).all Text.isBlank = false

/-- A text that has the lines of some definitions as its lines is read as these definitions. -/
theorem readText_of_lines_eq {text : String} (hpairs : ∀ pair ∈ pairs, OnOneLine pair)
    (hlines : Text.lines text.toList = pairs.map writeLine) : readText text = .ok pairs := by
  rw [readText, hlines, readLines_eq_ok_iff]
  refine ⟨(List.filter_eq_self.mpr ?_).symm, fun pair hpair => (hpairs pair hpair).writable⟩
  intro line hline
  obtain ⟨pair, hpair, rfl⟩ := List.mem_map.mp hline
  rw [(hpairs pair hpair).not_blank]
  rfl

/-- The space behind the type is no carriage return, so only a pattern can end in one. -/
theorem getLast?_writeLine (h : pair.2.toList.getLast? ≠ some '\x0d') :
    (writeLine pair).getLast? ≠ some '\x0d' := by
  rw [writeLine, List.getLast?_append_cons, List.getLast?_cons]
  cases hlast : pair.2.toList.getLast? with
  | none => decide
  | some c =>
      rw [hlast] at h
      exact h

/-- A text in which every line is blank or has a type in front of its first space is read as the
definitions on its lines; otherwise reading fails with the number of the first other line.
Conversely definitions are found again in a text that has them on lines of their own, though the
line ends need carriage returns if a pattern ends in one. -/
theorem readText_of_lines (text : String) (pairs : List (String × String)) :
    (∃ lines, (∀ ls, Text.SplitsInto text.toList ls ↔ ls = lines) ∧
      ((∀ line ∈ lines, ¬Malformed line) → ∃ found, readText text = .ok found ∧
        found.map writeLine = lines.filter (fun line => !line.all Text.isBlank) ∧
        ∀ pair ∈ found, Writable pair) ∧
      ((∃ line ∈ lines, Malformed line) → ∃ front line rest, lines = front ++ line :: rest ∧
        (∀ l ∈ front, ¬Malformed l) ∧ Malformed line ∧
        readText text = .error (.invalidDefinition (front.length + 1)
          (if ' ' ∈ line then .missingType else .missingSeparator)))) ∧
    ((∀ pair ∈ pairs, OnOneLine pair) → readText (writeText ['\x0d'] pairs) = .ok pairs ∧
      ((∀ pair ∈ pairs, pair.2.toList.getLast? ≠ some '\x0d') →
        readText (writeText [] pairs) = .ok pairs)) := by
  constructor
  · refine ⟨Text.lines text.toList, fun ls => Text.splitsInto_iff, ?_, ?_⟩
    · intro hlines
      cases hread : readText text with
      | error e =>
          obtain ⟨line, hline, hmalformed⟩ := exists_readLines_error_iff.mp ⟨e, hread⟩
          exact absurd hmalformed (hlines line hline)
      | ok found => exact ⟨found, rfl, readLines_eq_ok_iff.mp hread⟩
    · intro hlines
      obtain ⟨e, hread⟩ := exists_readLines_error_iff.mpr hlines
      obtain ⟨front, line, rest, fault, hsplit, hfront, hblank, hfault, rfl⟩ :=
        readLines_eq_error_iff.mp hread
      have hmalformed : Malformed line := malformed_iff.mpr ⟨hblank, fault, hfault⟩
      rw [readLine_of_malformed hmalformed] at hfault
      refine ⟨front, line, rest, hsplit, hfront, hmalformed, ?_⟩
      rw [Except.error.inj hfault, Nat.add_comm]
      exact hread
  · intro hpairs
    have hfeed : ∀ line ∈ pairs.map writeLine, '\n' ∉ line := by
      intro line hline
      obtain ⟨pair, hpair, rfl⟩ := List.mem_map.mp hline
      exact (hpairs pair hpair).no_feed
    constructor
    · apply readText_of_lines_eq hpairs
      rw [writeText, String.toList_ofList]
      exact Text.lines_flatMap_return_feed hfeed
    · intro hreturn
      apply readText_of_lines_eq hpairs
      rw [writeText, String.toList_ofList]
      simp only [List.append_nil]
      apply Text.lines_flatMap_feed hfeed
      intro line hline
      obtain ⟨pair, hpair, rfl⟩ := List.mem_map.mp hline
      exact getLast?_writeLine (hreturn pair hpair)

theorem readText_of_lines_blank_line :
    (∃ line ∈ [[], "BROKEN".toList], Malformed line) ∧
      readText "\nBROKEN" = .error (.invalidDefinition 2 .missingSeparator) ∧
      (∀ line ∈ [[], "KEY  if".toList], ¬Malformed line) ∧
      (∃ found, readText "\nKEY  if" = .ok found ∧ found.map writeLine = ["KEY  if".toList]) ∧
      (∀ pair ∈ [("KEY", " if\x0d")], OnOneLine pair) ∧
      readText (writeText ['\x0d'] [("KEY", " if\x0d")]) = .ok [("KEY", " if\x0d")] := by
  have hpairs : ∀ pair ∈ [("KEY", " if\x0d")], OnOneLine pair := by
    intro pair hpair
    rw [List.mem_singleton.mp hpair]
    exact ⟨by unfold Writable; decide, by decide, by decide⟩
  have hbroken : Malformed "BROKEN".toList := ⟨by decide, .inl (by decide)⟩
  have hblank : ¬Malformed [] := fun h => absurd h.1 (by decide)
  have hkey : ¬Malformed "KEY  if".toList := by unfold Malformed; decide
  have hwell : ∀ line ∈ [[], "KEY  if".toList], ¬Malformed line := by
    simp only [List.forall_mem_cons]
    exact ⟨hblank, hkey, List.forall_mem_nil _⟩
  obtain ⟨⟨lines, hlines, -, hfails⟩, hreads⟩ :=
    readText_of_lines "\nBROKEN" [("KEY", " if\x0d")]
  obtain rfl : [[], "BROKEN".toList] = lines := (hlines _).mp (Text.splitsInto_lines _)
  obtain ⟨⟨lines, hlines, hfinds, -⟩, -⟩ := readText_of_lines "\nKEY  if" []
  obtain rfl : [[], "KEY  if".toList] = lines := (hlines _).mp (Text.splitsInto_lines _)
  obtain ⟨found, hfound, hlinesFound, -⟩ := hfinds hwell
  have hmalformed : ∃ line ∈ [[], "BROKEN".toList], Malformed line := ⟨_, by simp, hbroken⟩
  obtain ⟨front, line, rest, hsplit, -, hline, hread⟩ := hfails hmalformed
  refine ⟨hmalformed, ?_, hwell, ⟨found, hfound, hlinesFound⟩, hpairs, (hreads hpairs).1⟩
  rcases front with _ | ⟨first, _ | ⟨second, front⟩⟩
  · rw [List.nil_append, List.cons.injEq] at hsplit
    rw [← hsplit.1] at hline
    exact absurd hline hblank
  · simp only [List.cons_append, List.nil_append, List.cons.injEq] at hsplit
    rw [← hsplit.2.1] at hread
    exact hread
  · simp at hsplit

end MaximalMunch.Definition
