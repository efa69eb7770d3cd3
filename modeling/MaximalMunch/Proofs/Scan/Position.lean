import Mathlib.Data.List.DropRight
import MaximalMunch.Proofs.Scan.Attempt

/-!
# Rows and columns

A position is carried from span to span, together with a note on whether the last character was a
carriage return.  Over a whole text that amounts to counting: the row tells how many line ends the
text has, and the column how many characters stand behind the last of them.  So the place of a span
depends on the text in front of it and not on the spans into which that text has been cut.
-/

namespace MaximalMunch

/-! ## Line ends of a text -/

/-- The number of line feeds that do not directly follow a carriage return. -/
def loneFeeds (text : List Char) : Nat :=
  (List.range text.length).countP fun i =>
    text[i]? = some '\n' ∧ (i = 0 ∨ text[i - 1]? ≠ some '\x0d')

namespace LineEnding

/-- The number of line ends in a text. -/
def breaks : LineEnding → List Char → Nat
  | .lf, text => text.count '\n'
  | .crLf, text => text.count '\x0d' + loneFeeds text

/-- Whether a character is a line end or a part of one. -/
def isBreak : LineEnding → Char → Bool
  | .lf, c => c = '\n'
  | .crLf, c => c = '\x0d' ∨ c = '\n'

/-- The part of a text behind its last line end. -/
def lastLine (ending : LineEnding) (text : List Char) : List Char :=
  text.rtakeWhile fun c => !ending.isBreak c

end LineEnding

theorem loneFeeds_snoc (text : List Char) (c : Char) :
    loneFeeds (text ++ [c]) =
      loneFeeds text + if c = '\n' ∧ text.getLast? ≠ some '\x0d' then 1 else 0 := by
  unfold loneFeeds
  rw [List.length_append, List.length_singleton, List.range_succ, List.countP_append,
    List.countP_singleton]
  congr 1
  · apply List.countP_congr
    intro i hi
    have hlt : i < text.length := List.mem_range.mp hi
    rw [List.getElem?_append_left hlt, List.getElem?_append_left (by omega)]
  · have hbefore : (text.length = 0 ∨ (text ++ [c])[text.length - 1]? ≠ some '\x0d') ↔
        text.getLast? ≠ some '\x0d' := by
      rcases List.eq_nil_or_concat text with rfl | ⟨front, d, rfl⟩
      · simp
      · simp
    simp only [List.getElem?_concat_length, Option.some.injEq, hbefore, decide_eq_true_eq]

namespace LineEnding

variable {ending : LineEnding} {text : List Char} {c : Char}

/-- A character adds a line end, unless it is the second half of one. -/
theorem breaks_snoc (ending : LineEnding) (text : List Char) (c : Char) :
    ending.breaks (text ++ [c]) = ending.breaks text +
      if ending.isBreak c ∧ ¬ (ending = .crLf ∧ c = '\n' ∧ text.getLast? = some '\x0d') then 1
      else 0 := by
  cases ending with
  | lf => simp [breaks, isBreak, List.count_singleton]
  | crLf =>
      simp only [breaks, loneFeeds_snoc, List.count_append, List.count_singleton]
      by_cases hreturn : c = '\x0d'
      · simp [isBreak, hreturn, Nat.add_right_comm]
      · by_cases hfeed : c = '\n'
        · simp [isBreak, hfeed, Nat.add_assoc]
        · simp [isBreak, hreturn, hfeed]

theorem lastLine_snoc (ending : LineEnding) (text : List Char) (c : Char) :
    ending.lastLine (text ++ [c]) =
      if ending.isBreak c then [] else ending.lastLine text ++ [c] := by
  unfold lastLine
  rw [List.rtakeWhile_concat]
  cases ending.isBreak c <;> rfl

/-- Behind a line end, no character of the line has been read yet. -/
theorem lastLine_eq_nil (hlast : text.getLast? = some c) (hbreak : ending.isBreak c = true) :
    ending.lastLine text = [] := by
  obtain ⟨front, rfl⟩ := List.getLast?_eq_some_iff.mp hlast
  rw [lastLine_snoc, if_pos hbreak]

end LineEnding

namespace Position

variable {ending : LineEnding}

theorem advance_append (p : Position) (text text' : List Char) :
    p.advance ending (text ++ text') = (p.advance ending text).advance ending text' :=
  List.foldl_append

/-- The position behind a text counts the line ends of the text and the characters behind the last
of them. -/
theorem advance_start (ending : LineEnding) (text : List Char) :
    advance ending {} text = ⟨1 + ending.breaks text, 1 + (ending.lastLine text).length,
      ending = .crLf ∧ text.getLast? = some '\x0d'⟩ := by
  -- from the front: the note on a carriage return depends on the last character only
  induction text using List.reverseRecOn with
  | nil => cases ending <;> rfl
  | append_singleton text c ih =>
      rw [advance_append, ih, LineEnding.breaks_snoc, LineEnding.lastLine_snoc,
        List.getLast?_concat]
      change step ending _ c = _
      by_cases hpair : ending = .crLf ∧ c = '\n' ∧ text.getLast? = some '\x0d'
      · obtain ⟨rfl, rfl, hreturn⟩ := hpair
        have hline : LineEnding.crLf.lastLine text = [] :=
          LineEnding.lastLine_eq_nil hreturn (by decide)
        simp [step, LineEnding.isBreak, hreturn, hline]
      · cases ending with
        | lf =>
            by_cases hfeed : c = '\n'
            · simp [step, LineEnding.isBreak, hfeed, Nat.add_assoc]
            · simp [step, LineEnding.isBreak, hfeed, Nat.add_assoc]
        | crLf =>
            have hnext : c = '\n' → text.getLast? ≠ some '\x0d' := fun hfeed hreturn =>
              hpair ⟨rfl, hfeed, hreturn⟩
            by_cases hfeed : c = '\n'
            · simp [step, LineEnding.isBreak, hfeed, hnext hfeed, Nat.add_assoc]
            · by_cases hreturn : c = '\x0d'
              · simp [step, LineEnding.isBreak, hreturn, Nat.add_assoc]
              · simp [step, LineEnding.isBreak, hfeed, hreturn, Nat.add_assoc]

end Position

/-! ## Places of spans -/

namespace Span

/-- The row of the first character. -/
def row : Span → Nat
  | token t => t.row
  | error e => e.row

/-- The column of the first character. -/
def col : Span → Nat
  | token t => t.col
  | error e => e.col

end Span

namespace Scanner

variable {s : Scanner} {position : Position} {count : Nat} {tape rest : Tape} {w : List Char}
  {span : Span} {before after : List Span}

/-- A step places its span at the position that it is given. -/
theorem place_of_step (hstep : s.step position count tape = .ok (.span w span rest)) :
    span.row = position.row ∧ span.col = position.col ∧ span.text.toList = w := by
  obtain ⟨verdict, middle, -, hcommits⟩ := step_eq_ok_iff.mp hstep
  cases hcommits with
  | found => exact ⟨rfl, rfl, String.toList_ofList⟩
  | unmatched => exact ⟨rfl, rfl, String.toList_ofList⟩

/-- A span stands at the position behind the texts of all spans before it. -/
theorem place_of_scanFrom
    (hspans : (s.scanFrom position count tape).spans = before ++ span :: after) :
    let here := position.advance s.config.lineEnding (before.flatMap (·.text.toList))
    span.row = here.row ∧ span.col = here.col := by
  fun_induction scanFrom s position count tape generalizing before with
  | case1 => simp at hspans
  | case2 => simp at hspans
  | case3 position count tape w first rest hstep later =>
      rename_i ih
      obtain ⟨hrow, hcol, htext⟩ := place_of_step hstep
      cases before with
      | nil =>
          obtain ⟨rfl, -⟩ := List.cons.inj hspans
          exact ⟨hrow, hcol⟩
      | cons first' before =>
          obtain ⟨rfl, hlater⟩ := List.cons.inj hspans
          rw [List.flatMap_cons, htext, Position.advance_append]
          exact ih hlater

/-- In a scan, the place of a span is a matter of counting. -/
theorem place_of_scan {source : Source}
    (hspans : (s.scan source).spans = before ++ span :: after) :
    span.row = 1 + s.config.lineEnding.breaks (before.flatMap (·.text.toList)) ∧
      span.col = 1 + (s.config.lineEnding.lastLine (before.flatMap (·.text.toList))).length := by
  have hplace := place_of_scanFrom hspans
  rwa [Position.advance_start] at hplace

/-- The row and the column of a span depend on the text `u` of all spans before it and not on how
it has been cut.  The row counts the line ends in `u` and the column the characters behind the last
of them.  Where a carriage return and a line feed end a line together, it does not matter whether
they lie in one span: a line feed in a span of its own does not move the span behind it. -/
theorem place_of_text_before (s : Scanner) (source : Source)
    (hspans : (s.scan source).spans = before ++ span :: after) :
    let u := before.flatMap (·.text.toList)
    (s.config.lineEnding = .lf → span.row = 1 + u.count '\n' ∧
      span.col = 1 + (u.rtakeWhile fun c => c ≠ '\n').length) ∧
    (s.config.lineEnding = .crLf → span.row = 1 + u.count '\x0d' + loneFeeds u ∧
      span.col = 1 + (u.rtakeWhile fun c => c ≠ '\x0d' ∧ c ≠ '\n').length) ∧
    (∀ (s' : Scanner) (source' : Source) (before' : List Span) (span' : Span) (after' : List Span),
      s'.config.lineEnding = s.config.lineEnding →
      (s'.scan source').spans = before' ++ span' :: after' →
      before'.flatMap (·.text.toList) = u → span'.row = span.row ∧ span'.col = span.col) ∧
    ∀ (next : Span) (rest : List Span), s.config.lineEnding = .crLf →
      u.getLast? = some '\x0d' → span.text = "\n" → after = next :: rest →
      next.row = span.row ∧ next.col = span.col := by
  intro u
  have hplace : span.row = 1 + s.config.lineEnding.breaks u ∧
      span.col = 1 + (s.config.lineEnding.lastLine u).length := place_of_scan hspans
  refine ⟨?_, ?_, ?_, ?_⟩
  · intro hending
    rw [hending] at hplace
    simpa [LineEnding.breaks, LineEnding.lastLine, LineEnding.isBreak] using hplace
  · intro hending
    rw [hending] at hplace
    simpa [LineEnding.breaks, LineEnding.lastLine, LineEnding.isBreak, Nat.add_assoc] using hplace
  · intro s' source' before' span' after' hending hspans' htext
    have hplace' := place_of_scan hspans'
    rw [hending, htext] at hplace'
    exact ⟨hplace'.1.trans hplace.1.symm, hplace'.2.trans hplace.2.symm⟩
  · intro next rest hending hreturn hfeed hafter
    rw [hafter, List.append_cons] at hspans
    have hnext := place_of_scan hspans
    have htext : (before ++ [span]).flatMap (·.text.toList) = u ++ ['\n'] := by
      rw [List.flatMap_append, List.flatMap_singleton, hfeed]
      rfl
    rw [htext, hending, LineEnding.breaks_snoc, if_neg (by simp [hreturn]), LineEnding.lastLine_snoc,
      if_pos (by decide)] at hnext
    rw [hending, LineEnding.lastLine_eq_nil hreturn (by decide)] at hplace
    exact ⟨hnext.1.trans hplace.1.symm, hnext.2.trans hplace.2.symm⟩

/-- A carriage return that is a token and a line feed that is a lexical error are one line end. -/
theorem place_of_text_before_split_pair :
    let s := (((Builder.add {} "ID" "a|b").builder.add "CR" "\x0d").builder.setLineEnding
      .crLf).build
    (s.scan (.ofText "a\x0d\nb")).spans =
        [.token ⟨0, 1, 1, "ID", "a"⟩, .token ⟨1, 1, 2, "CR", "\x0d"⟩, .error ⟨2, 1, "\n"⟩] ++
          .token ⟨2, 2, 1, "ID", "b"⟩ :: [] ∧
      (Span.token ⟨2, 2, 1, "ID", "b"⟩).row =
        1 + ['a', '\x0d', '\n'].count '\x0d' + loneFeeds ['a', '\x0d', '\n'] := by
  intro s
  have hspans : (s.scan (.ofText "a\x0d\nb")).spans =
      [.token ⟨0, 1, 1, "ID", "a"⟩, .token ⟨1, 1, 2, "CR", "\x0d"⟩, .error ⟨2, 1, "\n"⟩] ++
        .token ⟨2, 2, 1, "ID", "b"⟩ :: [] := by
    decide +kernel
  exact ⟨hspans, ((place_of_text_before s _ hspans).2.1 rfl).1⟩

end Scanner

end MaximalMunch
