import Mathlib.Computability.Language
import MaximalMunch.Dfa.Run

/-!
# Runs over whole words

`after` is the state that a run reaches over a word, or nothing once the run is dead.  A dead run
stays dead, so `follow`, which stops reading at the death of the run, ends where `after` says.
-/

namespace MaximalMunch.Dfa

variable {d : Dfa} {w v : List Char} {c : Char}

/-! ## Rows -/

theorem row_eq {p : Nat} {row : SymbolMap Nat} (hp : d.rows[p]? = some row) : d.row p = row := by
  rw [Dfa.row, Array.getD_eq_getD_getElem?, hp, Option.getD_some]

/-- A transition is an entry of the row of its source. -/
theorem exists_row {p q : Nat} (hnext : d.next? p c = some q) :
    ∃ row, d.rows[p]? = some row ∧ row.get? c = some q := by
  cases hp : d.rows[p]? with
  | none =>
      rw [next?, Dfa.row, Array.getD_eq_getD_getElem?, hp] at hnext
      cases hnext
  | some row =>
      rw [next?, row_eq hp] at hnext
      exact ⟨row, rfl, hnext⟩

/-- Only states have transitions. -/
theorem source_lt {p q : Nat} (hnext : d.next? p c = some q) : p < d.size := by
  obtain ⟨row, hp, -⟩ := exists_row hnext
  exact (Array.getElem?_eq_some_iff.mp hp).1

/-! ## Runs over words -/

/-- The state that a run from the given state reaches over a word, unless it dies. -/
def afterFrom (d : Dfa) (q : Option Nat) (w : List Char) : Option Nat :=
  w.foldl (fun q c => q.bind (d.next? · c)) q

/-- The state that a run from the start reaches over a word, unless it dies. -/
def after (d : Dfa) (w : List Char) : Option Nat := d.afterFrom (some d.start) w

/-- The words over which a run ends in a final state. -/
def language (d : Dfa) : Language Char := {w | d.accepts w = true}

@[simp] theorem after_nil (d : Dfa) : d.after [] = some d.start := rfl

@[simp] theorem afterFrom_none (d : Dfa) (w : List Char) : d.afterFrom none w = none := by
  induction w with
  | nil => rfl
  | cons c w ih => exact ih

theorem after_append (d : Dfa) (w v : List Char) : d.after (w ++ v) = d.afterFrom (d.after w) v :=
  List.foldl_append

theorem after_snoc (d : Dfa) (w : List Char) (c : Char) :
    d.after (w ++ [c]) = (d.after w).bind (d.next? · c) :=
  d.after_append w [c]

/-- A run that is dead does not come back to life. -/
theorem after_append_eq_none (h : d.after w = none) : d.after (w ++ v) = none := by
  rw [after_append, h, afterFrom_none]

theorem follow_cons_none {q : Nat} (h : d.next? q c = none) :
    (⟨some q⟩ : Run).follow d (c :: w) = ⟨none⟩ := by
  simp [Run.follow, Run.trail, Run.advance, Run.isDead, h]

theorem follow_cons_some {q r : Nat} (h : d.next? q c = some r) :
    (⟨some q⟩ : Run).follow d (c :: w) = (⟨some r⟩ : Run).follow d w := by
  have htrail : (⟨some q⟩ : Run).trail d (c :: w) = ⟨some r⟩ :: (⟨some r⟩ : Run).trail d w := by
    simp [Run.trail, Run.advance, Run.isDead, h]
  rw [Run.follow, htrail, List.getLastD_cons, Run.follow]

theorem follow_eq_afterFrom (d : Dfa) (q : Nat) (w : List Char) :
    (⟨some q⟩ : Run).follow d w = ⟨d.afterFrom (some q) w⟩ := by
  induction w generalizing q with
  | nil => rfl
  | cons c w ih =>
      show _ = (⟨d.afterFrom (d.next? q c) w⟩ : Run)
      cases hnext : d.next? q c with
      | none => rw [follow_cons_none hnext, afterFrom_none]
      | some r => rw [follow_cons_some hnext, ih r]

theorem follow_atStart (d : Dfa) (w : List Char) : (Run.atStart d).follow d w = ⟨d.after w⟩ :=
  follow_eq_afterFrom d d.start w

theorem isDead_follow_atStart : ((Run.atStart d).follow d w).isDead = false ↔ d.after w ≠ none := by
  rw [follow_atStart, Run.isDead, Option.isNone_eq_false_iff, Option.isSome_iff_ne_none]

theorem accepts_eq (d : Dfa) (w : List Char) : d.accepts w = (d.after w).any d.isFinal := by
  unfold accepts Run.atStart
  rw [follow_eq_afterFrom]
  rfl

theorem mem_language : w ∈ d.language ↔ ∃ q ∈ d.after w, d.isFinal q = true := by
  show d.accepts w = true ↔ _
  rw [accepts_eq, Option.any_eq_true]
  rfl

/-- While a word can still be continued to an accepted one, the run over it is alive. -/
theorem after_ne_none (h : w ++ v ∈ d.language) : d.after w ≠ none := by
  intro hdead
  obtain ⟨q, hq, -⟩ := mem_language.mp h
  rw [after_append_eq_none hdead] at hq
  cases hq

end MaximalMunch.Dfa
