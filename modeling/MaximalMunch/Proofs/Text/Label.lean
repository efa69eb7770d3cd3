import MaximalMunch.Proofs.Text.Escape
import MaximalMunch.Proofs.Text.Lines

/-!
# Labels of characters

Outlines and graphs show a character as a listing does, except that they put a backslash in front of
the characters that mean something else where the label stands.  No letter behind the backslash of
an escape sequence is among those, so a label still tells which character it is for
(`escapeMarked_injective`).
-/

namespace MaximalMunch.Text

variable {marked : List Char} {c d : Char}

/-- A character as a listing shows it, or behind a backslash if it is marked. -/
def escapeMarked (marked : List Char) (c : Char) : List Char :=
  if c ∈ marked then ['\\', c] else escapeChar c

/-- A text that is shown as it is. -/
def Visible (text : List Char) : Prop :=
  ∀ c ∈ text, isControl c = false

variable {text more : List Char}

instance (text : List Char) : Decidable (Visible text) :=
  inferInstanceAs (Decidable (∀ c ∈ text, isControl c = false))

theorem visible_cons : Visible (c :: text) ↔ isControl c = false ∧ Visible text :=
  List.forall_mem_cons

theorem visible_append : Visible (text ++ more) ↔ Visible text ∧ Visible more :=
  List.forall_mem_append

theorem Visible.no_feed (h : Visible text) : '\n' ∉ text :=
  fun hfeed => absurd (h _ hfeed) (by decide)

theorem Visible.no_return (h : Visible text) : text.getLast? ≠ some '\x0d' :=
  fun hreturn => absurd (h _ (List.mem_of_getLast? hreturn)) (by decide)

/-- Visible lines are found again behind the line feeds that end them. -/
theorem lines_of_visible {ls : List (List Char)} (h : ∀ line ∈ ls, Visible line) :
    lines (ls.flatMap (· ++ ['\n'])) = ls := by
  apply lines_flatMap_feed
  · intro line hline
    exact (h line hline).no_feed
  · intro line hline
    exact (h line hline).no_return

/-! ## Characters in a listing -/

/-- Reading the sequence of a character gives the character. -/
theorem unescapeChars_escapeChar (c : Char) : unescapeChars (escapeChar c) = [c] := by
  have hself : Decodes Accepted [c] [c] := by
    apply decodes_self_iff.mpr
    intro w x hw hwithin
    exact absurd hwithin.length_le (Nat.not_le.mpr hw.one_lt_length)
  have hescaped : Decodes Accepted (escapeChar c) [c] := by
    simpa [escapeChars] using hself.escapeChars
  exact hescaped.eq_unescapeChars.symm

theorem escapeChar_injective (h : escapeChar c = escapeChar d) : c = d := by
  have hread := congrArg unescapeChars h
  rw [unescapeChars_escapeChar, unescapeChars_escapeChar] at hread
  exact List.singleton_inj.mp hread

/-- The sequence of a control character has more than one character. -/
theorem escapeChar_eq_singleton_iff : escapeChar c = [d] ↔ isControl c = false ∧ c = d := by
  cases hc : isControl c with
  | false => simp [escapeChar_of_not_control hc]
  | true =>
      have hlt := Accepted.one_lt_length (.inl (sequence_escapeChar hc))
      constructor
      · intro h
        rw [h] at hlt
        exact absurd hlt (Nat.lt_irrefl 1)
      · intro h
        exact absurd h.1 (by decide)

/-- A listing has a backslash in front of a letter only for the control character it names. -/
theorem escapeChar_ne_backslash (hd : ∀ e ∈ letters, e.1 ≠ d) : escapeChar c ≠ ['\\', d] := by
  intro h
  cases hc : isControl c with
  | false =>
      rw [escapeChar_of_not_control hc] at h
      simp at h
  | true =>
      have hsequence := sequence_escapeChar hc
      rw [h] at hsequence
      cases hsequence with
      | named hletter => exact hd _ hletter rfl
      | numbered hlength => simp at hlength

/-! ## Characters in a label -/

theorem escapeMarked_injective (hletters : ∀ e ∈ letters, e.1 ∉ marked)
    (h : escapeMarked marked c = escapeMarked marked d) : c = d := by
  have hne {x : Char} (hx : x ∈ marked) : ∀ e ∈ letters, e.1 ≠ x := by
    intro e he heq
    exact hletters e he (heq ▸ hx)
  unfold escapeMarked at h
  split at h
  · next hc =>
      split at h
      · simpa using h
      · exact absurd h.symm (escapeChar_ne_backslash (hne hc))
  · split at h
    · next hd => exact absurd h (escapeChar_ne_backslash (hne hd))
    · exact escapeChar_injective h

theorem escapeMarked_eq_singleton_iff :
    escapeMarked marked c = [d] ↔ c ∉ marked ∧ isControl c = false ∧ c = d := by
  unfold escapeMarked
  split
  · next hc => simp [hc]
  · next hc => simp [hc, escapeChar_eq_singleton_iff]

theorem visible_escapeMarked (hmarked : Visible marked) (c : Char) :
    Visible (escapeMarked marked c) := by
  intro d hd
  unfold escapeMarked at hd
  split at hd
  · next hc =>
      rcases List.mem_cons.mp hd with rfl | hd
      · decide
      · rw [List.mem_singleton.mp hd]
        exact hmarked c hc
  · have hd : d ∈ escapeChars [c] := by simpa [escapeChars] using hd
    exact isControl_of_mem_escapeChars hd

end MaximalMunch.Text
