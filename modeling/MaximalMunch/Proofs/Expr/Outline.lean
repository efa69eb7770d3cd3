import MaximalMunch.Expr.Outline
import MaximalMunch.Proofs.Text.Label

/-!
# An outline determines its expression

Every node has a line of its own with a label behind a drawing.  The drawing of a line is known
before the line is read, from the nodes above it, and the label tells how many operands follow.  So
the lines can be read from top to bottom with nothing but the drawing in front of the next node, and
no two expressions have the same outline (`outline_eq_iff`).
-/

namespace MaximalMunch.Expr

variable {e e' : Expr} {lead margin line : List Char} {rest rest' : List (List Char)} {c d x : Char}

/-! ## Labels -/

theorem label_char (c : Char) : (char c).label = Text.escapeMarked Pattern.specials c := rfl

/-- No character has the label of an operator or of the empty word, as those are special. -/
theorem label_char_ne (hx : x ∈ Pattern.specials) : (char c).label ≠ [x] := by
  intro h
  rw [label_char, Text.escapeMarked_eq_singleton_iff] at h
  exact h.1 (h.2.2 ▸ hx)

theorem label_char_injective (h : (char c).label = (char d).label) : c = d := by
  have hletters : ∀ e ∈ Text.letters, e.1 ∉ Pattern.specials := by decide
  exact Text.escapeMarked_injective hletters h

theorem visible_label (e : Expr) : Text.Visible e.label := by
  have hspecials : Text.Visible Pattern.specials := by
    simp [Text.Visible, Pattern.specials, Text.isControl]
  cases e with
  | char c => exact Text.visible_escapeMarked hspecials c
  | _ => simp [label, Text.Visible, Text.isControl]

/-- Expressions with the same node at the top, whatever its operands are. -/
inductive SameRoot : Expr → Expr → Prop where
  | char (c : Char) : SameRoot (char c) (char c)
  | epsilon : SameRoot epsilon epsilon
  | union (left right left' right' : Expr) : SameRoot (union left right) (union left' right')
  | concat (left right left' right' : Expr) : SameRoot (concat left right) (concat left' right')
  | closure (operand operand' : Expr) : SameRoot (closure operand) (closure operand')

theorem sameRoot_of_label_eq (h : e.label = e'.label) : SameRoot e e' := by
  cases e with
  | char c =>
      cases e' with
      | char d =>
          rw [label_char_injective h]
          exact .char d
      | _ => exact absurd h (label_char_ne (by decide))
  | epsilon =>
      cases e' with
      | char d => exact absurd h.symm (label_char_ne (by decide))
      | epsilon => exact .epsilon
      | _ => simp [label] at h
  | union left right =>
      cases e' with
      | char d => exact absurd h.symm (label_char_ne (by decide))
      | union left' right' => exact .union left right left' right'
      | _ => simp [label] at h
  | concat left right =>
      cases e' with
      | char d => exact absurd h.symm (label_char_ne (by decide))
      | concat left' right' => exact .concat left right left' right'
      | _ => simp [label] at h
  | closure operand =>
      cases e' with
      | char d => exact absurd h.symm (label_char_ne (by decide))
      | closure operand' => exact .closure operand operand'
      | _ => simp [label] at h

/-! ## Lines -/

theorem exists_outlineLines_cons (lead margin : List Char) (e : Expr) :
    ∃ below, e.outlineLines lead margin = (lead ++ e.label) :: below := by
  cases e <;> exact ⟨_, rfl⟩

/-- The first line tells the node at the top. -/
theorem sameRoot_of_outlineLines_eq
    (h : e.outlineLines lead margin ++ rest = e'.outlineLines lead margin ++ rest') :
    SameRoot e e' := by
  obtain ⟨below, hbelow⟩ := exists_outlineLines_cons lead margin e
  obtain ⟨below', hbelow'⟩ := exists_outlineLines_cons lead margin e'
  rw [hbelow, hbelow', List.cons_append, List.cons_append] at h
  exact sameRoot_of_label_eq (List.append_cancel_left (List.cons.inj h).1)

/-- An expression is read off the front of a row of lines, and so is what stands behind it. -/
theorem outlineLines_append_inj
    (h : e.outlineLines lead margin ++ rest = e'.outlineLines lead margin ++ rest') :
    e = e' ∧ rest = rest' := by
  induction e generalizing e' lead margin rest rest' with
  | char c =>
      cases sameRoot_of_outlineLines_eq h
      exact ⟨rfl, List.append_cancel_left h⟩
  | epsilon =>
      cases sameRoot_of_outlineLines_eq h
      exact ⟨rfl, List.append_cancel_left h⟩
  | union left right ihLeft ihRight =>
      cases sameRoot_of_outlineLines_eq h
      simp only [outlineLines, List.cons_append, List.append_assoc, List.cons.injEq] at h
      obtain ⟨rfl, hright⟩ := ihLeft h.2
      obtain ⟨rfl, hrest⟩ := ihRight hright
      exact ⟨rfl, hrest⟩
  | concat left right ihLeft ihRight =>
      cases sameRoot_of_outlineLines_eq h
      simp only [outlineLines, List.cons_append, List.append_assoc, List.cons.injEq] at h
      obtain ⟨rfl, hright⟩ := ihLeft h.2
      obtain ⟨rfl, hrest⟩ := ihRight hright
      exact ⟨rfl, hrest⟩
  | closure operand ih =>
      cases sameRoot_of_outlineLines_eq h
      simp only [outlineLines, List.cons_append, List.cons.injEq] at h
      obtain ⟨rfl, hrest⟩ := ih h.2
      exact ⟨rfl, hrest⟩

/-- Drawings and labels have no control characters. -/
theorem visible_of_mem_outlineLines (hlead : Text.Visible lead) (hmargin : Text.Visible margin)
    (hline : line ∈ e.outlineLines lead margin) : Text.Visible line := by
  have hbelow {drawing : List Char} (hdrawing : Text.Visible drawing) {margin : List Char}
      (hmargin : Text.Visible margin) : Text.Visible (margin ++ drawing) :=
    Text.visible_append.mpr ⟨hmargin, hdrawing⟩
  have hbranch : Text.Visible branch := by simp [Text.Visible, branch, Text.isControl]
  have htrunk : Text.Visible trunk := by simp [Text.Visible, trunk, Text.isControl]
  have hlastBranch : Text.Visible lastBranch := by simp [Text.Visible, lastBranch, Text.isControl]
  have hgap : Text.Visible gap := by simp [Text.Visible, gap, Text.isControl]
  induction e generalizing lead margin with
  | char c =>
      rw [List.mem_singleton.mp hline]
      exact hbelow (visible_label _) hlead
  | epsilon =>
      rw [List.mem_singleton.mp hline]
      exact hbelow (visible_label _) hlead
  | union left right ihLeft ihRight =>
      simp only [outlineLines, List.mem_cons, List.mem_append] at hline
      rcases hline with rfl | hline | hline
      · exact hbelow (visible_label _) hlead
      · exact ihLeft (hbelow hbranch hmargin) (hbelow htrunk hmargin) hline
      · exact ihRight (hbelow hlastBranch hmargin) (hbelow hgap hmargin) hline
  | concat left right ihLeft ihRight =>
      simp only [outlineLines, List.mem_cons, List.mem_append] at hline
      rcases hline with rfl | hline | hline
      · exact hbelow (visible_label _) hlead
      · exact ihLeft (hbelow hbranch hmargin) (hbelow htrunk hmargin) hline
      · exact ihRight (hbelow hlastBranch hmargin) (hbelow hgap hmargin) hline
  | closure operand ih =>
      simp only [outlineLines, List.mem_cons] at hline
      rcases hline with rfl | hline
      · exact hbelow (visible_label _) hlead
      · exact ih (hbelow hlastBranch hmargin) (hbelow hgap hmargin) hline

/-- The lines of an outline are found again in it. -/
theorem lines_outline (e : Expr) : Text.lines e.outline.toList = e.outlineLines gap gap := by
  have hgap : Text.Visible gap := by simp [Text.Visible, gap, Text.isControl]
  rw [outline, String.toList_ofList]
  apply Text.lines_of_visible
  intro line hline
  exact visible_of_mem_outlineLines hgap hgap hline

/-- Two expressions with the same outline are the same, whatever characters their leaves have. -/
theorem outline_eq_iff (e e' : Expr) : e.outline = e'.outline ↔ e = e' := by
  constructor
  · intro h
    have hlines : e.outlineLines gap gap = e'.outlineLines gap gap := by
      rw [← lines_outline, ← lines_outline, h]
    exact (outlineLines_append_inj (congrArg (· ++ []) hlines)).1
  · intro h
    rw [h]

end MaximalMunch.Expr
