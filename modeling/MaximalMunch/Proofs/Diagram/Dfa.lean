import Mathlib.Algebra.Group.Nat.Even
import Mathlib.Data.List.DropRight
import MaximalMunch.Diagram.Automata
import MaximalMunch.Proofs.Dfa.Assembly
import MaximalMunch.Proofs.Diagram.Dot

/-!
# A deterministic automaton in its graph

A state has at most one edge for a character, and labels tell the characters apart, so the graph of
a deterministic automaton shows all of it: no two automata have the same text (`dot_eq_iff_eq`).
Labels are also `Quotable`, so that a reader of the text finds the quote that closes a label where
the label ends, whatever character the label is for.
-/

namespace MaximalMunch

namespace Diagram

variable {text : List Char} {a c : Char}

/-! ## Texts between quotes -/

/-- The number of backslashes at the end of a text. -/
def trailing (text : List Char) : Nat := (text.rtakeWhile (· = '\\')).length

/-- A text that may stand between quotes.  Backslashes pair up from the left, so what follows a row
of them is escaped exactly if the row is odd: every quote in the text is, and the quote that closes
it is not. -/
structure Quotable (text : List Char) : Prop where
  odd_before_quote : ∀ front back, text = front ++ '"' :: back → Odd (trailing front)
  even_at_end : Even (trailing text)

theorem trailing_le_length (text : List Char) : trailing text ≤ text.length := by
  exact (List.rtakeWhile_suffix _ text).length_le

/-- A backslash in front counts if there is nothing but backslashes behind it. -/
theorem trailing_cons (a : Char) (text : List Char) : trailing (a :: text) =
    trailing text + if a = '\\' ∧ trailing text = text.length then 1 else 0 := by
  simp only [trailing, List.rtakeWhile, List.reverse_cons, List.length_reverse]
  rw [List.takeWhile_append, List.length_reverse]
  by_cases hall : (text.reverse.takeWhile (· = '\\')).length = text.length
  · rw [if_pos hall]
    by_cases ha : a = '\\'
    · simp [ha, hall]
    · simp [ha, hall]
  · simp [hall]

theorem trailing_cons_of_ne (ha : a ≠ '\\') : trailing (a :: text) = trailing text := by
  rw [trailing_cons, if_neg fun h => ha h.1, Nat.add_zero]

/-- A backslash with the character that it escapes changes nothing for what follows. -/
theorem even_trailing_escaped (c : Char) (text : List Char) :
    Even (trailing ('\\' :: c :: text)) ↔ Even (trailing text) := by
  have hle := trailing_le_length text
  rw [trailing_cons '\\', List.length_cons]
  by_cases hc : c = '\\'
  · by_cases hall : trailing text = text.length
    · rw [trailing_cons c, if_pos ⟨hc, hall⟩, if_pos ⟨rfl, by rw [hall]⟩]
      simp [Nat.even_add_one]
    · rw [trailing_cons c, if_neg fun h => hall h.2, Nat.add_zero, if_neg fun h => by omega,
        Nat.add_zero]
  · rw [trailing_cons_of_ne hc, if_neg fun h => by omega, Nat.add_zero]

theorem quotable_nil : Quotable [] := by
  refine ⟨?_, Even.zero⟩
  intro front back h
  simp at h

theorem Quotable.cons (hquote : c ≠ '"') (hbackslash : c ≠ '\\') (h : Quotable text) :
    Quotable (c :: text) := by
  refine ⟨?_, ?_⟩
  · intro front back hcut
    cases front with
    | nil => exact absurd (List.cons.inj hcut).1 hquote
    | cons b front =>
        obtain ⟨hb, hrest⟩ := List.cons.inj hcut
        rw [← hb, trailing_cons_of_ne hbackslash]
        exact h.odd_before_quote front back hrest
  · rw [trailing_cons_of_ne hbackslash]
    exact h.even_at_end

theorem Quotable.escaped (c : Char) (h : Quotable text) : Quotable ('\\' :: c :: text) := by
  refine ⟨?_, (even_trailing_escaped c text).mpr h.even_at_end⟩
  intro front back hcut
  match front with
  | [] => exact absurd (List.cons.inj hcut).1 (by decide)
  | [b] =>
      -- the quote is the character that is escaped
      rw [← (List.cons.inj hcut).1]
      exact odd_one
  | b :: b' :: front =>
      obtain ⟨hb, hrest⟩ := List.cons.inj hcut
      obtain ⟨hb', hrest⟩ := List.cons.inj hrest
      have hodd := h.odd_before_quote front back hrest
      rw [← hb, ← Nat.not_even_iff_odd, even_trailing_escaped, Nat.not_even_iff_odd]
      exact hodd

theorem quotable_of_forall (h : ∀ c ∈ text, c ≠ '"' ∧ c ≠ '\\') : Quotable text := by
  induction text with
  | nil => exact quotable_nil
  | cons c text ih =>
      rw [List.forall_mem_cons] at h
      exact (ih h.2).cons h.1.1 h.1.2

/-- No hexadecimal digit is a quote or a backslash. -/
theorem quotable_hexDigits (n : Nat) : Quotable (Text.hexDigits n) := by
  have hdigit : ∀ k < 16, Nat.digitChar k ≠ '"' ∧ Nat.digitChar k ≠ '\\' := by decide
  apply quotable_of_forall
  intro c hc
  obtain ⟨k, -, rfl⟩ := List.mem_map.mp hc
  exact hdigit (k % 16) (Nat.mod_lt k (by decide))

/-- Every label can be read from between its quotes. -/
theorem quotable_symbolLabel (c : Char) : Quotable (symbolLabel c).toList := by
  rw [toList_symbolLabel, Text.escapeMarked]
  split
  · exact quotable_nil.escaped c
  · next hmarked =>
      rw [Text.escapeChar]
      split
      · exact quotable_nil.escaped _
      · split
        · exact (quotable_hexDigits c.toNat).escaped 'u'
        · apply quotable_of_forall
          intro d hd
          rw [List.mem_singleton.mp hd]
          simpa [marked] using hmarked

end Diagram

namespace Dfa

open Diagram (Edge Vertex symbolLabel)

variable {d u : Dfa} {p q : Nat}

theorem wellFormed_iff : d.WellFormed ↔
    d.start < d.size ∧ d.finals.mask < 2 ^ d.size ∧ ∀ q ∈ d.targets, q < d.size := by
  rw [← StateSet.forall_mem_lt_iff]
  constructor
  · intro hd
    refine ⟨hd.start_lt, hd.finals_lt, ?_⟩
    intro q hq
    obtain ⟨p, c, hnext⟩ := mem_targets.mp hq
    exact hd.target_lt hnext
  · intro hd
    exact ⟨hd.1, hd.2.1, fun hnext => hd.2.2 _ (mem_targets.mpr ⟨_, _, hnext⟩)⟩

instance (d : Dfa) : Decidable d.WellFormed := decidable_of_iff _ wellFormed_iff.symm

/-! ## Vertices -/

/-- How a state is drawn. -/
def marks (isStart isFinal : Prop) [Decidable isStart] [Decidable isFinal] : List String :=
  (if isStart then Diagram.startAttributes else []) ++
    (if isFinal then Diagram.outlined "red" else [])

/-- The edges that leave a state. -/
def drawn (row : SymbolMap Nat) : List Edge :=
  row.entries.map fun e => ⟨e.2, symbolLabel e.1⟩

/-- The vertex of a state. -/
def vertex (d : Dfa) (q : Nat) : Vertex where
  attributes := marks (q = d.start) (q ∈ d.finals)
  edges := drawn (d.row q)

theorem vertices_eq (d : Dfa) : d.vertices = (List.range d.size).map d.vertex := by
  apply List.ext_getElem
  · simp [vertices, size]
  · intro q hq hq'
    have hlt : q < d.rows.size := by simpa [vertices] using hq
    have hrow : d.row q = d.rows[q] := row_eq (Array.getElem?_eq_getElem hlt)
    simp [vertices, vertex, marks, drawn, hrow]

/-- The colours tell what a state is, and a state that is both has both. -/
theorem marks_inj {a b a' b' : Prop} [Decidable a] [Decidable b] [Decidable a'] [Decidable b']
    (h : marks a b = marks a' b') : (a ↔ a') ∧ (b ↔ b') := by
  apply Diagram.ite_append_ite_inj _ _ h
  · exact ⟨"color=" ++ "blue", by simp [Diagram.startAttributes, Diagram.circle, Diagram.outlined]⟩
  · exact ⟨"color=" ++ "red", by simp [Diagram.startAttributes, Diagram.circle, Diagram.outlined]⟩

/-- The edges tell on which character they are and where they lead. -/
theorem drawn_injective {row other : SymbolMap Nat} (h : drawn row = drawn other) :
    row = other := by
  have hentries : row.entries = other.entries := by
    apply (List.map_inj_right _).mp h
    intro e e' he
    obtain ⟨htarget, hlabel⟩ := Edge.mk.inj he
    exact Prod.ext (Diagram.symbolLabel_injective hlabel) htarget
  cases row
  cases other
  rw [SymbolMap.mk.injEq]
  exact hentries

theorem plain_vertices (d : Dfa) : ∀ v ∈ d.vertices, v.Plain := by
  have hattributes : ∀ a ∈ Diagram.startAttributes ++ Diagram.outlined "red",
      ',' ∉ a.toList ∧ Text.Visible a.toList := by
    simp [Diagram.startAttributes, Diagram.circle, Diagram.outlined, Text.Visible, Text.isControl]
  rw [List.forall_mem_append] at hattributes
  rw [vertices_eq, List.forall_mem_map]
  intro q _
  have hplain : ∀ a ∈ (d.vertex q).attributes, ',' ∉ a.toList ∧ Text.Visible a.toList := by
    intro a ha
    rcases Diagram.mem_ite_append_ite.mp ha with ha | ha
    · exact hattributes.1 a ha.2
    · exact hattributes.2 a ha.2
  refine ⟨fun a ha => (hplain a ha).1, fun a ha => (hplain a ha).2, ?_⟩
  rw [vertex, drawn, List.forall_mem_map]
  intro e _
  exact Diagram.visible_symbolLabel e.1

theorem row_of_size_le (hq : d.size ≤ q) : d.row q = ∅ := by
  rw [row, Array.getD_eq_getD_getElem?, Array.getElem?_eq_none hq, Option.getD_none]

/-- Automata with the same vertices are the same, if they name only their own states. -/
theorem eq_of_vertices_eq (hd : d.WellFormed) (hu : u.WellFormed) (h : d.vertices = u.vertices) :
    d = u := by
  rw [vertices_eq, vertices_eq] at h
  have hsize : d.size = u.size := by simpa using congrArg List.length h
  rw [← hsize, List.map_inj_left] at h
  have hvertex {q : Nat} (hq : q < d.size) : d.vertex q = u.vertex q := h q (List.mem_range.mpr hq)
  have hmarks {q : Nat} (hq : q < d.size) := marks_inj (congrArg Vertex.attributes (hvertex hq))
  apply ext_row hsize
  · exact (hmarks hd.start_lt).1.mp rfl
  · apply StateSet.ext
    intro q
    constructor
    · intro hq
      exact (hmarks (hd.finals_lt q hq)).2.mp hq
    · intro hq
      exact (hmarks (hsize ▸ hu.finals_lt q hq)).2.mpr hq
  · intro q
    by_cases hq : q < d.size
    · exact drawn_injective (congrArg Vertex.edges (hvertex hq))
    · rw [row_of_size_le (Nat.not_lt.mp hq), row_of_size_le (hsize ▸ Nat.not_lt.mp hq)]

/-- Two automata have the same graph only if they are the same: they have the same states, of which
the same are the start and final, and the same transitions.  Every label of an edge ends at the
quote that closes it. -/
theorem dot_eq_iff_eq (hd : d.WellFormed) (hu : u.WellFormed) (title : String) :
    (d.dot title = u.dot title ↔ d = u) ∧
      ∀ v ∈ d.vertices, ∀ e ∈ v.edges, Diagram.Quotable e.label.toList := by
  constructor
  · rw [dot, dot, Diagram.dot_eq_iff (plain_vertices d) (plain_vertices u)]
    constructor
    · intro h
      exact eq_of_vertices_eq hd hu h
    · intro h
      rw [h]
  · rw [vertices_eq, List.forall_mem_map]
    intro q _
    rw [vertex, drawn, List.forall_mem_map]
    intro e _
    exact Diagram.quotable_symbolLabel e.1

/-- The only state is the start and final, and leads back to itself on a quote or on a backslash. -/
theorem dot_eq_iff_eq_quote_backslash :
    let d : Dfa := ⟨0, .singleton 0, #[(∅ : SymbolMap Nat).insert '"' 0]⟩
    let u : Dfa := ⟨0, .singleton 0, #[(∅ : SymbolMap Nat).insert '\\' 0]⟩
    d.WellFormed ∧ u.WellFormed ∧ d.dot "marks" ≠ u.dot "marks" ∧
      (∀ v ∈ d.vertices, ∀ e ∈ v.edges, Diagram.Quotable e.label.toList) ∧
      ∀ v ∈ u.vertices, ∀ e ∈ v.edges, Diagram.Quotable e.label.toList := by
  intro d u
  have hd : d.WellFormed := by decide
  have hu : u.WellFormed := by decide
  have hne : d ≠ u := by decide
  obtain ⟨hdot, hlabels⟩ := dot_eq_iff_eq hd hu "marks"
  exact ⟨hd, hu, fun h => hne (hdot.mp h), hlabels, (dot_eq_iff_eq hu hd "marks").2⟩

end Dfa

end MaximalMunch
