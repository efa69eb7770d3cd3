import MaximalMunch.Diagram.Automata
import MaximalMunch.Proofs.Diagram.Dot
import MaximalMunch.Proofs.Nfa.Made

/-!
# A nondeterministic automaton in its graph

The graph of an automaton shows its states, which of them are the start and final, and for every
state the edges that leave it.  Labels tell one character from another, but the edges that read
nothing have the label `ε`, and so have the edges on the character `ε`.  Rows that differ in nothing
but what such edges stand for look `Alike`, and `dot_eq_iff_alike` says that nothing else is lost.
-/

namespace MaximalMunch

open Diagram (Edge Vertex symbolLabel)

theorem StateSet.toList_injective {s t : StateSet} (h : s.toList = t.toList) : s = t := by
  apply StateSet.ext
  intro i
  rw [← StateSet.mem_toList, h, StateSet.mem_toList]

theorem StateSet.toList_empty : (∅ : StateSet).toList = [] := by
  rw [List.eq_nil_iff_forall_not_mem]
  intro i hi
  exact StateSet.not_mem_empty i (StateSet.mem_toList.mp hi)

/-- The last entry of a map has the greatest character. -/
theorem SymbolMap.exists_last_entry {α : Type} {m : SymbolMap α} {c : Char} {a : α}
    (h : (c, a) ∈ m.entries) :
    ∃ front d b, m.entries = front ++ [(d, b)] ∧ ¬ d < c := by
  obtain hnil | ⟨front, ⟨d, b⟩, hentries⟩ := List.eq_nil_or_concat' m.entries
  · rw [hnil] at h
    exact absurd h List.not_mem_nil
  · refine ⟨front, d, b, hentries, ?_⟩
    have hsorted := m.sorted
    rw [hentries] at h hsorted
    rcases List.mem_append.mp h with hfront | hlast
    · exact Char.lt_asymm ((List.pairwise_append.mp hsorted).2.2 _ hfront _ List.mem_cons_self)
    · rw [List.mem_singleton, Prod.mk.injEq] at hlast
      rw [hlast.1]
      exact Char.lt_irrefl d

namespace Nfa

namespace Row

variable {row other : Row} {c d : Char} {entries : List (Char × StateSet)}
  {label : String} {states states' : List Nat}

/-- Rows with the same edges, up to what the edges that are drawn with the label `ε` stand for.
Such an edge is on the character if it stands in front of an edge on a greater character; in a row
without one nothing tells where the edges that read nothing begin. -/
structure Alike (row other : Row) : Prop where
  targets_eq : ∀ c, c ≠ 'ε' → row.targets c = other.targets c
  marked_eq : (row.targets 'ε').toList ++ row.epsilon.toList =
    (other.targets 'ε').toList ++ other.epsilon.toList
  targets_eq_of_lt : ∀ c, 'ε' < c → row.targets c ≠ ∅ → row.targets 'ε' = other.targets 'ε'

theorem Alike.refl (row : Row) : row.Alike row :=
  ⟨fun _ _ => rfl, rfl, fun _ _ _ => rfl⟩

/-- With the same edges on `ε` there is nothing left to be taken for something else. -/
theorem Alike.on_eq (h : row.Alike other) (hmarked : row.targets 'ε' = other.targets 'ε')
    (o : Option Char) : row.on o = other.on o := by
  cases o with
  | none =>
      have hepsilon := h.marked_eq
      rw [hmarked] at hepsilon
      exact StateSet.toList_injective (List.append_cancel_left hepsilon)
  | some c =>
      by_cases hc : c = 'ε'
      · rw [hc, on_some, on_some, hmarked]
      · rw [on_some, on_some, h.targets_eq c hc]

/-! ## Edges with one label -/

/-- Edges with the same label. -/
def drawn (label : String) (states : List Nat) : List Edge :=
  states.map fun target => ⟨target, label⟩

theorem drawn_append (label : String) (states states' : List Nat) :
    drawn label (states ++ states') = drawn label states ++ drawn label states' :=
  List.map_append

theorem drawn_injective (h : drawn label states = drawn label states') : states = states' := by
  apply (List.map_inj_right _).mp h
  intro p q hpq
  exact (Edge.mk.inj hpq).1

theorem label_of_mem_drawn {e : Edge} (he : e ∈ drawn label states) : e.label = label := by
  obtain ⟨target, -, rfl⟩ := List.mem_map.mp he
  rfl

/-- The edges on characters. -/
def drawnEntries (entries : List (Char × StateSet)) : List Edge :=
  entries.flatMap fun e => drawn (symbolLabel e.1) e.2.toList

theorem edges_eq (row : Row) :
    row.edges = drawnEntries row.symbols.entries ++ drawn "ε" row.epsilon.toList := rfl

theorem filter_drawn (states : List Nat) :
    (drawn (symbolLabel d) states).filter (·.label = symbolLabel c) =
      if c = d then drawn (symbolLabel c) states else [] := by
  split
  · next h =>
      rw [h, List.filter_eq_self]
      intro e he
      exact decide_eq_true (label_of_mem_drawn he)
  · next h =>
      rw [List.filter_eq_nil_iff]
      intro e he hlabel
      rw [label_of_mem_drawn he, decide_eq_true_iff] at hlabel
      exact h (Diagram.symbolLabel_injective hlabel).symm

theorem filter_drawnEntries (sorted : entries.Pairwise fun a b => a.1 < b.1) (c : Char) :
    (drawnEntries entries).filter (·.label = symbolLabel c) =
      drawn (symbolLabel c) ((SymbolMap.lookup c entries).getD ∅).toList := by
  induction entries with
  | nil =>
      rw [SymbolMap.lookup, Option.getD_none, StateSet.toList_empty]
      rfl
  | cons entry entries ih =>
      obtain ⟨d, states⟩ := entry
      obtain ⟨habove, sorted⟩ := List.pairwise_cons.mp sorted
      rw [drawnEntries, List.flatMap_cons, List.filter_append, filter_drawn, ← drawnEntries,
        ih sorted, SymbolMap.lookup]
      split
      · next h =>
          -- the characters of all other entries are greater
          rw [h, SymbolMap.lookup_eq_none_of_lt habove, Option.getD_none, StateSet.toList_empty,
            Option.getD_some]
          exact List.append_nil _
      · rw [List.nil_append]

theorem symbolLabel_epsilon : symbolLabel 'ε' = "ε" := by
  decide

theorem filter_edges_of_ne (row : Row) (hc : c ≠ 'ε') :
    row.edges.filter (·.label = symbolLabel c) = drawn (symbolLabel c) (row.targets c).toList := by
  rw [edges_eq, List.filter_append, filter_drawnEntries row.symbols.sorted, ← symbolLabel_epsilon,
    filter_drawn, if_neg hc, List.append_nil]
  rfl

theorem filter_edges_epsilon (row : Row) :
    row.edges.filter (·.label = "ε") =
      drawn "ε" ((row.targets 'ε').toList ++ row.epsilon.toList) := by
  rw [edges_eq, drawn_append, List.filter_append, ← symbolLabel_epsilon,
    filter_drawnEntries row.symbols.sorted, filter_drawn, if_pos rfl]
  rfl

/-! ## Where the edges that read nothing begin -/

theorem Tidy.mem_entries_iff (hrow : row.Tidy) {states : StateSet} :
    (c, states) ∈ row.symbols.entries ↔ states ≠ ∅ ∧ row.targets c = states := by
  rw [SymbolMap.mem_entries_iff, hrow.get?_eq]
  by_cases h : row.targets c = ∅
  · rw [if_pos h, h]
    exact ⟨fun hnone => absurd hnone (by simp), fun hne => absurd hne.2.symm hne.1⟩
  · rw [if_neg h, Option.some_inj]
    exact ⟨fun heq => ⟨heq ▸ h, heq⟩, fun heq => heq.2⟩

/-- The last edge on a character is on the greatest character. -/
theorem Tidy.label_of_last (hrow : row.Tidy) (hlt : 'ε' < c) (hc : row.targets c ≠ ∅) :
    ∀ e ∈ (drawnEntries row.symbols.entries).getLast?, ¬ e.label = "ε" := by
  intro e he hlabel
  have hmem : (c, row.targets c) ∈ row.symbols.entries := hrow.mem_entries_iff.mpr ⟨hc, rfl⟩
  obtain ⟨front, d, states, hentries, hle⟩ := SymbolMap.exists_last_entry hmem
  have hlast : (d, states) ∈ row.symbols.entries := by
    rw [hentries]
    exact List.mem_append_right front List.mem_cons_self
  have hstates : drawn (symbolLabel d) states.toList ≠ [] := by
    intro hnil
    apply (hrow.mem_entries_iff.mp hlast).1
    apply StateSet.toList_injective
    rw [List.map_eq_nil_iff.mp hnil, StateSet.toList_empty]
  have hd : d = 'ε' := by
    rw [hentries, drawnEntries, List.flatMap_append, List.flatMap_singleton,
      List.getLast?_append_of_ne_nil _ hstates] at he
    apply Diagram.symbolLabel_injective
    rw [← label_of_mem_drawn (List.mem_of_getLast? he), hlabel, symbolLabel_epsilon]
  rw [hd] at hle
  exact hle hlt

/-- Rows with the same edges look alike. -/
theorem alike_of_edges_eq (hrow : row.Tidy) (hother : other.Tidy) (h : row.edges = other.edges) :
    row.Alike other := by
  have htargets (c : Char) (hc : c ≠ 'ε') : row.targets c = other.targets c := by
    have hdrawn := congrArg (List.filter (·.label = symbolLabel c)) h
    rw [filter_edges_of_ne row hc, filter_edges_of_ne other hc] at hdrawn
    exact StateSet.toList_injective (drawn_injective hdrawn)
  refine ⟨htargets, ?_, ?_⟩
  · have hdrawn := congrArg (List.filter (·.label = "ε")) h
    rw [filter_edges_epsilon, filter_edges_epsilon] at hdrawn
    exact drawn_injective hdrawn
  · intro c hlt hc
    have hc' : other.targets c ≠ ∅ := htargets c (Char.ne_of_lt hlt).symm ▸ hc
    have hentries : drawnEntries row.symbols.entries = drawnEntries other.symbols.entries :=
      (Diagram.append_inj_of_last (fun _ => label_of_mem_drawn) (fun _ => label_of_mem_drawn)
        (hrow.label_of_last hlt hc) (hother.label_of_last hlt hc') h).1
    have hdrawn := congrArg (List.filter (·.label = symbolLabel 'ε')) hentries
    rw [filter_drawnEntries row.symbols.sorted, filter_drawnEntries other.symbols.sorted] at hdrawn
    exact StateSet.toList_injective (drawn_injective hdrawn)

/-! ## Rows that look alike -/

theorem filter_entries_eq (hrow : row.Tidy) (hother : other.Tidy)
    (htargets : ∀ c, c ≠ 'ε' → row.targets c = other.targets c) :
    row.symbols.entries.filter (·.1 ≠ 'ε') = other.symbols.entries.filter (·.1 ≠ 'ε') := by
  have hmaps : (⟨_, row.symbols.sorted.filter (·.1 ≠ 'ε')⟩ : SymbolMap StateSet) =
      ⟨_, other.symbols.sorted.filter (·.1 ≠ 'ε')⟩ := by
    apply SymbolMap.ext_get?
    intro c
    apply Option.ext
    intro states
    simp only [← SymbolMap.mem_entries_iff, List.mem_filter, decide_eq_true_iff,
      hrow.mem_entries_iff, hother.mem_entries_iff]
    apply and_congr_left
    intro hc
    rw [htargets c hc]
  exact SymbolMap.mk.inj hmaps

theorem drawnEntries_of_not_lt (sorted : entries.Pairwise fun a b => a.1 < b.1)
    (hle : ∀ e ∈ entries, ¬ 'ε' < e.1) :
    drawnEntries entries = drawnEntries (entries.filter (·.1 ≠ 'ε')) ++
      drawn "ε" ((SymbolMap.lookup 'ε' entries).getD ∅).toList := by
  induction entries with
  | nil =>
      rw [SymbolMap.lookup, Option.getD_none, StateSet.toList_empty]
      rfl
  | cons entry entries ih =>
      obtain ⟨d, states⟩ := entry
      obtain ⟨habove, sorted⟩ := List.pairwise_cons.mp sorted
      rw [List.forall_mem_cons] at hle
      by_cases hd : d = 'ε'
      · have hentries : entries = [] := by
          rw [List.eq_nil_iff_forall_not_mem]
          intro e he
          exact hle.2 e he (hd ▸ habove e he)
        rw [hentries, hd, SymbolMap.lookup, if_pos rfl, List.filter_cons_of_neg (by simp),
          ← symbolLabel_epsilon]
        exact List.append_nil _
      · rw [List.filter_cons_of_pos (by simpa using hd), drawnEntries, List.flatMap_cons,
          ← drawnEntries, ih sorted hle.2, SymbolMap.lookup, if_neg (Ne.symm hd),
          ← List.append_assoc]
        rfl

theorem Tidy.edges_of_not_lt (hrow : row.Tidy) (h : ∀ c, 'ε' < c → row.targets c = ∅) :
    row.edges = drawnEntries (row.symbols.entries.filter (·.1 ≠ 'ε')) ++
      drawn "ε" ((row.targets 'ε').toList ++ row.epsilon.toList) := by
  have hle : ∀ e ∈ row.symbols.entries, ¬ 'ε' < e.1 := by
    intro e he hlt
    have hentry := hrow.mem_entries_iff.mp he
    exact hentry.1 (hentry.2.symm.trans (h e.1 hlt))
  rw [edges_eq, drawnEntries_of_not_lt row.symbols.sorted hle, List.append_assoc, drawn_append]
  rfl

/-- Rows that look alike have the same edges. -/
theorem edges_eq_of_alike (hrow : row.Tidy) (hother : other.Tidy) (h : row.Alike other) :
    row.edges = other.edges := by
  by_cases hbehind : ∃ c, 'ε' < c ∧ row.targets c ≠ ∅
  · obtain ⟨c, hlt, hc⟩ := hbehind
    have hrows : row = other := by
      apply hrow.ext_on hother
      intro o q
      rw [h.on_eq (h.targets_eq_of_lt c hlt hc)]
    rw [hrows]
  · have hempty (c : Char) (hlt : 'ε' < c) : row.targets c = ∅ := by
      by_contra hc
      exact hbehind ⟨c, hlt, hc⟩
    have hempty' (c : Char) (hlt : 'ε' < c) : other.targets c = ∅ := by
      rw [← h.targets_eq c (Char.ne_of_lt hlt).symm, hempty c hlt]
    rw [hrow.edges_of_not_lt hempty, hother.edges_of_not_lt hempty',
      filter_entries_eq hrow hother h.targets_eq, h.marked_eq]

theorem edges_eq_iff (hrow : row.Tidy) (hother : other.Tidy) :
    row.edges = other.edges ↔ row.Alike other :=
  ⟨alike_of_edges_eq hrow hother, edges_eq_of_alike hrow hother⟩

end Row

/-! ## Vertices -/

variable {n m : Nfa} {k l q : Nat}

/-- How a state is drawn. -/
def marks (isStart isFinal : Prop) [Decidable isStart] [Decidable isFinal] : List String :=
  (if isStart then Diagram.startAttributes else []) ++
    (if isFinal then Diagram.circle :: Diagram.outlined "red" else [])

/-- The vertex of a state. -/
def vertex (n : Nfa) (q : Nat) : Vertex where
  attributes := marks (q = n.start) (q ∈ n.finals)
  edges := (n.row q).edges

theorem row_of_size_le (hq : n.size ≤ q) : n.row q = {} := by
  rw [row, Array.getD_eq_getD_getElem?, Array.getElem?_eq_none hq, Option.getD_none]

theorem vertices_eq (n : Nfa) : n.vertices = (List.range n.size).map n.vertex := by
  apply List.ext_getElem
  · simp [vertices, size]
  · intro q hq hq'
    have hlt : q < n.rows.size := by simpa [vertices] using hq
    have hrow : n.row q = n.rows[q] := row_eq (Array.getElem?_eq_getElem hlt)
    simp [vertices, vertex, marks, hrow]

/-- The colours tell what a state is, and a state that is both has both. -/
theorem marks_inj {a b a' b' : Prop} [Decidable a] [Decidable b] [Decidable a'] [Decidable b']
    (h : marks a b = marks a' b') : (a ↔ a') ∧ (b ↔ b') := by
  apply Diagram.ite_append_ite_inj _ _ h
  · exact ⟨"color=" ++ "blue", by simp [Diagram.startAttributes, Diagram.circle, Diagram.outlined]⟩
  · exact ⟨"color=" ++ "red", by simp [Diagram.startAttributes, Diagram.circle, Diagram.outlined]⟩

/-- Nothing in the attributes of a state looks like the end of one. -/
theorem plain_of_mem_marks {isStart isFinal : Prop} [Decidable isStart] [Decidable isFinal]
    {a : String} (ha : a ∈ marks isStart isFinal) : ',' ∉ a.toList ∧ Text.Visible a.toList := by
  have hattributes : ∀ a ∈ Diagram.startAttributes ++ Diagram.circle :: Diagram.outlined "red",
      ',' ∉ a.toList ∧ Text.Visible a.toList := by
    simp [Diagram.startAttributes, Diagram.circle, Diagram.outlined, Text.Visible, Text.isControl]
  rw [List.forall_mem_append] at hattributes
  rcases Diagram.mem_ite_append_ite.mp ha with ha | ha
  · exact hattributes.1 a ha.2
  · exact hattributes.2 a ha.2

theorem visible_label_of_mem_edges {row : Row} {e : Edge} (he : e ∈ row.edges) :
    Text.Visible e.label.toList := by
  rw [Row.edges_eq, List.mem_append, Row.drawnEntries, List.mem_flatMap] at he
  rcases he with ⟨entry, -, he⟩ | he
  · rw [Row.label_of_mem_drawn he]
    exact Diagram.visible_symbolLabel entry.1
  · rw [Row.label_of_mem_drawn he, ← Row.symbolLabel_epsilon]
    exact Diagram.visible_symbolLabel 'ε'

theorem plain_vertices (n : Nfa) : ∀ v ∈ n.vertices, v.Plain := by
  rw [vertices_eq, List.forall_mem_map]
  intro q _
  exact ⟨fun a ha => (plain_of_mem_marks ha).1, fun a ha => (plain_of_mem_marks ha).2,
    fun e he => visible_label_of_mem_edges he⟩

/-- The graph shows all of an automaton but what the edges with the label `ε` stand for. -/
theorem Sound.dot_eq_iff (hn : n.Sound k) (hm : m.Sound l) (title : String) :
    n.dot title = m.dot title ↔ n.size = m.size ∧ n.start = m.start ∧ n.finals = m.finals ∧
      ∀ q, (n.row q).Alike (m.row q) := by
  rw [dot, dot, Diagram.dot_eq_iff (plain_vertices n) (plain_vertices m), vertices_eq, vertices_eq]
  constructor
  · intro h
    have hsize : n.size = m.size := by simpa using congrArg List.length h
    rw [← hsize, List.map_inj_left] at h
    have hvertex {q : Nat} (hq : q < n.size) : n.vertex q = m.vertex q :=
      h q (List.mem_range.mpr hq)
    have hmarks {q : Nat} (hq : q < n.size) := marks_inj (congrArg Vertex.attributes (hvertex hq))
    refine ⟨hsize, (hmarks hn.wellFormed.start_lt).1.mp rfl, ?_, ?_⟩
    · apply StateSet.ext
      intro q
      constructor
      · intro hq
        exact (hmarks (hn.wellFormed.finals_lt q hq)).2.mp hq
      · intro hq
        exact (hmarks (hsize ▸ hm.wellFormed.finals_lt q hq)).2.mpr hq
    · intro q
      apply (Row.edges_eq_iff (hn.tidy q) (hm.tidy q)).mp
      by_cases hq : q < n.size
      · exact congrArg Vertex.edges (hvertex hq)
      · rw [row_of_size_le (Nat.not_lt.mp hq), row_of_size_le (hsize ▸ Nat.not_lt.mp hq)]
  · rintro ⟨hsize, hstart, hfinals, hrows⟩
    have hvertex (q : Nat) : n.vertex q = m.vertex q := by
      have hedges := (Row.edges_eq_iff (hn.tidy q) (hm.tidy q)).mpr (hrows q)
      simp only [vertex, hstart, hfinals, hedges]
    rw [hsize, List.map_inj_left]
    intro q _
    exact hvertex q

/-- Two automata have the same graph exactly if they have the same states, of which the same are
the start and final, and their rows look alike.  Those that agree on the edges on `ε`, as any two
without such edges do, have the same graph only if they are the same. -/
theorem dot_eq_iff_alike (hn : Made k n) (hm : Made l m) (title : String) :
    (n.dot title = m.dot title ↔ n.size = m.size ∧ n.start = m.start ∧ n.finals = m.finals ∧
      ∀ q, (n.row q).Alike (m.row q)) ∧
    ((∀ q, (n.row q).targets 'ε' = (m.row q).targets 'ε') →
      (n.dot title = m.dot title ↔ n = m)) := by
  have hdot := hn.sound.dot_eq_iff hm.sound title
  refine ⟨hdot, ?_⟩
  intro hmarked
  constructor
  · intro h
    obtain ⟨hsize, hstart, hfinals, hrows⟩ := hdot.mp h
    apply hn.sound.tidy.ext_edges hm.sound.tidy hsize hstart hfinals
    intro p o q
    rw [(hrows p).on_eq (hmarked p)]
  · intro h
    rw [h]

theorem dot_eq_iff_alike_quote_backslash :
    Made 2 (literal '"') ∧ Made 2 (literal '\\') ∧
      (∀ q, ((literal '"').row q).targets 'ε' = ((literal '\\').row q).targets 'ε') ∧
      ¬ (∀ q, ((literal '"').row q).Alike ((literal '\\').row q)) ∧
      (literal '"').dot "marks" ≠ (literal '\\').dot "marks" := by
  have hmarked : ∀ q, ((literal '"').row q).targets 'ε' = ((literal '\\').row q).targets 'ε'
    | 0 => rfl
    | 1 => rfl
    | q + 2 => by
        have hq : 2 ≤ q + 2 := Nat.le_add_left 2 q
        rw [row_of_size_le hq, row_of_size_le hq]
  have hne : literal '"' ≠ literal '\\' := by decide
  obtain ⟨hdot, hdot_of_marked⟩ :=
    dot_eq_iff_alike (.literal '"') (.literal '\\') "marks"
  have hdiffer : (literal '"').dot "marks" ≠ (literal '\\').dot "marks" :=
    fun h => hne ((hdot_of_marked hmarked).mp h)
  refine ⟨.literal '"', .literal '\\', hmarked, ?_, hdiffer⟩
  intro halike
  exact hdiffer (hdot.mpr ⟨rfl, rfl, rfl, halike⟩)

/-- The automaton of the character `ε` and that of the empty word have the same graph. -/
theorem dot_literal_epsilon :
    Made 2 (literal 'ε') ∧ Made 2 epsilon ∧ literal 'ε' ≠ epsilon ∧
      (literal 'ε').dot "one character" = epsilon.dot "one character" := by
  have hvertices : (literal 'ε').vertices = epsilon.vertices := by decide +kernel
  exact ⟨.literal 'ε', .epsilon, by decide, congrArg (Diagram.dot "one character") hvertices⟩

end Nfa

end MaximalMunch
