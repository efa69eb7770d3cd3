import MaximalMunch.Proofs.Nfa.Compose

/-!
# Union and closure of any automata

Union and closure put a start and a final state of their own around their operands.  So they need
nothing of them but one final state each: wherever an operand starts or ends, and whatever edges
lead back into its start or out of its final state, the result is `Sealed` and has the language
that it should have.  `union_star_of_any_shape` is the main statement.
-/

namespace MaximalMunch

theorem StateSet.existsUnique_mem_iff {s : StateSet} :
    (∃! q, q ∈ s) ↔ ∃ q, s = .singleton q := by
  constructor
  · rintro ⟨q, hq, hunique⟩
    refine ⟨q, StateSet.ext fun i => ?_⟩
    rw [StateSet.mem_singleton]
    constructor
    · exact hunique i
    · intro hi
      rwa [hi]
  · rintro ⟨q, rfl⟩
    exact ⟨q, StateSet.mem_singleton.mpr rfl, fun i hi => StateSet.mem_singleton.mp hi⟩

namespace Nfa

open scoped Computability

/-- An automaton that begins at its state zero and ends at its last state, and in which no edge
leads back into the one or out of the other. -/
structure Sealed (n : Nfa) : Prop where
  start_eq : n.start = 0
  finals_eq : n.finals = .singleton (n.size - 1)
  not_into_start : ∀ p o, 0 ∉ (n.row p).on o
  not_out_of_final : ∀ o q, q ∉ (n.row (n.size - 1)).on o

variable {n m u : Nfa} {f g : Nat}

/-! ## Union -/

section Union

variable (hn : n.WellFormed) (hm : m.WellFormed) (hsize : u.size = n.size + m.size + 2)
  (hstart : u.start = 0) (hfinals : u.finals = .singleton (n.size + m.size + 1))
  (hedges : ∀ p o q, q ∈ (u.row p).on o ↔ UnionEdge n m f g p o q)

include hn hm hsize hstart hfinals hedges

theorem wellFormed_union : u.WellFormed where
  start_lt := by omega
  finals_lt := by
    intro q hq
    rw [hfinals, StateSet.mem_singleton] at hq
    omega
  target_lt := by
    intro p q o hedge
    have hstartN := hn.start_lt
    have hstartM := hm.start_lt
    cases (hedges _ _ _).mp hedge with
    | left hedge _ hq =>
        have hlt := hn.target_lt hedge
        omega
    | right hedge _ hq =>
        have hlt := hm.target_lt hedge
        omega
    | enterLeft _ _ hq => omega
    | enterRight _ _ hq => omega
    | leaveLeft _ _ hq => omega
    | leaveRight _ _ hq => omega

theorem sealed_union (hf : n.finals = .singleton f) (hg : m.finals = .singleton g) : u.Sealed where
  start_eq := hstart
  finals_eq := by
    rw [hfinals, hsize]
    rfl
  not_into_start := by
    intro p o hedge
    -- every edge ends in a copy or in the last state
    cases (hedges _ _ _).mp hedge with
    | left _ _ hq => omega
    | right _ _ hq => omega
    | enterLeft _ _ hq => omega
    | enterRight _ _ hq => omega
    | leaveLeft _ _ hq => omega
    | leaveRight _ _ hq => omega
  not_out_of_final := by
    rw [hsize]
    exact union_sink hn hm hf hg hedges

end Union

/-! ## Closure -/

section Star

variable (hn : n.WellFormed) (hsize : u.size = n.size + 2) (hstart : u.start = 0)
  (hfinals : u.finals = .singleton (n.size + 1))
  (hedges : ∀ p o q, q ∈ (u.row p).on o ↔ StarEdge n f p o q)

include hn hsize hstart hfinals hedges

theorem wellFormed_star : u.WellFormed where
  start_lt := by omega
  finals_lt := by
    intro q hq
    rw [hfinals, StateSet.mem_singleton] at hq
    omega
  target_lt := by
    intro p q o hedge
    have hstartN := hn.start_lt
    cases (hedges _ _ _).mp hedge with
    | inner hedge _ hq =>
        have hlt := hn.target_lt hedge
        omega
    | enter _ _ hq => omega
    | skip _ _ hq => omega
    | repeats _ _ hq => omega
    | leave _ _ hq => omega

theorem sealed_star (hf : n.finals = .singleton f) : u.Sealed where
  start_eq := hstart
  finals_eq := by
    rw [hfinals, hsize]
    rfl
  not_into_start := by
    intro p o hedge
    cases (hedges _ _ _).mp hedge with
    | inner _ _ hq => omega
    | enter _ _ hq => omega
    | skip _ _ hq => omega
    | repeats _ _ hq => omega
    | leave _ _ hq => omega
  not_out_of_final := by
    rw [hsize]
    exact star_sink hn hf hedges

end Star

/-! ## Operands of any shape -/

/-- The union of two automata with one final state each reads the words of either, and the closure
reads the words that consist of any number of words of its operand.  Neither asks where an operand
starts or ends or which edges it has, and both results are sealed. -/
theorem union_star_of_any_shape (hn : n.WellFormed) (hm : m.WellFormed)
    (hf : ∃! q, q ∈ n.finals) (hg : ∃! q, q ∈ m.finals) :
    (∃ u, n.union m = .ok u ∧ u.WellFormed ∧ u.Sealed ∧
      ∀ w, w ∈ u.language ↔ w ∈ n.language ∨ w ∈ m.language) ∧
    ∃ u, n.star = .ok u ∧ u.WellFormed ∧ u.Sealed ∧
      ∀ w, w ∈ u.language ↔
        ∃ words : List (List Char), w = words.flatten ∧ ∀ x ∈ words, x ∈ n.language := by
  have hfinal := StateSet.existsUnique_mem_iff.mp hf
  have hother := StateSet.existsUnique_mem_iff.mp hg
  rcases hfinal with ⟨f, hf⟩
  rcases hother with ⟨g, hg⟩
  constructor
  · rcases union_spec hn hm hf hg with ⟨u, hu, hsize, hstart, hfinals, hedges⟩
    have hlanguage : u.language = n.language + m.language :=
      language_union hn hm hf hg hstart hfinals hedges
    refine ⟨u, hu, wellFormed_union hn hm hsize hstart hfinals hedges,
      sealed_union hn hm hsize hstart hfinals hedges hf hg, fun w => ?_⟩
    rw [hlanguage]
    exact Language.mem_add _ _ w
  · rcases star_spec hn hf with ⟨u, hu, hsize, hstart, hfinals, hedges⟩
    have hlanguage : u.language = n.language∗ := language_star hn hf hstart hfinals hedges
    refine ⟨u, hu, wellFormed_star hn hsize hstart hfinals hedges,
      sealed_star hn hsize hstart hfinals hedges hf, fun w => ?_⟩
    rw [hlanguage]
    exact Language.mem_kstar

/-- The first automaton starts at its last state, which an edge leads back into, and an edge leaves
its final state.  The second one has a single state, which is both. -/
theorem union_star_of_any_shape_loops :
    let n : Nfa := ⟨2, .singleton 0, #[Row.addSymbol {} 'b' 2, {}, Row.addSymbol {} 'a' 0]⟩
    let m : Nfa := ⟨0, .singleton 0, #[Row.addSymbol {} 'c' 0]⟩
    (n.WellFormed ∧ m.WellFormed ∧ (∃! q, q ∈ n.finals) ∧ ∃! q, q ∈ m.finals) ∧
    (∃ u, n.union m = .ok u ∧ ∀ w, w ∈ u.language ↔ w ∈ n.language ∨ w ∈ m.language) ∧
    ∃ u, n.star = .ok u ∧ ∀ w, w ∈ u.language ↔
      ∃ words : List (List Char), w = words.flatten ∧ ∀ x ∈ words, x ∈ n.language := by
  intro n m
  have hn : n.WellFormed := by decide
  have hm : m.WellFormed := by decide
  have hf : ∃! q, q ∈ n.finals := StateSet.existsUnique_mem_iff.mpr ⟨0, rfl⟩
  have hg : ∃! q, q ∈ m.finals := StateSet.existsUnique_mem_iff.mpr ⟨0, rfl⟩
  rcases union_star_of_any_shape hn hm hf hg with
    ⟨⟨u, hu, -, -, hunion⟩, ⟨v, hv, -, -, hstar⟩⟩
  exact ⟨⟨hn, hm, hf, hg⟩, ⟨u, hu, hunion⟩, ⟨v, hv, hstar⟩⟩

end Nfa

end MaximalMunch
