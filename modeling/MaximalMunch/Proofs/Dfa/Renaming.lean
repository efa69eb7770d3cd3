import MaximalMunch.Proofs.Dfa.Assembly
import MaximalMunch.Proofs.Nfa.Renaming

/-!
# The numbers of an automaton do not show

The subset construction numbers sets in the order in which it finds them, and it finds them by
character and never by what is in them.  So the constructions for an automaton and for the same
automaton with renamed states stay in step: at any time the sets of the one are those of the other
renamed, at the same places, and the rows are the same.
-/

namespace MaximalMunch

namespace Subset

variable {σ : Equiv.Perm Nat} {n m : Nfa} {sets : Array StateSet} {row : SymbolMap Nat}

/-- A set and the renamed set are found at the same place. -/
theorem idxOf?_map_image (σ : Equiv.Perm Nat) (sets : Array StateSet) (states : StateSet) :
    (sets.map (·.image σ)).idxOf? (states.image σ) = sets.idxOf? states := by
  have hsame : (· == states.image σ) ∘ (·.image σ) = (· == states) := by
    funext other
    rw [Function.comp_apply, Bool.eq_iff_iff, beq_iff_eq, beq_iff_eq]
    exact (StateSet.image_injective σ).eq_iff
  obtain ⟨sets⟩ := sets
  rw [List.map_toArray, List.idxOf?_toArray, List.idxOf?_toArray]
  show (sets.map _).findIdx? _ = sets.findIdx? _
  rw [List.findIdx?_map, hsame]

theorem link_image (h : Nfa.Renames σ n m) (hn : n.WellFormed) (sets : Array StateSet)
    (row : SymbolMap Nat) (states : StateSet) (c : Char) :
    let linked := link (closures n) (sets, row) (c, n.move states c)
    link (closures m) (sets.map (·.image σ), row) (c, m.move (states.image σ) c) =
      (linked.1.map (·.image σ), linked.2) := by
  have hm : m.WellFormed := h.wellFormed hn
  have hclose : close (closures m) (m.move (states.image σ) c) =
      (n.closure (n.move states c)).image σ := by
    rw [close_closures hm fun q hq => Nfa.move_lt hm hq, h.move_image, h.closure_image hn]
  simp only [link, hclose, close_closures hn fun q hq => Nfa.move_lt hn hq,
    StateSet.isEmpty_image, idxOf?_map_image]
  by_cases hempty : (n.closure (n.move states c)).isEmpty = true
  · rw [if_pos hempty, if_pos hempty]
  · rw [if_neg hempty, if_neg hempty]
    cases sets.idxOf? (n.closure (n.move states c)) with
    | some id => rfl
    | none => simp

theorem linkAll_image (h : Nfa.Renames σ n m) (hn : n.WellFormed) (sets : Array StateSet)
    (row : SymbolMap Nat) (states : StateSet) (cs : List Char) :
    let linked := linkAll n states cs (sets, row)
    linkAll m (states.image σ) cs (sets.map (·.image σ), row) =
      (linked.1.map (·.image σ), linked.2) := by
  induction cs generalizing sets row with
  | nil => rfl
  | cons c cs ih =>
      have hlink := link_image h hn sets row states c
      simp only [linkAll, List.foldl_cons] at ih hlink ⊢
      rw [hlink]
      exact ih _ _

/-- The row of a renamed set is the row of the set. -/
theorem foldl_departures_image (h : Nfa.Renames σ n m) (hn : n.WellFormed) (states : StateSet) :
    let linked := (n.departures states).entries.foldl (link (closures n)) (sets, row)
    (m.departures (states.image σ)).entries.foldl (link (closures m)) (sets.map (·.image σ), row) =
      (linked.1.map (·.image σ), linked.2) := by
  -- all characters that lead on from the renamed set lead on from the set
  have hall : ∀ c, m.read (states.image σ) c ≠ ∅ → c ∈ n.alphabet := by
    intro c hread
    refine mem_alphabet_of_read_ne_empty hn (?_ : n.read states c ≠ ∅)
    intro hempty
    rw [h.read_image hn, hempty, StateSet.image_empty] at hread
    exact hread rfl
  have hlinked := linkAll_image h hn sets row states n.alphabet
  have hsorted : n.alphabet.Pairwise (· < ·) := SymbolMap.pairwise_symbols _
  rwa [linkAll_alphabet hn,
    linkAll_eq_foldl_departures (h.wellFormed hn) _ hsorted hall] at hlinked

/-- The table of the renamed automaton, as far as it goes with the same fuel. -/
theorem explore_image (h : Nfa.Renames σ n m) (hn : n.WellFormed) (fuel : Nat) (t : Table) :
    explore m (closures m) fuel ⟨t.sets.map (·.image σ), t.rows⟩ =
      ⟨(explore n (closures n) fuel t).sets.map (·.image σ), (explore n (closures n) fuel t).rows⟩ := by
  induction fuel generalizing t with
  | zero => rfl
  | succ fuel ih =>
      rw [explore, explore]
      simp only [Array.getElem?_map]
      cases t.sets[t.rows.size]? with
      | none => rfl
      | some states =>
          simp only [Option.map_some]
          rw [foldl_departures_image h hn]
          exact ih ⟨_, _⟩

theorem table_image (h : Nfa.Renames σ n m) (hn : n.WellFormed) :
    (table m).sets = (table n).sets.map (·.image σ) ∧ (table m).rows = (table n).rows := by
  have hm : m.WellFormed := h.wellFormed hn
  have hstart : m.closure (.singleton m.start) = (n.closure (.singleton n.start)).image σ := by
    rw [h.start_eq, ← StateSet.image_singleton, h.closure_image hn]
  have hexplore := explore_image h hn (2 ^ n.size) ⟨#[n.closure (.singleton n.start)], #[]⟩
  rw [table_eq hn, table_eq hm, h.size_eq, hstart, ← Array.map_singleton, hexplore]
  exact ⟨rfl, rfl⟩

end Subset

namespace Dfa

variable {σ : Equiv.Perm Nat} {n m : Nfa}

theorem ofNfa_eq_of_renames (h : Nfa.Renames σ n m) (hn : n.WellFormed) : ofNfa m = ofNfa n := by
  obtain ⟨hsets, hrows⟩ := Subset.table_image h hn
  -- a renamed set has a final state of the renamed automaton if the set has a final state
  have hmeets : ∀ id, ((Subset.table m).sets.getD id ∅).meets m.finals =
      ((Subset.table n).sets.getD id ∅).meets n.finals := by
    intro id
    rw [hsets, h.finals_eq, Array.getD_eq_getD_getElem?, Array.getD_eq_getD_getElem?,
      Array.getElem?_map]
    cases (Subset.table n).sets[id]? with
    | none =>
        simp only [Option.map_none, Option.getD_none]
        rw [← StateSet.image_empty σ, StateSet.meets_image, StateSet.image_empty]
    | some states => exact StateSet.meets_image σ states n.finals
  simp only [ofNfa, hmeets, hrows]
  rw [hsets, Array.size_map]

/-- The deterministic automaton does not depend on how the states of the nondeterministic one are
numbered: whatever permutation renames them, the conversion gives the same automaton, with the same
numbers. -/
theorem ofNfa_rename {n : Nfa} (hn : n.WellFormed) (σ : Equiv.Perm (Fin n.size)) :
    (n.rename σ).WellFormed ∧ ofNfa (n.rename σ) = ofNfa n :=
  ⟨(n.renames_rename σ).wellFormed hn, ofNfa_eq_of_renames (n.renames_rename σ) hn⟩

/-- The start and the last state change places, in a loop that reads nothing and with two states
behind the same character. -/
theorem ofNfa_rename_swapped :
    let n : Nfa := ⟨0, .ofList [3], #[(Nfa.Row.addSymbol {} 'a' 1).addSymbol 'a' 2,
      (Nfa.Row.addEpsilon {} 0).addSymbol 'b' 3, (Nfa.Row.addEpsilon {} 1).addEpsilon 2, {}]⟩
    let σ : Equiv.Perm (Fin n.size) := Equiv.swap ⟨0, by decide⟩ ⟨3, by decide⟩
    n.WellFormed ∧ (n.rename σ).start = 3 ∧ (n.rename σ).WellFormed ∧
      ofNfa (n.rename σ) = ofNfa n := by
  intro n σ
  have hn : n.WellFormed := by decide +kernel
  exact ⟨hn, by decide +kernel, ofNfa_rename hn σ⟩

end Dfa

end MaximalMunch
