import Mathlib.Data.Fintype.Perm
import Mathlib.Logic.Equiv.Fintype
import MaximalMunch.Proofs.Nfa.Path

/-!
# Renaming states

A permutation of the states of an automaton gives an automaton with other numbers and otherwise the
same edges.  Paths, and all sets of states that are computed from them, are renamed with the states.
-/

namespace MaximalMunch

/-! ## Sets under a permutation -/

/-- The set of the numbers that a permutation gives to the elements. -/
def StateSet.image (σ : Equiv.Perm Nat) (s : StateSet) : StateSet := .ofList (s.toList.map σ)

namespace StateSet

variable {σ : Equiv.Perm Nat} {s t : StateSet} {i : Nat}

@[simp] theorem mem_image : i ∈ s.image σ ↔ σ.symm i ∈ s := by
  simp only [image, mem_ofList, List.mem_map, mem_toList]
  constructor
  · rintro ⟨j, hj, rfl⟩
    rwa [σ.symm_apply_apply]
  · intro hi
    exact ⟨σ.symm i, hi, σ.apply_symm_apply i⟩

theorem image_singleton (σ : Equiv.Perm Nat) (i : Nat) :
    (singleton i).image σ = singleton (σ i) := by
  apply ext
  intro j
  rw [mem_image, mem_singleton, mem_singleton, σ.symm_apply_eq]

theorem image_injective (σ : Equiv.Perm Nat) : Function.Injective (image σ) := by
  intro s t hst
  apply ext
  intro i
  have hi : σ i ∈ s.image σ ↔ σ i ∈ t.image σ := by rw [hst]
  rwa [mem_image, mem_image, σ.symm_apply_apply] at hi

theorem image_empty (σ : Equiv.Perm Nat) : (∅ : StateSet).image σ = ∅ := by
  apply ext
  intro i
  simp

theorem isEmpty_image (σ : Equiv.Perm Nat) (s : StateSet) : (s.image σ).isEmpty = s.isEmpty := by
  rw [Bool.eq_iff_iff, isEmpty_iff, isEmpty_iff]
  constructor
  · intro hempty
    exact image_injective σ (hempty.trans (image_empty σ).symm)
  · rintro rfl
    exact image_empty σ

theorem meets_image (σ : Equiv.Perm Nat) (s t : StateSet) :
    (s.image σ).meets (t.image σ) = s.meets t := by
  have hinter : s.image σ ∩ t.image σ = (s ∩ t).image σ := by
    apply ext
    intro i
    simp
  rw [meets, meets, hinter, isEmpty_image]

end StateSet

/-! ## Renamed automata -/

namespace Nfa

/-- The edges of a state with their targets renamed. -/
def Row.rename (σ : Equiv.Perm Nat) (row : Row) : Row where
  symbols := row.symbols.map (·.image σ)
  epsilon := row.epsilon.image σ

/-- A permutation of the states of an automaton on all numbers. -/
def onStates {k : Nat} (σ : Equiv.Perm (Fin k)) : Equiv.Perm Nat :=
  σ.extendDomain Fin.equivSubtype

/-- The automaton in which every state `q` has the number `σ q`. -/
def rename (n : Nfa) (σ : Equiv.Perm (Fin n.size)) : Nfa where
  start := onStates σ n.start
  finals := n.finals.image (onStates σ)
  rows := Array.ofFn fun q : Fin n.size => (n.row ((onStates σ).symm q)).rename (onStates σ)

/-- The second automaton is the first one with renamed states. -/
structure Renames (σ : Equiv.Perm Nat) (n m : Nfa) : Prop where
  size_eq : m.size = n.size
  lt_iff : ∀ {q}, σ q < n.size ↔ q < n.size
  start_eq : m.start = σ n.start
  finals_eq : m.finals = n.finals.image σ
  mem_on : ∀ {p q o}, q ∈ (m.row p).on o ↔ σ.symm q ∈ (n.row (σ.symm p)).on o

theorem Row.mem_on_rename {σ : Equiv.Perm Nat} {row : Row} {o : Option Char} {q : Nat} :
    q ∈ (row.rename σ).on o ↔ σ.symm q ∈ row.on o := by
  cases o with
  | none => exact StateSet.mem_image
  | some c =>
      simp only [on_some, targets, rename, SymbolMap.get?_map]
      cases row.symbols.get? c <;> simp

theorem onStates_lt_iff {k : Nat} {σ : Equiv.Perm (Fin k)} {q : Nat} : onStates σ q < k ↔ q < k := by
  by_cases hq : q < k
  · rw [onStates, Equiv.Perm.extendDomain_apply_subtype σ Fin.equivSubtype hq]
    exact iff_of_true (Fin.is_lt _) hq
  · rw [onStates, Equiv.Perm.extendDomain_apply_not_subtype σ Fin.equivSubtype hq]

/-- The renamed automaton has a state for each of the states. -/
theorem renames_rename (n : Nfa) (σ : Equiv.Perm (Fin n.size)) :
    Renames (onStates σ) n (n.rename σ) where
  size_eq := Array.size_ofFn
  lt_iff := onStates_lt_iff
  start_eq := rfl
  finals_eq := rfl
  mem_on := by
    intro p q o
    by_cases hp : p < n.size
    · have hget : (n.rename σ).rows[p]? =
          some ((n.row ((onStates σ).symm p)).rename (onStates σ)) := by
        simp [rename, hp]
      rw [row_eq hget, Row.mem_on_rename]
    · -- a number that is no state is not renamed, and has no edges on either side
      have hsymm : ¬ (onStates σ).symm p < n.size := by
        rwa [← onStates_lt_iff (σ := σ), Equiv.apply_symm_apply]
      have hsize : (n.rename σ).size = n.size := Array.size_ofFn
      constructor
      · intro hedge
        have hlt := source_lt hedge
        omega
      · intro hedge
        exact absurd (source_lt hedge) hsymm

namespace Renames

variable {σ : Equiv.Perm Nat} {n m : Nfa} {p q : Nat} {w : List Char}

theorem wellFormed (h : Renames σ n m) (hn : n.WellFormed) : m.WellFormed where
  start_lt := by
    rw [h.start_eq, h.size_eq, h.lt_iff]
    exact hn.start_lt
  finals_lt := by
    intro q hq
    rw [h.finals_eq, StateSet.mem_image] at hq
    have hlt := h.lt_iff.mpr (hn.finals_lt _ hq)
    rwa [σ.apply_symm_apply, ← h.size_eq] at hlt
  target_lt := by
    intro p q o hedge
    have hlt := h.lt_iff.mpr (hn.target_lt (h.mem_on.mp hedge))
    rwa [σ.apply_symm_apply, ← h.size_eq] at hlt

theorem path_iff (h : Renames σ n m) : m.Path p w q ↔ n.Path (σ.symm p) w (σ.symm q) := by
  constructor
  · exact Path.map σ.symm h.mem_on.mp
  · intro hpath
    have hmap : m.Path (σ (σ.symm p)) w (σ (σ.symm q)) := by
      apply hpath.map σ
      intro p q o hedge
      rwa [h.mem_on, σ.symm_apply_apply, σ.symm_apply_apply]
    rwa [σ.apply_symm_apply, σ.apply_symm_apply] at hmap

variable {states : StateSet}

theorem closure_image (h : Renames σ n m) (hn : n.WellFormed) (states : StateSet) :
    m.closure (states.image σ) = (n.closure states).image σ := by
  apply StateSet.ext
  intro i
  rw [mem_closure (h.wellFormed hn), StateSet.mem_image, mem_closure hn]
  constructor
  · rintro ⟨q, hq, hpath⟩
    exact ⟨σ.symm q, StateSet.mem_image.mp hq, h.path_iff.mp hpath⟩
  · rintro ⟨q, hq, hpath⟩
    rw [← σ.symm_apply_apply q] at hq hpath
    exact ⟨σ q, StateSet.mem_image.mpr hq, h.path_iff.mpr hpath⟩

theorem move_image (h : Renames σ n m) (states : StateSet) (c : Char) :
    m.move (states.image σ) c = (n.move states c).image σ := by
  apply StateSet.ext
  intro i
  rw [mem_move, StateSet.mem_image, mem_move]
  constructor
  · rintro ⟨q, hq, hedge⟩
    exact ⟨σ.symm q, StateSet.mem_image.mp hq, h.mem_on (o := some c).mp hedge⟩
  · rintro ⟨q, hq, hedge⟩
    rw [← σ.symm_apply_apply q] at hq hedge
    exact ⟨σ q, StateSet.mem_image.mpr hq, h.mem_on (o := some c).mpr hedge⟩

theorem read_image (h : Renames σ n m) (hn : n.WellFormed) (states : StateSet) (c : Char) :
    m.read (states.image σ) c = (n.read states c).image σ := by
  rw [read, read, h.move_image, h.closure_image hn]

end Renames

end Nfa

end MaximalMunch
