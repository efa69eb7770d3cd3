import Mathlib.Logic.Relation
import MaximalMunch.Proofs.Nfa.Worklist

/-!
# What a closure is

The closure of a set is what chains of edges that read nothing lead to from it, however these edges
run into each other, and it is the smallest set around the given one that no such edge leaves.  From
either description it follows how closures of different sets are related.
`epsilonClosure_is_smallest_closed` says so of the function and of the work list that it stands for.
-/

namespace MaximalMunch.Nfa

open Relation (ReflTransGen)

variable {n : Nfa} {states other : StateSet} {p q i : Nat} {w : List Char}

/-- One edge that reads nothing. -/
def SilentEdge (n : Nfa) (p q : Nat) : Prop := q ∈ (n.row p).epsilon

/-- The smallest set that contains the given one and that no edge leaves that reads nothing. -/
structure SmallestClosed (n : Nfa) (states around : StateSet) : Prop where
  contains : ∀ q ∈ states, q ∈ around
  closed : ∀ p ∈ around, ∀ q, n.SilentEdge p q → q ∈ around
  smallest : ∀ other : Set Nat, (∀ q ∈ states, q ∈ other) →
    (∀ p ∈ other, ∀ q, n.SilentEdge p q → q ∈ other) → ∀ q ∈ around, q ∈ other

theorem Path.reflTransGen (hpath : n.Path p w q) (hw : w = []) :
    ReflTransGen n.SilentEdge p q := by
  induction hpath with
  | refl => exact .refl
  | @step p q r o w hedge _ ih =>
      obtain ⟨ho, hw⟩ := List.append_eq_nil_iff.mp hw
      rw [Option.toList_eq_nil_iff.mp ho] at hedge
      exact .head hedge (ih hw)

/-- A path that spells nothing is a chain of edges that read nothing. -/
theorem path_nil_iff : n.Path p [] q ↔ ReflTransGen n.SilentEdge p q := by
  constructor
  · intro hpath
    exact hpath.reflTransGen rfl
  · intro hchain
    induction hchain using ReflTransGen.head_induction_on with
    | refl => exact .refl q
    | head hedge _ ih => exact .epsilon hedge ih

theorem mem_closure_iff_reflTransGen (hn : n.WellFormed) :
    i ∈ n.closure states ↔ ∃ q ∈ states, ReflTransGen n.SilentEdge q i := by
  simp only [mem_closure hn, path_nil_iff]

/-- What a chain leads to from inside of a closed set is inside. -/
theorem mem_of_reflTransGen {inside : Set Nat}
    (hclosed : ∀ p ∈ inside, ∀ q, n.SilentEdge p q → q ∈ inside)
    (hchain : ReflTransGen n.SilentEdge p q) (hp : p ∈ inside) : q ∈ inside := by
  induction hchain with
  | refl => exact hp
  | tail _ hedge ih => exact hclosed _ ih _ hedge

theorem smallestClosed_closure (hn : n.WellFormed) (states : StateSet) :
    n.SmallestClosed states (n.closure states) where
  contains := by
    intro q hq
    exact subset_closeFrom hq
  closed := by
    intro p hp q hedge
    exact closure_closed hn hp hedge
  smallest := by
    intro other hstates hclosed i hi
    obtain ⟨q, hq, hchain⟩ := (mem_closure_iff_reflTransGen hn).mp hi
    exact mem_of_reflTransGen hclosed hchain (hstates q hq)

/-- There is only one smallest closed set. -/
theorem SmallestClosed.unique {around around' : StateSet} (h : n.SmallestClosed states around)
    (h' : n.SmallestClosed states around') : around = around' := by
  apply StateSet.ext
  intro i
  constructor
  · exact h.smallest {i | i ∈ around'} h'.contains h'.closed i
  · exact h'.smallest {i | i ∈ around} h.contains h.closed i

theorem closure_closure (hn : n.WellFormed) (states : StateSet) :
    n.closure (n.closure states) = n.closure states := by
  apply (smallestClosed_closure hn (n.closure states)).unique
  exact {
    contains := fun q hq => hq
    closed := (smallestClosed_closure hn states).closed
    smallest := fun other hstates _ => hstates }

theorem closure_mono (hn : n.WellFormed) (h : ∀ q ∈ states, q ∈ other) :
    ∀ i ∈ n.closure states, i ∈ n.closure other := by
  have hother := smallestClosed_closure hn other
  apply (smallestClosed_closure hn states).smallest {i | i ∈ n.closure other} _ hother.closed
  intro q hq
  exact hother.contains q (h q hq)

theorem closure_union (hn : n.WellFormed) (states other : StateSet) :
    n.closure (states ∪ other) = n.closure states ∪ n.closure other := by
  apply StateSet.ext
  intro i
  rw [StateSet.mem_union]
  simp only [mem_closure_iff_reflTransGen hn, StateSet.mem_union, or_and_right, exists_or]

theorem epsilonClosure_eq {names : List Nat} (hnames : ∀ q, q ∈ names ↔ q ∈ states)
    (hstates : ∀ q ∈ states, q < n.size) : n.epsilonClosure names = .ok (n.closure states) := by
  have hlist : StateSet.ofList names = states := by
    apply StateSet.ext
    intro q
    rw [StateSet.mem_ofList, hnames]
  rw [epsilonClosure, checked_eq fun q hq => hstates q ((hnames q).mp hq), hlist]
  rfl

/-- However a set of states is named, its closure is returned, the work list ends with it, and only
with it.  It is what chains of edges that read nothing lead to, and the smallest closed set around
the given one; so the closure of a closure is that closure, larger sets have larger closures, and
the closure of a union is the union of the closures. -/
theorem epsilonClosure_is_smallest_closed (hn : n.WellFormed) (hstates : ∀ q ∈ states, q < n.size) :
    (∀ names, (∀ q, q ∈ names ↔ q ∈ states) →
      n.epsilonClosure names = .ok (n.closure states)) ∧
    (∀ found, n.WorksOff (states, states.toList.reverse) found ↔ found = n.closure states) ∧
    (∀ i, i ∈ n.closure states ↔ ∃ q ∈ states, ReflTransGen n.SilentEdge q i) ∧
    n.SmallestClosed states (n.closure states) ∧
    n.epsilonClosure (n.closure states).toList = .ok (n.closure states) ∧
    (∀ other, (∀ q ∈ states, q ∈ other) → ∀ i ∈ n.closure states, i ∈ n.closure other) ∧
    ∀ other, n.closure (states ∪ other) = n.closure states ∪ n.closure other := by
  refine ⟨fun names hnames => epsilonClosure_eq hnames hstates, fun found => ?_,
    fun i => mem_closure_iff_reflTransGen hn, smallestClosed_closure hn states, ?_,
    fun other => closure_mono hn, closure_union hn states⟩
  · have hworks := worksOff_closure hn hstates
    constructor
    · intro hfound
      exact hfound.unique hworks
    · intro heq
      rwa [heq]
  · rw [epsilonClosure_eq (fun q => StateSet.mem_toList) (closure_lt hn hstates),
      closure_closure hn states]

/-- Two states lead to each other without reading, and the second one also to itself; the third one
is reached from there, and does not lead back. -/
theorem epsilonClosure_is_smallest_closed_loops :
    let n : Nfa := ⟨0, .singleton 2, #[Row.addEpsilon {} 1,
      ((Row.addEpsilon {} 0).addEpsilon 1).addEpsilon 2, Row.addSymbol {} 'a' 0]⟩
    n.WellFormed ∧ (∀ q ∈ StateSet.singleton 0, q < n.size) ∧
      n.epsilonClosure [0] = .ok (n.closure (.singleton 0)) ∧
      n.closure (.singleton 0) = .ofList [0, 1, 2] ∧
      n.WorksOff (.singleton 0, [0]) (.ofList [0, 1, 2]) ∧
      n.closure (.singleton 2) = .singleton 2 := by
  intro n
  have hn : n.WellFormed := by decide
  have hlt : ∀ q ∈ StateSet.singleton 0, q < n.size := by
    intro q hq
    rw [StateSet.mem_singleton.mp hq]
    decide
  have hfirst : n.closure (.singleton 0) = .ofList [0, 1, 2] := by decide +kernel
  have hlast : n.closure (.singleton 2) = .singleton 2 := by decide +kernel
  obtain ⟨hcall, hworks, -⟩ := epsilonClosure_is_smallest_closed hn hlt
  have hlist : (StateSet.singleton 0).toList.reverse = [0] := by decide +kernel
  have hend := (hworks _).mpr rfl
  rw [hlist, hfirst] at hend
  exact ⟨hn, hlt, hcall [0] (by simp), hfirst, hend, hlast⟩

end MaximalMunch.Nfa
