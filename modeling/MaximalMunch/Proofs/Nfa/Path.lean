import Mathlib.Computability.Language
import MaximalMunch.Nfa.Basic

/-!
# Paths of a nondeterministic automaton

An edge carries a character or nothing, so the edges of a state are one set of targets for each
`Option Char`.  A path spells the characters on its edges.  The main statements are
`mem_closure`, by which the closure of a set is what empty paths reach from it, and `mem_reached`,
by which stepping from set to set along a word is following all paths that spell it at once.
-/

namespace MaximalMunch

theorem StateSet.mem_foldl_union {f : Nat → StateSet} {i : Nat} (states : List Nat)
    (found : StateSet) :
    i ∈ states.foldl (fun found q => found ∪ f q) found ↔ i ∈ found ∨ ∃ q ∈ states, i ∈ f q := by
  induction states generalizing found with
  | nil => simp
  | cons q states ih =>
      rw [List.foldl_cons, ih, StateSet.mem_union]
      simp [or_assoc]

theorem StateSet.ne_empty_of_mem {s : StateSet} {i : Nat} (hi : i ∈ s) : s ≠ ∅ := by
  intro hempty
  rw [hempty] at hi
  exact not_mem_empty i hi

/-- A set has no element from `k` on exactly if its mask is one of the first `2 ^ k`. -/
theorem StateSet.forall_mem_lt_iff {s : StateSet} {k : Nat} :
    (∀ q ∈ s, q < k) ↔ s.mask < 2 ^ k := by
  constructor
  · intro hlt
    apply Nat.lt_pow_two_of_testBit
    intro i hi
    by_contra hbit
    rw [Bool.not_eq_false] at hbit
    have hik : i < k := hlt i hbit
    omega
  · intro hmask q hq
    by_contra hk
    have hpow : 2 ^ k ≤ 2 ^ q := Nat.pow_le_pow_right (by omega) (Nat.le_of_not_lt hk)
    have hbit : s.mask.testBit q = false := Nat.testBit_lt_two_pow (by omega)
    rw [StateSet.mem_def, hbit] at hq
    contradiction

namespace Nfa

/-! ## Edges -/

namespace Row

/-- The targets of the edges that carry the given character, or nothing. -/
def on (row : Row) : Option Char → StateSet
  | none => row.epsilon
  | some c => row.targets c

@[simp] theorem on_none (row : Row) : row.on none = row.epsilon := rfl

@[simp] theorem on_some (row : Row) (c : Char) : row.on (some c) = row.targets c := rfl

@[simp] theorem not_mem_on_empty (o : Option Char) (q : Nat) : q ∉ ({} : Row).on o := by
  cases o with
  | none => exact StateSet.not_mem_empty q
  | some c => exact StateSet.not_mem_empty q

@[simp] theorem mem_on_addEpsilon {row : Row} {o : Option Char} {q target : Nat} :
    q ∈ (row.addEpsilon target).on o ↔ q ∈ row.on o ∨ o = none ∧ q = target := by
  cases o with
  | none => simp [addEpsilon]
  | some c => simp [addEpsilon, targets]

@[simp] theorem mem_on_addSymbol {row : Row} {o : Option Char} {c : Char} {q target : Nat} :
    q ∈ (row.addSymbol c target).on o ↔ q ∈ row.on o ∨ o = some c ∧ q = target := by
  cases o with
  | none => simp [addSymbol]
  | some d =>
      simp only [on_some, targets, addSymbol, SymbolMap.get?_insertWith]
      by_cases hd : d = c
      · subst hd
        cases row.symbols.get? d <;> simp [or_comm]
      · simp [hd]

theorem mem_on_union {row other : Row} {o : Option Char} {q : Nat} :
    q ∈ (row ∪ other).on o ↔ q ∈ row.on o ∨ q ∈ other.on o := by
  cases o with
  | none => exact StateSet.mem_union
  | some c =>
      show q ∈ ((SymbolMap.mergeWith (· ∪ ·) row.symbols other.symbols).get? c).getD ∅ ↔
        q ∈ (row.symbols.get? c).getD ∅ ∨ q ∈ (other.symbols.get? c).getD ∅
      rw [SymbolMap.get?_mergeWith]
      cases row.symbols.get? c with
      | none => simp
      | some targets => cases other.symbols.get? c <;> simp

theorem mem_on_shift {row : Row} {o : Option Char} {offset q : Nat} :
    q ∈ (row.shift offset).on o ↔ offset ≤ q ∧ q - offset ∈ row.on o := by
  cases o with
  | none => exact StateSet.mem_shift
  | some c =>
      simp only [on_some, targets, shift, SymbolMap.get?_map]
      cases row.symbols.get? c <;> simp

end Row

/-- Every number that the automaton names is one of its states. -/
structure WellFormed (n : Nfa) : Prop where
  start_lt : n.start < n.size
  finals_lt : ∀ q ∈ n.finals, q < n.size
  target_lt : ∀ {p q o}, q ∈ (n.row p).on o → q < n.size

/-- Only states have edges. -/
theorem source_lt {n : Nfa} {p q : Nat} {o : Option Char} (hedge : q ∈ (n.row p).on o) :
    p < n.size := by
  by_contra hle
  have hrow : n.row p = {} := by
    simp only [row, Array.getD_eq_getD_getElem?]
    rw [Array.getElem?_eq_none (Nat.le_of_not_lt hle), Option.getD_none]
  rw [hrow] at hedge
  exact Row.not_mem_on_empty o q hedge

theorem row_eq {n : Nfa} {p : Nat} {row : Row} (hp : n.rows[p]? = some row) : n.row p = row := by
  rw [Nfa.row, Array.getD_eq_getD_getElem?, hp, Option.getD_some]

/-- The edges lead to states as soon as the entries of all rows do. -/
theorem target_lt_iff {n : Nfa} {k : Nat} :
    (∀ {p q o}, q ∈ (n.row p).on o → q < k) ↔ ∀ row ∈ n.rows.toList,
      row.epsilon.mask < 2 ^ k ∧ ∀ e ∈ row.symbols.entries, e.2.mask < 2 ^ k := by
  constructor
  · intro htarget row hrow
    obtain ⟨p, hp⟩ := Array.mem_iff_getElem?.mp (Array.mem_toList_iff.mp hrow)
    have hon {q o} (hq : q ∈ row.on o) : q < k := by
      rw [← row_eq hp] at hq
      exact htarget hq
    constructor
    · exact StateSet.forall_mem_lt_iff.mp fun q hq => hon (o := none) hq
    · intro e he
      have hget : row.targets e.1 = e.2 := by
        rw [Row.targets, SymbolMap.mem_entries_iff.mp he, Option.getD_some]
      apply StateSet.forall_mem_lt_iff.mp
      intro q hq
      rw [← hget] at hq
      exact hon (o := some e.1) hq
  · intro hrows p q o hedge
    have hlt : p < n.rows.size := source_lt hedge
    have hp : n.rows[p]? = some n.rows[p] := Array.getElem?_eq_getElem hlt
    rw [row_eq hp] at hedge
    have hrow := hrows _ (Array.mem_toList_iff.mpr (Array.mem_of_getElem? hp))
    cases o with
    | none => exact StateSet.forall_mem_lt_iff.mpr hrow.1 q hedge
    | some c =>
        rw [Row.on_some, Row.targets] at hedge
        cases hget : n.rows[p].symbols.get? c with
        | none =>
            rw [hget] at hedge
            exact absurd hedge (StateSet.not_mem_empty q)
        | some targets =>
            rw [hget] at hedge
            have hentry := hrow.2 _ (SymbolMap.mem_entries_iff.mpr hget)
            exact StateSet.forall_mem_lt_iff.mpr hentry q hedge

theorem wellFormed_iff {n : Nfa} :
    n.WellFormed ↔ n.start < n.size ∧ n.finals.mask < 2 ^ n.size ∧ ∀ row ∈ n.rows.toList,
      row.epsilon.mask < 2 ^ n.size ∧ ∀ e ∈ row.symbols.entries, e.2.mask < 2 ^ n.size := by
  rw [← target_lt_iff, ← StateSet.forall_mem_lt_iff]
  constructor
  · intro hn
    exact ⟨hn.start_lt, hn.finals_lt, hn.target_lt⟩
  · intro hn
    exact ⟨hn.1, hn.2.1, hn.2.2⟩

instance (n : Nfa) : Decidable n.WellFormed := decidable_of_iff _ wellFormed_iff.symm

/-! ## Paths -/

/-- A path from one state to another that spells a word. -/
inductive Path (n : Nfa) : Nat → List Char → Nat → Prop where
  | refl (p : Nat) : Path n p [] p
  | step {p q r : Nat} {o : Option Char} {w : List Char} (hedge : q ∈ (n.row p).on o)
      (hpath : Path n q w r) : Path n p (o.toList ++ w) r

/-- The words on the paths from the start to a final state. -/
def language (n : Nfa) : Language Char :=
  {w | ∃ q ∈ n.finals, n.Path n.start w q}

theorem mem_language {n : Nfa} {w : List Char} :
    w ∈ n.language ↔ ∃ q ∈ n.finals, n.Path n.start w q := Iff.rfl

namespace Path

variable {n m : Nfa} {p q r : Nat} {u v w : List Char}

theorem trans (hu : n.Path p u q) (hv : n.Path q v r) : n.Path p (u ++ v) r := by
  induction hu with
  | refl => exact hv
  | step hedge _ ih =>
      rw [List.append_assoc]
      exact step hedge (ih hv)

/-- A single edge that carries nothing. -/
theorem epsilon (hedge : q ∈ (n.row p).on none) (hpath : n.Path q w r) : n.Path p w r :=
  step hedge hpath

/-- A path can be cut wherever its word is cut. -/
theorem split (hpath : n.Path p w r) (hw : w = u ++ v) : ∃ q, n.Path p u q ∧ n.Path q v r := by
  induction hpath generalizing u with
  | refl p =>
      obtain ⟨rfl, rfl⟩ := List.append_eq_nil_iff.mp hw.symm
      exact ⟨p, refl p, refl p⟩
  | @step p p' r o w hedge hpath ih =>
      cases o with
      | none =>
          -- the edge spells nothing, so the cut lies behind it
          obtain ⟨q, hu, hv⟩ := ih hw
          exact ⟨q, epsilon hedge hu, hv⟩
      | some c =>
          cases u with
          | nil =>
              have hv : v = [c] ++ w := hw.symm
              rw [hv]
              exact ⟨p, refl p, step hedge hpath⟩
          | cons d u =>
              -- the edge takes the first character of the first part
              obtain ⟨rfl, hrest⟩ := List.cons.inj hw
              obtain ⟨q, hu, hv⟩ := ih hrest
              exact ⟨q, step hedge hu, hv⟩

/-- On a path that spells one character some edge carries it, between two empty paths. -/
theorem exists_edge {c : Char} (hpath : n.Path p w r) (hw : w = [c]) :
    ∃ q q', n.Path p [] q ∧ q' ∈ (n.row q).targets c ∧ n.Path q' [] r := by
  induction hpath with
  | refl => cases hw
  | @step p p' r o w hedge hpath ih =>
      cases o with
      | none =>
          obtain ⟨q, q', hq, hsymbol, hq'⟩ := ih hw
          exact ⟨q, q', epsilon hedge hq, hsymbol, hq'⟩
      | some d =>
          -- this is the edge, and nothing is left for the rest of the path
          obtain ⟨rfl, rfl⟩ := List.cons.inj hw
          exact ⟨p, p', refl p, hedge, hpath⟩

theorem snoc_iff {c : Char} :
    n.Path p (w ++ [c]) r ↔
      ∃ q q', n.Path p w q ∧ q' ∈ (n.row q).targets c ∧ n.Path q' [] r := by
  constructor
  · intro hpath
    -- the empty path in front of the last edge goes to the first part
    obtain ⟨q₀, hw, hc⟩ := hpath.split rfl
    obtain ⟨q, q', hq, hsymbol, hq'⟩ := hc.exists_edge rfl
    have hwq : n.Path p (w ++ []) q := hw.trans hq
    rw [List.append_nil] at hwq
    exact ⟨q, q', hwq, hsymbol, hq'⟩
  · rintro ⟨q, q', hw, hsymbol, hq'⟩
    have hc : n.Path q ((some c).toList ++ []) r := step hsymbol hq'
    exact hw.trans hc

theorem target_lt (hn : n.WellFormed) (hpath : n.Path p w r) (hp : p < n.size) : r < n.size := by
  induction hpath with
  | refl => exact hp
  | step hedge _ ih => exact ih (hn.target_lt hedge)

/-- A map of states that keeps all edges keeps all paths. -/
theorem map (f : Nat → Nat)
    (hedges : ∀ {p q o}, q ∈ (n.row p).on o → f q ∈ (m.row (f p)).on o)
    (hpath : n.Path p w r) : m.Path (f p) w (f r) := by
  induction hpath with
  | refl => exact refl _
  | step hedge _ ih => exact step (hedges hedge) ih

/-- A set that no edge without a character leaves contains what empty paths reach from it. -/
theorem mem_of_closed {s : StateSet} (hclosed : ∀ q ∈ s, ∀ r ∈ (n.row q).epsilon, r ∈ s)
    (hpath : n.Path p w r) (hw : w = []) (hp : p ∈ s) : r ∈ s := by
  induction hpath with
  | refl => exact hp
  | @step p q r o w hedge _ ih =>
      rcases List.append_eq_nil_iff.mp hw with ⟨ho, hw⟩
      rw [Option.toList_eq_nil_iff.mp ho] at hedge
      exact ih hw (hclosed p hp q hedge)

/-- A path from a state without edges goes nowhere. -/
theorem eq_of_no_edge (hnone : ∀ o q, q ∉ (n.row p).on o) (hpath : n.Path p w r) :
    w = [] ∧ r = p := by
  cases hpath with
  | refl => exact ⟨rfl, rfl⟩
  | step hedge _ => exact absurd hedge (hnone _ _)

end Path

/-! ## Sets of states -/

variable {n : Nfa}

theorem mem_epsilonTargets {states : StateSet} {i : Nat} :
    i ∈ n.epsilonTargets states ↔ ∃ q ∈ states, i ∈ (n.row q).epsilon := by
  simp [epsilonTargets, StateSet.mem_foldl_union]

@[simp] theorem mem_move {states : StateSet} {c : Char} {i : Nat} :
    i ∈ n.move states c ↔ ∃ q ∈ states, i ∈ (n.row q).targets c := by
  simp [move, StateSet.mem_foldl_union]

theorem subset_closeFrom {unseen frontier : StateSet} {i : Nat} (hi : i ∈ frontier) :
    i ∈ n.closeFrom unseen frontier := by
  rw [closeFrom]
  by_cases hempty : (unseen ∩ n.epsilonTargets frontier).isEmpty = true
  · rw [dif_pos hempty]
    exact hi
  · rw [dif_neg hempty]
    exact StateSet.mem_union.mpr (Or.inl hi)

/-- Every round adds only what an empty path reaches. -/
theorem exists_path_of_mem_closeFrom {unseen frontier : StateSet} {i : Nat}
    (hi : i ∈ n.closeFrom unseen frontier) : ∃ q ∈ frontier, n.Path q [] i := by
  fun_induction closeFrom n unseen frontier with
  | case1 unseen frontier => exact ⟨i, hi, .refl i⟩
  | case2 unseen frontier reached hne ih =>
      rcases StateSet.mem_union.mp hi with hi | hi
      · exact ⟨i, hi, .refl i⟩
      · obtain ⟨q', hq', hpath⟩ := ih hi
        obtain ⟨q, hq, hedge⟩ := mem_epsilonTargets.mp (StateSet.mem_inter.mp hq').2
        exact ⟨q, hq, .epsilon hedge hpath⟩

/-- The rounds together follow every edge that carries nothing, as long as it leads to a state
that had not been seen before the first of them. -/
theorem closeFrom_closed {unseen frontier : StateSet} {p q : Nat}
    (hp : p ∈ n.closeFrom unseen frontier) (hedge : q ∈ (n.row p).epsilon) (hq : q ∈ unseen) :
    q ∈ n.closeFrom unseen frontier := by
  fun_induction closeFrom n unseen frontier with
  | case1 unseen frontier reached hempty =>
      -- the last round finds nothing, and the edge would be something to find
      have hreached : q ∈ reached :=
        StateSet.mem_inter.mpr ⟨hq, mem_epsilonTargets.mpr ⟨p, hp, hedge⟩⟩
      rw [StateSet.isEmpty_iff.mp hempty] at hreached
      exact absurd hreached (StateSet.not_mem_empty q)
  | case2 unseen frontier reached hne ih =>
      apply StateSet.mem_union.mpr
      right
      -- a target that this round already found belongs to the next frontier
      by_cases hreached : q ∈ reached
      · exact subset_closeFrom hreached
      · rcases StateSet.mem_union.mp hp with hp | hp
        · exact absurd (StateSet.mem_inter.mpr ⟨hq, mem_epsilonTargets.mpr ⟨p, hp, hedge⟩⟩) hreached
        · exact ih hp (StateSet.mem_diff.mpr ⟨hq, hreached⟩)

theorem closure_closed (hn : n.WellFormed) {states : StateSet} {p q : Nat}
    (hp : p ∈ n.closure states) (hedge : q ∈ (n.row p).epsilon) : q ∈ n.closure states := by
  by_cases hq : q ∈ states
  · exact subset_closeFrom hq
  · have hlt : q < n.size := hn.target_lt (o := none) hedge
    exact closeFrom_closed hp hedge (StateSet.mem_diff.mpr ⟨StateSet.mem_below.mpr hlt, hq⟩)

theorem mem_closure (hn : n.WellFormed) {states : StateSet} {i : Nat} :
    i ∈ n.closure states ↔ ∃ q ∈ states, n.Path q [] i := by
  constructor
  · exact exists_path_of_mem_closeFrom
  · rintro ⟨q, hq, hpath⟩
    exact hpath.mem_of_closed (fun p hp r hr => closure_closed hn hp hr) rfl (subset_closeFrom hq)

/-- The states whose rows are looked up for a closure are its elements, and they have rows. -/
theorem closure_lt (hn : n.WellFormed) {states : StateSet} (hstates : ∀ q ∈ states, q < n.size) :
    ∀ q ∈ n.closure states, q < n.size := by
  intro q hq
  rcases (mem_closure hn).mp hq with ⟨p, hp, hpath⟩
  exact hpath.target_lt hn (hstates p hp)

/-- The states behind all paths from a set of states that spell one character. -/
def read (n : Nfa) (states : StateSet) (c : Char) : StateSet := n.closure (n.move states c)

/-- The states behind all paths from the start that spell a word. -/
def reached (n : Nfa) (w : List Char) : StateSet :=
  w.foldl n.read (n.closure (.singleton n.start))

theorem reached_nil (n : Nfa) : n.reached [] = n.closure (.singleton n.start) := rfl

theorem reached_snoc (n : Nfa) (w : List Char) (c : Char) :
    n.reached (w ++ [c]) = n.read (n.reached w) c := by
  simp [reached]

theorem mem_reached (hn : n.WellFormed) {w : List Char} {i : Nat} :
    i ∈ n.reached w ↔ n.Path n.start w i := by
  -- the sets are computed from the left, so the last character is the one to take off
  induction w using List.reverseRecOn generalizing i with
  | nil => simp [reached_nil, mem_closure hn]
  | append_singleton w c ih =>
      rw [reached_snoc, read, mem_closure hn, Path.snoc_iff]
      constructor
      · rintro ⟨q', hq', hpath⟩
        obtain ⟨q, hq, hsymbol⟩ := mem_move.mp hq'
        exact ⟨q, q', ih.mp hq, hsymbol, hpath⟩
      · rintro ⟨q, q', hq, hsymbol, hpath⟩
        exact ⟨q', mem_move.mpr ⟨q, ih.mpr hq, hsymbol⟩, hpath⟩

theorem reached_lt (hn : n.WellFormed) {w : List Char} {i : Nat} (hi : i ∈ n.reached w) :
    i < n.size :=
  ((mem_reached hn).mp hi).target_lt hn hn.start_lt

theorem reached_ne_empty_iff {w : List Char} : n.reached w ≠ ∅ ↔ ∃ q, q ∈ n.reached w := by
  constructor
  · intro hne
    exact StateSet.exists_mem_of_not_isEmpty fun hempty => hne (StateSet.isEmpty_iff.mp hempty)
  · rintro ⟨q, hq⟩
    exact StateSet.ne_empty_of_mem hq

end Nfa

end MaximalMunch
