import MaximalMunch.Proofs.Nfa.Compose

/-!
# Assembling automata edge by edge

An automaton is determined by its size, its start, its final states and its edges, unless a row
lists a character without a target (`ext_edges`).  So it can be put together by adding its edges one
after the other, each of them with a check that its ends are states.  `assembleConcat`,
`assembleUnion` and `assembleStar` compose automata in this way; they have the same results as the
compositions that are given by rows, which shows that none of their checks ever fails.
-/

namespace MaximalMunch.Nfa

variable {n m u v : Nfa} {p q f g k : Nat} {o : Option Char}

/-! ## Automata with the same edges -/

/-- No character is listed without a target. -/
def Row.Tidy (row : Row) : Prop :=
  ∀ c targets, row.symbols.get? c = some targets → ∃ q, q ∈ targets

/-- No state has an entry for a character without a target. -/
def Tidy (n : Nfa) : Prop := ∀ p, (n.row p).Tidy

namespace Row

variable {row other : Row}

theorem Tidy.get?_eq (hrow : row.Tidy) (c : Char) :
    row.symbols.get? c = if row.targets c = ∅ then none else some (row.targets c) := by
  rw [targets]
  cases hget : row.symbols.get? c with
  | none => rw [Option.getD_none, if_pos rfl]
  | some targets =>
      rcases hrow c targets hget with ⟨q, hq⟩
      rw [Option.getD_some, if_neg (StateSet.ne_empty_of_mem hq)]

/-- Tidy rows are determined by their edges. -/
theorem Tidy.ext_on (hrow : row.Tidy) (hother : other.Tidy)
    (hedges : ∀ o q, q ∈ row.on o ↔ q ∈ other.on o) : row = other := by
  have hepsilon : row.epsilon = other.epsilon := StateSet.ext (hedges none)
  have hsymbols : row.symbols = other.symbols := by
    apply SymbolMap.ext_get?
    intro c
    have htargets : row.targets c = other.targets c := StateSet.ext (hedges (some c))
    rw [hrow.get?_eq, hother.get?_eq, htargets]
  calc row = ⟨row.symbols, row.epsilon⟩ := rfl
    _ = other := by rw [hepsilon, hsymbols]

theorem tidy_empty : ({} : Row).Tidy := by
  intro c targets hget
  cases hget

theorem Tidy.addEpsilon (hrow : row.Tidy) (q : Nat) : (row.addEpsilon q).Tidy := hrow

theorem Tidy.addSymbol (hrow : row.Tidy) (c : Char) (q : Nat) : (row.addSymbol c q).Tidy := by
  intro d targets hget
  rw [Row.addSymbol, SymbolMap.get?_insertWith] at hget
  split at hget
  · refine ⟨q, ?_⟩
    rw [← Option.some.inj hget]
    cases row.symbols.get? c <;> simp
  · exact hrow d targets hget

theorem Tidy.union (hrow : row.Tidy) (hother : other.Tidy) : (row ∪ other).Tidy := by
  intro c targets hget
  have hget : (SymbolMap.mergeWith (· ∪ ·) row.symbols other.symbols).get? c = some targets := hget
  rw [SymbolMap.get?_mergeWith] at hget
  cases hfirst : row.symbols.get? c with
  | none =>
      rw [hfirst] at hget
      exact hother c targets hget
  | some first =>
      rw [hfirst] at hget
      rcases hrow c first hfirst with ⟨q, hq⟩
      refine ⟨q, ?_⟩
      rw [← Option.some.inj hget]
      cases other.symbols.get? c with
      | none => exact hq
      | some second => exact StateSet.mem_union.mpr (.inl hq)

theorem Tidy.shift (hrow : row.Tidy) (offset : Nat) : (row.shift offset).Tidy := by
  intro c targets hget
  rw [Row.shift, SymbolMap.get?_map, Option.map_eq_some_iff] at hget
  rcases hget with ⟨first, hfirst, rfl⟩
  rcases hrow c first hfirst with ⟨q, hq⟩
  refine ⟨q + offset, StateSet.mem_shift.mpr ⟨Nat.le_add_left offset q, ?_⟩⟩
  rwa [Nat.add_sub_cancel]

theorem Tidy.ite {c : Prop} [Decidable c] (hrow : row.Tidy) (hother : other.Tidy) :
    (if c then row else other).Tidy := by
  split
  · exact hrow
  · exact hother

end Row

theorem tidy_of_rows (h : ∀ (p : Nat) (row : Row), n.rows[p]? = some row → row.Tidy) :
    n.Tidy := by
  intro p
  cases hp : n.rows[p]? with
  | some row =>
      rw [row_eq hp]
      exact h p row hp
  | none =>
      rw [Nfa.row, Array.getD_eq_getD_getElem?, hp]
      exact Row.tidy_empty

theorem tidy_tabulate {states start final : Nat} {row : Nat → Row} (hrow : ∀ q, (row q).Tidy) :
    (tabulate states start final row).Tidy := by
  apply tidy_of_rows
  intro p given hp
  rcases Array.getElem?_eq_some_iff.mp hp with ⟨hlt, hget⟩
  simp only [tabulate, Array.getElem_ofFn] at hget
  rw [← hget]
  exact hrow p

theorem Tidy.shiftedRow (hn : n.Tidy) (offset q : Nat) : (n.shiftedRow offset q).Tidy :=
  Row.Tidy.ite ((hn _).shift offset) Row.tidy_empty

/-- Tidy automata are determined by size, start, final states and edges. -/
theorem Tidy.ext_edges (hn : n.Tidy) (hm : m.Tidy) (hsize : n.size = m.size)
    (hstart : n.start = m.start) (hfinals : n.finals = m.finals)
    (hedges : ∀ p o q, q ∈ (n.row p).on o ↔ q ∈ (m.row p).on o) : n = m := by
  have hrows : n.rows = m.rows := by
    apply Array.ext hsize
    intro p hp hp'
    have hrow : n.row p = m.row p := (hn p).ext_on (hm p) (hedges p)
    rwa [row_eq (Array.getElem?_eq_getElem hp), row_eq (Array.getElem?_eq_getElem hp')] at hrow
  calc n = ⟨n.start, n.finals, n.rows⟩ := rfl
    _ = m := by rw [hstart, hfinals, hrows]

/-! ## Edges one after the other -/

/-- An edge between two states, with the character it carries, if any. -/
structure Transition where
  source : Nat
  label : Option Char
  target : Nat

/-- The edge between the states with numbers raised by an offset. -/
def Transition.shift (e : Transition) (offset : Nat) : Transition :=
  ⟨e.source + offset, e.label, e.target + offset⟩

/-- The edges, first those with a character and then those without. -/
def edges (n : Nfa) : List Transition :=
  ((List.range n.size).flatMap fun p => (n.row p).symbols.entries.flatMap fun e =>
    e.2.toList.map fun q => ⟨p, some e.1, q⟩) ++
  (List.range n.size).flatMap fun p => (n.row p).epsilon.toList.map fun q => ⟨p, none, q⟩

theorem mem_edges : ⟨p, o, q⟩ ∈ n.edges ↔ q ∈ (n.row p).on o := by
  have htargets {c : Char} : (∃ targets, (c, targets) ∈ (n.row p).symbols.entries ∧ q ∈ targets) ↔
      q ∈ (n.row p).targets c := by
    simp only [SymbolMap.mem_entries_iff, Row.targets]
    cases (n.row p).symbols.get? c <;> simp
  constructor
  · intro hedge
    rw [edges, List.mem_append] at hedge
    simp only [List.mem_flatMap, List.mem_map, List.mem_range, StateSet.mem_toList,
      Transition.mk.injEq] at hedge
    rcases hedge with ⟨p', -, ⟨c, targets⟩, hentry, q', hq, rfl, rfl, rfl⟩ |
      ⟨p', -, q', hq, rfl, rfl, rfl⟩
    · exact htargets.mp ⟨targets, hentry, hq⟩
    · exact hq
  · intro hedge
    have hp : p < n.size := source_lt hedge
    rw [edges, List.mem_append]
    simp only [List.mem_flatMap, List.mem_map, List.mem_range, StateSet.mem_toList,
      Transition.mk.injEq]
    cases o with
    | none => exact .inr ⟨p, hp, q, hedge, rfl, rfl, rfl⟩
    | some c =>
        rcases htargets.mpr hedge with ⟨targets, hentry, hq⟩
        exact .inl ⟨p, hp, (c, targets), hentry, q, hq, rfl, rfl, rfl⟩

theorem mem_shift_edges {offset : Nat} : ⟨p, o, q⟩ ∈ n.edges.map (·.shift offset) ↔
    ∃ p' q', q' ∈ (n.row p').on o ∧ p = p' + offset ∧ q = q' + offset := by
  rw [List.mem_map]
  constructor
  · rintro ⟨⟨p', o', q'⟩, hedge, heq⟩
    rw [Transition.shift, Transition.mk.injEq] at heq
    rcases heq with ⟨rfl, rfl, rfl⟩
    exact ⟨p', q', mem_edges.mp hedge, rfl, rfl⟩
  · rintro ⟨p', q', hedge, rfl, rfl⟩
    exact ⟨⟨p', o, q'⟩, mem_edges.mpr hedge, rfl⟩

/-- Adds one edge. -/
def addEdge (n : Nfa) (e : Transition) : Except Error Nfa :=
  match e.label with
  | none => n.addEpsilonTransition e.source e.target
  | some c => n.addTransition e.source c e.target

/-- Adds one edge after the other. -/
def addEdges (n : Nfa) (edges : List Transition) : Except Error Nfa := edges.foldlM addEdge n

/-- An automaton with some more edges than another one, and the same otherwise. -/
structure Adds (n : Nfa) (edges : List Transition) (u : Nfa) : Prop where
  size_eq : u.size = n.size
  start_eq : u.start = n.start
  finals_eq : u.finals = n.finals
  mem_on : ∀ p o q, q ∈ (u.row p).on o ↔ q ∈ (n.row p).on o ∨ ⟨p, o, q⟩ ∈ edges
  tidy : n.Tidy → u.Tidy

theorem Adds.refl (n : Nfa) : n.Adds [] n where
  size_eq := rfl
  start_eq := rfl
  finals_eq := rfl
  mem_on := by simp
  tidy := id

theorem Adds.trans {first second : List Transition} (hu : n.Adds first u) (hv : u.Adds second v) :
    n.Adds (first ++ second) v where
  size_eq := hv.size_eq.trans hu.size_eq
  start_eq := hv.start_eq.trans hu.start_eq
  finals_eq := hv.finals_eq.trans hu.finals_eq
  mem_on := by
    intro p o q
    rw [hv.mem_on, hu.mem_on, List.mem_append, or_assoc]
  tidy := fun hn => hv.tidy (hu.tidy hn)

theorem addBetween_eq_ok_iff {source target : Nat} {change : Row → Row} :
    n.addBetween source target change = .ok u ↔ (source < n.size ∧ target < n.size) ∧
      u = { n with rows := n.rows.modify source change } := by
  rw [addBetween]
  split
  · next hout =>
      constructor
      · intro h
        cases h
      · intro hin
        omega
  · next hin =>
      rw [Except.ok.injEq]
      constructor
      · intro h
        exact ⟨by omega, h.symm⟩
      · intro h
        exact h.2.symm

theorem row_modify {source : Nat} {change : Row → Row} (hsource : source < n.size) :
    ({ n with rows := n.rows.modify source change } : Nfa).row p =
      if p = source then change (n.row p) else n.row p := by
  simp only [Nfa.row, Array.getD_eq_getD_getElem?, Array.getElem?_modify]
  by_cases hp : p = source
  · have hlt : p < n.rows.size := by
      rw [hp]
      exact hsource
    rw [if_pos hp.symm, if_pos hp, Array.getElem?_eq_getElem hlt, Option.map_some,
      Option.getD_some, Option.getD_some]
  · rw [if_neg (Ne.symm hp), if_neg hp]

theorem adds_of_change {e : Transition} {change : Row → Row} (hsource : e.source < n.size)
    (hon : ∀ row o q, q ∈ (change row).on o ↔ q ∈ row.on o ∨ o = e.label ∧ q = e.target)
    (htidy : ∀ row, row.Tidy → (change row).Tidy) :
    n.Adds [e] { n with rows := n.rows.modify e.source change } where
  size_eq := Array.size_modify
  start_eq := rfl
  finals_eq := rfl
  mem_on := by
    intro p o q
    have hedge : (⟨p, o, q⟩ : Transition) = e ↔ p = e.source ∧ o = e.label ∧ q = e.target := by
      rw [← Transition.mk.injEq]
    rw [row_modify hsource, List.mem_singleton, hedge]
    split
    · next hp => simp [hon, hp]
    · next hp => simp [hp]
  tidy := by
    intro hn p
    rw [row_modify hsource]
    split
    · exact htidy _ (hn p)
    · exact hn p

/-- An edge is added exactly if both of its ends are states. -/
theorem addEdge_ok_iff {e : Transition} :
    (∃ u, n.addEdge e = .ok u) ↔ e.source < n.size ∧ e.target < n.size := by
  rcases e with ⟨p, _ | c, q⟩
  · simp only [addEdge, addEpsilonTransition, addBetween_eq_ok_iff, exists_and_left, exists_eq,
      and_true]
  · simp only [addEdge, addTransition, addBetween_eq_ok_iff, exists_and_left, exists_eq, and_true]

theorem adds_of_addEdge {e : Transition} (hu : n.addEdge e = .ok u) : n.Adds [e] u := by
  rcases e with ⟨p, _ | c, q⟩
  · rcases addBetween_eq_ok_iff.mp hu with ⟨⟨hp, -⟩, rfl⟩
    exact adds_of_change (e := ⟨p, none, q⟩) hp (fun row o q => Row.mem_on_addEpsilon)
      fun row hrow => hrow.addEpsilon q
  · rcases addBetween_eq_ok_iff.mp hu with ⟨⟨hp, -⟩, rfl⟩
    exact adds_of_change (e := ⟨p, some c, q⟩) hp (fun row o q => Row.mem_on_addSymbol)
      fun row hrow => hrow.addSymbol c q

/-- Edges between states are added without fail. -/
theorem exists_addEdges (edges : List Transition)
    (hin : ∀ p o q, (⟨p, o, q⟩ : Transition) ∈ edges → p < n.size ∧ q < n.size) :
    ∃ u, n.addEdges edges = .ok u ∧ n.Adds edges u := by
  induction edges generalizing n with
  | nil => exact ⟨n, rfl, .refl n⟩
  | cons e rest ih =>
      rcases addEdge_ok_iff.mpr (hin e.source e.label e.target List.mem_cons_self) with ⟨v, hv⟩
      have hadds := adds_of_addEdge hv
      have hrest : ∀ p o q, (⟨p, o, q⟩ : Transition) ∈ rest → p < v.size ∧ q < v.size := by
        intro p o q hmem
        rw [hadds.size_eq]
        exact hin p o q (List.mem_cons_of_mem e hmem)
      rcases ih hrest with ⟨u, hu, hgrown⟩
      refine ⟨u, ?_, hadds.trans hgrown⟩
      rw [addEdges, List.foldlM_cons, hv]
      exact hu

/-- An automaton without edges. -/
def bare (states start : Nat) (finals : StateSet) : Nfa :=
  ⟨start, finals, Array.replicate states {}⟩

section Bare

variable {states start : Nat} {finals : StateSet}

theorem size_bare : (bare states start finals).size = states := Array.size_replicate

theorem row_bare : (bare states start finals).row p = {} := by
  rw [Nfa.row, bare, Array.getD_eq_getD_getElem?, Array.getElem?_replicate]
  split <;> rfl

theorem tidy_bare : (bare states start finals).Tidy := by
  intro p
  rw [row_bare]
  exact Row.tidy_empty

theorem mem_on_of_adds_bare {edges : List Transition}
    (hu : (bare states start finals).Adds edges u) : q ∈ (u.row p).on o ↔ ⟨p, o, q⟩ ∈ edges := by
  rw [hu.mem_on, row_bare]
  simp

theorem eq_of_adds_bare {edges : List Transition} (hv : (bare states start finals).Adds edges v)
    (hu : u.Tidy) (hsize : u.size = states) (hstart : u.start = start) (hfinals : u.finals = finals)
    (hedges : ∀ p o q, (⟨p, o, q⟩ : Transition) ∈ edges ↔ q ∈ (u.row p).on o) : v = u := by
  apply (hv.tidy tidy_bare).ext_edges hu
  · rw [hv.size_eq, size_bare, hsize]
  · rw [hv.start_eq, hstart]
    rfl
  · rw [hv.finals_eq, hfinals]
    rfl
  · intro p o q
    rw [mem_on_of_adds_bare hv, hedges]

end Bare

/-- An automaton is made anew exactly if its start and its final states are states. -/
theorem new_eq_ok_iff {states start : Nat} {finals : List Nat} :
    Nfa.new states start finals = .ok u ↔ (start < states ∧ ∀ q ∈ finals, q < states) ∧
      u = bare states start (.ofList finals) := by
  rw [Nfa.new]
  split
  · next hstart =>
      constructor
      · intro h
        cases h
      · intro h
        omega
  · next hstart =>
      split
      · next q hmin =>
          have hq := List.mem_filter.mp (List.min?_mem hmin)
          have hout : states ≤ q := of_decide_eq_true hq.2
          constructor
          · intro h
            cases h
          · intro h
            have hlt := h.1.2 q hq.1
            omega
      · next hmin =>
          have hnone := List.filter_eq_nil_iff.mp (List.min?_eq_none_iff.mp hmin)
          have hin : ∀ q ∈ finals, q < states := by
            intro q hq
            have hle := hnone q hq
            simpa using hle
          rw [Except.ok.injEq]
          constructor
          · intro h
            exact ⟨⟨by omega, hin⟩, h.symm⟩
          · intro h
            exact h.2.symm

/-- Every well-formed and tidy automaton is what its edges make of a new one. -/
theorem addEdges_edges (hn : n.WellFormed) (htidy : n.Tidy) :
    (do (← Nfa.new n.size n.start n.finals.toList).addEdges n.edges) = .ok n := by
  have hfinals : ∀ q ∈ n.finals.toList, q < n.size :=
    fun q hq => hn.finals_lt q (StateSet.mem_toList.mp hq)
  have hin : ∀ p o q, (⟨p, o, q⟩ : Transition) ∈ n.edges →
      p < (bare n.size n.start (.ofList n.finals.toList)).size ∧
        q < (bare n.size n.start (.ofList n.finals.toList)).size := by
    intro p o q hmem
    have hedge := mem_edges.mp hmem
    rw [size_bare]
    exact ⟨source_lt hedge, hn.target_lt hedge⟩
  rcases exists_addEdges _ hin with ⟨u, hu, hadds⟩
  have hfinal : n.finals = .ofList n.finals.toList := by
    apply StateSet.ext
    simp
  have heq : u = n := eq_of_adds_bare hadds htidy rfl rfl hfinal fun p o q => mem_edges
  rw [new_eq_ok_iff.mpr ⟨⟨hn.start_lt, hfinals⟩, rfl⟩, ok_bind, hu, heq]

/-! ## Composing edge by edge -/

/-- Only an automaton with exactly one final state is composed. -/
theorem finalState_eq_ok_iff : n.finalState = .ok f ↔ n.finals = .singleton f := by
  constructor
  · intro h
    have hlist : n.finals.toList = [f] := by
      rw [finalState] at h
      split at h
      · next q hq => rw [hq, Except.ok.inj h]
      · cases h
    apply StateSet.ext
    intro q
    rw [← StateSet.mem_toList, hlist, List.mem_singleton, StateSet.mem_singleton]
  · exact finalState_eq

/-- An automaton without edges that begins at its first state and ends at its last. -/
def blank (states : Nat) : Nfa := bare states 0 (.singleton (states - 1))

/-- An automaton with more states behind its own. -/
def extend (n : Nfa) (states : Nat) : Nfa := { n with rows := n.rows ++ Array.replicate states {} }

theorem size_extend : (n.extend k).size = n.size + k := by
  simp [extend, size]

theorem row_extend : (n.extend k).row p = n.row p := by
  simp only [Nfa.row, extend, Array.getD_eq_getD_getElem?, Array.getElem?_append,
    Array.getElem?_replicate]
  split
  · rfl
  · next hlt =>
      rw [Array.getElem?_eq_none (Nat.le_of_not_lt hlt)]
      split <;> rfl

/-- The edges of the second automaton of a concatenation, with those out of its start moved to the
final state of the first. -/
def seamEdge (n m : Nfa) (final : Nat) (e : Transition) : Transition where
  source := if e.source = m.start then final else e.source + (n.size - 1)
  label := e.label
  target := e.target + (n.size - 1)

/-- Concatenation: the second automaton is added to the first edge by edge. -/
def assembleConcat (n m : Nfa) : Except Error Nfa := do
  let final ← n.finalState
  let otherFinal ← m.finalState
  let joined ← (n.extend (m.size - 1)).addEdges (m.edges.map (seamEdge n m final))
  return { joined with finals := .singleton (otherFinal + (n.size - 1)) }

/-- Union: both automata and the edges around them are added edge by edge. -/
def assembleUnion (n m : Nfa) : Except Error Nfa := do
  let final ← n.finalState
  let otherFinal ← m.finalState
  let offset := n.size + 1
  let empty := blank (n.size + m.size + 2)
  let last ← empty.finalState
  let left ← empty.addEdges (n.edges.map (·.shift 1))
  let both ← left.addEdges (m.edges.map (·.shift offset))
  both.addEdges [⟨0, none, n.start + 1⟩, ⟨0, none, m.start + offset⟩, ⟨final + 1, none, last⟩,
    ⟨otherFinal + offset, none, last⟩]

/-- Closure: the automaton and the edges around it are added edge by edge. -/
def assembleStar (n : Nfa) : Except Error Nfa := do
  let final ← n.finalState
  let empty := blank (n.size + 2)
  let last ← empty.finalState
  let inner ← empty.addEdges (n.edges.map (·.shift 1))
  inner.addEdges [⟨0, none, n.start + 1⟩, ⟨0, none, last⟩, ⟨final + 1, none, n.start + 1⟩,
    ⟨final + 1, none, last⟩]

theorem tidy_literal (c : Char) : (literal c).Tidy :=
  tidy_tabulate fun _ => Row.Tidy.ite (Row.tidy_empty.addSymbol c 1) Row.tidy_empty

theorem tidy_epsilon : epsilon.Tidy :=
  tidy_tabulate fun _ => Row.Tidy.ite (Row.tidy_empty.addEpsilon 1) Row.tidy_empty

theorem Tidy.union (hn : n.Tidy) (hm : m.Tidy) (hu : n.union m = .ok u) : u.Tidy := by
  rw [Nfa.union, bind_eq_ok] at hu
  rcases hu with ⟨f, -, hu⟩
  rcases bind_eq_ok.mp hu with ⟨g, -, hu⟩
  rw [← Except.ok.inj hu]
  apply tidy_tabulate
  intro q
  have henter : ((Row.addEpsilon {} (n.start + 1)).addEpsilon (m.start + (n.size + 1))).Tidy :=
    (Row.tidy_empty.addEpsilon _).addEpsilon _
  exact (((hn.shiftedRow 1 q).union (hm.shiftedRow _ q)).union
    (henter.ite Row.tidy_empty)).union ((Row.tidy_empty.addEpsilon _).ite Row.tidy_empty)

theorem Tidy.star (hn : n.Tidy) (hu : n.star = .ok u) : u.Tidy := by
  rw [Nfa.star, bind_eq_ok] at hu
  rcases hu with ⟨f, -, hu⟩
  rw [← Except.ok.inj hu]
  apply tidy_tabulate
  intro q
  have henter : ((Row.addEpsilon {} (n.start + 1)).addEpsilon (n.size + 1)).Tidy :=
    (Row.tidy_empty.addEpsilon _).addEpsilon _
  exact (hn.shiftedRow 1 q).union (henter.ite Row.tidy_empty)

theorem Tidy.concat (hn : n.Tidy) (hm : m.Tidy) (hu : n.concat m = .ok u) : u.Tidy := by
  rw [Nfa.concat, bind_eq_ok] at hu
  rcases hu with ⟨f, -, hu⟩
  rcases bind_eq_ok.mp hu with ⟨g, -, hu⟩
  rw [← Except.ok.inj hu]
  apply tidy_tabulate
  intro q
  exact ((hn q).union (Row.tidy_empty.ite (hm.shiftedRow _ q))).union
    (((hm _).shift _).ite Row.tidy_empty)

/-- All edges of an automaton find room behind an offset. -/
theorem exists_addEdges_shift (offset : Nat) (hn : n.WellFormed)
    (hroom : n.size + offset ≤ v.size) :
    ∃ u, v.addEdges (n.edges.map (·.shift offset)) = .ok u ∧
      v.Adds (n.edges.map (·.shift offset)) u := by
  apply exists_addEdges _
  intro p o q hmem
  rcases mem_shift_edges.mp hmem with ⟨p', q', hedge, rfl, rfl⟩
  have hsource := source_lt hedge
  have htarget := hn.target_lt hedge
  omega

theorem assembleUnion_eq_union (hn : n.WellFormed) (hm : m.WellFormed) (htidyN : n.Tidy)
    (htidyM : m.Tidy) : n.assembleUnion m = n.union m := by
  rw [assembleUnion]
  cases hf : n.finalState with
  | error e =>
      rw [union, hf]
      rfl
  | ok f => ?_
  cases hg : m.finalState with
  | error e =>
      rw [union, hf, hg]
      rfl
  | ok g => ?_
  have hfinalsN := finalState_eq_ok_iff.mp hf
  have hfinalsM := finalState_eq_ok_iff.mp hg
  have hfinal : f < n.size := hn.finals_lt f (by simp [hfinalsN])
  have hother : g < m.size := hm.finals_lt g (by simp [hfinalsM])
  have hstartN := hn.start_lt
  have hstartM := hm.start_lt
  have hblank : (blank (n.size + m.size + 2)).size = n.size + m.size + 2 := size_bare
  rcases union_spec hn hm hfinalsN hfinalsM with ⟨u, hu, hsize, hstart, hfinals, hedges⟩
  rcases exists_addEdges_shift 1 hn (v := blank (n.size + m.size + 2)) (by omega) with
    ⟨left, hleft, haddsLeft⟩
  have hsizeLeft := haddsLeft.size_eq
  rcases exists_addEdges_shift (n.size + 1) hm (v := left) (by omega) with
    ⟨both, hboth, haddsBoth⟩
  have hsizeBoth := haddsBoth.size_eq
  rcases exists_addEdges (n := both) [⟨0, none, n.start + 1⟩,
    ⟨0, none, m.start + (n.size + 1)⟩, ⟨f + 1, none, n.size + m.size + 1⟩,
    ⟨g + (n.size + 1), none, n.size + m.size + 1⟩] (by simp; omega) with ⟨v, hv, hadds⟩
  have hall := (haddsLeft.trans haddsBoth).trans hadds
  have heq : v = u := by
    apply eq_of_adds_bare hall (htidyN.union htidyM hu) hsize hstart hfinals
    intro p o q
    rw [hedges]
    simp only [List.mem_append, mem_shift_edges, List.mem_cons, List.not_mem_nil, or_false,
      Transition.mk.injEq]
    constructor
    · rintro ((⟨p', q', hedge, hp, hq⟩ | ⟨p', q', hedge, hp, hq⟩) | ⟨hp, ho, hq⟩ | ⟨hp, ho, hq⟩ |
        ⟨hp, ho, hq⟩ | ⟨hp, ho, hq⟩)
      · exact .left hedge hp hq
      · exact .right hedge hp hq
      · exact .enterLeft hp ho hq
      · exact .enterRight hp ho hq
      · exact .leaveLeft hp ho hq
      · exact .leaveRight hp ho hq
    · rintro (⟨hedge, hp, hq⟩ | ⟨hedge, hp, hq⟩ | ⟨hp, ho, hq⟩ | ⟨hp, ho, hq⟩ |
        ⟨hp, ho, hq⟩ | ⟨hp, ho, hq⟩)
      · exact .inl (.inl ⟨_, _, hedge, hp, hq⟩)
      · exact .inl (.inr ⟨_, _, hedge, hp, hq⟩)
      · exact .inr (.inl ⟨hp, ho, hq⟩)
      · exact .inr (.inr (.inl ⟨hp, ho, hq⟩))
      · exact .inr (.inr (.inr (.inl ⟨hp, ho, hq⟩)))
      · exact .inr (.inr (.inr (.inr ⟨hp, ho, hq⟩)))
  have hlast : (blank (n.size + m.size + 2)).finalState = .ok (n.size + m.size + 1) :=
    finalState_eq rfl
  simp only [ok_bind, hlast, hleft, hboth]
  rw [hv, hu, heq]

theorem assembleStar_eq_star (hn : n.WellFormed) (htidy : n.Tidy) : n.assembleStar = n.star := by
  rw [assembleStar]
  cases hf : n.finalState with
  | error e =>
      rw [star, hf]
      rfl
  | ok f => ?_
  have hfinalsN := finalState_eq_ok_iff.mp hf
  have hfinal : f < n.size := hn.finals_lt f (by simp [hfinalsN])
  have hstartN := hn.start_lt
  have hblank : (blank (n.size + 2)).size = n.size + 2 := size_bare
  rcases star_spec hn hfinalsN with ⟨u, hu, hsize, hstart, hfinals, hedges⟩
  rcases exists_addEdges_shift 1 hn (v := blank (n.size + 2)) (by omega) with
    ⟨inner, hinner, haddsInner⟩
  have hsizeInner := haddsInner.size_eq
  rcases exists_addEdges (n := inner) [⟨0, none, n.start + 1⟩, ⟨0, none, n.size + 1⟩,
    ⟨f + 1, none, n.start + 1⟩, ⟨f + 1, none, n.size + 1⟩] (by simp; omega) with ⟨v, hv, hadds⟩
  have hall := haddsInner.trans hadds
  have heq : v = u := by
    apply eq_of_adds_bare hall (htidy.star hu) hsize hstart hfinals
    intro p o q
    rw [hedges]
    simp only [List.mem_append, mem_shift_edges, List.mem_cons, List.not_mem_nil, or_false,
      Transition.mk.injEq]
    constructor
    · rintro (⟨p', q', hedge, hp, hq⟩ | ⟨hp, ho, hq⟩ | ⟨hp, ho, hq⟩ | ⟨hp, ho, hq⟩ | ⟨hp, ho, hq⟩)
      · exact .inner hedge hp hq
      · exact .enter hp ho hq
      · exact .skip hp ho hq
      · exact .repeats hp ho hq
      · exact .leave hp ho hq
    · rintro (⟨hedge, hp, hq⟩ | ⟨hp, ho, hq⟩ | ⟨hp, ho, hq⟩ | ⟨hp, ho, hq⟩ | ⟨hp, ho, hq⟩)
      · exact .inl ⟨_, _, hedge, hp, hq⟩
      · exact .inr (.inl ⟨hp, ho, hq⟩)
      · exact .inr (.inr (.inl ⟨hp, ho, hq⟩))
      · exact .inr (.inr (.inr (.inl ⟨hp, ho, hq⟩)))
      · exact .inr (.inr (.inr (.inr ⟨hp, ho, hq⟩)))
  have hlast : (blank (n.size + 2)).finalState = .ok (n.size + 1) := finalState_eq rfl
  simp only [ok_bind, hlast, hinner]
  rw [hv, hu, heq]

theorem mem_map_seamEdge : ⟨p, o, q⟩ ∈ m.edges.map (seamEdge n m f) ↔
    ∃ p' q', q' ∈ (m.row p').on o ∧ p = (if p' = m.start then f else p' + (n.size - 1)) ∧
      q = q' + (n.size - 1) := by
  rw [List.mem_map]
  constructor
  · rintro ⟨⟨p', o', q'⟩, hedge, heq⟩
    rw [seamEdge, Transition.mk.injEq] at heq
    rcases heq with ⟨rfl, rfl, rfl⟩
    exact ⟨p', q', mem_edges.mp hedge, rfl, rfl⟩
  · rintro ⟨p', q', hedge, rfl, rfl⟩
    exact ⟨⟨p', o, q'⟩, mem_edges.mpr hedge, rfl⟩

theorem assembleConcat_eq_concat (hn : n.WellFormed) (hm : m.WellFormed) (htidyN : n.Tidy)
    (htidyM : m.Tidy) : n.assembleConcat m = n.concat m := by
  rw [assembleConcat]
  cases hf : n.finalState with
  | error e =>
      rw [concat, hf]
      rfl
  | ok f => ?_
  cases hg : m.finalState with
  | error e =>
      rw [concat, hf, hg]
      rfl
  | ok g => ?_
  have hfinalsN := finalState_eq_ok_iff.mp hf
  have hfinalsM := finalState_eq_ok_iff.mp hg
  have hfinal : f < n.size := hn.finals_lt f (by simp [hfinalsN])
  have hextend : (n.extend (m.size - 1)).size = n.size + (m.size - 1) := size_extend
  have hin : ∀ p o q, (⟨p, o, q⟩ : Transition) ∈ m.edges.map (seamEdge n m f) →
      p < (n.extend (m.size - 1)).size ∧ q < (n.extend (m.size - 1)).size := by
    intro p o q hmem
    rcases mem_map_seamEdge.mp hmem with ⟨p', q', hedge, hp, rfl⟩
    have hsource := source_lt hedge
    have htarget := hm.target_lt hedge
    have hstart := hn.start_lt
    split at hp <;> omega
  rcases concat_spec hn hm hfinalsN hfinalsM with ⟨u, hu, hsize, hstart, hfinals, hedges⟩
  rcases exists_addEdges _ hin with ⟨joined, hjoined, hadds⟩
  have htidy : (n.extend (m.size - 1)).Tidy := by
    intro p
    rw [row_extend]
    exact htidyN p
  have heq : { joined with finals := .singleton (g + (n.size - 1)) } = u := by
    have htidyJoined := hadds.tidy htidy
    apply Tidy.ext_edges (n := { joined with finals := .singleton (g + (n.size - 1)) }) htidyJoined
      (htidyN.concat htidyM hu)
    · exact hadds.size_eq.trans (hextend.trans hsize.symm)
    · exact hadds.start_eq.trans hstart.symm
    · exact hfinals.symm
    · intro p o q
      rw [hedges]
      have hjoined : q ∈ (joined.row p).on o ↔ q ∈ (n.row p).on o ∨
          ⟨p, o, q⟩ ∈ m.edges.map (seamEdge n m f) := by
        rw [hadds.mem_on, row_extend]
      apply hjoined.trans
      rw [mem_map_seamEdge]
      constructor
      · rintro (hedge | ⟨p', q', hedge, hp, hq⟩)
        · exact .first hedge
        · by_cases hentry : p' = m.start
          · rw [if_pos hentry] at hp
            rw [hentry] at hedge
            exact .seam hedge hp hq
          · rw [if_neg hentry] at hp
            exact .second hedge hentry hp hq
      · rintro (hedge | ⟨hedge, hne, hp, hq⟩ | ⟨hedge, hp, hq⟩)
        · exact .inl hedge
        · exact .inr ⟨_, _, hedge, by rw [if_neg hne, hp], hq⟩
        · exact .inr ⟨_, _, hedge, by rw [if_pos rfl, hp], hq⟩
  simp only [ok_bind, hjoined]
  rw [hu, ← heq]
  rfl

end MaximalMunch.Nfa
