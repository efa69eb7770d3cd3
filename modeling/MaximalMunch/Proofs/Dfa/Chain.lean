import MaximalMunch.Proofs.Dfa.Assembly
import MaximalMunch.Proofs.Nfa.OfExpr
import MaximalMunch.Proofs.Nfa.Seam

/-!
# Automata for one word

Concatenating the characters of a word one behind the other gives an automaton whose states count
the characters that have been read.  Nothing is read without a character, so the subset construction
finds each state alone in a set: from the set of state `p` it goes on to that of state `p + 1`, and
it finds them in this order.  Therefore the deterministic automaton is the same chain, with the same
numbers.
-/

namespace MaximalMunch

/-- The characters of a word, concatenated from the left. -/
def Expr.ofWord (first : Char) (rest : List Char) : Expr :=
  rest.foldl (fun e c => .concat e (.char c)) (.char first)

theorem Expr.ofWord_snoc (first : Char) (rest : List Char) (c : Char) :
    ofWord first (rest ++ [c]) = .concat (ofWord first rest) (.char c) := by
  unfold ofWord
  rw [List.foldl_append]
  rfl

/-! ## The nondeterministic chain -/

namespace Nfa

variable {n : Nfa} {word : List Char} {c first : Char} {p q : Nat} {o : Option Char}

/-- An automaton whose only edges lead from each place of a word to the next. -/
structure Chain (n : Nfa) (word : List Char) : Prop where
  size_eq : n.size = word.length + 1
  start_eq : n.start = 0
  finals_eq : n.finals = .singleton word.length
  edge_iff : ∀ p o q, q ∈ (n.row p).on o ↔ ∃ c, o = some c ∧ word[p]? = some c ∧ q = p + 1

theorem chain_literal (c : Char) : (literal c).Chain [c] where
  size_eq := size_tabulate
  start_eq := rfl
  finals_eq := rfl
  edge_iff := by
    intro p o q
    rw [mem_on_literal]
    cases p with
    | zero => simp
    | succ p => simp

theorem Chain.wellFormed (h : n.Chain word) : n.WellFormed where
  start_lt := by
    rw [h.start_eq, h.size_eq]
    exact Nat.succ_pos _
  finals_lt := by
    intro q hq
    rw [h.finals_eq, StateSet.mem_singleton] at hq
    rw [hq, h.size_eq]
    exact Nat.lt_succ_self _
  target_lt := by
    intro p q o hedge
    obtain ⟨c, -, hc, rfl⟩ := (h.edge_iff p o q).mp hedge
    have hlt : p < word.length := (List.getElem?_eq_some_iff.mp hc).1
    rw [h.size_eq]
    omega

/-- One more character at the end of a chain. -/
theorem Chain.exists_concat (h : n.Chain word) (c : Char) :
    ∃ u, n.concat (literal c) = .ok u ∧ u.Chain (word ++ [c]) := by
  have hliteral := chain_literal c
  obtain ⟨u, hu, hsize, hstart, hfinals, hedges⟩ :=
    concat_spec h.wellFormed hliteral.wellFormed h.finals_eq hliteral.finals_eq
  have hn : n.size - 1 = word.length := by
    rw [h.size_eq, Nat.add_sub_cancel]
  rw [hn, Nat.add_comm] at hfinals
  have hlast : (word ++ [c])[word.length]? = some c := List.getElem?_concat_length
  refine ⟨u, hu, ?_, hstart.trans h.start_eq, ?_, ?_⟩
  · rw [hsize, h.size_eq, hliteral.size_eq, List.length_append]
    rfl
  · rw [hfinals, List.length_append]
  · intro p o q
    rw [hedges]
    constructor
    · intro hedge
      cases hedge with
      | first hedge =>
          obtain ⟨d, ho, hd, hq⟩ := (h.edge_iff p o q).mp hedge
          have hlt : p < word.length := (List.getElem?_eq_some_iff.mp hd).1
          rw [List.getElem?_append_left hlt]
          exact ⟨d, ho, hd, hq⟩
      | second hedge hne => exact absurd (mem_on_literal.mp hedge).1 hne
      | seam hedge hp hq =>
          -- the only edge of the second automaton leaves the end of the first
          obtain ⟨-, ho, hone⟩ := mem_on_literal.mp hedge
          rw [hp]
          exact ⟨c, ho, hlast, by omega⟩
    · intro hedge
      obtain ⟨d, ho, hd, hq⟩ := hedge
      by_cases hlt : p < word.length
      · rw [List.getElem?_append_left hlt] at hd
        exact .first ((h.edge_iff p o q).mpr ⟨d, ho, hd, hq⟩)
      · have hle : p < (word ++ [c]).length := (List.getElem?_eq_some_iff.mp hd).1
        rw [List.length_append, List.length_singleton] at hle
        have hp : p = word.length := by omega
        rw [hp, hlast] at hd
        have hedge : 1 ∈ ((literal c).row (literal c).start).on o :=
          mem_on_literal.mpr ⟨rfl, ho.trans hd.symm, rfl⟩
        exact .seam hedge hp (by omega)

theorem exists_chain_ofWord (first : Char) (rest : List Char) :
    ∃ n, ofExpr (.ofWord first rest) = .ok n ∧ n.Chain (first :: rest) := by
  induction rest using List.reverseRecOn with
  | nil => exact ⟨_, rfl, chain_literal first⟩
  | append_singleton rest c ih =>
      obtain ⟨n, hn, hchain⟩ := ih
      obtain ⟨u, hu, hlonger⟩ := hchain.exists_concat c
      refine ⟨u, ?_, hlonger⟩
      rw [Expr.ofWord_snoc, ofExpr, hn]
      exact hu

theorem Chain.not_mem_on_none (h : n.Chain word) (p q : Nat) : q ∉ (n.row p).on none := by
  intro hedge
  obtain ⟨c, hc, -⟩ := (h.edge_iff p none q).mp hedge
  cases hc

theorem Chain.closure_eq (h : n.Chain word) (states : StateSet) : n.closure states = states := by
  apply StateSet.ext
  intro q
  rw [mem_closure h.wellFormed]
  constructor
  · intro hq
    obtain ⟨p, hp, hpath⟩ := hq
    rwa [← hpath.eq_of_no_epsilon rfl h.not_mem_on_none]
  · exact fun hq => ⟨q, hq, .refl q⟩

theorem Chain.read_eq (h : n.Chain word) (p : Nat) (c : Char) :
    n.read (.singleton p) c = if word[p]? = some c then .singleton (p + 1) else ∅ := by
  rw [read, h.closure_eq]
  apply StateSet.ext
  intro q
  have hedge : q ∈ (n.row p).targets c ↔ word[p]? = some c ∧ q = p + 1 := by
    rw [← Row.on_some, h.edge_iff]
    simp
  rw [mem_move]
  simp only [StateSet.mem_singleton, exists_eq_left, hedge]
  by_cases hc : word[p]? = some c
  · rw [if_pos hc, StateSet.mem_singleton]
    exact and_iff_right hc
  · rw [if_neg hc]
    exact iff_of_false (fun hq => hc hq.1) (StateSet.not_mem_empty q)

end Nfa

/-! ## The deterministic chain -/

namespace Dfa

variable {word : List Char} {p q : Nat} {c : Char}

/-- The transition at a place of a word, which there is unless the word ends. -/
def chainRow (word : List Char) (p : Nat) : SymbolMap Nat :=
  match word[p]? with
  | some c => (∅ : SymbolMap Nat).insert c (p + 1)
  | none => ∅

/-- The automaton that counts the characters of a word. -/
def chain (word : List Char) : Dfa where
  start := 0
  finals := .singleton word.length
  rows := Array.ofFn fun p : Fin (word.length + 1) => chainRow word p

theorem size_chain : (chain word).size = word.length + 1 :=
  Array.size_ofFn

theorem isFinal_chain : (chain word).isFinal q = true ↔ q = word.length := by
  unfold isFinal chain
  rw [decide_eq_true_eq, StateSet.mem_singleton]

theorem get?_chainRow : (chainRow word p).get? c = some q ↔ word[p]? = some c ∧ q = p + 1 := by
  unfold chainRow
  cases word[p]? with
  | none => simp
  | some d =>
      simp only [SymbolMap.get?_insert, SymbolMap.get?_empty, Option.some.injEq]
      split
      · next hc => simp [hc, eq_comm]
      · next hc => simp [Ne.symm hc]

theorem next?_chain : (chain word).next? p c = some q ↔ word[p]? = some c ∧ q = p + 1 := by
  rw [← get?_chainRow]
  by_cases hp : p < word.length + 1
  · have hrow : (chain word).row p = chainRow word p :=
      row_eq (by simp [chain, hp])
    rw [next?, hrow]
  · have hnone : word[p]? = none := List.getElem?_eq_none (by omega)
    constructor
    · intro hnext
      have hlt := source_lt hnext
      rw [size_chain] at hlt
      exact absurd hlt hp
    · intro hnext
      rw [get?_chainRow, hnone] at hnext
      cases hnext.1

/-- A run is alive as long as it has read a beginning of the word, and then it counts what it has
read. -/
theorem after_chain {w : List Char} :
    (chain word).after w = some q ↔ q = w.length ∧ w = word.take q := by
  induction w using List.reverseRecOn generalizing q with
  | nil =>
      show some 0 = some q ↔ q = 0 ∧ [] = word.take q
      rw [Option.some.injEq, eq_comm, iff_self_and]
      intro hq
      rw [hq, List.take_zero]
  | append_singleton w c ih =>
      rw [after_snoc, Option.bind_eq_some_iff, List.length_append]
      simp only [ih, next?_chain]
      constructor
      · intro hafter
        obtain ⟨p, ⟨hp, hw⟩, hc, hq⟩ := hafter
        refine ⟨by rw [hq, hp]; rfl, ?_⟩
        rw [hq, List.take_add_one, hc, ← hw]
        rfl
      · intro hw
        obtain ⟨hq, hw⟩ := hw
        rw [hq, List.length_singleton] at hw
        have hfront : w = word.take w.length := by
          have htake := congrArg (List.take w.length) hw
          rwa [List.take_left, List.take_take, Nat.min_eq_left (Nat.le_succ _)] at htake
        have hc : word[w.length]? = some c := by
          calc word[w.length]? = (word.take (w.length + 1))[w.length]? :=
              (List.getElem?_take_of_lt (Nat.lt_succ_self _)).symm
            _ = (w ++ [c])[w.length]? := by rw [← hw]
            _ = some c := List.getElem?_concat_length
        exact ⟨w.length, ⟨rfl, hfront⟩, hc, hq⟩

/-- A chain accepts its word and nothing else. -/
theorem language_chain : (chain word).language = {word} := by
  ext w
  rw [mem_language]
  constructor
  · intro hw
    obtain ⟨q, hq, hfinal⟩ := hw
    have hword := (after_chain.mp hq).2
    rwa [isFinal_chain.mp hfinal, List.take_length] at hword
  · intro hw
    obtain rfl : w = word := hw
    exact ⟨w.length, after_chain.mpr ⟨rfl, List.take_length.symm⟩, isFinal_chain.mpr rfl⟩

end Dfa

/-! ## The subset construction of a chain -/

namespace Subset

variable {n : Nfa} {word : List Char} {p k fuel : Nat} {c : Char}

/-- The sets with one of the first states each. -/
def chainSets (k : Nat) : Array StateSet :=
  Array.ofFn fun p : Fin k => .singleton p

theorem chainSets_succ (k : Nat) : chainSets (k + 1) = (chainSets k).push (.singleton k) :=
  Array.ofFn_succ

theorem size_chainSets (k : Nat) : (chainSets k).size = k :=
  Array.size_ofFn

theorem singleton_not_mem_chainSets (k : Nat) : .singleton k ∉ chainSets k := by
  intro hmem
  obtain ⟨p, hp⟩ := Array.mem_ofFn.mp hmem
  have hk : k ∈ StateSet.singleton p := by
    rw [hp, StateSet.mem_singleton]
  rw [StateSet.mem_singleton] at hk
  exact absurd p.isLt (by omega)

theorem getElem?_chainSets (hp : p < k) : (chainSets k)[p]? = some (.singleton p) := by
  simp [chainSets, hp]

/-- Where the construction stands when the first rows of a chain are finished. -/
def chainTable (word : List Char) (k : Nat) : Table where
  sets := chainSets (min k word.length + 1)
  rows := Array.ofFn fun p : Fin k => Dfa.chainRow word p

theorem size_rows_chainTable : (chainTable word k).rows.size = k :=
  Array.size_ofFn

/-- The next state of a chain has not been found before. -/
theorem link_chain (h : n.Chain word) (hc : word[p]? = some c) :
    link (closures n) (chainSets (p + 1), ∅) (c, n.move (.singleton p) c) =
      (chainSets (p + 2), (∅ : SymbolMap Nat).insert c (p + 1)) := by
  have htarget : close (closures n) (n.move (.singleton p) c) = .singleton (p + 1) := by
    rw [close_closures h.wellFormed fun q hq => Nfa.move_lt h.wellFormed hq, ← Nfa.read,
      h.read_eq, if_pos hc]
  have hnonempty : ¬ (StateSet.singleton (p + 1)).isEmpty = true := by
    rw [StateSet.isEmpty_iff]
    exact StateSet.ne_empty_of_mem (StateSet.mem_singleton.mpr rfl)
  have hnew : (chainSets (p + 1)).idxOf? (.singleton (p + 1)) = none :=
    Array.idxOf?_eq_none_iff.mpr (singleton_not_mem_chainSets (p + 1))
  simp only [link, htarget, hnew, if_neg hnonempty, size_chainSets]
  rw [← chainSets_succ]

/-- The row of a state gives its successor the next number. -/
theorem foldl_departures_chain (h : n.Chain word) (hp : p ≤ word.length) :
    (n.departures (.singleton p)).entries.foldl (link (closures n)) (chainSets (p + 1), ∅) =
      (chainSets (min (p + 1) word.length + 1), Dfa.chainRow word p) := by
  have hall : ∀ c, n.read (.singleton p) c ≠ ∅ → c ∈ (word[p]?).toList := by
    intro c hread
    rw [h.read_eq] at hread
    rw [Option.mem_toList]
    by_contra hc
    exact hread (if_neg hc)
  have hsorted : (word[p]?).toList.Pairwise (· < ·) := by
    cases word[p]? with
    | none => exact .nil
    | some c => exact List.pairwise_singleton _ _
  rw [← linkAll_eq_foldl_departures h.wellFormed _ hsorted hall, Dfa.chainRow]
  cases hc : word[p]? with
  | none =>
      -- the word ends here, so this is the last set
      have hend : word.length ≤ p := List.getElem?_eq_none_iff.mp hc
      rw [Nat.min_eq_right (by omega), Nat.le_antisymm hp hend]
      rfl
  | some c =>
      have hlt : p < word.length := (List.getElem?_eq_some_iff.mp hc).1
      rw [Nat.min_eq_left (by omega)]
      exact link_chain h hc

theorem explore_chain (h : n.Chain word) (hk : k ≤ word.length + 1)
    (hfuel : word.length + 1 ≤ fuel + k) :
    explore n (closures n) fuel (chainTable word k) = chainTable word (word.length + 1) := by
  -- the fuel lasts for the rows that are still to come, one turn for each
  induction fuel generalizing k with
  | zero =>
      have hall : k = word.length + 1 := by omega
      rw [explore, hall]
  | succ fuel ih =>
      rw [explore, size_rows_chainTable]
      by_cases hlast : k = word.length + 1
      · have hnone : (chainTable word k).sets[k]? = none := by
          rw [Array.getElem?_eq_none_iff]
          show (chainSets (min k word.length + 1)).size ≤ k
          rw [size_chainSets]
          omega
        rw [hnone, hlast]
      · have hle : k ≤ word.length := by omega
        have hsets : (chainTable word k).sets = chainSets (k + 1) := by
          rw [chainTable, Nat.min_eq_left hle]
        have hrows : (chainTable word k).rows.push (Dfa.chainRow word k) =
            (chainTable word (k + 1)).rows := by
          unfold chainTable
          rw [Array.ofFn_succ]
          rfl
        rw [hsets, getElem?_chainSets (Nat.lt_succ_self k)]
        simp only [foldl_departures_chain h hle, hrows]
        exact ih (by omega) (by omega)

theorem table_chain (h : n.Chain word) : table n = chainTable word (word.length + 1) := by
  have hzero : (⟨#[.singleton 0], #[]⟩ : Table) = chainTable word 0 := by
    unfold chainTable
    rw [Nat.zero_min, chainSets_succ]
    rfl
  have hfuel : word.length + 1 ≤ 2 ^ n.size := by
    rw [← h.size_eq]
    exact Nat.le_of_lt Nat.lt_two_pow_self
  rw [table_eq h.wellFormed, h.closure_eq, h.start_eq, hzero]
  exact explore_chain h (Nat.zero_le _) (by omega)

end Subset

/-- The subset construction keeps a chain as it is. -/
theorem Dfa.ofNfa_chain {n : Nfa} {word : List Char} (h : n.Chain word) :
    ofNfa n = chain word := by
  have htable := Subset.table_chain h
  have hrows : (ofNfa n).rows = (chain word).rows := by
    show (Subset.table n).rows = (chain word).rows
    rw [htable]
    rfl
  have hfinals : (ofNfa n).finals = (chain word).finals := by
    apply StateSet.ext
    intro q
    by_cases hq : q < word.length + 1
    · have hget : (Subset.table n).sets[q]? = some (.singleton q) := by
        rw [htable, Subset.chainTable, Nat.min_eq_right (Nat.le_succ _)]
        exact Subset.getElem?_chainSets hq
      have hfinal := isFinal_ofNfa hget
      simp only [isFinal, decide_eq_true_eq, h.finals_eq, StateSet.mem_singleton,
        exists_eq_left] at hfinal
      rw [hfinal, chain, StateSet.mem_singleton]
    · have hsize : (ofNfa n).size = word.length + 1 := by
        show (ofNfa n).rows.size = word.length + 1
        rw [hrows]
        exact size_chain
      constructor
      · intro hfinal
        have hlt := (wellFormed_ofNfa h.wellFormed).finals_lt q hfinal
        omega
      · intro hfinal
        have hend := StateSet.mem_singleton.mp hfinal
        omega
  calc ofNfa n = ⟨0, (ofNfa n).finals, (ofNfa n).rows⟩ := rfl
    _ = chain word := by rw [hfinals, hrows]; rfl

end MaximalMunch
