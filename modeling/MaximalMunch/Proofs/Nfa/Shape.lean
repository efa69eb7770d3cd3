import MaximalMunch.Proofs.Nfa.Assembly
import MaximalMunch.Proofs.Nfa.OfExpr

/-!
# The shape of the automaton of an expression

Besides being a fragment, the automaton of an expression has slim rows: a state has one transition
on a character or at most two that read nothing.  What carries the induction over the expression is
that nothing leaves the last state of a fragment and nothing leads back to its first.  A composition
only adds edges to these two, where there is room for them, and copies all other rows.

The number of states is also settled by the nodes of the expression.  `Shaped` is what an automaton
has in common with its expression, and there is one lemma for each composition.
-/

namespace MaximalMunch

/-! ## Counting nodes -/

namespace Expr

def isLeaf : Expr → Bool
  | char _ | epsilon => true
  | union _ _ | concat _ _ | closure _ => false

def isUnion : Expr → Bool
  | union _ _ => true
  | char _ | epsilon | concat _ _ | closure _ => false

def isConcat : Expr → Bool
  | concat _ _ => true
  | char _ | epsilon | union _ _ | closure _ => false

def isClosure : Expr → Bool
  | closure _ => true
  | char _ | epsilon | union _ _ | concat _ _ => false

/-- The number of nodes of a kind. -/
def count (kind : Expr → Bool) (e : Expr) : Nat := e.preorder.countP kind

section Count

variable (kind : Expr → Bool) (left right operand : Expr)

theorem count_char (c : Char) : (char c).count kind = if kind (char c) then 1 else 0 := by
  rw [count, preorder, List.countP_singleton]

theorem count_epsilon : epsilon.count kind = if kind epsilon then 1 else 0 := by
  rw [count, preorder, List.countP_singleton]

theorem count_union : (union left right).count kind =
    left.count kind + right.count kind + if kind (union left right) then 1 else 0 := by
  rw [count, preorder, List.countP_cons, List.countP_append]
  rfl

theorem count_concat : (concat left right).count kind =
    left.count kind + right.count kind + if kind (concat left right) then 1 else 0 := by
  rw [count, preorder, List.countP_cons, List.countP_append]
  rfl

theorem count_closure : (closure operand).count kind =
    operand.count kind + if kind (closure operand) then 1 else 0 := by
  rw [count, preorder, List.countP_cons]
  rfl

end Count

/-- The number of states that a construction needs which adds two for each leaf, union and closure,
and saves one with each concatenation. -/
def Takes (e : Expr) (states : Nat) : Prop :=
  states + e.count isConcat = 2 * e.count isLeaf + 2 * e.count isUnion + 2 * e.count isClosure

namespace Takes

variable {e e' : Expr} {k l : Nat}

theorem char (c : Char) : (char c).Takes 2 := by
  simp only [Takes, count_char]
  rfl

theorem epsilon : epsilon.Takes 2 := by
  simp only [Takes, count_epsilon]
  rfl

theorem union (he : e.Takes k) (he' : e'.Takes l) : (union e e').Takes (k + l + 2) := by
  simp only [Takes, count_union, isConcat, isLeaf, isUnion, isClosure, Bool.false_eq_true,
    reduceIte] at he he' ⊢
  omega

theorem concat (he : e.Takes k) (he' : e'.Takes l) (hl : 0 < l) :
    (concat e e').Takes (k + (l - 1)) := by
  simp only [Takes, count_concat, isConcat, isLeaf, isUnion, isClosure, Bool.false_eq_true,
    reduceIte] at he he' ⊢
  omega

theorem closure (he : e.Takes k) : (closure e).Takes (k + 2) := by
  simp only [Takes, count_closure, isConcat, isLeaf, isUnion, isClosure, Bool.false_eq_true,
    reduceIte] at he ⊢
  omega

end Takes

end Expr

namespace Nfa

variable {n m u : Nfa} {e e' : Expr} {p q d : Nat} {o : Option Char}

/-! ## Slim rows -/

/-- A row with one transition on a character, or with at most two that read nothing. -/
inductive Row.Slim (row : Row) : Prop where
  | reads (c : Char) (q : Nat) (h : ∀ o r, r ∈ row.on o ↔ o = some c ∧ r = q)
  | branches (q r : Nat) (h : ∀ o t, t ∈ row.on o → o = none ∧ (t = q ∨ t = r))

namespace Row

variable {row other : Row}

theorem slim_of_no_edge (h : ∀ o q, q ∉ row.on o) : row.Slim :=
  .branches 0 0 fun o q hq => absurd hq (h o q)

/-- Renumbering the targets leaves a row slim. -/
theorem Slim.map (hrow : row.Slim) (f : Nat → Nat)
    (h : ∀ o r, r ∈ other.on o ↔ ∃ q, q ∈ row.on o ∧ r = f q) : other.Slim := by
  cases hrow with
  | reads c q hq =>
      refine .reads c (f q) fun o r => ?_
      simp only [h, hq, and_assoc, exists_and_left, exists_eq_left]
  | branches q r hqr =>
      refine .branches (f q) (f r) fun o t ht => ?_
      rcases (h o t).mp ht with ⟨t', ht', rfl⟩
      rcases hqr o t' ht' with ⟨ho, rfl | rfl⟩
      · exact ⟨ho, .inl rfl⟩
      · exact ⟨ho, .inr rfl⟩

/-- What a slim row without empty entries consists of. -/
theorem Slim.contents (hrow : row.Slim) (htidy : row.Tidy) :
    (∃ c q, row.symbols.entries = [(c, .singleton q)] ∧ row.epsilon = ∅) ∨
      row.symbols.entries = [] ∧ row.epsilon.toList.length ≤ 2 := by
  cases hrow with
  | reads c q h =>
      have heq : row = addSymbol {} c q :=
        htidy.ext_on (tidy_empty.addSymbol c q) fun o r => by simp [h]
      refine .inl ⟨c, q, ?_⟩
      rw [heq]
      exact ⟨rfl, rfl⟩
  | branches q r h =>
      have heq : row = { epsilon := row.epsilon } := by
        refine htidy.ext_on tidy_empty fun o t => ?_
        cases o with
        | none => rfl
        | some c =>
            constructor
            · intro ht
              cases (h _ t ht).1
            · intro ht
              exact absurd ht (not_mem_on_empty (some c) t)
      have hnodup : row.epsilon.toList.Nodup :=
        (StateSet.pairwise_toList row.epsilon).imp Nat.ne_of_lt
      have hsubset : row.epsilon.toList ⊆ [q, r] := by
        intro t ht
        have hmem : t ∈ row.on none := StateSet.mem_toList.mp ht
        simpa using (h none t hmem).2
      refine .inr ⟨?_, (List.subperm_of_subset hnodup hsubset).length_le⟩
      rw [heq]
      rfl

end Row

/-- What is no state has no edges. -/
theorem slim_of_size_le (hp : n.size ≤ p) : (n.row p).Slim :=
  Row.slim_of_no_edge fun _ _ hedge => Nat.not_lt_of_le hp (source_lt hedge)

section Compose

variable (hn : n.Fragment) (hm : m.Fragment) (hslimN : ∀ p, (n.row p).Slim)
  (hslimM : ∀ p, (m.row p).Slim)

include hn hslimN

/-- A row of a copy is that of the original, but for the end, where two edges may be added. -/
theorem slim_copy (first second : Nat)
    (hinner : ∀ o q, q ∈ (n.row p).on o → q + d ∈ (u.row (p + d)).on o)
    (hedges : ∀ o q, q ∈ (u.row (p + d)).on o → (∃ q', q' ∈ (n.row p).on o ∧ q = q' + d) ∨
      p = n.size - 1 ∧ o = none ∧ (q = first ∨ q = second)) : (u.row (p + d)).Slim := by
  by_cases hlast : p = n.size - 1
  -- nothing leaves the end of the original, so the edges added to its copy are alone there
  · refine .branches first second fun o q hedge => ?_
    rcases hedges o q hedge with ⟨q', hq', -⟩ | ⟨-, hsilent⟩
    · rw [hlast] at hq'
      exact absurd hq' (hn.not_out_of_final o q')
    · exact hsilent
  · refine (hslimN p).map (· + d) fun o q => ⟨fun hedge => ?_, ?_⟩
    · rcases hedges o q hedge with hcopy | ⟨hp, -⟩
      · exact hcopy
      · exact absurd hp hlast
    · rintro ⟨q', hq', rfl⟩
      exact hinner o q' hq'

theorem slim_star (hsize : u.size = n.size + 2)
    (hedges : ∀ p o q, q ∈ (u.row p).on o ↔ StarEdge n (n.size - 1) p o q) (p : Nat) :
    (u.row p).Slim := by
  by_cases hp : p < n.size + 2
  · rcases star_state_cases hp with rfl | ⟨p, -, rfl⟩ | rfl
    · refine .branches (n.start + 1) (n.size + 1) fun o q hedge => ?_
      cases (hedges _ _ _).mp hedge with
      | enter _ ho hq => exact ⟨ho, .inl hq⟩
      | skip _ ho hq => exact ⟨ho, .inr hq⟩
      | inner _ hp => omega
      | repeats hp => omega
      | leave hp => omega
    · exact slim_copy hn hslimN _ _
        (fun o q hedge => (hedges _ _ _).mpr (.inner hedge rfl rfl)) fun o q => edge_star hedges
    · exact Row.slim_of_no_edge (star_sink hn.wellFormed hn.finals_eq hedges)
  · exact slim_of_size_le (by omega)

include hslimM

include hm in
theorem slim_union (hsize : u.size = n.size + m.size + 2)
    (hedges : ∀ p o q, q ∈ (u.row p).on o ↔ UnionEdge n m (n.size - 1) (m.size - 1) p o q)
    (p : Nat) : (u.row p).Slim := by
  have hsizeN := hn.one_lt_size
  have hsizeM := hm.one_lt_size
  by_cases hp : p < n.size + m.size + 2
  · rcases union_state_cases hp with rfl | ⟨p, hleft, rfl⟩ | ⟨p, -, rfl⟩ | rfl
    · refine .branches (n.start + 1) (m.start + (n.size + 1)) fun o q hedge => ?_
      cases (hedges _ _ _).mp hedge with
      | enterLeft _ ho hq => exact ⟨ho, .inl hq⟩
      | enterRight _ ho hq => exact ⟨ho, .inr hq⟩
      | left _ hp => omega
      | right _ hp => omega
      | leaveLeft hp => omega
      | leaveRight hp => omega
    · refine slim_copy hn hslimN (n.size + m.size + 1) (n.size + m.size + 1)
        (fun o q hedge => (hedges _ _ _).mpr (.left hedge rfl rfl)) fun o q hedge => ?_
      rw [or_self]
      exact edge_union_left hedges hleft hedge
    · refine slim_copy hm hslimM (n.size + m.size + 1) (n.size + m.size + 1)
        (fun o q hedge => (hedges _ _ _).mpr (.right hedge rfl rfl)) fun o q hedge => ?_
      rw [or_self]
      exact edge_union_right hn.wellFormed hn.finals_eq hedges hedge
    · exact Row.slim_of_no_edge
        (union_sink hn.wellFormed hm.wellFormed hn.finals_eq hm.finals_eq hedges)
  · exact slim_of_size_le (by omega)

/-- No state has edges from both parts of a concatenation, not even the one that they share. -/
theorem slim_joined (hedges : ∀ p o q, q ∈ (u.row p).on o ↔
      q ∈ (n.row p).on o ∨ q ∈ (m.shiftedRow (n.size - 1) p).on o) (p : Nat) :
    (u.row p).Slim := by
  by_cases hp : p < n.size - 1
  -- the shared state is on the side of the second part, as the first one has no edge out of it
  · refine (hslimN p).map id fun o q => ?_
    rw [hedges, mem_on_shiftedRow]
    constructor
    · rintro (hedge | ⟨p', q', -, hp', -⟩)
      · exact ⟨q, hedge, rfl⟩
      · omega
    · rintro ⟨q, hedge, rfl⟩
      exact .inl hedge
  · refine (hslimM (p - (n.size - 1))).map (· + (n.size - 1)) fun o q => ?_
    rw [hedges, mem_on_shiftedRow]
    constructor
    · rintro (hedge | ⟨p', q', hedge, rfl, hq⟩)
      · have hlt := source_lt hedge
        have hlast : p = n.size - 1 := by omega
        rw [hlast] at hedge
        exact absurd hedge (hn.not_out_of_final o q)
      · rw [Nat.add_sub_cancel]
        exact ⟨q', hedge, hq⟩
    · rintro ⟨q', hedge, hq⟩
      exact .inr ⟨_, q', hedge, by omega, hq⟩

end Compose

/-! ## Building by calls that check -/

/-- The automaton of an expression, with every transition of a composition added by a call that
checks it. -/
def assembleExpr : Expr → Except Error Nfa
  | .char c => .ok (literal c)
  | .epsilon => .ok epsilon
  | .union left right => do (← assembleExpr left).assembleUnion (← assembleExpr right)
  | .concat left right => do (← assembleExpr left).assembleConcat (← assembleExpr right)
  | .closure operand => do (← assembleExpr operand).assembleStar

/-! ## Automata of expressions -/

/-- What the shape of an automaton has to do with an expression. -/
structure Shaped (n : Nfa) (e : Expr) : Prop where
  fragment : n.Fragment
  tidy : n.Tidy
  slim : ∀ p, (n.row p).Slim
  takes : e.Takes n.size

/-- An automaton with a single edge has no other row than that of the edge. -/
theorem slim_of_edge {o₀ : Option Char}
    (hedges : ∀ p o q, q ∈ (n.row p).on o ↔ p = 0 ∧ o = o₀ ∧ q = 1) (p : Nat) :
    (n.row p).Slim := by
  by_cases hp : p = 0
  · cases o₀ with
    | none =>
        refine .branches 1 1 fun o q hedge => ?_
        rw [or_self]
        exact ((hedges _ _ _).mp hedge).2
    | some c =>
        refine .reads c 1 fun o q => ?_
        rw [hedges, and_iff_right hp]
  · exact Row.slim_of_no_edge fun o q hedge => hp ((hedges _ _ _).mp hedge).1

theorem shaped_literal (c : Char) : (literal c).Shaped (.char c) where
  fragment := (Fragment.of_literal c).1
  tidy := tidy_literal c
  slim := slim_of_edge fun _ _ _ => mem_on_literal
  takes := by
    rw [literal, size_tabulate]
    exact .char c

theorem shaped_epsilon : epsilon.Shaped .epsilon where
  fragment := Fragment.of_epsilon.1
  tidy := tidy_epsilon
  slim := slim_of_edge fun _ _ _ => mem_on_epsilon
  takes := by
    rw [epsilon, size_tabulate]
    exact .epsilon

namespace Shaped

theorem exists_union (hn : n.Shaped e) (hm : m.Shaped e') :
    ∃ u, n.union m = .ok u ∧ u.Shaped (.union e e') := by
  rcases hn.fragment.exists_union hm.fragment with ⟨u, hu, hfragment, -⟩
  rcases of_exists_ok (union_spec hn.fragment.wellFormed hm.fragment.wellFormed
    hn.fragment.finals_eq hm.fragment.finals_eq) hu with ⟨hsize, -, -, hedges⟩
  refine ⟨u, hu, hfragment, hn.tidy.union hm.tidy hu,
    slim_union hn.fragment hm.fragment hn.slim hm.slim hsize hedges, ?_⟩
  rw [hsize]
  exact hn.takes.union hm.takes

theorem exists_concat (hn : n.Shaped e) (hm : m.Shaped e') :
    ∃ u, n.concat m = .ok u ∧ u.Shaped (.concat e e') := by
  rcases hn.fragment.exists_joined hm.fragment with ⟨u, hu, hfragment, hsize, hedges⟩
  refine ⟨u, hu, hfragment, hn.tidy.concat hm.tidy hu,
    slim_joined hn.fragment hn.slim hm.slim hedges, ?_⟩
  have hsizeM := hm.fragment.one_lt_size
  rw [hsize]
  exact hn.takes.concat hm.takes (by omega)

theorem exists_star (hn : n.Shaped e) : ∃ u, n.star = .ok u ∧ u.Shaped (.closure e) := by
  rcases hn.fragment.exists_star with ⟨u, hu, hfragment, -⟩
  rcases of_exists_ok (star_spec hn.fragment.wellFormed hn.fragment.finals_eq) hu with
    ⟨hsize, -, -, hedges⟩
  refine ⟨u, hu, hfragment, hn.tidy.star hu, slim_star hn.fragment hn.slim hsize hedges, ?_⟩
  rw [hsize]
  exact hn.takes.closure

end Shaped

/-- The construction succeeds for every expression, with all checks and without, and gives an
automaton of the shape that the expression asks for. -/
theorem exists_shaped (e : Expr) :
    ∃ n, ofExpr e = .ok n ∧ assembleExpr e = .ok n ∧ n.Shaped e := by
  induction e with
  | char c => exact ⟨_, rfl, rfl, shaped_literal c⟩
  | epsilon => exact ⟨_, rfl, rfl, shaped_epsilon⟩
  | union left right ihLeft ihRight =>
      rcases ihLeft with ⟨n, hn, hassembleN, hshapedN⟩
      rcases ihRight with ⟨m, hm, hassembleM, hshapedM⟩
      rcases hshapedN.exists_union hshapedM with ⟨u, hu, hshaped⟩
      have hassemble : n.assembleUnion m = n.union m :=
        assembleUnion_eq_union hshapedN.fragment.wellFormed hshapedM.fragment.wellFormed
          hshapedN.tidy hshapedM.tidy
      rw [ofExpr, hn, hm, assembleExpr, hassembleN, hassembleM]
      exact ⟨u, hu, hassemble.trans hu, hshaped⟩
  | concat left right ihLeft ihRight =>
      rcases ihLeft with ⟨n, hn, hassembleN, hshapedN⟩
      rcases ihRight with ⟨m, hm, hassembleM, hshapedM⟩
      rcases hshapedN.exists_concat hshapedM with ⟨u, hu, hshaped⟩
      have hassemble : n.assembleConcat m = n.concat m :=
        assembleConcat_eq_concat hshapedN.fragment.wellFormed hshapedM.fragment.wellFormed
          hshapedN.tidy hshapedM.tidy
      rw [ofExpr, hn, hm, assembleExpr, hassembleN, hassembleM]
      exact ⟨u, hu, hassemble.trans hu, hshaped⟩
  | closure operand ih =>
      rcases ih with ⟨n, hn, hassembleN, hshapedN⟩
      rcases hshapedN.exists_star with ⟨u, hu, hshaped⟩
      have hassemble : n.assembleStar = n.star :=
        assembleStar_eq_star hshapedN.fragment.wellFormed hshapedN.tidy
      rw [ofExpr, hn, assembleExpr, hassembleN]
      exact ⟨u, hu, hassemble.trans hu, hshaped⟩

/-- What the automaton of an expression looks like: where it begins and ends, which edges it does
not have, that no state is useless, what a row consists of, and how many states there are. -/
structure Standard (e : Expr) (n : Nfa) : Prop where
  one_lt_size : 1 < n.size
  start_eq : n.start = 0
  finals_eq : n.finals = .singleton (n.size - 1)
  not_into_start : ∀ p o, 0 ∉ (n.row p).on o
  not_out_of_final : ∀ o q, q ∉ (n.row (n.size - 1)).on o
  on_some_path : ∀ p < n.size, ∃ v w, n.Path 0 v p ∧ n.Path p w (n.size - 1)
  rows : ∀ p, (∃ c q, (n.row p).symbols.entries = [(c, .singleton q)] ∧ (n.row p).epsilon = ∅) ∨
    (n.row p).symbols.entries = [] ∧ (n.row p).epsilon.toList.length ≤ 2
  size_add_concats : n.size + e.count Expr.isConcat =
    2 * e.count Expr.isLeaf + 2 * e.count Expr.isUnion + 2 * e.count Expr.isClosure

theorem Shaped.standard (hn : n.Shaped e) : Standard e n where
  one_lt_size := hn.fragment.one_lt_size
  start_eq := hn.fragment.start_eq
  finals_eq := hn.fragment.finals_eq
  not_into_start := hn.fragment.not_into_start
  not_out_of_final := hn.fragment.not_out_of_final
  on_some_path := by
    intro p hp
    rcases hn.fragment.reachable p hp with ⟨v, hv⟩
    rcases hn.fragment.productive p hp with ⟨w, hw⟩
    exact ⟨v, w, hv, (mem_ahead hn.fragment.finals_eq).mp hw⟩
  rows p := (hn.slim p).contents (hn.tidy p)
  size_add_concats := hn.takes

end Nfa

end MaximalMunch
