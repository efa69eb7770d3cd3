import MaximalMunch.Proofs.Definition.Compile
import MaximalMunch.Proofs.Nfa.Shape

/-!
# Grouping of concatenations

The automata of expressions end at their last state and start at number zero.  So a concatenation
lays the second automaton over the first with one state in common, and its edges are those of both,
the second ones raised (`exists_joined`).  How many automata are laid one over the other in which
order makes no difference then: concatenation is associative, up to the numbers of the states
(`concat_assoc`).  Patterns that differ in the grouping of concatenations have the same automata.
-/

namespace MaximalMunch

namespace Nfa

variable {n m k u v w : Nfa} {p q d e : Nat} {o : Option Char}

/-! ## Automata with one state in common -/

/-- Raising all states of a joined automaton raises those of both its parts. -/
theorem mem_on_shiftedRow_joined (hedges : ∀ p o q, q ∈ (v.row p).on o ↔
      q ∈ (m.row p).on o ∨ q ∈ (k.shiftedRow d p).on o) :
    q ∈ (v.shiftedRow e p).on o ↔
      q ∈ (m.shiftedRow e p).on o ∨ q ∈ (k.shiftedRow (e + d) p).on o := by
  simp only [mem_on_shiftedRow, hedges]
  constructor
  · rintro ⟨p', q', hedge | ⟨p'', q'', hedge, rfl, rfl⟩, hp, hq⟩
    · exact .inl ⟨p', q', hedge, hp, hq⟩
    · exact .inr ⟨p'', q'', hedge, by omega, by omega⟩
  · rintro (⟨p', q', hedge, hp, hq⟩ | ⟨p'', q'', hedge, hp, hq⟩)
    · exact ⟨p', q', .inl hedge, hp, hq⟩
    · exact ⟨p'' + d, q'' + d, .inr ⟨p'', q'', hedge, rfl, rfl⟩, by omega, by omega⟩

/-- Three fragments joined from the left and from the right are one and the same automaton. -/
theorem Fragment.concat_assoc (hn : n.Fragment) (hm : m.Fragment) (hk : k.Fragment)
    (htidyN : n.Tidy) (htidyM : m.Tidy) (htidyK : k.Tidy) (hu : n.concat m = .ok u)
    (hv : m.concat k = .ok v) : u.concat k = n.concat v := by
  rcases of_exists_ok (hn.exists_joined hm) hu with ⟨hfragmentU, hsizeU, hedgesU⟩
  rcases of_exists_ok (hm.exists_joined hk) hv with ⟨hfragmentV, hsizeV, hedgesV⟩
  rcases hfragmentU.exists_joined hk with ⟨left, hleft, hfragmentL, hsizeL, hedgesL⟩
  rcases hn.exists_joined hfragmentV with ⟨right, hright, hfragmentR, hsizeR, hedgesR⟩
  have hsizeN := hn.one_lt_size
  have hsizeM := hm.one_lt_size
  have hsize : left.size = right.size := by omega
  have hoffset : u.size - 1 = (n.size - 1) + (m.size - 1) := by omega
  have hedges : ∀ p o q, q ∈ (left.row p).on o ↔ q ∈ (right.row p).on o := by
    intro p o q
    calc q ∈ (left.row p).on o
        ↔ q ∈ (u.row p).on o ∨ q ∈ (k.shiftedRow (u.size - 1) p).on o := hedgesL p o q
      _ ↔ (q ∈ (n.row p).on o ∨ q ∈ (m.shiftedRow (n.size - 1) p).on o) ∨
            q ∈ (k.shiftedRow ((n.size - 1) + (m.size - 1)) p).on o := by rw [hedgesU, hoffset]
      _ ↔ q ∈ (n.row p).on o ∨ q ∈ (v.shiftedRow (n.size - 1) p).on o := by
          rw [or_assoc, mem_on_shiftedRow_joined hedgesV]
      _ ↔ q ∈ (right.row p).on o := (hedgesR p o q).symm
  have htidyL : left.Tidy := (htidyN.concat htidyM hu).concat htidyK hleft
  have htidyR : right.Tidy := htidyN.concat (htidyM.concat htidyK hv) hright
  have heq : left = right := by
    apply htidyL.ext_edges htidyR hsize _ _ hedges
    · rw [hfragmentL.start_eq, hfragmentR.start_eq]
    · rw [hfragmentL.finals_eq, hfragmentR.finals_eq, hsize]
  rw [hleft, hright, heq]

/-- The automata of three expressions can be concatenated in either order. -/
theorem exists_concat_ofExpr (a b c : Expr) :
    ∃ n m k u v w, ofExpr a = .ok n ∧ ofExpr b = .ok m ∧ ofExpr c = .ok k ∧
      n.concat m = .ok u ∧ m.concat k = .ok v ∧ u.concat k = .ok w ∧ n.concat v = .ok w := by
  rcases exists_shaped a with ⟨n, hn, -, hfragmentN, htidyN, -, -⟩
  rcases exists_shaped b with ⟨m, hm, -, hfragmentM, htidyM, -, -⟩
  rcases exists_shaped c with ⟨k, hk, -, hfragmentK, htidyK, -, -⟩
  rcases hfragmentN.exists_joined hfragmentM with ⟨u, hu, hfragmentU, -, -⟩
  rcases hfragmentM.exists_joined hfragmentK with ⟨v, hv, -, -, -⟩
  rcases hfragmentU.exists_joined hfragmentK with ⟨w, hw, -, -, -⟩
  have hassoc : u.concat k = n.concat v :=
    hfragmentN.concat_assoc hfragmentM hfragmentK htidyN htidyM htidyK hu hv
  exact ⟨n, m, k, u, v, w, hn, hm, hk, hu, hv, hw, hassoc.symm.trans hw⟩

end Nfa

/-! ## Expressions that differ in grouping -/

/-- Expressions that differ only in how their concatenations are grouped, at any depth. -/
inductive Expr.Regroups : Expr → Expr → Prop where
  | assoc (a b c : Expr) : Regroups (.concat (.concat a b) c) (.concat a (.concat b c))
  | refl (e : Expr) : Regroups e e
  | symm {e e'} (h : Regroups e e') : Regroups e' e
  | trans {e e' e''} (h : Regroups e e') (h' : Regroups e' e'') : Regroups e e''
  | union {a a' b b'} (h : Regroups a a') (h' : Regroups b b') :
      Regroups (.union a b) (.union a' b')
  | concat {a a' b b'} (h : Regroups a a') (h' : Regroups b b') :
      Regroups (.concat a b) (.concat a' b')
  | closure {a a'} (h : Regroups a a') : Regroups (.closure a) (.closure a')

theorem Expr.Regroups.ofExpr_eq {e e' : Expr} (h : Regroups e e') :
    Nfa.ofExpr e = Nfa.ofExpr e' := by
  induction h with
  | assoc a b c =>
      rcases Nfa.exists_concat_ofExpr a b c with ⟨n, m, k, u, v, w, hn, hm, hk, hu, hv, hw, hw'⟩
      simp only [Nfa.ofExpr, hn, hm, hk, ok_bind, hu, hv, hw, hw']
  | refl e => rfl
  | symm _ ih => exact ih.symm
  | trans _ _ ih ih' => exact ih.trans ih'
  | union _ _ ih ih' => simp only [Nfa.ofExpr, ih, ih']
  | concat _ _ ih ih' => simp only [Nfa.ofExpr, ih, ih']
  | closure _ ih => simp only [Nfa.ofExpr, ih]

namespace Compilation

/-- Concatenating the automata of three expressions gives the same automaton in either order, with
the same numbers, and therefore patterns whose expressions differ in the grouping of concatenations
compile to the same automata. -/
theorem automata_of_regrouped (a b c : Expr) :
    (∃ n m k u v w, Nfa.ofExpr a = .ok n ∧ Nfa.ofExpr b = .ok m ∧ Nfa.ofExpr c = .ok k ∧
      n.concat m = .ok u ∧ m.concat k = .ok v ∧ u.concat k = .ok w ∧ n.concat v = .ok w) ∧
    ∀ {raw raw' p p' e e'}, Pattern.read raw = .ok p → Expr.ofPattern p = .ok e →
      Pattern.read raw' = .ok p' → Expr.ofPattern p' = .ok e' → e.Regroups e' →
      ∃ first second, ofText raw = .ok first ∧ ofText raw' = .ok second ∧
        first.expr = e ∧ second.expr = e' ∧ first.nfa = second.nfa ∧ first.dfa = second.dfa := by
  refine ⟨Nfa.exists_concat_ofExpr a b c, ?_⟩
  intro raw raw' p p' e e' hp he hp' he' hregroups
  rcases exists_ofText hp he with ⟨first, hfirst, -, hexpr⟩
  rcases exists_ofText hp' he' with ⟨second, hsecond, -, hexpr'⟩
  rcases ofText_eq_ok_iff.mp hfirst with ⟨-, -, hnfa, hdfa⟩
  rcases ofText_eq_ok_iff.mp hsecond with ⟨-, -, hnfa', hdfa'⟩
  have hsame : first.nfa = second.nfa := by
    rw [hexpr, hregroups.ofExpr_eq, ← hexpr'] at hnfa
    exact Except.ok.inj (hnfa.symm.trans hnfa')
  refine ⟨first, second, hfirst, hsecond, hexpr, hexpr', hsame, ?_⟩
  rw [hdfa, hdfa', hsame]

theorem automata_of_regrouped_three_letters :
    Pattern.read "(ab)c" =
      .ok ⟨"(ab)c", [.groupOpen, .char 'a', .char 'b', .groupClose, .char 'c']⟩ ∧
    Pattern.read "a(bc)" =
      .ok ⟨"a(bc)", [.char 'a', .groupOpen, .char 'b', .char 'c', .groupClose]⟩ ∧
    ∃ first second, ofText "(ab)c" = .ok first ∧ ofText "a(bc)" = .ok second ∧
      first.expr = .concat (.concat (.char 'a') (.char 'b')) (.char 'c') ∧
      second.expr = .concat (.char 'a') (.concat (.char 'b') (.char 'c')) ∧
      first.nfa = second.nfa ∧ first.dfa = second.dfa := by
  have hread : Pattern.read "(ab)c" =
      .ok ⟨"(ab)c", [.groupOpen, .char 'a', .char 'b', .groupClose, .char 'c']⟩ := by decide
  have hread' : Pattern.read "a(bc)" =
      .ok ⟨"a(bc)", [.char 'a', .groupOpen, .char 'b', .char 'c', .groupClose]⟩ := by decide
  have hregroups := Expr.Regroups.assoc (.char 'a') (.char 'b') (.char 'c')
  refine ⟨hread, hread', ?_⟩
  exact (automata_of_regrouped (.char 'a') (.char 'b') (.char 'c')).2 hread (by decide) hread'
    (by decide) hregroups

end Compilation

end MaximalMunch
