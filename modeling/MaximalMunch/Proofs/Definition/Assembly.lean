import MaximalMunch.Proofs.Definition.Compile
import MaximalMunch.Proofs.Dfa.Assembly
import MaximalMunch.Proofs.Nfa.Shape

/-!
# Compilations and their checks

Between a pattern and its automaton every state and every transition is checked several times over.
As the automata of expressions have the shape that the checks ask for, none of them ever fails.
What is left to fail is reading the pattern and finding its expression, before there is an automaton
at all.
-/

namespace MaximalMunch

namespace Compilation

/-- Builds the automata of a pattern by calls that check what they are given. -/
def assembleText (raw : String) : Except Error Compilation := do
  let pattern ← Pattern.read raw
  let expr ← Expr.ofPattern pattern
  let nfa ← Nfa.assembleExpr expr
  let assembly ← Dfa.assemble nfa
  return { pattern, expr, nfa, dfa := assembly.automaton }

/-- The checks make no difference. -/
theorem assembleText_eq_ofText (raw : String) : assembleText raw = ofText raw := by
  rw [assembleText, ofText]
  refine bind_congr fun p => bind_congr fun e => ?_
  rcases Nfa.exists_shaped e with ⟨n, hn, hassemble, hshaped⟩
  rw [hn, hassemble, ok_bind, ok_bind, Subset.assemble_eq hshaped.fragment.wellFormed]
  rfl

end Compilation

namespace Definition

/-- Every expression has an automaton, of a shape that passes all checks.  So a definition compiles,
whether they are made or not, or its pattern is malformed. -/
theorem compile_fails_only_as_malformed :
    (∀ e, ∃ n, Nfa.ofExpr e = .ok n ∧ Nfa.assembleExpr e = .ok n ∧ Nfa.Standard e n) ∧
    ∀ id type raw verbose,
      (∃ c, Compilation.ofText raw = .ok c ∧ Compilation.assembleText raw = .ok c ∧
        compile id type raw verbose =
          .ok (⟨id, type, raw, c.dfa⟩, if verbose then c.records type else [])) ∨
      ∃ fault, Compilation.ofText raw = .error (.malformedPattern raw none fault) ∧
        Compilation.assembleText raw = .error (.malformedPattern raw none fault) ∧
        compile id type raw verbose = .error (.malformedPattern raw none fault) := by
  constructor
  · intro e
    rcases Nfa.exists_shaped e with ⟨n, hn, hassemble, hshaped⟩
    exact ⟨n, hn, hassemble, hshaped.standard⟩
  · intro id type raw verbose
    rw [Compilation.assembleText_eq_ofText]
    cases hc : Compilation.ofText raw with
    | ok c => exact .inl ⟨c, rfl, rfl, compile_eq_ok_iff.mpr ⟨c, hc, rfl, rfl⟩⟩
    | error f =>
        rcases Compilation.exists_fault hc with ⟨fault, rfl⟩
        refine .inr ⟨fault, rfl, rfl, ?_⟩
        rw [compile, hc, error_bind]

/-- The automaton of `(a|b)*abb` has eleven states, and a group that is not closed is reported as
such. -/
theorem compile_fails_only_as_malformed_groups :
    (∃ p e n, Pattern.read "(a|b)*abb" = .ok p ∧ Expr.ofPattern p = .ok e ∧
      Nfa.assembleExpr e = .ok n ∧ n.size = 11) ∧
    compile 0 "WORD" "(a" false = .error (.malformedPattern "(a" none .unmatchedOpen) := by
  rcases compile_fails_only_as_malformed with ⟨hstandard, hcompile⟩
  constructor
  · have hread : ∃ p e, Pattern.read "(a|b)*abb" = .ok p ∧ Expr.ofPattern p = .ok e ∧
        e.count Expr.isConcat = 3 ∧ e.count Expr.isLeaf = 5 ∧ e.count Expr.isUnion = 1 ∧
        e.count Expr.isClosure = 1 := ⟨_, _, rfl, rfl, rfl, rfl, rfl, rfl⟩
    rcases hread with ⟨p, e, hp, he, hconcat, hleaf, hunion, hclosure⟩
    rcases hstandard e with ⟨n, -, hn, hshape⟩
    have hsize := hshape.size_add_concats
    exact ⟨p, e, n, hp, he, hn, by omega⟩
  · rcases hcompile 0 "WORD" "(a" false with ⟨c, hc, -⟩ | ⟨fault, hfault, -, hcompile⟩
    · cases hc
    · have hunmatched : Compilation.ofText "(a" =
          .error (.malformedPattern "(a" none .unmatchedOpen) := rfl
      rw [hcompile, Except.error.inj (hfault.symm.trans hunmatched)]

end Definition

end MaximalMunch
