import MaximalMunch.Definition.Basic
import MaximalMunch.Proofs.Dfa.Subset
import MaximalMunch.Proofs.Nfa.OfExpr

/-!
# Compiled definitions

A definition compiles as soon as its pattern has an expression, and its automaton accepts the
words of that expression.  The automaton is also trim: a run over it dies with the first character
behind which no word can be accepted any more.  The scanner relies on that when it gives up.
-/

namespace MaximalMunch

open scoped Computability

namespace Dfa

variable {d : Dfa} {w : List Char}

/-- Every run that is alive can still be continued to a word of the language. -/
def Trim (d : Dfa) : Prop :=
  ∀ w, d.after w ≠ none → ∃ v, w ++ v ∈ d.language

/-- In a trim automaton the runs that are alive are those over the beginnings of words. -/
theorem Trim.after_ne_none_iff (hd : d.Trim) : d.after w ≠ none ↔ ∃ v, w ++ v ∈ d.language := by
  constructor
  · exact hd w
  · rintro ⟨v, hv⟩
    exact after_ne_none hv

/-- Every state of a fragment lies on a way to the final state, so the sets of states that the
subset construction finds do, too. -/
theorem trim_ofNfa {n : Nfa} (hn : n.Fragment) : (ofNfa n).Trim := by
  intro w hw
  have hreached : n.reached w ≠ ∅ := fun hempty =>
    hw ((after_ofNfa_eq_none_iff hn.wellFormed w).mpr hempty)
  -- any state that the word reaches will do, for every state is productive
  obtain ⟨p, hp⟩ := StateSet.exists_mem_of_not_isEmpty (fun hempty =>
    hreached (StateSet.isEmpty_iff.mp hempty))
  have hpath : n.Path n.start w p := (Nfa.mem_reached hn.wellFormed).mp hp
  obtain ⟨v, hv⟩ := hn.productive p (Nfa.reached_lt hn.wellFormed hp)
  have hrest : n.Path p v (n.size - 1) := (Nfa.mem_ahead hn.finals_eq).mp hv
  refine ⟨v, ?_⟩
  rw [language_ofNfa hn.wellFormed, ← Nfa.ahead_start, Nfa.mem_ahead hn.finals_eq]
  exact hpath.trans hrest

end Dfa

namespace Compilation

variable {raw : String} {p : Pattern} {e : Expr} {n : Nfa} {c : Compilation}

/-- A compilation consists of the stages in their order. -/
theorem ofText_eq_ok_iff :
    ofText raw = .ok c ↔ Pattern.read raw = .ok c.pattern ∧ Expr.ofPattern c.pattern = .ok c.expr ∧
      Nfa.ofExpr c.expr = .ok c.nfa ∧ c.dfa = Dfa.ofNfa c.nfa := by
  constructor
  · intro h
    obtain ⟨p, hp, h⟩ := bind_eq_ok.mp h
    obtain ⟨e, he, h⟩ := bind_eq_ok.mp h
    obtain ⟨n, hn, h⟩ := bind_eq_ok.mp h
    obtain rfl := Except.ok.inj h
    exact ⟨hp, he, hn, rfl⟩
  · rintro ⟨hp, he, hn, hdfa⟩
    apply bind_eq_ok.mpr ⟨c.pattern, hp, ?_⟩
    apply bind_eq_ok.mpr ⟨c.expr, he, ?_⟩
    apply bind_eq_ok.mpr ⟨c.nfa, hn, ?_⟩
    rw [← hdfa]
    rfl

/-- The construction of the automata never fails. -/
theorem exists_ofText (hp : Pattern.read raw = .ok p) (he : Expr.ofPattern p = .ok e) :
    ∃ c, ofText raw = .ok c ∧ c.pattern = p ∧ c.expr = e := by
  obtain ⟨n, hn, -, -⟩ := Nfa.exists_ofExpr e
  exact ⟨⟨p, e, n, Dfa.ofNfa n⟩, ofText_eq_ok_iff.mpr ⟨hp, he, hn, rfl⟩, rfl, rfl⟩

/-- A text that does not compile is a malformed pattern, and the failure gives the text. -/
theorem exists_fault {f : Error} (h : ofText raw = .error f) :
    ∃ fault, f = .malformedPattern raw none fault := by
  rcases bind_eq_error.mp h with hread | ⟨p, hp, h⟩
  · rw [Pattern.read] at hread
    split at hread
    · next fault _ => exact ⟨fault, (Except.error.inj hread).symm⟩
    · cases hread
  rcases bind_eq_error.mp h with hexpr | ⟨e', he, h⟩
  · have hraw : p.raw = raw := by
      rw [Pattern.read] at hp
      split at hp
      · cases hp
      · rw [← Except.ok.inj hp]
    rw [Expr.ofPattern] at hexpr
    split at hexpr
    · next fault _ =>
        rw [hraw] at hexpr
        exact ⟨fault, (Except.error.inj hexpr).symm⟩
    · cases hexpr
  · rcases Nfa.exists_ofExpr e' with ⟨n, hn, -, -⟩
    rcases bind_eq_error.mp h with hnfa | ⟨n', -, h⟩
    · rw [hn] at hnfa
      cases hnfa
    · cases h

/-- The automata of a compilation have the language of its expression, and the second is trim. -/
theorem languages (hc : ofText raw = .ok c) :
    c.nfa.language = c.expr.language ∧ c.dfa.language = c.expr.language ∧ c.dfa.Trim := by
  obtain ⟨-, -, hn, hdfa⟩ := ofText_eq_ok_iff.mp hc
  obtain ⟨hfragment, hlanguage⟩ := of_exists_ok (Nfa.exists_ofExpr c.expr) hn
  rw [hdfa, Dfa.language_ofNfa hfragment.wellFormed]
  exact ⟨hlanguage, hlanguage, Dfa.trim_ofNfa hfragment⟩

end Compilation

namespace Definition

variable {id : Nat} {type raw : String} {verbose : Bool} {d : Definition} {records : List Record}

/-- The words that a definition matches. -/
def language (d : Definition) : Language Char := d.dfa.language

theorem compile_eq_ok_iff :
    compile id type raw verbose = .ok (d, records) ↔ ∃ c, Compilation.ofText raw = .ok c ∧
      d = ⟨id, type, raw, c.dfa⟩ ∧ records = if verbose then c.records type else [] := by
  constructor
  · intro h
    obtain ⟨c, hc, h⟩ := bind_eq_ok.mp h
    obtain ⟨hd, hrecords⟩ := Prod.mk.inj (Except.ok.inj h)
    exact ⟨c, hc, hd.symm, hrecords.symm⟩
  · rintro ⟨c, hc, rfl, rfl⟩
    exact bind_eq_ok.mpr ⟨c, hc, rfl⟩

/-- A run over the automaton of a definition that compiles ends in a final state for exactly the
words of the expression of its pattern, which is also what the nondeterministic automaton on the
way reads. -/
theorem accepts_compile_iff (hcompile : compile id type raw verbose = .ok (d, records)) :
    ∃ p e n, Pattern.read raw = .ok p ∧ Expr.ofPattern p = .ok e ∧ Nfa.ofExpr e = .ok n ∧
      d.dfa = Dfa.ofNfa n ∧ n.language = e.language ∧
      ∀ w, ((Dfa.Run.atStart d.dfa).follow d.dfa w).accepts d.dfa = true ↔ w ∈ e.language := by
  obtain ⟨c, hc, rfl, -⟩ := compile_eq_ok_iff.mp hcompile
  obtain ⟨hp, he, hn, hdfa⟩ := Compilation.ofText_eq_ok_iff.mp hc
  obtain ⟨hnfa, hlanguage, -⟩ := Compilation.languages hc
  refine ⟨c.pattern, c.expr, c.nfa, hp, he, hn, hdfa, hnfa, ?_⟩
  intro w
  rw [← hlanguage]
  exact Iff.rfl

theorem accepts_compile_iff_star_or_char :
    ∃ d, compile 0 "WORD" "a*|b" false = .ok (d, []) ∧
      ∀ w, ((Dfa.Run.atStart d.dfa).follow d.dfa w).accepts d.dfa = true ↔
        w ∈ ({['a']}∗ + {['b']} : Language Char) := by
  have hread : Pattern.read "a*|b" =
      .ok ⟨"a*|b", [.char 'a', .closure, .union, .char 'b']⟩ := by decide
  have hexpr : Expr.ofPattern ⟨"a*|b", [.char 'a', .closure, .union, .char 'b']⟩ =
      .ok (.union (.closure (.char 'a')) (.char 'b')) := by decide
  obtain ⟨c, hc, -, -⟩ := Compilation.exists_ofText hread hexpr
  have hcompile : compile 0 "WORD" "a*|b" false = .ok (⟨0, "WORD", "a*|b", c.dfa⟩, []) :=
    compile_eq_ok_iff.mpr ⟨c, hc, rfl, rfl⟩
  obtain ⟨p, e, n, hp, he, -, -, -, haccepts⟩ := accepts_compile_iff hcompile
  obtain rfl : _ = p := Except.ok.inj hp
  obtain rfl : _ = e := Except.ok.inj he
  exact ⟨_, hcompile, haccepts⟩

end Definition

end MaximalMunch
