import MaximalMunch.Proofs.Definition.Compile
import MaximalMunch.Proofs.Dfa.Chain
import MaximalMunch.Proofs.Expr.Grammar
import MaximalMunch.Proofs.Pattern.Writing

/-!
# Quoted texts as definitions

A quoted text is read as the row of its characters, whatever they are.  Its expression concatenates
them from the left, so both automata are chains and the definition matches the text and nothing
else.
-/

namespace MaximalMunch

open Pattern (Token juxtapose)

/-- The characters of a word, side by side, are concatenated from the left. -/
theorem Postfix.derives_ofWord (first : Char) (rest : List Char) :
    Derives .concat ((first :: rest).map .char) (.ofWord first rest) := by
  induction rest using List.reverseRecOn with
  | nil => exact .ofClosure (.ofAtom (.char first))
  | append_singleton rest c ih =>
      rw [Expr.ofWord_snoc, ← List.cons_append, List.map_append]
      exact ih.juxtapose (.ofAtom (.char c))

/-- The pattern of a quoted text has the characters of the text as its tokens. -/
theorem Pattern.read_quote {text : String} (hne : text ≠ "") :
    read (quote text) = .ok ⟨quote text, text.toList.map .char⟩ := by
  have htokens : text.toList.map Token.char ≠ [] := by
    intro hnil
    exact hne (String.toList_eq_nil_iff.mp (List.map_eq_nil_iff.mp hnil))
  apply read_eq_ok_iff_readTokens.mpr
  refine ⟨rfl, ?_⟩
  rw [quote, String.toList_ofList, quoteChars_eq_tokensText]
  exact readTokens_tokensText htokens

theorem Pattern.unquote_quote (text : String) : unquote (quote text) = text := by
  rw [unquote, quote, String.toList_ofList, unquoteChars_quoteChars, String.ofList_toList]

/-- The automaton of a quoted text counts the characters of the text. -/
theorem Compilation.exists_ofText_quote {text : String} (hne : text ≠ "") :
    ∃ c, ofText (Pattern.quote text) = .ok c ∧ c.dfa = Dfa.chain text.toList := by
  obtain ⟨first, rest, htext⟩ : ∃ first rest, text.toList = first :: rest :=
    List.exists_cons_of_ne_nil fun hnil => hne (String.toList_eq_nil_iff.mp hnil)
  have hread := Pattern.read_quote hne
  have hexpr : Expr.ofPattern ⟨Pattern.quote text, text.toList.map .char⟩ =
      .ok (.ofWord first rest) := by
    rw [Expr.ofPattern_eq_ok_iff, Pattern.normalized, htext]
    exact (Postfix.Derives.ofConcat (Postfix.derives_ofWord first rest)).ofTokens
  obtain ⟨n, hn, hchain⟩ := Nfa.exists_chain_ofWord first rest
  rw [← htext] at hchain
  exact ⟨⟨_, _, n, Dfa.ofNfa n⟩, ofText_eq_ok_iff.mpr ⟨hread, hexpr, hn, rfl⟩,
    Dfa.ofNfa_chain hchain⟩

namespace Definition

/-- A text that is not empty, quoted, is a pattern for exactly that text, whatever characters it
has: the pattern compiles, and its automaton has one state for each number of characters that have
been read, with one transition, on the next character, from each of them to the next.  Any text is
found again when the quotes are taken off. -/
theorem compile_quote (text : String) :
    (text ≠ "" → ∀ id type verbose, ∃ d records,
      compile id type (Pattern.quote text) verbose = .ok (d, records) ∧
      d.dfa.size = text.length + 1 ∧ d.dfa.start = 0 ∧
      (∀ q, d.dfa.isFinal q = true ↔ q = text.length) ∧
      (∀ p c q, d.dfa.next? p c = some q ↔ text.toList[p]? = some c ∧ q = p + 1) ∧
      ∀ w, ((Dfa.Run.atStart d.dfa).follow d.dfa w).accepts d.dfa = true ↔ w = text.toList) ∧
    Pattern.unquote (Pattern.quote text) = text := by
  refine ⟨?_, Pattern.unquote_quote text⟩
  intro hne id type verbose
  obtain ⟨c, hc, hdfa⟩ := Compilation.exists_ofText_quote hne
  have hcompile : compile id type (Pattern.quote text) verbose =
      .ok (⟨id, type, Pattern.quote text, c.dfa⟩, if verbose then c.records type else []) :=
    compile_eq_ok_iff.mpr ⟨c, hc, rfl, rfl⟩
  refine ⟨_, _, hcompile, ?_⟩
  rw [hdfa, ← String.length_toList]
  refine ⟨Dfa.size_chain, rfl, fun q => Dfa.isFinal_chain, fun p c q => Dfa.next?_chain, ?_⟩
  intro w
  have haccepts : w ∈ (Dfa.chain text.toList).language ↔ w = text.toList := by
    rw [Dfa.language_chain]
    exact Iff.rfl
  exact haccepts

/-- All characters of the text are special, and the first is also the last. -/
theorem compile_quote_specials :
    "*.|*" ≠ "" ∧ ∃ d records, compile 3 "SIGN" "\\*\\.\\|\\*" true = .ok (d, records) ∧
      d.dfa.size = 5 ∧ d.dfa.next? 3 '*' = some 4 ∧
      ∀ w, ((Dfa.Run.atStart d.dfa).follow d.dfa w).accepts d.dfa = true ↔
        w = ['*', '.', '|', '*'] := by
  have hne : "*.|*" ≠ "" := by decide
  have hquote : Pattern.quote "*.|*" = "\\*\\.\\|\\*" := by rfl
  have hchars : "*.|*".toList = ['*', '.', '|', '*'] := by rfl
  obtain ⟨d, records, hcompile, hsize, -, -, hnext, haccepts⟩ :=
    (compile_quote "*.|*").1 hne 3 "SIGN" true
  rw [hquote] at hcompile
  rw [hchars] at hnext haccepts
  exact ⟨hne, d, records, hcompile, hsize, (hnext 3 '*' 4).mpr ⟨rfl, rfl⟩, haccepts⟩

end Definition

end MaximalMunch
