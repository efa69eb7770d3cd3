import MaximalMunch.Proofs.Definition.Compile
import MaximalMunch.Proofs.Dfa.Numbering

/-!
# When a compiled automaton gives up

A run of a compiled automaton is alive exactly as long as what it has read can still become a word
of the expression.  Every state therefore lies on the way to a final one, so every transition
belongs to some word, and the characters on transitions are those that the expression names.
-/

namespace MaximalMunch

open scoped Computability

/-! ## Alphabets -/

namespace Dfa

variable {d : Dfa} {c : Char}

theorem mem_alphabet : c ∈ d.alphabet ↔ ∃ p q, d.next? p c = some q := by
  rw [alphabet, ← Array.foldl_toList, SymbolMap.mem_symbols_foldl_foldl]
  have hempty : c ∉ (∅ : SymbolMap Unit).symbols := List.not_mem_nil
  simp only [hempty, false_or, Array.mem_toList_iff, SymbolMap.mem_symbols_iff]
  constructor
  · rintro ⟨row, hrow, q, hget⟩
    obtain ⟨p, hp⟩ := Array.mem_iff_getElem?.mp hrow
    exact ⟨p, q, by rw [next?, row_eq hp, hget]⟩
  · rintro ⟨p, q, hnext⟩
    obtain ⟨row, hp, hget⟩ := exists_row hnext
    exact ⟨row, Array.mem_of_getElem? hp, q, hget⟩

/-- In a trim automaton whose states can all be reached, a character is on a transition exactly if
some word contains it. -/
theorem Trim.mem_alphabet_iff (hd : d.Trim) (hreach : ∀ p < d.size, ∃ u, d.after u = some p) :
    c ∈ d.alphabet ↔ ∃ w ∈ d.language, c ∈ w := by
  rw [mem_alphabet]
  constructor
  · rintro ⟨p, q, hnext⟩
    obtain ⟨u, hu⟩ := hreach p (source_lt hnext)
    have halive : d.after (u ++ [c]) ≠ none := by
      rw [after_snoc, hu, Option.bind_some, hnext]
      exact Option.some_ne_none q
    obtain ⟨v, hv⟩ := hd _ halive
    exact ⟨_, hv, by simp⟩
  · rintro ⟨w, hw, hc⟩
    obtain ⟨u, v, rfl⟩ := List.append_of_mem hc
    have hword : u ++ [c] ++ v ∈ d.language := by rwa [List.append_assoc]
    have halive := after_ne_none hword
    rw [after_snoc] at halive
    obtain ⟨q, hq⟩ := Option.ne_none_iff_exists'.mp halive
    obtain ⟨p, -, hnext⟩ := Option.bind_eq_some_iff.mp hq
    exact ⟨p, q, hnext⟩

/-- A run reads a character beyond those over which it is alive only if that one kills it. -/
theorem length_trail {u rest : List Char} {p : Nat} (halive : d.afterFrom (some p) u ≠ none)
    (hdead : d.afterFrom (some p) (u ++ [c]) = none) :
    ((⟨some p⟩ : Run).trail d (u ++ c :: rest)).length = u.length + 1 := by
  induction u generalizing p with
  | nil =>
      have hnext : d.next? p c = none := hdead
      simp [Run.trail, Run.advance, Run.isDead, hnext]
  | cons a u ih =>
      cases hnext : d.next? p a with
      | none =>
          have hnone : d.afterFrom (some p) (a :: u) = d.afterFrom (d.next? p a) u := rfl
          rw [hnone, hnext, afterFrom_none] at halive
          exact absurd rfl halive
      | some q =>
          have hcons (v : List Char) :
              d.afterFrom (some p) (a :: v) = d.afterFrom (some q) v := by rw [← hnext]; rfl
          rw [hcons] at halive
          rw [List.cons_append, hcons] at hdead
          have hrest := ih halive hdead
          simp [Run.trail, Run.advance, Run.isDead, hnext, hrest]

end Dfa

namespace Expr

/-- No expression denotes the empty language. -/
theorem exists_mem_language (e : Expr) : ∃ w, w ∈ e.language := by
  induction e with
  | char c => exact ⟨_, rfl⟩
  | epsilon => exact ⟨_, rfl⟩
  | union left right ihLeft _ =>
      obtain ⟨w, hw⟩ := ihLeft
      exact ⟨w, .inl hw⟩
  | concat left right ihLeft ihRight =>
      obtain ⟨v, hv⟩ := ihLeft
      obtain ⟨w, hw⟩ := ihRight
      exact ⟨_, Language.append_mem_mul hv hw⟩
  | closure operand _ => exact ⟨_, Language.nil_mem_kstar _⟩

/-- The characters in the words of an expression are those at its leaves. -/
theorem exists_mem_language_iff {c : Char} (e : Expr) :
    (∃ w ∈ e.language, c ∈ w) ↔ .char c ∈ e.preorder := by
  induction e with
  | char d =>
      simp only [preorder, List.mem_singleton, char.injEq]
      constructor
      · rintro ⟨w, rfl, hc⟩
        exact List.mem_singleton.mp hc
      · rintro rfl
        exact ⟨[c], rfl, List.mem_singleton_self c⟩
  | epsilon =>
      simp only [preorder, List.mem_singleton, reduceCtorEq, iff_false]
      rintro ⟨w, rfl, hc⟩
      cases hc
  | union left right ihLeft ihRight =>
      simp only [preorder, List.mem_cons, reduceCtorEq, false_or, List.mem_append, ← ihLeft,
        ← ihRight]
      constructor
      · rintro ⟨w, hw | hw, hc⟩
        · exact .inl ⟨w, hw, hc⟩
        · exact .inr ⟨w, hw, hc⟩
      · rintro (⟨w, hw, hc⟩ | ⟨w, hw, hc⟩)
        · exact ⟨w, .inl hw, hc⟩
        · exact ⟨w, .inr hw, hc⟩
  | concat left right ihLeft ihRight =>
      simp only [preorder, List.mem_cons, reduceCtorEq, false_or, List.mem_append, ← ihLeft,
        ← ihRight]
      -- a word of one operand needs some word of the other beside it
      obtain ⟨v, hv⟩ := left.exists_mem_language
      obtain ⟨v', hv'⟩ := right.exists_mem_language
      constructor
      · rintro ⟨_, ⟨x, hx, y, hy, rfl⟩, hc⟩
        rcases List.mem_append.mp hc with hc | hc
        · exact .inl ⟨x, hx, hc⟩
        · exact .inr ⟨y, hy, hc⟩
      · rintro (⟨w, hw, hc⟩ | ⟨w, hw, hc⟩)
        · exact ⟨_, Language.append_mem_mul hw hv', List.mem_append_left _ hc⟩
        · exact ⟨_, Language.append_mem_mul hv hw, List.mem_append_right _ hc⟩
  | closure operand ih =>
      simp only [preorder, List.mem_cons, reduceCtorEq, false_or, ← ih]
      constructor
      · rintro ⟨w, hw, hc⟩
        obtain ⟨words, rfl, hwords⟩ := Language.mem_kstar.mp hw
        obtain ⟨word, hword, hc⟩ := List.mem_flatten.mp hc
        exact ⟨word, hwords word hword, hc⟩
      · rintro ⟨w, hw, hc⟩
        have hself : operand.language ≤ operand.language∗ := le_kstar
        exact ⟨w, hself hw, hc⟩

end Expr

namespace Definition

variable {id : Nat} {type raw : String} {verbose : Bool} {d : Definition} {records : List Record}

/-- A run over the automaton of a definition that compiles is alive exactly over the beginnings of
words of the expression.  Every state is on the way to a final one, the first character behind which
no match is possible is the last one that is read, and the characters on transitions are those at
the leaves of the expression. -/
theorem alive_compile_iff (hcompile : compile id type raw verbose = .ok (d, records)) :
    ∃ p e, Pattern.read raw = .ok p ∧ Expr.ofPattern p = .ok e ∧
      (∀ u, ((Dfa.Run.atStart d.dfa).follow d.dfa u).isDead = false ↔ ∃ v, u ++ v ∈ e.language) ∧
      (∀ q < d.dfa.size, ∃ v, ((⟨some q⟩ : Dfa.Run).follow d.dfa v).accepts d.dfa = true) ∧
      (∀ u c rest, (∃ v, u ++ v ∈ e.language) → (∀ v, u ++ c :: v ∉ e.language) →
        ((Dfa.Run.atStart d.dfa).trail d.dfa (u ++ c :: rest)).length = u.length + 1) ∧
      ∀ c, c ∈ d.dfa.alphabet ↔ .char c ∈ e.preorder := by
  obtain ⟨c, hc, rfl, -⟩ := compile_eq_ok_iff.mp hcompile
  obtain ⟨hp, he, hn, hdfa⟩ := Compilation.ofText_eq_ok_iff.mp hc
  obtain ⟨-, hlanguage, htrim⟩ := Compilation.languages hc
  have hreach : ∀ q < c.dfa.size, ∃ u, c.dfa.after u = some q := by
    obtain ⟨n, hn', hfragment, -⟩ := Nfa.exists_ofExpr c.expr
    obtain rfl : n = c.nfa := Except.ok.inj (hn'.symm.trans hn)
    rw [hdfa]
    exact fun q => Dfa.exists_after_ofNfa hfragment.wellFormed
  have halive (u : List Char) : c.dfa.after u ≠ none ↔ ∃ v, u ++ v ∈ c.expr.language := by
    rw [← hlanguage]
    exact htrim.after_ne_none_iff
  refine ⟨c.pattern, c.expr, hp, he, ?_, ?_, ?_, ?_⟩
  · intro u
    rw [Dfa.isDead_follow_atStart, halive]
  · intro q hq
    obtain ⟨u, hu⟩ := hreach q hq
    obtain ⟨v, hv⟩ := htrim u (hu ▸ Option.some_ne_none q)
    refine ⟨v, ?_⟩
    obtain ⟨r, hr, hfinal⟩ := Dfa.mem_language.mp hv
    rw [Dfa.follow_eq_afterFrom, ← hu, ← Dfa.after_append, Option.mem_def.mp hr]
    exact hfinal
  · intro u a rest hu hdead
    apply Dfa.length_trail ((halive u).mpr hu)
    by_contra hne
    obtain ⟨v, hv⟩ := (halive (u ++ [a])).mp hne
    rw [List.append_assoc] at hv
    exact hdead v hv
  · intro a
    rw [htrim.mem_alphabet_iff hreach, hlanguage, Expr.exists_mem_language_iff]

theorem alive_compile_iff_star_then_char :
    ∃ d, compile 0 "WORD" "a*b" false = .ok (d, []) ∧
      (∀ u, ((Dfa.Run.atStart d.dfa).follow d.dfa u).isDead = false ↔
        ∃ v, u ++ v ∈ ({['a']}∗ * {['b']} : Language Char)) ∧
      ∀ c, c ∈ d.dfa.alphabet ↔ .char c ∈ [Expr.concat (.closure (.char 'a')) (.char 'b'),
        .closure (.char 'a'), .char 'a', .char 'b'] := by
  have hread : Pattern.read "a*b" = .ok ⟨"a*b", [.char 'a', .closure, .char 'b']⟩ := by decide
  have hexpr : Expr.ofPattern ⟨"a*b", [.char 'a', .closure, .char 'b']⟩ =
      .ok (.concat (.closure (.char 'a')) (.char 'b')) := by decide
  obtain ⟨c, hc, -, -⟩ := Compilation.exists_ofText hread hexpr
  have hcompile : compile 0 "WORD" "a*b" false = .ok (⟨0, "WORD", "a*b", c.dfa⟩, []) :=
    compile_eq_ok_iff.mpr ⟨c, hc, rfl, rfl⟩
  obtain ⟨p, e, hp, he, halive, -, -, halphabet⟩ := alive_compile_iff hcompile
  obtain rfl : _ = p := Except.ok.inj (hread.symm.trans hp)
  obtain rfl : _ = e := Except.ok.inj (hexpr.symm.trans he)
  exact ⟨_, hcompile, halive, halphabet⟩

end Definition

end MaximalMunch
