import MaximalMunch.Pattern.Quoting
import MaximalMunch.Proofs.Expr.Faults
import MaximalMunch.Proofs.Pattern.Reading

/-!
# Writing patterns

A row of tokens is written with a backslash in front of every literal that would mean something
else, and reading the text finds the same tokens.  The normal form of a pattern has nothing left to
be written out, neither blocks nor concatenations, so `read_text` can say that it is a pattern with
the same normal form and the same expression.  A quoted text is the row of its characters as
literals.
-/

namespace MaximalMunch

namespace Pattern

variable {ts ts' : List Token} {left right t : Token} {text : List Char}

/-! ## Rows of tokens -/

theorem tokensText_cons (t : Token) (ts : List Token) :
    tokensText (t :: ts) = t.text ++ tokensText ts :=
  List.flatMap_cons

theorem text_char (c : Char) : (Token.char c).text = if c ∈ specials then ['\\', c] else [c] := rfl

theorem text_of_ne_char (ht : ∀ c, t ≠ .char c) : t.text = [t.symbol] := by
  cases t with
  | char c => exact absurd rfl (ht c)
  | epsilon | union | concat | closure | groupOpen | groupClose => rfl

/-- A written token spells itself. -/
theorem Spells.token {ss : List Sign} (h : Spells text ss) (t : Token) :
    Spells (t.text ++ text) (.token t :: ss) := by
  by_cases hchar : ∃ c, t = .char c
  · obtain ⟨c, rfl⟩ := hchar
    rw [text_char]
    by_cases hc : c ∈ specials
    · rw [if_pos hc]
      exact h.escaped c
    · rw [if_neg hc]
      exact h.plain hc
  · have ht : ∀ c, t ≠ .char c := fun c heq => hchar ⟨c, heq⟩
    rw [text_of_ne_char ht]
    show Spells ((Sign.token t).symbol :: text) (.token t :: ss)
    apply Spells.special _ h
    intro c heq
    exact ht c (Sign.token.inj heq)

theorem spells_tokensText (ts : List Token) : Spells (tokensText ts) (ts.map .token) := by
  induction ts with
  | nil => exact .nil
  | cons t ts ih =>
      rw [tokensText_cons]
      exact ih.token t

theorem writtenOut_map_token (ts : List Token) : WrittenOut (ts.map .token) ts := by
  induction ts with
  | nil => exact .nil
  | cons t ts ih => exact ih.token t

/-- Written tokens are read back. -/
theorem readTokens_tokensText (hne : ts ≠ []) : readTokens (tokensText ts) = .ok ts := by
  have hspells := spells_tokensText ts
  apply readTokens_eq_ok_iff.mpr
  refine ⟨?_, _, hspells, writtenOut_map_token ts⟩
  intro htext
  exact hne (List.map_eq_nil_iff.mp (hspells.eq_nil_iff.mpr htext))

theorem ne_nil_of_readTokens (h : readTokens text = .ok ts) : ts ≠ [] := by
  obtain ⟨hne, ss, hspells, hwritten⟩ := readTokens_eq_ok_iff.mp h
  intro hnil
  exact hne (hspells.eq_nil_iff.mp (hwritten.eq_nil_iff.mp hnil))

theorem tokensText_injective (h : tokensText ts = tokensText ts') : ts = ts' := by
  have hspells := spells_tokensText ts
  rw [h] at hspells
  apply List.map_injective_iff.mpr _ (hspells.unique (spells_tokensText ts'))
  intro t t' ht
  exact Sign.token.inj ht

/-! ## Normal forms -/

theorem exists_juxtapose_cons (t : Token) (ts : List Token) :
    ∃ rest, juxtapose (t :: ts) = t :: rest := by
  cases ts with
  | nil => exact ⟨[], rfl⟩
  | cons right rest =>
      unfold juxtapose
      split
      · exact ⟨_, rfl⟩
      · exact ⟨_, rfl⟩

theorem juxtapose_cons_of_apart (h : ¬(left.endsOperand && right.beginsOperand) = true)
    (rest : List Token) :
    juxtapose (left :: right :: rest) = left :: juxtapose (right :: rest) := by
  rw [juxtapose, if_neg h]

/-- No concatenation is written out twice. -/
theorem juxtapose_juxtapose (ts : List Token) : juxtapose (juxtapose ts) = juxtapose ts := by
  fun_induction juxtapose ts with
  | case1 => rfl
  | case2 t => rfl
  | case3 left right rest hbeside ih =>
      obtain ⟨behind, hbehind⟩ := exists_juxtapose_cons right rest
      rw [juxtapose_cons_of_apart (by simp [Token.beginsOperand])]
      rw [hbehind] at ih ⊢
      rw [juxtapose_cons_of_apart (by simp [Token.endsOperand]), ih]
  | case4 left right rest hapart ih =>
      obtain ⟨behind, hbehind⟩ := exists_juxtapose_cons right rest
      rw [hbehind] at ih ⊢
      rw [juxtapose_cons_of_apart hapart, ih]

theorem juxtapose_eq_nil_iff : juxtapose ts = [] ↔ ts = [] := by
  cases ts with
  | nil => exact iff_of_true rfl rfl
  | cons t ts =>
      obtain ⟨rest, hrest⟩ := exists_juxtapose_cons t ts
      simp [hrest]

end Pattern

namespace Expr

variable {p q : Pattern}

/-- The expression of a pattern depends on its normal form only, and so does the fault of a pattern
that has none. -/
theorem ofPattern_of_normalized_eq (h : q.normalized = p.normalized) :
    (∃ e, ofPattern p = .ok e ∧ ofPattern q = .ok e) ∨
      ∃ fault, FailsFor p fault ∧ FailsFor q fault := by
  simp only [ofPattern_eq_ok_iff, failsFor_iff, h]
  cases ofTokens p.normalized with
  | ok e => exact .inl ⟨e, rfl, rfl⟩
  | error fault => exact .inr ⟨fault, rfl, rfl⟩

end Expr

namespace Pattern

/-- The normal form of a pattern, as a text, is a pattern with these tokens.  It is its own normal
form, it has the expression of the first pattern, or its fault, and no pattern with another normal
form has the same text. -/
theorem read_text {raw : String} {p : Pattern} (hp : read raw = .ok p) :
    (∃ q, read p.text = .ok q ∧ q.tokens = p.normalized ∧ q.normalized = p.normalized ∧
      q.text = p.text ∧ ((∃ e, Expr.ofPattern p = .ok e ∧ Expr.ofPattern q = .ok e) ∨
        ∃ fault, Expr.FailsFor p fault ∧ Expr.FailsFor q fault)) ∧
    ∀ raw' p', read raw' = .ok p' → p'.text = p.text → p'.normalized = p.normalized := by
  constructor
  · obtain ⟨-, hread⟩ := read_eq_ok_iff_readTokens.mp hp
    have hne : p.normalized ≠ [] := fun hnil =>
      ne_nil_of_readTokens hread (juxtapose_eq_nil_iff.mp hnil)
    have hq : read p.text = .ok ⟨p.text, p.normalized⟩ := by
      apply read_eq_ok_iff_readTokens.mpr
      refine ⟨rfl, ?_⟩
      rw [Pattern.text, String.toList_ofList]
      exact readTokens_tokensText hne
    have hnormalized : normalized ⟨p.text, p.normalized⟩ = p.normalized :=
      juxtapose_juxtapose p.tokens
    refine ⟨_, hq, rfl, hnormalized, ?_, Expr.ofPattern_of_normalized_eq hnormalized⟩
    rw [Pattern.text, hnormalized, ← Pattern.text]
  · intro raw' p' _ htext
    exact tokensText_injective (String.ofList_injective htext)

/-- The block is written out, and what it offers is escaped where that is needed. -/
theorem read_text_block :
    read "a[\\[\\]]*" = .ok ⟨"a[\\[\\]]*", [.char 'a', .groupOpen, .char '[', .union, .char '\\',
      .union, .char ']', .groupClose, .closure]⟩ ∧
    ∃ q, read "a.(\\[|\\\\|\\])*" = .ok q ∧ q.text = "a.(\\[|\\\\|\\])*" := by
  have hread : read "a[\\[\\]]*" = .ok ⟨"a[\\[\\]]*", [.char 'a', .groupOpen, .char '[', .union,
      .char '\\', .union, .char ']', .groupClose, .closure]⟩ := by rfl
  obtain ⟨q, hq, -, -, htext, -⟩ := (read_text hread).1
  exact ⟨hread, q, hq, htext⟩

/-! ## Quoted texts -/

/-- A quoted text is written as the row of its characters. -/
theorem quoteChars_eq_tokensText (text : List Char) :
    quoteChars text = tokensText (text.map .char) := by
  unfold quoteChars tokensText
  rw [List.flatMap_map]
  rfl

theorem unquoteChars_cons {c : Char} (hc : c ≠ '\\') (text : List Char) :
    unquoteChars (c :: text) = c :: unquoteChars text := by
  rw [unquoteChars]
  intro d rest h
  exact absurd h hc

theorem unquoteChars_quoteChars (text : List Char) : unquoteChars (quoteChars text) = text := by
  induction text with
  | nil => rfl
  | cons c text ih =>
      have hcons : quoteChars (c :: text) =
          (if c ∈ specials then ['\\', c] else [c]) ++ quoteChars text := List.flatMap_cons
      rw [hcons]
      by_cases hc : c ∈ specials
      · rw [if_pos hc]
        show c :: unquoteChars (quoteChars text) = c :: text
        rw [ih]
      · rw [if_neg hc]
        show unquoteChars (c :: quoteChars text) = c :: text
        rw [unquoteChars_cons (ne_backslash_of_not_mem hc), ih]

end Pattern

end MaximalMunch
