import MaximalMunch.Expr.Postfix

/-!
# The grammar of patterns

The expressions that a row of tokens derives, before concatenations are written out:

    E := T | E '|' T        T := F | T F | T '.' F        F := A | F '*'
    A := char | epsilon | '(' E ')'

Every alternative has its own rule in `Derives`, which also tells the expression it stands for.
The conversion to postfix order is followed token by token over the row as it was read: `Progress`
remembers whether an operand has just ended, which is all that writing out concatenations needs
to know.  A derivation of the row then leads the conversion to the expression it derives.
-/

namespace MaximalMunch

open Pattern (Token Fault juxtapose)

namespace Postfix

/-- The nonterminals E, T, F and A of the grammar. -/
inductive Level where
  | union
  | concat
  | closure
  | atom
  deriving DecidableEq, Repr

/-- Whether an expression of this level can leave an operator waiting. -/
def Level.leaves : Level → Operator → Bool
  | .union, op => Operator.union.yields op
  | .concat, op => Operator.concat.yields op
  | .closure, _ | .atom, _ => false

/-- The expressions that a row of tokens derives. -/
inductive Derives : Level → List Token → Expr → Prop where
  | ofConcat {ts e} (h : Derives .concat ts e) : Derives .union ts e
  | union {us vs left right} (hleft : Derives .union us left) (hright : Derives .concat vs right) :
      Derives .union (us ++ .union :: vs) (.union left right)
  | ofClosure {ts e} (h : Derives .closure ts e) : Derives .concat ts e
  | juxtapose {us vs left right} (hleft : Derives .concat us left)
      (hright : Derives .closure vs right) : Derives .concat (us ++ vs) (.concat left right)
  | concat {us vs left right} (hleft : Derives .concat us left)
      (hright : Derives .closure vs right) :
      Derives .concat (us ++ .concat :: vs) (.concat left right)
  | ofAtom {ts e} (h : Derives .atom ts e) : Derives .closure ts e
  | closure {ts e} (h : Derives .closure ts e) :
      Derives .closure (ts ++ [.closure]) (.closure e)
  | char (c : Char) : Derives .atom [.char c] (.char c)
  | epsilon : Derives .atom [.epsilon] .epsilon
  | group {ts e} (h : Derives .union ts e) :
      Derives .atom (.groupOpen :: ts ++ [.groupClose]) e

variable {level : Level} {ts us vs : List Token} {t : Token} {e left right : Expr}

theorem Derives.exists_cons (h : Derives level ts e) :
    ∃ t rest, ts = t :: rest ∧ t.beginsOperand = true := by
  induction h with
  | ofConcat _ ih | ofClosure _ ih | ofAtom _ ih => exact ih
  | union _ _ ih _ | juxtapose _ _ ih _ | concat _ _ ih _ | closure _ ih =>
      obtain ⟨t, rest, rfl, ht⟩ := ih
      exact ⟨t, _, List.cons_append, ht⟩
  | char | epsilon | group => exact ⟨_, _, rfl, rfl⟩

/-! ## Operands -/

/-- The operands that items written so far, the latest first, leave on the stack. -/
def operands (items : List Item) : Except Fault (List Expr) :=
  items.foldrM (fun item stack => apply stack item) []

@[simp]
theorem operands_cons (item : Item) (items : List Item) :
    operands (item :: items) = operands items >>= (apply · item) := by
  simp [operands]

/-- The first of the operators that are written is applied first. -/
@[simp]
theorem write_cons (yard : Yard) (op : Operator) (ops : List Operator) :
    yard.write (op :: ops) = { yard with items := .operator op :: yard.items }.write ops := by
  simp [Yard.write]

@[simp]
theorem write_nil (yard : Yard) : yard.write [] = yard.items := rfl

theorem write_append (yard : Yard) (ops ops' : List Operator) :
    yard.write (ops ++ ops') = (ops'.map Item.operator).reverse ++ yard.write ops := by
  simp [Yard.write]

theorem build_reverse (items : List Item) :
    build items.reverse = operands items >>= fun
      | [e] => .ok e
      | stack => .error (.expressionCount stack.length) := by
  rw [build, List.foldlM_reverse]
  rfl

/-! ## Writing out concatenations on the way -/

/-- Where the conversion stands, and whether an operand has just ended. -/
structure Progress where
  closed : Bool
  yard : Yard

/-- Treats the concatenation that belongs in front of a token, if any. -/
def Progress.glue (p : Progress) (t : Token) : Except Fault Yard :=
  if p.closed && t.beginsOperand then p.yard.step .concat else .ok p.yard

/-- Treats one token, behind the concatenation that belongs in front of it. -/
def Progress.step (p : Progress) (t : Token) : Except Fault Progress := do
  let yard ← p.glue t
  let yard ← yard.step t
  return ⟨t.endsOperand, yard⟩

/-- Treats tokens in order. -/
def Progress.run (p : Progress) (ts : List Token) : Except Fault Progress :=
  ts.foldlM Progress.step p

@[simp]
theorem Progress.run_nil (p : Progress) : p.run [] = .ok p := rfl

theorem Progress.run_cons (p : Progress) (t : Token) (ts : List Token) :
    p.run (t :: ts) = p.step t >>= (·.run ts) := by
  simp [run]

theorem Progress.run_append (p : Progress) (us vs : List Token) :
    p.run (us ++ vs) = p.run us >>= (·.run vs) := by
  simp [run]

theorem run_open (yard : Yard) (t : Token) (ts : List Token) :
    Progress.run ⟨false, yard⟩ (t :: ts) =
      yard.step t >>= fun yard => Progress.run ⟨t.endsOperand, yard⟩ ts := by
  simp [Progress.run_cons, Progress.step, Progress.glue]

theorem run_closed (yard : Yard) (ht : t.beginsOperand = true) :
    Progress.run ⟨true, yard⟩ (t :: ts) =
      yard.step .concat >>= fun yard => Progress.run ⟨false, yard⟩ (t :: ts) := by
  simp [Progress.run_cons, Progress.step, Progress.glue, ht]

theorem run_of_no_concat {closed : Bool} (yard : Yard)
    (hnone : ¬ (closed && t.beginsOperand) = true) :
    Progress.run ⟨closed, yard⟩ (t :: ts) = Progress.run ⟨false, yard⟩ (t :: ts) := by
  simp [Progress.run_cons, Progress.step, Progress.glue, hnone]

/-- Concatenations can as well be written out while the tokens are treated. -/
theorem foldlM_juxtapose (yard : Yard) (ts : List Token) :
    (juxtapose ts).foldlM Yard.step yard =
      Progress.run ⟨false, yard⟩ ts >>= fun p => .ok p.yard := by
  fun_induction juxtapose ts generalizing yard with
  | case1 => rfl
  | case2 token =>
      simp only [run_open, List.foldlM_cons, Progress.run_nil, List.foldlM_nil, bind_assoc, ok_bind]
      rfl
  | case3 left right rest hglue ih =>
      -- a concatenation is written here, and the run writes it before it treats the next token
      obtain ⟨hleft, hright⟩ := Bool.and_eq_true_iff.mp hglue
      rw [run_open, hleft]
      simp only [List.foldlM_cons, ih, run_closed _ hright, bind_assoc]
  | case4 left right rest hglue ih =>
      rw [run_open]
      simp only [List.foldlM_cons, ih, run_of_no_concat _ hglue, bind_assoc]

/-- The expression of a row of tokens is the one operand that is left in the end. -/
theorem ofTokens_juxtapose_eq_ok_iff :
    Expr.ofTokens (juxtapose ts) = .ok e ↔ ∃ p, Progress.run ⟨false, [], [], []⟩ ts = .ok p ∧
      p.yard.outer = [] ∧ operands (p.yard.write p.yard.waiting) = .ok [e] := by
  -- what is checked behind the last token: no group is open and one operand is left
  have hfinish : ∀ yard : Yard, (yard.finish >>= build) = .ok e ↔
      yard.outer = [] ∧ operands (yard.write yard.waiting) = .ok [e] := by
    intro yard
    cases houter : yard.outer with
    | cons waiting outer => simp [Yard.finish, houter]
    | nil =>
        simp only [Yard.finish, houter, ok_bind, build_reverse, true_and]
        cases hstack : operands (yard.write yard.waiting) with
        | error fault => simp
        | ok stack =>
            match stack with
            | [] => simp
            | [f] => simp
            | f :: g :: stack => simp
  rw [Expr.ofTokens, ofTokens, foldlM_juxtapose]
  simp only [bind_assoc, ok_bind]
  rw [bind_eq_ok]
  simp only [hfinish]

/-! ## From derivations to expressions -/

/-- The expression of two operands. -/
def join : Operator → Expr → Expr → Expr
  | .union => .union
  | .concat => .concat

theorem apply_operator (op : Operator) (left right : Expr) (stack : List Expr) :
    apply (right :: left :: stack) (.operator op) = .ok (join op left right :: stack) := by
  cases op <;> rfl

/-- The tokens lead the conversion past one more operand.  Its operators may still wait, in front
of those that waited before; once they are written, the operand is on the stack. -/
def Converts (level : Level) (ts : List Token) (e : Expr) : Prop :=
  ∀ (yard : Yard) (stack : List Expr), operands yard.items = .ok stack →
    (∀ op ∈ yard.waiting, level.leaves op = false) →
    ∃ yard' ops, Progress.run ⟨false, yard⟩ ts = .ok ⟨true, yard'⟩ ∧ yard'.outer = yard.outer ∧
      yard'.waiting = ops ++ yard.waiting ∧ (∀ op ∈ ops, level.leaves op = true) ∧
      operands (yard'.write ops) = .ok (e :: stack)

theorem Converts.mono {level' : Level} (h : Converts level ts e)
    (hleaves : ∀ op, level.leaves op = true → level'.leaves op = true) :
    Converts level' ts e := by
  intro yard stack hstack hwaiting
  -- operators that the wider level cannot leave, the narrower one cannot leave either
  have hfree : ∀ op ∈ yard.waiting, level.leaves op = false := by
    intro op hop
    apply Bool.eq_false_iff.mpr
    intro hleaf
    have hfalse := hleaves op hleaf
    rw [hwaiting op hop] at hfalse
    cases hfalse
  obtain ⟨yard', ops, hrun, houter, hwait, hops, hstack'⟩ := h yard stack hstack hfree
  exact ⟨yard', ops, hrun, houter, hwait, fun op hop => hleaves op (hops op hop), hstack'⟩

/-- A binary operator releases the operators that its left operand has left waiting, and no
others. -/
theorem shift_eq {yard : Yard} {op : Operator} {ops waiting : List Operator}
    (hwaiting : yard.waiting = ops ++ waiting) (hops : ∀ o ∈ ops, op.yields o = true)
    (hnone : ∀ o ∈ waiting, op.yields o = false) :
    yard.shift op = ⟨yard.write ops, op :: waiting, yard.outer⟩ := by
  -- the first operator that is not released stops the release
  have htake : waiting.takeWhile op.yields = [] ∧ waiting.dropWhile op.yields = waiting := by
    cases waiting with
    | nil => exact ⟨rfl, rfl⟩
    | cons o waiting =>
        have ho := hnone o List.mem_cons_self
        simp [ho]
  rw [Yard.shift, hwaiting, List.takeWhile_append_of_pos hops, List.dropWhile_append_of_pos hops,
    htake.1, htake.2, List.append_nil]

/-- Two operands with a binary operator between them, written or not. -/
theorem Converts.binary {level' : Level} {middle : List Token} (op : Operator)
    (hleft : Converts level us left) (hright : Converts level' vs right)
    (hlevel : ∀ o, level.leaves o = op.yields o) (hself : op.yields op = true)
    (hlevel' : ∀ o, level'.leaves o = true → op.yields o = true) (hop : level'.leaves op = false)
    (hmiddle : ∀ yard : Yard,
      Progress.run ⟨true, yard⟩ middle = Progress.run ⟨false, yard.shift op⟩ vs) :
    Converts level (us ++ middle) (join op left right) := by
  intro yard stack hstack hwaiting
  obtain ⟨yard₁, ops₁, hrun₁, houter₁, hwaiting₁, hops₁, hstack₁⟩ :=
    hleft yard stack hstack hwaiting
  -- the operator releases what the left operand has left, which completes the left operand
  have hshift : yard₁.shift op = ⟨yard₁.write ops₁, op :: yard.waiting, yard₁.outer⟩ :=
    shift_eq hwaiting₁ (fun o ho => hlevel o ▸ hops₁ o ho) (fun o ho => hlevel o ▸ hwaiting o ho)
  -- the right operand leaves less, so it finds the operator and those before it as it must
  have hfree : ∀ o ∈ op :: yard.waiting, level'.leaves o = false := by
    intro o ho
    rcases List.mem_cons.mp ho with rfl | ho
    · exact hop
    · apply Bool.eq_false_iff.mpr
      intro hleaf
      have hyields := hlevel' o hleaf
      rw [← hlevel, hwaiting o ho] at hyields
      cases hyields
  obtain ⟨yard₂, ops₂, hrun₂, houter₂, hwaiting₂, hops₂, hstack₂⟩ :=
    hright ⟨yard₁.write ops₁, op :: yard.waiting, yard₁.outer⟩ (left :: stack) hstack₁ hfree
  refine ⟨yard₂, ops₂ ++ [op], ?_, houter₂.trans houter₁, ?_, ?_, ?_⟩
  · rw [Progress.run_append, hrun₁, ok_bind, hmiddle, hshift, hrun₂]
  · rw [hwaiting₂, List.append_assoc, List.singleton_append]
  · intro o ho
    rw [hlevel]
    rcases List.mem_append.mp ho with ho | ho
    · exact hlevel' o (hops₂ o ho)
    · rw [List.mem_singleton.mp ho, hself]
  · rw [write_append]
    show operands (.operator op :: yard₂.write ops₂) = _
    rw [operands_cons, hstack₂, ok_bind, apply_operator]

/-- An operand without operators that could wait. -/
theorem Converts.of_step {level : Level}
    (h : ∀ (yard : Yard) (stack : List Expr), operands yard.items = .ok stack → ∃ items,
      Progress.run ⟨false, yard⟩ ts = .ok ⟨true, { yard with items }⟩ ∧
        operands items = .ok (e :: stack)) : Converts level ts e := by
  intro yard stack hstack _
  obtain ⟨items, hrun, hstack'⟩ := h yard stack hstack
  exact ⟨_, [], hrun, rfl, rfl, by simp, hstack'⟩

theorem Derives.converts (h : Derives level ts e) : Converts level ts e := by
  induction h with
  | ofConcat _ ih => exact ih.mono fun op _ => by cases op <;> rfl
  | ofClosure _ ih => exact ih.mono fun op hop => by cases hop
  | ofAtom _ ih => exact ih.mono fun op hop => by cases hop
  | union _ _ ihleft ihright =>
      apply ihleft.binary .union ihright (fun _ => rfl) rfl _ rfl
      · intro yard
        rw [run_of_no_concat _ (by decide), run_open]
        rfl
      · intro o _
        cases o <;> rfl
  | concat _ _ ihleft ihright =>
      apply ihleft.binary .concat ihright (fun _ => rfl) rfl _ rfl
      · intro yard
        rw [run_of_no_concat _ (by decide), run_open]
        rfl
      · intro o ho
        cases ho
  | juxtapose _ hright ihleft ihright =>
      apply ihleft.binary .concat ihright (fun _ => rfl) rfl _ rfl
      · intro yard
        -- nothing stands in between, but the right operand begins with a token that begins one
        obtain ⟨t, rest, rfl, ht⟩ := hright.exists_cons
        rw [run_closed _ ht]
        rfl
      · intro o ho
        cases ho
  | char c =>
      apply Converts.of_step
      intro yard stack hstack
      refine ⟨.char c :: yard.items, rfl, ?_⟩
      rw [operands_cons, hstack]
      rfl
  | epsilon =>
      apply Converts.of_step
      intro yard stack hstack
      refine ⟨.epsilon :: yard.items, rfl, ?_⟩
      rw [operands_cons, hstack]
      rfl
  | closure _ ih =>
      intro yard stack hstack hwaiting
      obtain ⟨yard', ops, hrun, houter, hwaiting', hops, hstack'⟩ := ih yard stack hstack hwaiting
      -- no operator is left waiting, so the closure is written right behind its operand
      obtain rfl : ops = [] := List.eq_nil_iff_forall_not_mem.mpr fun op hop => by
        cases hops op hop
      refine ⟨{ yard' with items := .closure :: yard'.items }, [], ?_, houter, hwaiting', hops, ?_⟩
      · rw [Progress.run_append, hrun, ok_bind, run_of_no_concat _ (by decide), run_open]
        rfl
      · rw [write_nil, operands_cons, ← write_nil, hstack']
        rfl
  | group _ ih =>
      intro yard stack hstack hwaiting
      -- inside, no operator waits yet; the closing sign writes those that are left
      obtain ⟨yard', ops, hrun, houter, hwaiting', hops, hstack'⟩ :=
        ih { yard with waiting := [], outer := yard.waiting :: yard.outer } stack hstack (by simp)
      refine ⟨⟨yard'.write yard'.waiting, yard.waiting, yard.outer⟩, [], ?_, rfl, rfl, by simp, ?_⟩
      · rw [List.cons_append, run_open]
        show Progress.run ⟨false, _⟩ _ = _
        rw [Progress.run_append, hrun, ok_bind, run_of_no_concat _ (by decide), run_open]
        simp [Yard.step, houter, Token.endsOperand]
      · rw [hwaiting', List.append_nil]
        exact hstack'

/-- Every derivation of a row of tokens is found. -/
theorem Derives.ofTokens (h : Derives .union ts e) : Expr.ofTokens (Pattern.juxtapose ts) = .ok e := by
  obtain ⟨yard, ops, hrun, houter, hwaiting, -, hstack⟩ := h.converts ⟨[], [], []⟩ [] rfl (by simp)
  rw [ofTokens_juxtapose_eq_ok_iff]
  refine ⟨⟨true, yard⟩, hrun, houter, ?_⟩
  rw [hwaiting, List.append_nil]
  exact hstack

end Postfix

end MaximalMunch
