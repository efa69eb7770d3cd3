import Mathlib
import MaximalMunch.Proofs.Expr.Grammar

/-!
# The parser accepts its grammar

The conversion to postfix order checks groups only, and reading the items checks only that every
operator finds operands.  A misplaced token shows nowhere but in the number of operands in the end.
`Yard.balance` counts the operands that there would be if all waiting operators were written: it
is zero where an operand may begin and one where an operand has just ended, and from a misplaced
token on it cannot come back to one.  As long as no token is misplaced the operands on the stack
are derived from the tokens read, which is what `Ready` and `Stands` keep.
-/

namespace MaximalMunch

open Pattern (Token Fault juxtapose)

namespace Postfix

/-- Tokens behind which an operand may begin, with the operators that wait, group by group, and
the operands on the stack.  Every operator that waits has its left operand there. -/
inductive Ready : List Token → List Operator → List (List Operator) → List Expr → Prop where
  | start : Ready [] [] [] []
  | group {ts waiting outer stack} (h : Ready ts waiting outer stack) :
      Ready (ts ++ [.groupOpen]) [] (waiting :: outer) stack
  | union {ts us outer stack e} (h : Ready ts [] outer stack) (he : Derives .union us e) :
      Ready (ts ++ us ++ [.union]) [.union] outer (e :: stack)
  | concat {ts us sign waiting outer stack e} (h : Ready ts waiting outer stack)
      (hwaiting : ∀ o ∈ waiting, Operator.concat.yields o = false) (he : Derives .concat us e)
      (hsign : sign = [] ∨ sign = [.concat]) :
      Ready (ts ++ us ++ sign) (.concat :: waiting) outer (e :: stack)

variable {level : Level} {ts us vs : List Token} {t : Token} {e : Expr} {op : Operator}
  {waiting : List Operator} {outer : List (List Operator)} {stack : List Expr}

/-! ## The balance -/

/-- The number of operands that an item adds. -/
def weight : Item → Int
  | .char _ | .epsilon => 1
  | .closure => 0
  | .operator _ => -1

/-- The number of operands, once the operators that wait have been written. -/
def Yard.balance (yard : Yard) : Int :=
  (yard.items.map weight).sum - yard.waiting.length - yard.outer.flatten.length

theorem length_of_operands {items : List Item} (h : operands items = .ok stack) :
    (stack.length : Int) = (items.map weight).sum := by
  induction items generalizing stack with
  | nil =>
      obtain rfl := Except.ok.inj h
      rfl
  | cons item items ih =>
      rw [operands_cons] at h
      obtain ⟨below, hbelow, happly⟩ := bind_eq_ok.mp h
      have hlength := ih hbelow
      rw [List.map_cons, List.sum_cons, ← hlength]
      -- as in the definition of `apply`, the cases go by the item and by how much it finds
      match below, item, happly with
      | below, .char c, happly | below, .epsilon, happly =>
          obtain rfl := Except.ok.inj happly
          show ((below.length + 1 : Nat) : Int) = 1 + below.length
          omega
      | operand :: below, .closure, happly =>
          obtain rfl := Except.ok.inj happly
          show ((below.length + 1 : Nat) : Int) = 0 + (below.length + 1 : Nat)
          omega
      | [], .operator op, happly | [_], .operator op, happly =>
          cases op <;> cases happly
      | right :: left :: below, .operator op, happly =>
          rw [apply_operator] at happly
          obtain rfl := Except.ok.inj happly
          show ((below.length + 1 : Nat) : Int) = -1 + (below.length + 2 : Nat)
          omega

@[simp]
theorem sum_write (yard : Yard) (ops : List Operator) :
    ((yard.write ops).map weight).sum = (yard.items.map weight).sum - ops.length := by
  induction ops generalizing yard with
  | nil => simp
  | cons op ops ih =>
      rw [write_cons, ih]
      simp [weight]
      omega

/-- The number of operands that a token adds. -/
def tokenWeight : Token → Int
  | .char _ | .epsilon => 1
  | .closure | .groupOpen | .groupClose => 0
  | .union | .concat => -1

/-- The operators that wait are those that an operator releases and those that stay. -/
theorem length_released (op : Operator) (waiting : List Operator) :
    (waiting.takeWhile op.yields).length + (waiting.dropWhile op.yields).length =
      waiting.length := by
  rw [← List.length_append, List.takeWhile_append_dropWhile]

theorem balance_shift (yard : Yard) (op : Operator) :
    (yard.shift op).balance = yard.balance - 1 := by
  have hlength := length_released op yard.waiting
  simp [Yard.balance, Yard.shift]
  omega

theorem balance_step {yard yard' : Yard} (h : yard.step t = .ok yard') :
    yard'.balance = yard.balance + tokenWeight t := by
  cases t with
  | char c =>
      obtain rfl := Except.ok.inj h
      simp [Yard.balance, tokenWeight, weight]
      omega
  | epsilon =>
      obtain rfl := Except.ok.inj h
      simp [Yard.balance, tokenWeight, weight]
      omega
  | closure =>
      obtain rfl := Except.ok.inj h
      simp [Yard.balance, tokenWeight, weight]
  | union | concat =>
      obtain rfl := Except.ok.inj h
      rw [balance_shift, tokenWeight]
      omega
  | groupOpen =>
      obtain rfl := Except.ok.inj h
      simp [Yard.balance, tokenWeight]
      omega
  | groupClose =>
      rw [Yard.step] at h
      cases houter : yard.outer with
      | nil =>
          rw [houter] at h
          cases h
      | cons waiting outer =>
          rw [houter] at h
          obtain rfl := Except.ok.inj h
          simp [Yard.balance, tokenWeight, houter]
          omega

/-- Tokens add at most one operand, and none if the first of them has to be joined to an operand
that has ended. -/
theorem balance_run {closed : Bool} {yard : Yard} {p : Progress}
    (h : Progress.run ⟨closed, yard⟩ ts = .ok p) :
    p.yard.balance ≤ yard.balance + if closed then 0 else 1 := by
  induction ts generalizing closed yard with
  | nil =>
      obtain rfl := Except.ok.inj h
      show yard.balance ≤ yard.balance + if closed then 0 else 1
      split <;> omega
  | cons t ts ih =>
      rw [Progress.run_cons] at h
      obtain ⟨middle, hmiddle, hrun⟩ := bind_eq_ok.mp h
      obtain ⟨joined, hjoin, hbehind⟩ := bind_eq_ok.mp hmiddle
      obtain ⟨yard', hstep, hyard'⟩ := bind_eq_ok.mp hbehind
      obtain rfl := Except.ok.inj hyard'
      have hrest := ih hrun
      have htoken := balance_step hstep
      -- a concatenation in front of the token takes away one operand
      have hjoined : joined.balance = yard.balance - if closed && t.beginsOperand then 1 else 0 := by
        rw [Progress.glue] at hjoin
        split at hjoin
        · next hglue =>
            rw [balance_step hjoin, if_pos hglue]
            rfl
        · next hglue =>
            rw [← Except.ok.inj hjoin, if_neg hglue]
            exact (Int.sub_zero _).symm
      revert hrest htoken hjoined
      cases closed <;> cases t <;>
        simp [Token.beginsOperand, Token.endsOperand, tokenWeight] <;> omega

/-- From a misplaced token on the operands do not get more. -/
theorem balance_of_misplaced {yard : Yard} {p : Progress} (hbegins : t.beginsOperand = false)
    (h : Progress.run ⟨false, yard⟩ (t :: ts) = .ok p) : p.yard.balance ≤ yard.balance := by
  rw [run_open] at h
  obtain ⟨yard', hstep, hrun⟩ := bind_eq_ok.mp h
  have htoken := balance_step hstep
  have hrest := balance_run hrun
  revert hrest htoken hbegins
  cases t <;> simp [Token.beginsOperand, Token.endsOperand, tokenWeight] <;> omega

theorem balance_of_finished {yard : Yard} (houter : yard.outer = [])
    (hstack : operands (yard.write yard.waiting) = .ok [e]) : yard.balance = 1 := by
  have hlength := length_of_operands hstack
  rw [sum_write] at hlength
  simp [Yard.balance, houter]
  simp at hlength
  omega

/-! ## Well placed tokens -/

theorem Ready.length_eq (h : Ready ts waiting outer stack) :
    stack.length = waiting.length + outer.flatten.length := by
  induction h with
  | start => rfl
  | group _ ih => simpa using ih
  | union _ _ ih | concat _ _ _ _ ih =>
      simp at ih ⊢
      omega

theorem Ready.balance_eq {yard : Yard} (h : Ready ts yard.waiting yard.outer stack)
    (hstack : operands yard.items = .ok stack) : yard.balance = 0 := by
  have hlength := h.length_eq
  have hsum := length_of_operands hstack
  rw [Yard.balance, ← hsum]
  omega

theorem Ready.eq_nil (h : Ready ts [] [] stack) : ts = [] ∧ stack = [] := by
  cases h
  exact ⟨rfl, rfl⟩

theorem Ready.exists_group (h : Ready ts [] (waiting :: outer) stack) :
    ∃ us, ts = us ++ [.groupOpen] ∧ Ready us waiting outer stack := by
  cases h with
  | group h => exact ⟨_, rfl, h⟩

/-- The tokens end with the left operand that a concatenation takes, once the operators have been
written that it releases. -/
theorem Ready.exists_concat (h : Ready ts waiting outer stack) (he : Derives .closure us e) :
    ∃ ts' us' e' ops waiting' stack', ts ++ us = ts' ++ us' ∧ Ready ts' waiting' outer stack' ∧
      Derives .concat us' e' ∧ waiting = ops ++ waiting' ∧
      (∀ o ∈ ops, Operator.concat.yields o = true) ∧
      (∀ o ∈ waiting', Operator.concat.yields o = false) ∧
      ∀ yard : Yard, operands yard.items = .ok (e :: stack) →
        operands (yard.write ops) = .ok (e' :: stack') := by
  by_cases hwaiting : ∀ o ∈ waiting, Operator.concat.yields o = false
  · -- nothing is released, and the operand itself is the left operand
    exact ⟨ts, us, e, [], waiting, stack, rfl, h, .ofClosure he, rfl, by simp, hwaiting,
      fun _ hstack => hstack⟩
  · -- only a concatenation is released, and none waits behind it
    cases h with
    | start | group => exact absurd (by simp) hwaiting
    | union => exact absurd (by decide) hwaiting
    | @concat ts us' sign waiting outer stack left h hnone hleft hsign =>
        refine ⟨ts, us' ++ sign ++ us, .concat left e, [.concat], waiting, stack, by simp, h, ?_,
          rfl, by decide, hnone, ?_⟩
        · rcases hsign with rfl | rfl
          · rw [List.append_nil]
            exact hleft.juxtapose he
          · rw [List.append_assoc]
            exact hleft.concat he
        · intro yard hstack
          rw [write_cons, write_nil, operands_cons, hstack]
          rfl

/-- The tokens end with all of the innermost open group, once all its operators have been
written. -/
theorem Ready.exists_union (h : Ready ts waiting outer stack) (he : Derives .closure us e) :
    ∃ ts' us' e' stack', ts ++ us = ts' ++ us' ∧ Ready ts' [] outer stack' ∧
      Derives .union us' e' ∧ ∀ yard : Yard, operands yard.items = .ok (e :: stack) →
        operands (yard.write waiting) = .ok (e' :: stack') := by
  obtain ⟨ts', us', e', ops, waiting', stack', hts, h', he', rfl, -, hnone, hwrite⟩ :=
    h.exists_concat he
  -- the concatenations are done; at most one union waits in front of them
  cases h' with
  | start => exact ⟨_, us', e', _, hts, .start, .ofConcat he', by rwa [List.append_nil]⟩
  | group h' => exact ⟨_, us', e', _, hts, h'.group, .ofConcat he', by rwa [List.append_nil]⟩
  | concat => cases hnone .concat List.mem_cons_self
  | @union ts us outer stack left h hleft =>
      refine ⟨ts, us ++ .union :: us', .union left e', stack, by simp [hts], h, hleft.union he', ?_⟩
      intro yard hstack
      rw [write_append]
      show operands (.operator .union :: yard.write ops) = _
      rw [operands_cons, hwrite yard hstack]
      rfl

/-- Where the conversion stands as long as no token was misplaced. -/
inductive Stands (ts : List Token) : Progress → Prop where
  | ready {yard stack} (hready : Ready ts yard.waiting yard.outer stack)
      (hstack : operands yard.items = .ok stack) : Stands ts ⟨false, yard⟩
  | full {us vs yard e stack} (hts : ts = us ++ vs) (hready : Ready us yard.waiting yard.outer stack)
      (he : Derives .closure vs e) (hstack : operands yard.items = .ok (e :: stack)) :
      Stands ts ⟨true, yard⟩

section Step

variable {yard yard' : Yard}

theorem stands_of_ready (hready : Ready ts yard.waiting yard.outer stack)
    (hstack : operands yard.items = .ok stack) (ht : t.beginsOperand = true)
    (hstep : yard.step t = .ok yard') : Stands (ts ++ [t]) ⟨t.endsOperand, yard'⟩ := by
  cases t with
  | char c =>
      obtain rfl := Except.ok.inj hstep
      exact .full rfl hready (.ofAtom (.char c)) (by rw [operands_cons, hstack]; rfl)
  | epsilon =>
      obtain rfl := Except.ok.inj hstep
      exact .full rfl hready (.ofAtom .epsilon) (by rw [operands_cons, hstack]; rfl)
  | groupOpen =>
      obtain rfl := Except.ok.inj hstep
      exact .ready hready.group hstack
  | union | concat | closure | groupClose => cases ht

/-- A concatenation behind an operand, written or not. -/
theorem ready_concat {sign : List Token} (hready : Ready us yard.waiting yard.outer stack)
    (he : Derives .closure vs e) (hstack : operands yard.items = .ok (e :: stack))
    (hsign : sign = [] ∨ sign = [.concat]) :
    ∃ stack', Ready (us ++ vs ++ sign) (yard.shift .concat).waiting (yard.shift .concat).outer stack' ∧
      operands (yard.shift .concat).items = .ok stack' := by
  obtain ⟨us', vs', e', ops, waiting', stack', hts, hready', he', hwaiting, hops, hnone, hwrite⟩ :=
    hready.exists_concat he
  rw [shift_eq hwaiting hops hnone, hts]
  exact ⟨_, hready'.concat hnone he' hsign, hwrite yard hstack⟩

theorem ready_union (hready : Ready us yard.waiting yard.outer stack)
    (he : Derives .closure vs e) (hstack : operands yard.items = .ok (e :: stack)) :
    ∃ stack', Ready (us ++ vs ++ [.union]) (yard.shift .union).waiting (yard.shift .union).outer
        stack' ∧ operands (yard.shift .union).items = .ok stack' := by
  obtain ⟨us', vs', e', stack', hts, hready', he', hwrite⟩ := hready.exists_union he
  have hyields : ∀ o ∈ yard.waiting, Operator.union.yields o = true := by
    intro o _
    cases o <;> rfl
  rw [shift_eq (List.append_nil yard.waiting).symm hyields (by simp), hts]
  exact ⟨_, hready'.union he', hwrite yard hstack⟩

/-- A closing sign ends the innermost open group. -/
theorem stands_of_close (hready : Ready us yard.waiting yard.outer stack)
    (he : Derives .closure vs e) (hstack : operands yard.items = .ok (e :: stack))
    (hstep : yard.step .groupClose = .ok yard') :
    Stands (us ++ vs ++ [.groupClose]) ⟨true, yard'⟩ := by
  rw [Yard.step] at hstep
  cases houter : yard.outer with
  | nil =>
      rw [houter] at hstep
      cases hstep
  | cons waiting outer =>
      rw [houter] at hstep hready
      obtain rfl := Except.ok.inj hstep
      obtain ⟨us', vs', e', stack', hts, hready', he', hwrite⟩ := hready.exists_union he
      obtain ⟨front, rfl, hfront⟩ := hready'.exists_group
      have hgroup : us ++ vs ++ [.groupClose] = front ++ (.groupOpen :: vs' ++ [.groupClose]) := by
        rw [hts]
        simp
      exact .full hgroup hfront (.ofAtom (.group he')) (hwrite yard hstack)

/-- An operator or a closing sign behind an operand. -/
theorem stands_of_full (hready : Ready us yard.waiting yard.outer stack)
    (he : Derives .closure vs e) (hstack : operands yard.items = .ok (e :: stack))
    (ht : t.beginsOperand = false) (hstep : yard.step t = .ok yard') :
    Stands (us ++ vs ++ [t]) ⟨t.endsOperand, yard'⟩ := by
  cases t with
  | char | epsilon | groupOpen => cases ht
  | union =>
      obtain rfl := Except.ok.inj hstep
      obtain ⟨stack', hready', hstack'⟩ := ready_union hready he hstack
      exact .ready hready' hstack'
  | concat =>
      obtain rfl := Except.ok.inj hstep
      obtain ⟨stack', hready', hstack'⟩ := ready_concat hready he hstack (.inr rfl)
      exact .ready hready' hstack'
  | closure =>
      obtain rfl := Except.ok.inj hstep
      refine .full (List.append_assoc us vs _) hready he.closure ?_
      rw [operands_cons, hstack]
      rfl
  | groupClose => exact stands_of_close hready he hstack hstep

end Step

/-- A token that is not misplaced. -/
theorem Stands.step {p p' : Progress} (h : Stands ts p) (hstep : p.step t = .ok p')
    (ht : p.closed = true ∨ t.beginsOperand = true) : Stands (ts ++ [t]) p' := by
  obtain ⟨joined, hjoin, hbehind⟩ := bind_eq_ok.mp hstep
  obtain ⟨yard', hyard, hp'⟩ := bind_eq_ok.mp hbehind
  obtain rfl := Except.ok.inj hp'
  cases h with
  | ready hready hstack =>
      obtain rfl := Except.ok.inj hjoin
      rcases ht with ht | ht
      · cases ht
      · exact stands_of_ready hready hstack ht hyard
  | full hts hready he hstack =>
      subst hts
      rw [Progress.glue, Bool.true_and] at hjoin
      cases hbegins : t.beginsOperand with
      | true =>
          -- the concatenation that is not written makes room for one more operand
          rw [hbegins, if_pos rfl] at hjoin
          obtain rfl := Except.ok.inj hjoin
          obtain ⟨stack', hready', hstack'⟩ := ready_concat hready he hstack (.inl rfl)
          rw [List.append_nil] at hready'
          exact stands_of_ready hready' hstack' hbegins hyard
      | false =>
          rw [hbegins] at hjoin
          obtain rfl := Except.ok.inj hjoin
          exact stands_of_full hready he hstack hbegins hyard

theorem Stands.derives {p : Progress} (h : Stands ts p) (houter : p.yard.outer = [])
    (hlast : operands (p.yard.write p.yard.waiting) = .ok [e]) : Derives .union ts e := by
  cases h with
  | ready hready hstack =>
      -- the last token asks for an operand, and none comes
      have hzero := hready.balance_eq hstack
      rw [balance_of_finished houter hlast] at hzero
      cases hzero
  | full hts hready he hstack =>
      obtain ⟨us, vs, e', stack', hts', hready', he', hwrite⟩ := hready.exists_union he
      -- no group is open, so the union takes up the tokens from the first one on
      rw [houter] at hready'
      obtain ⟨rfl, rfl⟩ := hready'.eq_nil
      rw [hwrite _ hstack] at hlast
      obtain ⟨rfl, -⟩ := List.cons.inj (Except.ok.inj hlast)
      rw [hts, hts']
      exact he'

/-- A run that ends with one operand has not met a misplaced token. -/
theorem Stands.derives_of_run {p p' : Progress} (h : Stands us p) (hrun : p.run ts = .ok p')
    (houter : p'.yard.outer = [])
    (hlast : operands (p'.yard.write p'.yard.waiting) = .ok [e]) : Derives .union (us ++ ts) e := by
  induction ts generalizing us p with
  | nil =>
      obtain rfl := Except.ok.inj hrun
      rw [List.append_nil]
      exact h.derives houter hlast
  | cons t ts ih =>
      by_cases ht : p.closed = true ∨ t.beginsOperand = true
      · rw [Progress.run_cons] at hrun
        obtain ⟨middle, hstep, hrun⟩ := bind_eq_ok.mp hrun
        have hderives := ih (h.step hstep ht) hrun
        rwa [List.append_assoc] at hderives
      · -- no operand has ended and the token begins none: one operand is missing from here on
        exfalso
        obtain ⟨hclosed, hbegins⟩ := not_or.mp ht
        cases h with
        | full => exact hclosed rfl
        | ready hready hstack =>
            have hle := balance_of_misplaced (Bool.eq_false_iff.mpr hbegins) hrun
            rw [balance_of_finished houter hlast, hready.balance_eq hstack] at hle
            omega

/-- The parser finds exactly the expressions that the grammar derives. -/
theorem ofTokens_eq_ok_iff (ts : List Token) (e : Expr) :
    Expr.ofTokens (juxtapose ts) = .ok e ↔ Derives .union ts e := by
  constructor
  · intro h
    obtain ⟨p, hrun, houter, hlast⟩ := ofTokens_juxtapose_eq_ok_iff.mp h
    exact (Stands.ready .start rfl).derives_of_run hrun houter hlast
  · exact Derives.ofTokens

/-- The closure in `a|*b` is misplaced. -/
example : ¬ Derives .union [.char 'a', .union, .closure, .char 'b'] e := by
  rw [← ofTokens_eq_ok_iff]
  intro h
  cases h

/-- The grammar is not ambiguous: the parser finds any expression that is derived. -/
theorem Derives.unique {e' : Expr} (h : Derives .union ts e) (h' : Derives .union ts e') :
    e = e' :=
  Except.ok.inj (h.ofTokens.symm.trans h'.ofTokens)

end Postfix

namespace Expr

open Postfix (Derives)

/-- A pattern has an expression exactly if the grammar derives its tokens, and it is the only one
that the grammar derives from them. -/
theorem ofPattern_eq_ok_iff_derives (p : Pattern) :
    (∀ e, ofPattern p = .ok e ↔ Derives .union p.tokens e) ∧
      ∀ e e', Derives .union p.tokens e → Derives .union p.tokens e' → e = e' := by
  constructor
  · intro e
    rw [← Postfix.ofTokens_eq_ok_iff, ofPattern, Pattern.normalized]
    cases Expr.ofTokens (juxtapose p.tokens) <;> simp
  · intro e e' h h'
    exact h.unique h'

end Expr

end MaximalMunch
