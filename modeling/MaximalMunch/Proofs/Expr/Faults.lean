import Mathlib
import MaximalMunch.Proofs.Expr.Parse
import MaximalMunch.Proofs.Expr.Shunting

/-!
# Why a pattern has no expression

A row of tokens without an expression has one of four faults.  The groups come first: a closing
sign that closes nothing stops the conversion, and a group that is still open stops it in the end.
After that too few operands are the only thing that can be wrong.  As neighbouring operands are
joined, there is never more than one expression left; and there is none only if there was nothing
to write, which is so for groups without contents.
-/

namespace MaximalMunch

open Pattern (Token Fault Sign juxtapose)

namespace Postfix

/-- Some group is closed that is not open. -/
def Overclosed (ts : List Token) : Prop :=
  ∃ us, us <+: ts ∧ us.count .groupOpen < us.count .groupClose

/-- More groups are opened than closed. -/
def Unclosed (ts : List Token) : Prop :=
  ts.count .groupClose < ts.count .groupOpen

/-- There is nothing but groups. -/
def Bare (ts : List Token) : Prop :=
  ∀ t ∈ ts, t = .groupOpen ∨ t = .groupClose

variable {ts : List Token} {t : Token} {yard yard' : Yard} {p p' : Progress} {fault : Fault}
  {items : List Item} {stack : List Expr}

/-! ## Groups -/

theorem step_eq_error_iff :
    yard.step t = .error fault ↔ fault = .unmatchedClose ∧ t = .groupClose ∧ yard.outer = [] := by
  cases t with
  | groupClose =>
      rw [Yard.step]
      cases yard.outer with
      | nil => simp [eq_comm]
      | cons waiting outer => simp
  | char | epsilon | closure | union | concat | groupOpen => simp [Yard.step]

/-- A step opens and closes groups as its token says. -/
theorem outer_step (h : yard.step t = .ok yard') :
    yard'.outer.length + [t].count .groupClose = yard.outer.length + [t].count .groupOpen := by
  cases t with
  | groupClose =>
      rw [Yard.step] at h
      cases houter : yard.outer with
      | nil =>
          rw [houter] at h
          cases h
      | cons waiting outer =>
          rw [houter] at h
          obtain rfl := Except.ok.inj h
          rfl
  | char | epsilon | closure | union | concat | groupOpen =>
      obtain rfl := Except.ok.inj h
      rfl

/-- The concatenation in front of a token opens and closes nothing. -/
theorem Progress.exists_glue (p : Progress) (t : Token) :
    ∃ yard, p.glue t = .ok yard ∧ yard.outer = p.yard.outer := by
  rw [Progress.glue]
  split
  · exact ⟨_, rfl, rfl⟩
  · exact ⟨_, rfl, rfl⟩

theorem Progress.step_eq_error_iff : p.step t = .error fault ↔
    fault = .unmatchedClose ∧ t = .groupClose ∧ p.yard.outer = [] := by
  obtain ⟨joined, hjoin, houter⟩ := p.exists_glue t
  rw [Progress.step, hjoin, ok_bind, bind_eq_error, Postfix.step_eq_error_iff, houter]
  constructor
  · rintro (h | ⟨yard, -, h⟩)
    · exact h
    · cases h
  · exact .inl

theorem Progress.outer_step (h : p.step t = .ok p') : p'.yard.outer.length + [t].count .groupClose =
    p.yard.outer.length + [t].count .groupOpen := by
  obtain ⟨joined, hjoin, houter⟩ := p.exists_glue t
  rw [Progress.step, hjoin, ok_bind] at h
  obtain ⟨yard, hyard, hp'⟩ := bind_eq_ok.mp h
  obtain rfl := Except.ok.inj hp'
  rw [← houter]
  exact Postfix.outer_step hyard

theorem count_cons_eq (t s : Token) (ts : List Token) :
    (t :: ts).count s = [t].count s + ts.count s := by
  rw [← List.singleton_append, List.count_append]

/-- Nothing stops a run but a closing sign that closes nothing. -/
theorem Progress.run_eq_error_iff : p.run ts = .error fault ↔ fault = .unmatchedClose ∧
    ∃ us, us <+: ts ∧ p.yard.outer.length + us.count .groupOpen < us.count .groupClose := by
  induction ts generalizing p with
  | nil =>
      constructor
      · intro h
        cases h
      · rintro ⟨-, us, hus, hlt⟩
        rw [List.prefix_nil.mp hus] at hlt
        cases hlt
  | cons t ts ih =>
      rw [Progress.run_cons]
      cases hstep : p.step t with
      | error fault' =>
          obtain ⟨rfl, rfl, houter⟩ := Progress.step_eq_error_iff.mp hstep
          constructor
          · intro h
            obtain rfl := Except.error.inj h
            refine ⟨rfl, [.groupClose], ⟨ts, rfl⟩, ?_⟩
            rw [houter]
            decide
          · rintro ⟨rfl, -⟩
            rfl
      | ok p' =>
          have hcount := Progress.outer_step hstep
          rw [ok_bind, ih]
          constructor
          · rintro ⟨rfl, us, hus, hlt⟩
            refine ⟨rfl, t :: us, List.cons_prefix_cons.mpr ⟨rfl, hus⟩, ?_⟩
            rw [count_cons_eq t .groupOpen, count_cons_eq t .groupClose]
            omega
          · rintro ⟨rfl, us, hus, hlt⟩
            rcases List.prefix_cons_iff.mp hus with rfl | ⟨behind, rfl, hbehind⟩
            · cases hlt
            · rw [count_cons_eq t .groupOpen, count_cons_eq t .groupClose] at hlt
              exact ⟨rfl, behind, hbehind, by omega⟩

theorem Progress.outer_run (h : p.run ts = .ok p') : p'.yard.outer.length + ts.count .groupClose =
    p.yard.outer.length + ts.count .groupOpen := by
  induction ts generalizing p with
  | nil =>
      obtain rfl := Except.ok.inj h
      rfl
  | cons t ts ih =>
      rw [Progress.run_cons] at h
      obtain ⟨middle, hstep, hrun⟩ := bind_eq_ok.mp h
      have hfirst := Progress.outer_step hstep
      have hrest := ih hrun
      rw [count_cons_eq t .groupOpen, count_cons_eq t .groupClose]
      omega

/-! ## Operands -/

/-- An item leaves an operand, or it does not find those that it needs. -/
theorem apply_cases (stack : List Expr) (item : Item) :
    (∃ operand below, apply stack item = .ok (operand :: below)) ∨
      apply stack item = .error .missingOperand := by
  match stack, item with
  | _, .char _ | _, .epsilon | _ :: _, .closure => exact .inl ⟨_, _, rfl⟩
  | _ :: _ :: _, .operator op => exact .inl ⟨_, _, apply_operator op _ _ _⟩
  | [], .closure => exact .inr rfl
  | [], .operator op | [_], .operator op =>
      cases op <;> exact .inr rfl

theorem operands_eq_error (h : operands items = .error fault) : fault = .missingOperand := by
  induction items with
  | nil => cases h
  | cons item items ih =>
      rw [operands_cons] at h
      rcases bind_eq_error.mp h with h | ⟨stack, -, h⟩
      · exact ih h
      · rcases apply_cases stack item with ⟨operand, below, hok⟩ | herror
        · rw [hok] at h
          cases h
        · rw [herror] at h
          exact (Except.error.inj h).symm

theorem operands_eq_ok_nil_iff : operands items = .ok [] ↔ items = [] := by
  cases items with
  | nil => exact ⟨fun _ => rfl, fun _ => rfl⟩
  | cons item items =>
      rw [operands_cons, bind_eq_ok]
      constructor
      · rintro ⟨stack, -, h⟩
        rcases apply_cases stack item with ⟨operand, below, hok⟩ | herror
        · rw [hok] at h
          cases h
        · rw [herror] at h
          cases h
      · intro h
        cases h

/-- The number of items, counting the operators that wait. -/
def Yard.size (yard : Yard) : Nat :=
  yard.items.length + yard.waiting.length + yard.outer.flatten.length

theorem size_shift (yard : Yard) (op : Operator) : (yard.shift op).size = yard.size + 1 := by
  have hlength := length_released op yard.waiting
  simp [Yard.size, Yard.shift, Yard.write]
  omega

/-- Only the signs of groups leave no item. -/
theorem size_step (h : yard.step t = .ok yard') :
    yard'.size = yard.size + if t = .groupOpen ∨ t = .groupClose then 0 else 1 := by
  cases t with
  | char | epsilon | closure =>
      obtain rfl := Except.ok.inj h
      simp [Yard.size]
      omega
  | union | concat =>
      obtain rfl := Except.ok.inj h
      exact size_shift yard _
  | groupOpen =>
      obtain rfl := Except.ok.inj h
      simp [Yard.size]
      omega
  | groupClose =>
      rw [Yard.step] at h
      cases houter : yard.outer with
      | nil =>
          rw [houter] at h
          cases h
      | cons waiting outer =>
          rw [houter] at h
          obtain rfl := Except.ok.inj h
          simp [Yard.size, Yard.write, houter]
          omega

theorem size_foldlM {yard yard' : Yard} (h : ts.foldlM Yard.step yard = .ok yard') :
    yard'.size = 0 ↔ yard.size = 0 ∧ Bare ts := by
  induction ts generalizing yard with
  | nil =>
      obtain rfl := Except.ok.inj h
      simp [Bare]
  | cons t ts ih =>
      rw [List.foldlM_cons] at h
      obtain ⟨middle, hstep, hrest⟩ := bind_eq_ok.mp h
      rw [ih hrest, size_step hstep, Bare, Bare, List.forall_mem_cons]
      split
      · next ht => simp [ht]
      · next ht => simp [ht]

/-! ## Whole rows -/

theorem ofTokens_juxtapose (ts : List Token) : Expr.ofTokens (juxtapose ts) =
    Progress.run ⟨false, [], [], []⟩ ts >>= fun p => p.yard.finish >>= build := by
  rw [Expr.ofTokens, ofTokens, foldlM_juxtapose]
  simp only [bind_assoc, ok_bind]

theorem run_eq_error_iff_overclosed : Progress.run ⟨false, [], [], []⟩ ts = .error fault ↔
    fault = .unmatchedClose ∧ Overclosed ts := by
  rw [Progress.run_eq_error_iff, Overclosed]
  simp

theorem not_overclosed_of_run (h : Progress.run ⟨false, [], [], []⟩ ts = .ok p) :
    ¬Overclosed ts := by
  intro hoverclosed
  rw [run_eq_error_iff_overclosed.mpr ⟨rfl, hoverclosed⟩] at h
  cases h

theorem unclosed_iff_of_run (h : Progress.run ⟨false, [], [], []⟩ ts = .ok p) :
    Unclosed ts ↔ p.yard.outer ≠ [] := by
  have houter := Progress.outer_run h
  rw [Unclosed, ← List.length_pos_iff]
  simp at houter
  omega

/-- At most one operand is left, as neighbouring operands are joined. -/
theorem length_operands_of_run (h : Progress.run ⟨false, [], [], []⟩ ts = .ok p)
    (houter : p.yard.outer = []) (hstack : operands (p.yard.write p.yard.waiting) = .ok stack) :
    stack.length ≤ 1 := by
  have hlength := length_of_operands hstack
  have hbalance := balance_run h
  rw [sum_write] at hlength
  simp [Yard.balance, houter] at hbalance
  omega

theorem write_eq_nil_iff_of_run (h : Progress.run ⟨false, [], [], []⟩ ts = .ok p)
    (houter : p.yard.outer = []) :
    p.yard.write p.yard.waiting = [] ↔ Bare (juxtapose ts) := by
  have hfold := foldlM_juxtapose ⟨[], [], []⟩ ts
  rw [h, ok_bind] at hfold
  have hsize := size_foldlM hfold
  simp [Yard.size, houter] at hsize
  rw [← hsize, Yard.write]
  simp [and_comm]

/-! ## The four faults -/

/-- What is left of a row whose groups match. -/
theorem build_cases (hbalance : ∀ stack, operands items = .ok stack → stack.length ≤ 1) :
    items = [] ∧ build items.reverse = .error (.expressionCount 0) ∨
      items ≠ [] ∧ (build items.reverse = .error .missingOperand ∨
        ∃ e, build items.reverse = .ok e) := by
  rw [build_reverse]
  cases hstack : operands items with
  | error fault =>
      obtain rfl := operands_eq_error hstack
      refine .inr ⟨?_, .inl rfl⟩
      rintro rfl
      cases hstack
  | ok stack =>
      match stack, hbalance stack hstack with
      | [], _ => exact .inl ⟨operands_eq_ok_nil_iff.mp hstack, rfl⟩
      | [e], _ =>
          refine .inr ⟨?_, .inr ⟨e, rfl⟩⟩
          rintro rfl
          cases hstack

/-- A row of tokens has an expression or one of four faults, and those of groups come first. -/
theorem ofTokens_juxtapose_cases (ts : List Token) :
    (Overclosed ts ∧ Expr.ofTokens (juxtapose ts) = .error .unmatchedClose) ∨
    (¬Overclosed ts ∧ Unclosed ts ∧ Expr.ofTokens (juxtapose ts) = .error .unmatchedOpen) ∨
    (¬Overclosed ts ∧ ¬Unclosed ts ∧ Bare (juxtapose ts) ∧
      Expr.ofTokens (juxtapose ts) = .error (.expressionCount 0)) ∨
    (¬Overclosed ts ∧ ¬Unclosed ts ∧ ¬Bare (juxtapose ts) ∧
      (Expr.ofTokens (juxtapose ts) = .error .missingOperand ∨
        ∃ e, Expr.ofTokens (juxtapose ts) = .ok e)) := by
  rw [ofTokens_juxtapose]
  cases hrun : Progress.run ⟨false, [], [], []⟩ ts with
  | error fault =>
      obtain ⟨rfl, hover⟩ := run_eq_error_iff_overclosed.mp hrun
      exact .inl ⟨hover, rfl⟩
  | ok p =>
      have hnot := not_overclosed_of_run hrun
      have hunclosed := unclosed_iff_of_run hrun
      rw [ok_bind, Yard.finish]
      cases houter : p.yard.outer with
      | cons waiting outer =>
          rw [houter] at hunclosed
          exact .inr (.inl ⟨hnot, hunclosed.mpr (List.cons_ne_nil _ _), rfl⟩)
      | nil =>
          have hclosed : ¬Unclosed ts := fun h => hunclosed.mp h houter
          rw [ok_bind, ← write_eq_nil_iff_of_run hrun houter]
          rcases build_cases fun stack => length_operands_of_run hrun houter with
            ⟨hnil, hbuild⟩ | ⟨hne, hbuild⟩
          · exact .inr (.inr (.inl ⟨hnot, hclosed, hnil, hbuild⟩))
          · exact .inr (.inr (.inr ⟨hnot, hclosed, hne, hbuild⟩))

end Postfix

namespace Expr

open Postfix (Overclosed Unclosed Bare)

/-- A pattern has no expression, and the fault is the reason. -/
def FailsFor (p : Pattern) (fault : Fault) : Prop :=
  ofPattern p = .error (.malformedPattern p.raw none fault)

theorem failsFor_iff {p : Pattern} {fault : Fault} :
    FailsFor p fault ↔ ofTokens p.normalized = .error fault := by
  rw [FailsFor, ofPattern]
  cases ofTokens p.normalized <;> simp

theorem ofPattern_eq_error_iff {p : Pattern} {error : Error} :
    ofPattern p = .error error ↔
      ∃ fault, ofTokens p.normalized = .error fault ∧ error = .malformedPattern p.raw none fault := by
  rw [ofPattern]
  cases ofTokens p.normalized <;> simp [eq_comm]

theorem ofPattern_eq_ok_iff {p : Pattern} {e : Expr} :
    ofPattern p = .ok e ↔ ofTokens p.normalized = .ok e := by
  rw [ofPattern]
  cases ofTokens p.normalized <;> simp

/-- A pattern without an expression has one of four faults: it closes a group that is not open, or
else it leaves one open, or else there is nothing in its groups, or else an operator lacks an
operand.  The algorithm on one stack finds the same, and no check of its own ever stops it. -/
theorem ofPattern_has_four_faults (p : Pattern) :
    (∀ error, ofPattern p = .error error → ∃ fault ∈ [Fault.unmatchedClose, .unmatchedOpen,
      .expressionCount 0, .missingOperand], error = .malformedPattern p.raw none fault) ∧
    (FailsFor p .unmatchedClose ↔ Overclosed p.tokens) ∧
    (FailsFor p .unmatchedOpen ↔ ¬Overclosed p.tokens ∧ Unclosed p.tokens) ∧
    (FailsFor p (.expressionCount 0) ↔
      ¬Overclosed p.tokens ∧ ¬Unclosed p.tokens ∧ Bare p.normalized) ∧
    (FailsFor p .missingOperand ↔ Fails (ofPattern p) ∧
      ¬Overclosed p.tokens ∧ ¬Unclosed p.tokens ∧ ¬Bare p.normalized) ∧
    (∀ e, Shunting.ofSigns (p.normalized.map .token) = .ok e ↔ ofPattern p = .ok e) ∧
    ∀ mishap, Shunting.ofSigns (p.normalized.map .token) = .error mishap ↔
      ∃ fault, mishap = .fault fault ∧ FailsFor p fault := by
  have hshunting := Shunting.ofSigns_map_token p.normalized
  have hcases := Postfix.ofTokens_juxtapose_cases p.tokens
  rw [← Pattern.normalized] at hcases
  simp only [Fails, failsFor_iff, ofPattern_eq_error_iff, ofPattern_eq_ok_iff, hshunting]
  rcases hcases with ⟨hover, h⟩ | ⟨hover, hunclosed, h⟩ | ⟨hover, hunclosed, hbare, h⟩ |
    ⟨hover, hunclosed, hbare, h | ⟨e, h⟩⟩
  · simp [h, hover, Except.mapError, eq_comm]
  · simp [h, hover, hunclosed, Except.mapError, eq_comm]
  · simp [h, hover, hunclosed, hbare, Except.mapError, eq_comm]
  · simp [h, hover, hunclosed, hbare, Except.mapError, eq_comm]
  · simp [h, hover, hunclosed, hbare, Except.mapError, eq_comm]

/-- Both operands are missing as well, but groups come first. -/
example : FailsFor ⟨"|)", [.union, .groupClose]⟩ .unmatchedClose := rfl

end Expr

end MaximalMunch
