import Mathlib
import MaximalMunch.Proofs.Expr.Grammar

/-!
# The conversion on one stack

The shunting-yard algorithm keeps the operators that wait and the opening signs of groups on one
stack, and both it and the reading of the postfix order check for signs that have no business
there.  The expression of a row of tokens is found in just this way, so that none of these checks
ever stops anything.
-/

namespace MaximalMunch.Shunting

open Pattern (Token Fault Sign)

/-- Why the algorithm stops: a fault of the pattern, or a check that is there to be safe. -/
inductive Mishap where
  | fault (fault : Fault)
  /-- A sign that a stage does not know. -/
  | unexpected (sign : Sign)
  /-- One expression was counted, and there is none. -/
  | emptyExpression
  deriving DecidableEq, Repr

/-- What has been written, and the stack; both with the latest sign first. -/
structure Track where
  output : List Sign
  stack : List Sign

/-- How tightly a sign binds.  An opening sign binds less than any operator. -/
def precedence : Sign → Nat
  | .token .groupOpen => 1
  | .token .union => 2
  | .token .concat => 3
  | .token .closure => 4
  | _ => 0

/-- Writes the signs of the innermost group and removes its opening sign. -/
def close (output : List Sign) : List Sign → Except Mishap Track
  | [] => .error (.fault .unmatchedClose)
  | .token .groupOpen :: stack => .ok ⟨output, stack⟩
  | top :: stack => close (top :: output) stack

/-- Writes the signs on top of the stack that bind at least as tightly as an operator. -/
def release (op : Sign) (output : List Sign) : List Sign → Track
  | [] => ⟨output, []⟩
  | top :: stack =>
    if precedence op ≤ precedence top then release op (top :: output) stack
    else ⟨output, top :: stack⟩

/-- Puts an operator on the stack. -/
def push (op : Sign) (track : Track) : Track :=
  { track with stack := op :: track.stack }

/-- Treats one sign. -/
def step (track : Track) : Sign → Except Mishap Track
  | sign@(.token (.char _)) | sign@(.token .epsilon) | sign@(.token .closure) =>
    .ok { track with output := sign :: track.output }
  | sign@(.token .groupOpen) => .ok (push sign track)
  | .token .groupClose => close track.output track.stack
  | sign@(.token .union) | sign@(.token .concat) =>
    .ok (push sign (release sign track.output track.stack))
  | sign => .error (.unexpected sign)

/-- Writes what is left on the stack. -/
def drain (output : List Sign) : List Sign → Except Mishap (List Sign)
  | [] => .ok output
  | .token .groupOpen :: _ => .error (.fault .unmatchedOpen)
  | top :: stack => drain (top :: output) stack

/-- Takes the latest operand. -/
def pop : List Expr → Except Mishap (Expr × List Expr)
  | [] => .error (.fault .missingOperand)
  | operand :: operands => .ok (operand, operands)

/-- Applies a sign in postfix order to the operands. -/
def apply (operands : List Expr) : Sign → Except Mishap (List Expr)
  | .token (.char c) => .ok (.char c :: operands)
  | .token .epsilon => .ok (.epsilon :: operands)
  | .token .closure => do
    let (operand, operands) ← pop operands
    .ok (.closure operand :: operands)
  | .token .union => do
    let (right, operands) ← pop operands
    let (left, operands) ← pop operands
    .ok (.union left right :: operands)
  | .token .concat => do
    let (right, operands) ← pop operands
    let (left, operands) ← pop operands
    .ok (.concat left right :: operands)
  | sign => .error (.unexpected sign)

/-- The one expression that is left. -/
def root (operands : List Expr) : Except Mishap Expr :=
  if operands.length ≠ 1 then .error (.fault (.expressionCount operands.length))
  else
    match operands with
    | [] => .error .emptyExpression
    | root :: _ => .ok root

/-- The expression of a row of signs. -/
def ofSigns (signs : List Sign) : Except Mishap Expr := do
  let track ← signs.foldlM step ⟨[], []⟩
  let output ← drain track.output track.stack
  let operands ← output.reverse.foldlM apply []
  root operands

/-! ## Two stacks on one -/

open Postfix (Yard)

/-- The sign of an operator. -/
def opSign : Operator → Sign
  | .union => .token .union
  | .concat => .token .concat

/-- The sign of an item. -/
def itemSign : Item → Sign
  | .char c => .token (.char c)
  | .epsilon => .token .epsilon
  | .closure => .token .closure
  | .operator op => opSign op

/-- The stack of a conversion: an opening sign stands below the operators of every open group. -/
def stacked (waiting : List Operator) (outer : List (List Operator)) : List Sign :=
  waiting.map opSign ++ outer.flatMap fun ops => .token .groupOpen :: ops.map opSign

/-- A conversion as the algorithm keeps it. -/
def track (yard : Yard) : Track :=
  ⟨yard.items.map itemSign, stacked yard.waiting yard.outer⟩

theorem stacked_cons (op : Operator) (waiting : List Operator) (outer : List (List Operator)) :
    stacked (op :: waiting) outer = opSign op :: stacked waiting outer := rfl

theorem close_stacked (yard : Yard) (ops waiting : List Operator) (outer : List (List Operator)) :
    close (yard.items.map itemSign) (stacked ops (waiting :: outer)) =
      .ok ⟨(yard.write ops).map itemSign, stacked waiting outer⟩ := by
  induction ops generalizing yard with
  | nil => rfl
  | cons op ops ih =>
      rw [Postfix.write_cons, ← ih]
      cases op <;> rfl

theorem close_stacked_nil (output : List Sign) (ops : List Operator) :
    close output (stacked ops []) = .error (.fault .unmatchedClose) := by
  induction ops generalizing output with
  | nil => rfl
  | cons op ops ih =>
      cases op <;> exact ih _

theorem precedence_le_iff (op o : Operator) :
    precedence (opSign op) ≤ precedence (opSign o) ↔ op.yields o = true := by
  cases op <;> cases o <;> decide

theorem release_stacked (yard : Yard) (op : Operator) (waiting : List Operator)
    (outer : List (List Operator)) :
    release (opSign op) (yard.items.map itemSign) (stacked waiting outer) =
      ⟨(yard.write (waiting.takeWhile op.yields)).map itemSign,
        stacked (waiting.dropWhile op.yields) outer⟩ := by
  induction waiting generalizing yard with
  | nil =>
      -- no operator is written past an opening sign
      cases outer with
      | nil => rfl
      | cons waiting outer => cases op <;> rfl
  | cons o waiting ih =>
      rw [stacked_cons, release]
      by_cases hyields : op.yields o = true
      · rw [if_pos ((precedence_le_iff op o).mpr hyields), List.takeWhile_cons_of_pos hyields,
          List.dropWhile_cons_of_pos hyields, Postfix.write_cons, ← ih]
        rfl
      · rw [if_neg (fun h => hyields ((precedence_le_iff op o).mp h)),
          List.takeWhile_cons_of_neg hyields, List.dropWhile_cons_of_neg hyields]
        rfl

theorem push_release (yard : Yard) (op : Operator) :
    push (opSign op) (release (opSign op) (track yard).output (track yard).stack) =
      track (yard.shift op) := by
  rw [track, release_stacked]
  rfl

/-- One token does the same to both. -/
theorem step_track (yard : Yard) (t : Token) :
    step (track yard) (.token t) = ((yard.step t).map track).mapError .fault := by
  cases t with
  | char | epsilon | closure | groupOpen => rfl
  | union => exact congrArg Except.ok (push_release yard .union)
  | concat => exact congrArg Except.ok (push_release yard .concat)
  | groupClose =>
      rw [Yard.step]
      show close (yard.items.map itemSign) (stacked yard.waiting yard.outer) = _
      cases yard.outer with
      | nil => exact close_stacked_nil _ _
      | cons waiting outer => exact close_stacked yard _ _ _

theorem drain_stacked (yard : Yard) (ops : List Operator) :
    drain (yard.items.map itemSign) (stacked ops []) = .ok ((yard.write ops).map itemSign) := by
  induction ops generalizing yard with
  | nil => rfl
  | cons op ops ih =>
      rw [Postfix.write_cons, ← ih]
      cases op <;> rfl

theorem drain_stacked_cons (output : List Sign) (ops waiting : List Operator)
    (outer : List (List Operator)) :
    drain output (stacked ops (waiting :: outer)) = .error (.fault .unmatchedOpen) := by
  induction ops generalizing output with
  | nil => rfl
  | cons op ops ih =>
      cases op <;> exact ih _

theorem drain_track (yard : Yard) :
    drain (track yard).output (track yard).stack =
      (yard.finish.map fun items => items.reverse.map itemSign).mapError .fault := by
  show drain (yard.items.map itemSign) (stacked yard.waiting yard.outer) = _
  rw [Yard.finish]
  cases yard.outer with
  | nil =>
      rw [drain_stacked]
      simp [Except.map, Except.mapError]
  | cons waiting outer => exact drain_stacked_cons _ _ _ _

/-- One item does the same to both. -/
theorem apply_itemSign (operands : List Expr) (item : Item) :
    apply operands (itemSign item) = (Postfix.apply operands item).mapError .fault := by
  match operands, item with
  | _, .char c | _, .epsilon => rfl
  | [], .closure | [], .operator .union | [], .operator .concat => rfl
  | [_], .operator .union | [_], .operator .concat => rfl
  | _ :: _, .closure => rfl
  | _ :: _ :: _, .operator .union | _ :: _ :: _, .operator .concat => rfl

theorem root_eq (operands : List Expr) :
    root operands = (match operands with
      | [e] => (.ok e : Except Fault Expr)
      | operands => .error (.expressionCount operands.length)).mapError .fault := by
  match operands with
  | [] | [_] | _ :: _ :: _ => rfl

/-! ## The runs -/

/-- A fold of steps that do the same on both sides. -/
theorem foldlM_of_step {α β γ δ ε ε' : Type} {f : α → γ → Except ε α} {g : β → δ → Except ε' β}
    {view : α → β} {sign : γ → δ} {lift : ε → ε'}
    (hstep : ∀ a c, g (view a) (sign c) = ((f a c).map view).mapError lift) (cs : List γ) (a : α) :
    (cs.map sign).foldlM g (view a) = ((cs.foldlM f a).map view).mapError lift := by
  induction cs generalizing a with
  | nil => rfl
  | cons c cs ih =>
      rw [List.map_cons, List.foldlM_cons, List.foldlM_cons, hstep]
      cases f a c with
      | error e => rfl
      | ok a' => exact ih a'

theorem foldlM_apply (items : List Item) :
    (items.map itemSign).foldlM apply [] = (items.foldlM Postfix.apply []).mapError .fault := by
  have hstep : ∀ operands item, apply (id operands) (itemSign item) =
      ((Postfix.apply operands item).map id).mapError .fault := by
    intro operands item
    rw [Except.map_id]
    exact apply_itemSign operands item
  have hfold := foldlM_of_step hstep items []
  rw [Except.map_id] at hfold
  exact hfold

/-- The expression of a row of tokens is found by the algorithm, and none of its checks stops it. -/
theorem ofSigns_map_token (ts : List Token) :
    ofSigns (ts.map .token) = (Expr.ofTokens ts).mapError .fault := by
  have hfold := foldlM_of_step step_track ts ⟨[], [], []⟩
  rw [ofSigns]
  show (ts.map Sign.token).foldlM step (track ⟨[], [], []⟩) >>= _ = _
  rw [hfold, Expr.ofTokens, Postfix.ofTokens]
  cases ts.foldlM Yard.step ⟨[], [], []⟩ with
  | error fault => rfl
  | ok yard =>
      show drain (track yard).output (track yard).stack >>= _ = (yard.finish >>= _).mapError _
      rw [drain_track]
      cases yard.finish with
      | error fault => rfl
      | ok items =>
          show (items.reverse.map itemSign).reverse.foldlM apply [] >>= root = _
          rw [← List.map_reverse, List.reverse_reverse, foldlM_apply]
          show _ = (Postfix.build items).mapError _
          rw [Postfix.build]
          cases items.foldlM Postfix.apply [] with
          | error fault => rfl
          | ok operands => exact root_eq operands

end MaximalMunch.Shunting
