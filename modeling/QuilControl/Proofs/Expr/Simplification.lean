import QuilControl.Proofs.Expr.Rules
import QuilControl.Proofs.Scalar.Exact

/-!
# Simplification keeps the value

Two expressions have the same value when they evaluate alike against every memory: to one number,
or to one error with one content. In exact arithmetic every rule of `combine`, `callOf` and
`signOf` gives an expression with the value of the operation it stands for, so simplification of a
whole expression keeps its value (`sameValue_simplify`). The rules drop or move literals only, and
a literal never fails, so the error that is met first stays the first.
-/

namespace QuilControl.Expr

/-- The expressions evaluate alike against every memory, errors included. -/
def SameValue {N : Type} [Scalar N] (e f : Expr N) : Prop := ∀ m : Memory N, e.eval m = f.eval m

namespace SameValue

variable {N : Type} [Scalar N]

theorem refl (e : Expr N) : SameValue e e := fun _ => rfl

theorem trans {e f g : Expr N} (h₁ : SameValue e f) (h₂ : SameValue f g) : SameValue e g :=
  fun m => (h₁ m).trans (h₂ m)

theorem call {e f : Expr N} (fn : MathFunction) (h : SameValue e f) :
    SameValue (call fn e) (call fn f) := by
  intro m; simp only [eval, h m]

theorem signed {e f : Expr N} (s : Sign) (h : SameValue e f) :
    SameValue (signed s e) (signed s f) := by
  intro m; simp only [eval, h m]

theorem binary {l l' r r' : Expr N} (op : Operator) (hl : SameValue l l') (hr : SameValue r r') :
    SameValue (binary op l r) (binary op l' r') := by
  intro m; simp only [eval, hl m, hr m]

end SameValue

open Exact

variable {K : Type} [Field K] [DecidableEq K] {S : Setting K} {m : Memory (Exact S)}

/-! ## Literal operands -/

theorem eval_binary_literal_right (op : Operator) (l : Expr (Exact S)) (y : K) :
    (binary op l (number (of y))).eval m = l.eval m >>= fun v => op.eval v (of y) := rfl

theorem eval_binary_literal_left (op : Operator) (x : K) (r : Expr (Exact S)) :
    (binary op (number (of x)) r).eval m = r.eval m >>= fun w => op.eval (of x) w := rfl

/-- Steps that agree on the numbers of the field agree behind an evaluation. -/
theorem eval_bind_congr {e : Expr (Exact S)} {f g : Exact S → Except EvalError (Exact S)}
    (h : ∀ x, f (of x) = g (of x)) : (e.eval m >>= f) = (e.eval m >>= g) := by
  cases he : e.eval m with
  | error => rfl
  | ok v =>
    obtain ⟨x, rfl⟩ := eval_eq_ok he
    exact h x

/-- A step that keeps the numbers of the field changes no evaluation. -/
theorem eval_bind_self {e : Expr (Exact S)} {f : Exact S → Except EvalError (Exact S)}
    (h : ∀ x, f (of x) = .ok (of x)) : (e.eval m >>= f) = e.eval m := by
  rw [eval_bind_congr (g := Except.ok) h]
  cases e.eval m <;> rfl

theorem eq_of_isZero_literal {e : Expr (Exact S)} (h : e.isZero = true) : e = number (of 0) := by
  cases e with
  | number v => rw [eq_of_isZero (v := v) h]
  | _ => cases h

theorem eq_of_isOne_literal {e : Expr (Exact S)} (h : e.isOne = true) : e = number (of 1) := by
  cases e with
  | number v => rw [eq_of_isOne (v := v) h]
  | _ => cases h

/-- Only literals of the field are folded, to the value of the operator. -/
theorem eq_of_fold? {op : Operator} {l r : Expr (Exact S)} {v : Exact S} (h : fold? op l r = some v) :
    ∃ x y z, l = number (of x) ∧ r = number (of y) ∧ v = of z ∧
      op.eval (of x : Exact S) (of y) = .ok (of z) := by
  obtain ⟨a, b, rfl, rfl, hv⟩ := fold?_eq_some_iff.1 h
  obtain ⟨⟨x, rfl⟩, ⟨y, rfl⟩, z, rfl⟩ := eq_of_eval hv
  exact ⟨x, y, z, rfl, rfl, rfl, hv⟩

theorem sameValue_fold {op : Operator} {l r : Expr (Exact S)} {v : Exact S} (h : fold? op l r = some v) :
    SameValue (number v) (binary op l r) := by
  obtain ⟨x, y, z, rfl, rfl, rfl, hz⟩ := eq_of_fold? h
  exact fun _ => hz.symm

/-! ## The rules -/

theorem sameValue_of_isRightUnit {op : Operator} {r : Expr (Exact S)} (h : r.isRightUnit op = true)
    (l : Expr (Exact S)) : SameValue l (binary op l r) := by
  intro m
  cases op with
  | plus =>
    rw [eq_of_isZero_literal h, eval_binary_literal_right,
      eval_bind_self fun x => by rw [eval_of_plus, add_zero]]
  | minus =>
    rw [eq_of_isZero_literal h, eval_binary_literal_right,
      eval_bind_self fun x => by rw [eval_of_minus, sub_zero]]
  | times =>
    rw [eq_of_isOne_literal h, eval_binary_literal_right,
      eval_bind_self fun x => by rw [eval_of_times, mul_one]]
  | «over» =>
    rw [eq_of_isOne_literal h, eval_binary_literal_right,
      eval_bind_self fun x => by rw [eval_of_over, if_neg one_ne_zero, div_one]]
  | power => cases h

theorem sameValue_of_isLeftUnit {op : Operator} {l : Expr (Exact S)} (h : l.isLeftUnit op = true)
    (r : Expr (Exact S)) : SameValue r (binary op l r) := by
  intro m
  cases op with
  | plus =>
    rw [eq_of_isZero_literal h, eval_binary_literal_left,
      eval_bind_self fun x => by rw [eval_of_plus, zero_add]]
  | times =>
    rw [eq_of_isOne_literal h, eval_binary_literal_left,
      eval_bind_self fun x => by rw [eval_of_times, one_mul]]
  | minus | «over» | power => cases h

theorem ne_zero_of_eval_over {x d : K} {v : Exact S}
    (h : Operator.over.eval (of x : Exact S) (of d) = .ok v) : d ≠ 0 ∧ v = of (x / d) := by
  rw [eval_of_over] at h
  by_cases hd : d = 0
  · rw [if_pos hd] at h; cases h
  · rw [if_neg hd] at h; cases h; exact ⟨hd, rfl⟩

/-- The quotient of the left factor and the divisor may come first. -/
theorem sameValue_of_fold_left {a d : Expr (Exact S)} {v : Exact S} (h : fold? .«over» a d = some v)
    (b : Expr (Exact S)) :
    SameValue (binary .times (number v) b) (binary .«over» (binary .times a b) d) := by
  obtain ⟨c, d, _, rfl, rfl, rfl, hq⟩ := eq_of_fold? h
  obtain ⟨hd, hz⟩ := ne_zero_of_eval_over hq
  rw [hz]
  intro m
  rw [eval_binary_literal_right, eval_binary_literal_left, eval_binary_literal_left, bind_assoc]
  refine eval_bind_congr fun x => ?_
  change _ = Operator.over.eval (of (c * x)) (of d)
  rw [eval_of_times, eval_of_over, if_neg hd, div_mul_eq_mul_div]

/-- The quotient of the right factor and the divisor may come first. -/
theorem sameValue_of_fold_right {b d : Expr (Exact S)} {v : Exact S} (h : fold? .«over» b d = some v)
    (a : Expr (Exact S)) :
    SameValue (binary .times (number v) a) (binary .«over» (binary .times a b) d) := by
  obtain ⟨c, d, _, rfl, rfl, rfl, hq⟩ := eq_of_fold? h
  obtain ⟨hd, hz⟩ := ne_zero_of_eval_over hq
  rw [hz]
  intro m
  rw [eval_binary_literal_right, eval_binary_literal_left, eval_binary_literal_right, bind_assoc]
  refine eval_bind_congr fun x => ?_
  change _ = Operator.over.eval (of (x * c)) (of d)
  rw [eval_of_times, eval_of_over, if_neg hd, mul_comm x c, div_mul_eq_mul_div]

/-- Every rule gives an expression with the value of its operator. -/
theorem Combines.sameValue {op : Operator} {l r e : Expr (Exact S)} (h : Combines op l r e) :
    SameValue e (Expr.binary op l r) := by
  induction h with
  | fold h => exact sameValue_fold h
  | dropRight h => exact sameValue_of_isRightUnit h _
  | dropLeft h => exact sameValue_of_isLeftUnit h _
  | moveLeft h _ ih => exact ih.trans (sameValue_of_fold_left h _)
  | moveRight h _ ih => exact ih.trans (sameValue_of_fold_right h _)
  | keep => exact .refl _

theorem sameValue_callOf (f : MathFunction) (e : Expr (Exact S)) :
    SameValue (callOf f e) (call f e) := by
  cases e with
  | number v =>
    unfold callOf
    dsimp only
    split
    · next w hw =>
      obtain ⟨hv, x, rfl⟩ := finite_eq_ok hw
      obtain ⟨_ | y⟩ := v
      · cases f <;> cases hv
      · exact fun _ => hw.symm
    · exact .refl _
  | _ => exact .refl _

theorem sameValue_signOf (s : Sign) (e : Expr (Exact S)) : SameValue (signOf s e) (signed s e) := by
  cases s with
  | plus =>
    intro m
    change e.eval m = e.eval m >>= fun v => finite v
    rw [eval_bind_self fun x => finite_of x]
  | minus =>
    cases e with
    | number v =>
      intro m
      obtain ⟨_ | x⟩ := v <;> rfl
    | _ => exact .refl _

/-! ## Whole expressions -/

theorem sameValue_simplify (e : Expr (Exact S)) : SameValue e.simplify e := by
  induction e with
  | number | pi | address => exact .refl _
  | call f a ih => exact (sameValue_callOf f _).trans (ih.call f)
  | signed s a ih => exact (sameValue_signOf s _).trans (ih.signed s)
  | binary op l r ihl ihr => exact (combines_combine op _ _).sameValue.trans (.binary op ihl ihr)

/-- **Simplification keeps evaluation**, over any field, with any partial functions and against any
memory: the simplified expression has the same value or fails with the same error. -/
theorem eval_simplify (e : Expr (Exact S)) (m : Memory (Exact S)) : e.simplify.eval m = e.eval m :=
  sameValue_simplify e m

end QuilControl.Expr
