import QuilControl.Expr.Eval

/-!
# Simplification

Constant parts are folded with the evaluator's own operations, and operands that change nothing are
dropped. A part whose folding would fail is left as it is, so that evaluating it still fails. A
product divided by a literal takes the quotient of literals to its front.
-/

namespace QuilControl.Expr

variable {N : Type} [Scalar N]

def isZero : Expr N → Bool
  | number v => Scalar.isZero v
  | _ => false

def isOne : Expr N → Bool
  | number v => Scalar.isOne v
  | _ => false

/-- The value of an operator between two literals, if it has one (`fold`). -/
def fold? (op : Operator) : Expr N → Expr N → Option N
  | number l, number r => (op.eval l r).toOption
  | _, _ => none

def sum (l r : Expr N) : Expr N :=
  match fold? .plus l r with
  | some v => number v
  | none => if r.isZero then l else if l.isZero then r else binary .plus l r

def difference (l r : Expr N) : Expr N :=
  match fold? .minus l r with
  | some v => number v
  | none => if r.isZero then l else binary .minus l r

def product (l r : Expr N) : Expr N :=
  match fold? .times l r with
  | some v => number v
  | none => if r.isOne then l else if l.isOne then r else binary .times l r

/-- A product divided by a literal: the quotient of a literal factor and the divisor comes first. -/
def productOver (a b : Expr N) (divisor : Expr N) : Expr N :=
  match fold? .«over» a divisor with
  | some c => product (number c) b
  | none =>
    match fold? .«over» b divisor with
    | some c => product (number c) a
    | none => binary .«over» (binary .times a b) divisor

/-- The quotient of simplified operands. -/
def quotient (l r : Expr N) : Expr N :=
  match fold? .«over» l r with
  | some v => number v
  | none =>
    if r.isOne then l
    else
      match l with
      | binary .times a b => productOver a b r
      | _ => binary .«over» l r

def powerOf (l r : Expr N) : Expr N :=
  match fold? .power l r with
  | some v => number v
  | none => binary .power l r

/-- An operator between simplified operands (`simplify_infix`). -/
def combine : Operator → Expr N → Expr N → Expr N
  | .plus => sum
  | .minus => difference
  | .times => product
  | .«over» => quotient
  | .power => powerOf

/-- A function of a simplified operand. -/
def callOf (f : MathFunction) : Expr N → Expr N
  | number v =>
    match f.eval v with
    | .ok w => number w
    | .error _ => call f (number v)
  | e => call f e

def signOf : Sign → Expr N → Expr N
  | .plus, e => e
  | .minus, number v => number (Scalar.neg v)
  | .minus, e => signed .minus e

def simplify : Expr N → Expr N
  | number v => number v
  | pi => number Scalar.pi
  | address slot => address slot
  | call f argument => callOf f argument.simplify
  | signed sign operand => signOf sign operand.simplify
  | binary op left right => combine op left.simplify right.simplify

end QuilControl.Expr
