import QuilControl.MemoryReference

/-!
# Expressions

The classical arithmetic of gate parameters and frame instructions: literals, π, memory slots, four
functions, signs and five operators.
-/

namespace QuilControl

/-- Functions of one number. -/
inductive MathFunction where
  | sine | cosine | squareRoot | exponent
deriving DecidableEq

namespace MathFunction

def name : MathFunction → String
  | sine => "sin"
  | cosine => "cos"
  | squareRoot => "sqrt"
  | exponent => "exp"

def all : List MathFunction := [sine, cosine, squareRoot, exponent]

/-- The function of a name, in any mix of ASCII cases (`from_name`). -/
def ofName? (name : String) : Option MathFunction :=
  let folded := name.toList.map Char.toLower
  all.find? fun f => f.name.toList = folded

def apply {N : Type} [Scalar N] : MathFunction → N → N
  | sine => Scalar.sin
  | cosine => Scalar.cos
  | squareRoot => Scalar.sqrt
  | exponent => Scalar.exp

end MathFunction

inductive Sign where
  | plus | minus
deriving DecidableEq

inductive Operator where
  | plus | minus | times | «over» | power
deriving DecidableEq

namespace Operator

def mark : Operator → Mark
  | plus => .plus
  | minus => .minus
  | times => .star
  | «over» => .slash
  | power => .caret

def ofMark? : Mark → Option Operator
  | .plus => some plus
  | .minus => some minus
  | .star => some times
  | .slash => some «over»
  | .caret => some power
  | _ => none

theorem ofMark?_mark (op : Operator) : ofMark? op.mark = some op := by cases op <;> rfl

/-- How strongly an operator binds (`precedence`). -/
def precedence : Operator → Nat
  | plus | minus => 1
  | times | «over» => 2
  | power => 3

/-- Only powers group to the right (`is_right_associative`). -/
def groupsRight : Operator → Bool
  | power => true
  | _ => false

/-- The least precedence of an operator that may stand in the right operand without parentheses. -/
def rightLeast (op : Operator) : Nat := if op.groupsRight then op.precedence else op.precedence + 1

def apply {N : Type} [Scalar N] : Operator → N → N → N
  | plus => Scalar.add
  | minus => Scalar.sub
  | times => Scalar.mul
  | «over» => Scalar.div
  | power => Scalar.pow

end Operator

/-- An expression with literals in `N`. -/
inductive Expr (N : Type) where
  /-- A literal. -/
  | number (value : N)
  /-- The constant π. -/
  | pi
  /-- The value of a memory slot. -/
  | address (slot : MemoryReference)
  /-- A function of an expression. -/
  | call (function : MathFunction) (argument : Expr N)
  /-- A sign and its operand. -/
  | signed (sign : Sign) (operand : Expr N)
  /-- Two operands and the operator between them. -/
  | binary (operator : Operator) (left right : Expr N)

namespace Expr

variable {N : Type}

instance : Add (Expr N) := ⟨binary .plus⟩

instance : Sub (Expr N) := ⟨binary .minus⟩

instance : Mul (Expr N) := ⟨binary .times⟩

instance : Div (Expr N) := ⟨binary .«over»⟩

instance : Neg (Expr N) := ⟨signed .minus⟩

def isNumber : Expr N → Bool
  | number _ => true
  | _ => false

def isSymbolic : Expr N → Bool
  | number _ => false
  | pi => false
  | address _ => true
  | call _ argument => argument.isSymbolic
  | signed _ operand => operand.isSymbolic
  | binary _ left right => left.isSymbolic || right.isSymbolic

/-- The slots an expression reads, from left to right (`memory_references`). -/
def references : Expr N → List MemoryReference
  | number _ => []
  | pi => []
  | address slot => [slot]
  | call _ argument => argument.references
  | signed _ operand => operand.references
  | binary _ left right => left.references ++ right.references

/-- Sameness of expressions, where literals are compared as values. -/
def same [BEq N] : Expr N → Expr N → Bool
  | number v, number w => v == w
  | pi, pi => true
  | address r, address s => r = s
  | call f a, call g b => f = g && a.same b
  | signed s a, signed t b => s = t && a.same b
  | binary op a b, binary op' a' b' => op = op' && a.same a' && b.same b'
  | _, _ => false

instance [BEq N] : BEq (Expr N) := ⟨same⟩

theorem isSymbolic_iff_references_ne_nil (e : Expr N) :
    e.isSymbolic = true ↔ e.references ≠ [] := by
  induction e with
  | number | pi | address => simp [isSymbolic, references]
  | call _ _ ih => simpa [isSymbolic, references] using ih
  | signed _ _ ih => simpa [isSymbolic, references] using ih
  | binary _ _ _ ihl ihr =>
    simp only [isSymbolic, references, Bool.or_eq_true, ihl, ihr, ne_eq, List.append_eq_nil_iff]
    exact Decidable.not_and_iff_or_not.symm

end Expr

end QuilControl
