import QuilControl.Expr.Basic
import QuilControl.SortedMap

/-!
# Values of expressions

An expression is evaluated against the contents of memory regions, left operand first. Every
intermediate value has to be finite, and a quotient needs a divisor other than zero.
-/

namespace QuilControl

/-- The contents of memory regions by region name. -/
abbrev Memory (N : Type) := SortedMap String (List N)

inductive EvalError where
  /-- The region has no contents. -/
  | undefinedMemory (name : String)
  /-- The region is too short. -/
  | indexOutOfRange (name : String) (index : UInt64) (length : Nat)
  | divisionByZero
  /-- A value is infinite or undefined. -/
  | nonFinite
deriving DecidableEq

namespace EvalError

def message : EvalError → String
  | undefinedMemory name => "memory region '" ++ name ++ "' is undefined"
  | indexOutOfRange name index length =>
    "index " ++ toString index.toNat ++ " is out of range for memory region '" ++ name ++
      "' of length " ++ toString length
  | divisionByZero => "division by zero"
  | nonFinite => "expression evaluated to a non-finite value"

end EvalError

variable {N : Type} [Scalar N]

def finite (value : N) : Except EvalError N :=
  if Scalar.isFinite value then .ok value else .error .nonFinite

def MathFunction.eval (f : MathFunction) (argument : N) : Except EvalError N :=
  finite (f.apply argument)

def Sign.apply : Sign → N → N
  | plus, v => v
  | minus, v => Scalar.neg v

def Operator.eval (op : Operator) (left right : N) : Except EvalError N :=
  if op = .«over» && Scalar.isZero right then .error .divisionByZero
  else finite (op.apply left right)

def MemoryReference.eval (slot : MemoryReference) (memory : Memory N) : Except EvalError N :=
  match memory.get? slot.name with
  | none => .error (.undefinedMemory slot.name)
  | some values =>
    match values[slot.index.toNat]? with
    | none => .error (.indexOutOfRange slot.name slot.index values.length)
    | some value => finite value

namespace Expr

/-- The value of an expression (`evaluate`). -/
def eval (memory : Memory N) : Expr N → Except EvalError N
  | number value => finite value
  | pi => finite Scalar.pi
  | address slot => slot.eval memory
  | call f argument => do f.eval (← argument.eval memory)
  | signed sign operand => do finite (sign.apply (← operand.eval memory))
  | binary op left right => do
    let l ← left.eval memory
    let r ← right.eval memory
    op.eval l r

/-- The value of an expression that reads no memory (`as_f64`). -/
def constant? (e : Expr N) : Option N := (e.eval ∅).toOption

end Expr

end QuilControl
