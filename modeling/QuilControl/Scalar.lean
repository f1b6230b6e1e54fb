/-!
# Numbers that programs compute with

The library is written for any number type that offers the operations below. IEEE doubles are the
one that runs; a field with partial functions is another. An operation whose result is undefined
gives a number that is not finite. Nothing is assumed of the operations here: laws are hypotheses
of the theorems that need them.
-/

namespace QuilControl

/-- The operations on literals and values. `==` is the comparison of values. -/
class Scalar (N : Type) extends BEq N where
  /-- The number nearest to a natural number. -/
  ofNat : Nat → N
  /-- The number nearest to `significand · 10 ^ exponent`; not finite when that is too large. -/
  ofDecimal : Nat → Int → N
  /-- The constant π. -/
  pi : N
  isFinite : N → Bool
  /-- Whether a number is below zero. -/
  isNegative : N → Bool
  neg : N → N
  add : N → N → N
  sub : N → N → N
  mul : N → N → N
  div : N → N → N
  pow : N → N → N
  sin : N → N
  cos : N → N
  sqrt : N → N
  exp : N → N
  /-- The text of a number as a literal of a program. -/
  literal : N → List Char
  /-- The text of a number in a message: all places, without a point when it is whole. -/
  plain : N → List Char

namespace Scalar

variable {N : Type} [Scalar N]

/-- The constant 2π, one full turn in radians. -/
def turn : N := mul (ofNat 2) pi

def isZero (v : N) : Bool := v == (ofNat 0 : N)

def isOne (v : N) : Bool := v == (ofNat 1 : N)

end Scalar

end QuilControl
