import QuilControl.Decimal.Layout
import QuilControl.Scalar

/-!
# IEEE doubles

A finite double is `significand · 2 ^ exponent`. It is written with the fewest digits that read
back, taken from its bits in exact arithmetic, and a decimal literal reads as the nearest double.
-/

namespace QuilControl.Double

open Decimal

/-- Significand and power of two of the magnitude of a finite double. -/
def magnitude (v : Float) : Nat × Int :=
  let bits : Nat := v.toBits.toNat
  let field : Nat := (bits >>> 52) % (1 <<< 11)
  let fraction : Nat := bits % (1 <<< 52)
  if field = 0 then (fraction, -1074) else ((1 <<< 52) + fraction, (field : Int) - 1075)

def hasSign (v : Float) : Bool := 1 <<< 63 ≤ v.toBits.toNat

/-- The reals that round to `significand · 2 ^ exponent`: half way to either neighbour, where the
lower neighbour of a power of two is only half as far. A tie rounds to the even significand. -/
def basin (significand : Nat) (exponent : Int) : Basin :=
  let quarter := 1 <<< (exponent - 2).toNat
  let lower := if significand = 1 <<< 52 && -1074 < exponent then 1 else 2
  { low := (4 * significand - lower) * quarter
    centre := 4 * significand * quarter
    high := (4 * significand + 2) * quarter
    halvings := (2 - exponent).toNat
    closed := significand % 2 = 0 }

/-- The shortest digits of the magnitude of a finite double. -/
def digits (tie : Tie) (v : Float) : Digits :=
  let (significand, exponent) := magnitude v
  if significand = 0 then ⟨[], 0⟩ else ((basin significand exponent).shortest tie).toDigits

/-- Literals are whole without a point below 10¹⁵, and have an exponent from 10¹⁶ on and below
10⁻⁴. -/
def literalStyle : NumberStyle := ⟨15, 16, 3⟩

/-- The text of a literal (`format_number`). There is no spelling for infinity and NaN: they are
written as divisions by zero, which read back as arithmetic that has no value. Zero has no sign. -/
def literal (v : Float) : List Char :=
  if v.isNaN then ['(', '0', '/', '0', ')']
  else if v.isInf then
    if hasSign v then ['(', '-', '1', '/', '0', ')'] else ['(', '1', '/', '0', ')']
  else
    let d := digits .up v
    let text := literalStyle.write d
    if hasSign v && !d.digits.isEmpty then '-' :: text else text

/-- All places of a double, without a point when it is whole. -/
def plain (v : Float) : List Char :=
  if v.isNaN then ['N', 'a', 'N']
  else
    let text := if v.isInf then ['i', 'n', 'f'] else (digits .up v).positional []
    if hasSign v then '-' :: text else text

/-- The double nearest to `significand · 10 ^ exponent`. Exponents that leave no doubt give
infinity or zero at once. -/
def ofDecimal (significand : Nat) (exponent : Int) : Float :=
  if significand = 0 then 0.0
  else if 400 < exponent then Float.ofBits 0x7FF0000000000000
  else if exponent < -(400 + significand.log2) then 0.0
  else Float.ofScientific significand (exponent < 0) exponent.natAbs

def pi : Float := Float.ofBits 0x400921FB54442D18

instance : Scalar Float where
  ofNat n := Float.ofNat n
  ofDecimal := ofDecimal
  pi := pi
  isFinite := Float.isFinite
  isNegative v := v < 0.0
  neg v := -v
  add a b := a + b
  sub a b := a - b
  mul a b := a * b
  div a b := a / b
  pow a b := a ^ b
  sin := Float.sin
  cos := Float.cos
  sqrt := Float.sqrt
  exp := Float.exp
  literal := literal
  plain := plain

end QuilControl.Double
