import QuilControl.Decimal.Shortest

/-!
# Written decimals

A decimal is its digits and the place of its point. `positional` writes all places out;
`exponential` writes one digit before the point and the power of ten. A `NumberStyle` says from
which magnitudes on the second form is used, and whether a whole number keeps a point.
-/

namespace QuilControl.Decimal

/-- Decimal digits without zeros at either end, and the place of the point: the value is
`0.d₁d₂… · 10 ^ point`. Zero has no digits. -/
structure Digits where
  digits : List Char
  point : Int

def Scientific.toDigits (s : Scientific) : Digits :=
  let all := if s.significand = 0 then [] else Nat.toDigits 10 s.significand
  ⟨(all.reverse.dropWhile (· = '0')).reverse, all.length + s.exponent⟩

namespace Digits

/-- Whether the value is whole: no digit stands behind the point. -/
def isWhole (d : Digits) : Bool := (d.digits.length : Int) ≤ d.point

def zeros (count : Nat) : List Char := List.replicate count '0'

def wholePart (d : Digits) : List Char :=
  if d.point ≤ 0 then ['0']
  else d.digits.take d.point.toNat ++ zeros (d.point.toNat - d.digits.length)

def fractionPart (d : Digits) : List Char :=
  if d.isWhole then []
  else if d.point ≤ 0 then zeros (-d.point).toNat ++ d.digits
  else d.digits.drop d.point.toNat

/-- All places written out; a whole number gets `whole` behind its last place. -/
def positional (whole : List Char) (d : Digits) : List Char :=
  d.wholePart ++ if d.fractionPart.isEmpty then whole else '.' :: d.fractionPart

def integer (n : Int) : List Char :=
  if n < 0 then '-' :: Nat.toDigits 10 n.natAbs else Nat.toDigits 10 n.natAbs

/-- One digit before the point, then the power of ten. -/
def exponential (d : Digits) : List Char :=
  match d.digits with
  | [] => ['0', 'e', '0']
  | [c] => c :: 'e' :: integer (d.point - 1)
  | c :: rest => c :: '.' :: rest ++ 'e' :: integer (d.point - 1)

end Digits

/-- How numbers are written. -/
structure NumberStyle where
  /-- Whole numbers of at most this many places are written without a point. -/
  bareWholePlaces : Int
  /-- Numbers of more places than this are written with an exponent. -/
  largestPoint : Int
  /-- Numbers with more zeros than this behind the point are written with an exponent. -/
  mostLeadingZeros : Int

def NumberStyle.write (style : NumberStyle) (d : Digits) : List Char :=
  if d.isWhole && d.point ≤ style.bareWholePlaces then d.positional []
  else if style.largestPoint < d.point || d.point < -style.mostLeadingZeros then d.exponential
  else d.positional ['.', '0']

end QuilControl.Decimal
