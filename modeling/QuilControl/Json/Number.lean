import QuilControl.Scalar.Double
import QuilControl.Token.Numeral

/-!
# Numbers of JSON documents

A number is kept as it is written. It is an integer when it has neither a point nor a power of ten
and fits a 64-bit word; every other number is real. A real number is read in two steps: its leading
digits make a word, which is rounded once and then multiplied or divided by a power of ten. It is
written with the fewest digits that determine it, and always with a point or a power of ten.
-/

namespace QuilControl

structure JsonNumber where
  negative : Bool
  digits : Numeral

namespace JsonNumber

/-- Whether digits are a number of a document: no zero leads other digits, and a point has digits
behind it. -/
def isWellFormed (n : Numeral) : Bool :=
  (match n.whole with
    | [] => false
    | c :: rest => c ≠ '0' || rest.isEmpty) && n.fraction != some []

/-- The number at the start of a text, and the text after it. -/
def read (text : List Char) : Option (JsonNumber × List Char) :=
  let negative := text.head? = some '-'
  let found := Numeral.read (if negative then text.tail else text)
  if isWellFormed found.1 then some (⟨negative, found.1⟩, found.2) else none

/-! ## Integers -/

/-- The integer that a number is. Zero with a sign is none. -/
def integer? (n : JsonNumber) : Option Int :=
  let magnitude := Numeral.digitsValue n.digits.whole
  if !n.digits.isInteger then none
  else if n.negative then
    if 0 < magnitude ∧ magnitude ≤ 1 <<< 63 then some (-magnitude) else none
  else if magnitude < UInt64.size then some magnitude
  else none

def ofInt (i : Int) : JsonNumber := ⟨i < 0, ⟨Nat.toDigits 10 i.natAbs, none, []⟩⟩

/-! ## Real numbers -/

/-- Append digits to a word as long as it stays one, and the digits that are left. -/
def appendDigits (word : Nat) : List Char → Nat × List Char
  | [] => (word, [])
  | c :: rest =>
    let next := word * 10 + (c.toNat - '0'.toNat)
    if next < UInt64.size then appendDigits next rest else (word, c :: rest)

/-- `value · 10 ^ exponent`, in steps of at most 308 places. Too large a value is refused. -/
def scale (value : Float) (exponent : Int) : Option Float :=
  if exponent < -308 then
    if value == 0.0 then some value else scale (value / Double.ofDecimal 1 308) (exponent + 308)
  else if exponent < 0 then some (value / Double.ofDecimal 1 (-exponent))
  else if 308 < exponent then if value == 0.0 then some value else none
  else
    let scaled := value * Double.ofDecimal 1 exponent
    if scaled.isInf then none else some scaled
termination_by (-exponent).toNat
decreasing_by omega

/-- The magnitude of a real number. Digits that do not fit the word any more are dropped, those in
front of the point with their place. -/
def magnitude? (n : Numeral) : Option Float :=
  let whole := appendDigits 0 n.whole
  let behind := n.fraction.getD []
  let all := appendDigits whole.1 behind
  let taken := behind.length - all.2.length
  scale (Float.ofNat all.1) (whole.2.length - taken + Numeral.powerValue n.power)

def real? (n : JsonNumber) : Option Float :=
  match n.integer? with
  | some i => some (if i < 0 then -(Float.ofNat i.natAbs) else Float.ofNat i.natAbs)
  | none => (magnitude? n.digits).map fun v => if n.negative then -v else v

/-- The double nearest to a number. -/
def nearest (n : JsonNumber) : Float :=
  let v : Float := n.digits.value
  if n.negative then -v else v

/-- The digits of a double: a power of ten from 10¹⁶ on and below 10⁻⁵, else all places. -/
def writtenDigits (d : Decimal.Digits) : Numeral :=
  if 16 < d.point || d.point < -4 then
    ⟨d.digits.take 1, if d.digits.length ≤ 1 then none else some (d.digits.drop 1),
      'e' :: Decimal.Digits.integer (d.point - 1)⟩
  else ⟨d.wholePart, some (if d.fractionPart.isEmpty then ['0'] else d.fractionPart), []⟩

def ofFloat (v : Float) : JsonNumber := ⟨Double.hasSign v, writtenDigits (Double.digits .toEven v)⟩

end JsonNumber

end QuilControl
