/-!
# The shortest decimal that reads back

A binary number is what every real of a small interval around it rounds to. The shortest decimal in
that interval lies on the coarsest power-of-ten grid that meets it; of the two grid points next to
the number the nearer one is taken. All arithmetic is on natural numbers.
-/

namespace QuilControl.Decimal

/-- Which of two equally near decimals is taken: the larger one, or the one that ends in an even
digit. -/
inductive Tie where
  | up
  | toEven

/-- Whether a tie between `below` and the next number goes to `below`. -/
def Tie.goesDown (below : Nat) : Tie → Bool
  | up => false
  | toEven => below % 2 = 0

/-- The reals that read as one positive binary number: those from `low` to `high` around `centre`,
all three in units of `1 / 2 ^ halvings`. The ends belong to it when `closed`. -/
structure Basin where
  low : Nat
  centre : Nat
  high : Nat
  halvings : Nat
  closed : Bool

/-- A decimal: `significand · 10 ^ exponent`. -/
structure Scientific where
  significand : Nat
  exponent : Int
deriving DecidableEq

namespace Basin

def unit (b : Basin) : Nat := 1 <<< b.halvings

/-- Whether the real `numerator / (unit · scale)` lies in the interval. -/
def holds (b : Basin) (numerator scale : Nat) : Bool :=
  if b.closed then b.low * scale ≤ numerator && numerator ≤ b.high * scale
  else b.low * scale < numerator && numerator < b.high * scale

/-- The multiple of `10 ^ exponent` in the interval that is nearest to its centre, if there is
one. -/
def onGrid (tie : Tie) (b : Basin) (exponent : Int) : Option Scientific :=
  let scale := Nat.pow 10 (-exponent).toNat
  let step := b.unit * Nat.pow 10 exponent.toNat
  let below := b.centre * scale / step
  let above := below + 1
  let belowFits := below ≠ 0 && b.holds (below * step) scale
  let aboveFits := b.holds (above * step) scale
  let centre := 2 * (b.centre * scale)
  let middle := (below + above) * step
  if belowFits && (!aboveFits || centre < middle || (centre = middle && tie.goesDown below)) then
    some ⟨below, exponent⟩
  else if aboveFits then some ⟨above, exponent⟩
  else none

/-- The exact value of the centre as a decimal. -/
def exact (b : Basin) : Scientific := ⟨b.centre * Nat.pow 5 b.halvings, -b.halvings⟩

/-- The finest grid that is tried lies this many powers of ten below the coarsest. -/
def gridCount : Nat := 400

/-- The shortest decimal in the interval: the first hit on grids of falling exponent. No grid
coarser than the first one has a point in the interval. -/
def shortest (tie : Tie) (b : Basin) : Scientific :=
  let top : Int := (Nat.toDigits 10 (b.high / b.unit)).length
  ((List.range gridCount).findSome? fun (i : Nat) => b.onGrid tie (top - i)).getD b.exact

end Basin

end QuilControl.Decimal
