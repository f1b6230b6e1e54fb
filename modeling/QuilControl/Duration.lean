import QuilControl.Scalar

/-!
# Durations

Spans of time in whole seconds and nanoseconds, with less than a second's worth of nanoseconds.
-/

namespace QuilControl

structure Duration where
  seconds : UInt64
  nanoseconds : Nat
  nanoseconds_lt : nanoseconds < 1000000000
deriving DecidableEq

namespace Duration

/-- The span of some seconds and nanoseconds, unless its seconds fit in no word. -/
def ofParts? (seconds : UInt64) (nanoseconds : Nat) : Option Duration :=
  let total := seconds.toNat + nanoseconds / 1000000000
  if total < UInt64.size then
    some ⟨UInt64.ofNat total, nanoseconds % 1000000000, Nat.mod_lt _ (by decide)⟩
  else none

def inSeconds {N : Type} [Scalar N] (d : Duration) : N :=
  Scalar.add (Scalar.ofNat d.seconds.toNat)
    (Scalar.div (Scalar.ofNat d.nanoseconds) (Scalar.ofNat 1000000000))

end Duration

end QuilControl
