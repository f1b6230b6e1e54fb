import QuilControl.Scalar
import QuilControl.Sequencer.Error
import QuilControl.Sequencer.ShiftRegister

/-!
# Seeds

A seed is what a register of the sequencer starts from: any contents but zero, which the register
would never leave. As a number it lies in `[1, 2⁴⁸ - 1]`.
-/

namespace QuilControl

/-- The contents that a register starts from. -/
structure Seed where
  register : ShiftRegister
  ne_zero : register ≠ 0
deriving DecidableEq

namespace Seed

def value (s : Seed) : UInt64 := UInt64.ofNat s.register.toNat

/-- The seed of a number in the range of seeds. -/
def ofNat (n : Nat) (pos : 0 < n) (le : n ≤ (1 <<< 48) - 1) : Seed where
  register := BitVec.ofNat 48 n
  ne_zero h := by
    have h' : n % 2 ^ 48 = 0 := by simpa using congrArg BitVec.toNat h
    omega

/-- The seed of a number (`try_new`). -/
def ofValue (v : UInt64) : Except SequencerError Seed :=
  if h : 0 < v.toNat ∧ v.toNat ≤ (1 <<< 48) - 1 then .ok (ofNat v.toNat h.1 h.2)
  else .error (.invalidSeed v)

/-- The number of a seed as a value of memory (`as_f64`). -/
def toScalar {N : Type} [Scalar N] (s : Seed) : N := Scalar.ofNat s.register.toNat

/-- A seed from a source of random words, and the words that are left (`random`). The high half of
the product of a word and the number of seeds is taken when the low half is small enough for all
seeds to be equally likely; else the next word is tried. -/
def draw : List UInt64 → Option (Seed × List UInt64)
  | [] => none
  | v :: rest =>
    let product := v.toNat * ((1 <<< 48) - 1)
    if product % UInt64.size ≤ UInt64.size - UInt16.size - 1 then
      some (ofNat (product / UInt64.size + 1) (Nat.succ_pos _) (by
        have := v.toNat_lt
        show v.toNat * 281474976710655 / 18446744073709551616 + 1 ≤ 281474976710655
        omega), rest)
    else draw rest

theorem value_ofNat {n : Nat} (pos : 0 < n) (le : n ≤ (1 <<< 48) - 1) :
    (ofNat n pos le).value.toNat = n := by
  have h : (2 : Nat) ^ 64 = 18446744073709551616 := by decide
  simp only [value, ofNat, BitVec.toNat_ofNat, UInt64.toNat_ofNat', h]
  omega

end Seed

end QuilControl
