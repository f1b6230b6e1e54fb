import QuilControl.Proofs.Token.Literal

/-!
# Whole numbers

The whole numbers as numbers of programs, of which those are finite whose digits fit a word. Each is
written in its digits, with a minus in front when it is negative, and reads back. Functions and
powers are the identity.
-/

namespace QuilControl

structure Whole where
  value : Int
deriving DecidableEq

namespace Whole

def chars (v : Whole) : List Char :=
  if v.value < 0 then '-' :: Nat.toDigits 10 v.value.natAbs else Nat.toDigits 10 v.value.natAbs

instance : Scalar Whole where
  beq v w := decide (v = w)
  ofNat n := ⟨n⟩
  ofDecimal significand exponent := ⟨(significand * Nat.pow 10 exponent.toNat / Nat.pow 10 (-exponent).toNat : Nat)⟩
  pi := ⟨3⟩
  isFinite v := v.value.natAbs < UInt64.size
  isNegative v := v.value < 0
  neg v := ⟨-v.value⟩
  add v w := ⟨v.value + w.value⟩
  sub v w := ⟨v.value - w.value⟩
  mul v w := ⟨v.value * w.value⟩
  div v w := ⟨v.value / w.value⟩
  pow v _ := v
  sin v := v
  cos v := v
  sqrt v := v
  exp v := v
  literal := chars
  plain := chars

theorem eq_of_ofInt (v : Whole) (h : v.value.natAbs < UInt64.size) :
    (Expr.ofInt (UInt64.ofNat v.value.natAbs) : Whole) = ⟨v.value.natAbs⟩ := by
  have hn : (UInt64.ofNat v.value.natAbs).toNat = v.value.natAbs := UInt64.toNat_ofNat_of_lt' h
  simp only [Expr.ofInt, hn]
  rfl

/-- Finite whole numbers read back. -/
theorem readsBack (v : Whole) (h : Scalar.isFinite v = true) : ReadsBack v := by
  have hlt : v.value.natAbs < UInt64.size := of_decide_eq_true h
  have hnumber := eq_of_ofInt v hlt
  have hpieces := pieces_natural (N := Whole) hlt
  refine ⟨v, ?_, decide_eq_true rfl⟩
  by_cases hneg : v.value < 0
  · have hchars : Scalar.literal v = '-' :: Nat.toDigits 10 v.value.natAbs := if_pos hneg
    have hminus : (Piece.read '-' (Nat.toDigits 10 v.value.natAbs) : Piece Whole × List Char) =
        (.token ['-'] (.mark .minus), Nat.toDigits 10 v.value.natAbs) := rfl
    rw [literalValue?, hchars, pieces_cons, hminus, hpieces]
    simp only [Token.number?, hnumber, Option.map_some]
    have hv : Scalar.neg (⟨v.value.natAbs⟩ : Whole) = v := by
      show (⟨-v.value.natAbs⟩ : Whole) = v
      rw [show (-v.value.natAbs : Int) = v.value by omega]
    rw [hv]
  · have hchars : Scalar.literal v = Nat.toDigits 10 v.value.natAbs := if_neg hneg
    rw [literalValue?, hchars, hpieces]
    simp only [Token.number?, hnumber]
    rw [show (v.value.natAbs : Int) = v.value by omega]

/-- The whole numbers can be written in programs. -/
theorem literalLaws : LiteralLaws Whole where
  finite_ofNat n h := decide_eq_true (show (n : Int).natAbs < UInt64.size by simpa using h)
  finite_neg v h := by
    have hlt : v.value.natAbs < UInt64.size := of_decide_eq_true h
    exact decide_eq_true (show (-v.value).natAbs < UInt64.size by simpa using hlt)
  nonnegative_ofNat n := decide_eq_false (show ¬ (n : Int) < 0 by omega)
  nonnegative_ofDecimal significand exponent := decide_eq_false (Int.not_lt.2 (Int.natCast_nonneg _))
  readsBack := readsBack
  unsigned v h := by
    have hneg : ¬ v.value < 0 := of_decide_eq_false h
    have hchars : Scalar.literal v = Nat.toDigits 10 v.value.natAbs := if_neg hneg
    rw [hchars]
    intro hhead
    have hdigit := Nat.isDigit_of_mem_toDigits (b := 10) (by decide) (by decide) (List.mem_of_mem_head? hhead)
    exact absurd hdigit (by decide)

end Whole

end QuilControl
