import Mathlib.Algebra.Order.Ring.Rat
import Mathlib.Data.Rat.Cast.Defs
import Mathlib.Tactic.Linarith
import QuilControl.Proofs.Scalar.Exact
import QuilControl.Proofs.Token.Literal

/-!
# Rational numbers

An exact arithmetic in which every number reads back. Whole numbers that fit a word are written in
their digits. The powers of ten below `10 ^ -1000` are out of the range of programs, so a literal
with such a power is free to stand for a fraction: `n·10 ^ -(1000 + d)` is `n / d`. The functions are
the identity.
-/

namespace QuilControl

/-- Whether the digits of a rational number are a literal of it. -/
def isWhole (x : ℚ) : Bool := x.den = 1 && x.num.natAbs < UInt64.size

def rationalDigits (x : ℚ) : List Char :=
  if isWhole x then Nat.toDigits 10 x.num.natAbs
  else Nat.toDigits 10 x.num.natAbs ++ 'e' :: '-' :: Nat.toDigits 10 (1000 + x.den)

def rationalLiteral (x : ℚ) : List Char := if x < 0 then '-' :: rationalDigits (-x) else rationalDigits x

def rationalOfDecimal (significand : Nat) (exponent : Int) : ℚ :=
  if exponent ≤ -1000 then significand / (-1000 - exponent : Int) else significand * 10 ^ exponent

/-- Rational numbers, with 355/113 for π. -/
def rational : Exact.Setting ℚ where
  pi := 355 / 113
  sin x := some x
  cos x := some x
  sqrt x := some x
  exp x := some x
  pow x _ := some x
  ofDecimal significand exponent := some (rationalOfDecimal significand exponent)
  isNegative x := x < 0
  literal v := v.elim [] rationalLiteral
  plain v := v.elim [] rationalLiteral

open Exact

theorem number?_int_of_rational {n : Nat} (h : n < UInt64.size) :
    (Token.int (UInt64.ofNat n) : Token (Exact rational)).number? = some (of (n : ℚ)) := by
  have hn : (UInt64.ofNat n).toNat = n := UInt64.toNat_ofNat_of_lt' h
  simp only [Token.number?, Expr.ofInt, hn]
  rfl

/-- Digits with a negative power of ten are a number. -/
theorem read_power (n k : Nat) :
    Numeral.read (Nat.toDigits 10 n ++ 'e' :: '-' :: Nat.toDigits 10 k) =
      (⟨Nat.toDigits 10 n, none, 'e' :: '-' :: Nat.toDigits 10 k⟩, []) := by
  have hdigits (m : Nat) : ∀ c ∈ Nat.toDigits 10 m, c.isDigit = true := fun c hc =>
    Nat.isDigit_of_mem_toDigits (by decide) (by decide) hc
  have he : ('e' : Char).isDigit = false := by decide
  have htake : (Nat.toDigits 10 n ++ 'e' :: '-' :: Nat.toDigits 10 k).takeWhile Char.isDigit =
      Nat.toDigits 10 n := by
    rw [List.takeWhile_append_of_pos (hdigits n)]
    simp [he]
  have hdrop : (Nat.toDigits 10 n ++ 'e' :: '-' :: Nat.toDigits 10 k).dropWhile Char.isDigit =
      'e' :: '-' :: Nat.toDigits 10 k := by
    rw [List.dropWhile_append_of_pos (hdigits n)]
    simp [he]
  have hpower : Numeral.readPower ('e' :: '-' :: Nat.toDigits 10 k) =
      ('e' :: '-' :: Nat.toDigits 10 k, []) := by
    have hktake := List.takeWhile_eq_self_iff.2 (hdigits k)
    have hkdrop := List.dropWhile_eq_nil_iff.2 (hdigits k)
    obtain ⟨c, cs, hcs⟩ := List.exists_cons_of_ne_nil (Nat.toDigits_ne_nil (b := 10) (n := k))
    rw [hcs] at hktake hkdrop ⊢
    simp only [Numeral.readPower, Numeral.readSign, decide_true, Bool.true_or, Bool.or_true, if_true, hktake,
      hkdrop]
    rfl
  unfold Numeral.read
  rw [htake, hdrop]
  dsimp only
  split
  · next heq => exact absurd (List.cons.inj heq).1 (by decide)
  · rw [hpower]

theorem pieces_power (n k : Nat) :
    (pieces (Nat.toDigits 10 n ++ 'e' :: '-' :: Nat.toDigits 10 k) : List (Piece (Exact rational))) =
      [.token (Nat.toDigits 10 n ++ 'e' :: '-' :: Nat.toDigits 10 k)
        (.float (of (rationalOfDecimal n (-k))))] := by
  have hread := read_power n k
  have hvalue : (Numeral.value ⟨Nat.toDigits 10 n, none, 'e' :: '-' :: Nat.toDigits 10 k⟩ : Exact rational) =
      of (rationalOfDecimal n (-k)) := by
    have hdigits (m : Nat) : Numeral.digitsValue (Nat.toDigits 10 m) = m := Nat.ofDigitChars_ten_toDigits
    simp only [Numeral.value, Option.getD_none, List.append_nil, hdigits, Numeral.powerValue, List.length_nil,
      Nat.cast_zero, sub_zero]
    rfl
  obtain ⟨c, cs, hcs⟩ := List.exists_cons_of_ne_nil (Nat.toDigits_ne_nil (b := 10) (n := n))
  have hc : c.isDigit = true :=
    Nat.isDigit_of_mem_toDigits (b := 10) (n := n) (by decide) (by decide) (hcs ▸ List.mem_cons_self)
  rw [hcs] at hread hvalue ⊢
  rw [List.cons_append] at hread ⊢
  rw [pieces_cons, read_of_number (by rw [hc]; rfl), hread, pieces_nil]
  simp [Piece.ofNumeral, Numeral.isInteger, Numeral.text, hvalue]

/-- The digits of a number that is not negative are one number token of it. -/
theorem pieces_rationalDigits {x : ℚ} (h : 0 ≤ x) :
    ∃ t : Token (Exact rational), pieces (rationalDigits x) = [.token (rationalDigits x) t] ∧
      t.number? = some (of x) := by
  have hnum : ((x.num.natAbs : Nat) : ℚ) = x.num := by
    have := Rat.num_nonneg.2 h
    rw [← Int.cast_natCast, Int.natAbs_of_nonneg this]
  unfold rationalDigits
  by_cases hw : isWhole x = true
  · rw [if_pos hw]
    simp only [isWhole, Bool.and_eq_true, decide_eq_true_eq] at hw
    refine ⟨_, pieces_natural hw.2, ?_⟩
    rw [number?_int_of_rational hw.2, hnum]
    have hx : (x.num : ℚ) = x := by
      conv_rhs => rw [← Rat.num_div_den x, hw.1]
      simp
    rw [hx]
  · rw [if_neg hw]
    refine ⟨_, pieces_power _ _, ?_⟩
    have hx : rationalOfDecimal x.num.natAbs (-((1000 + x.den : Nat) : Int)) = x := by
      unfold rationalOfDecimal
      rw [if_pos (by omega), hnum]
      have hden : (-1000 - -((1000 + x.den : Nat) : Int)) = x.den := by omega
      rw [hden]
      exact Rat.num_div_den x
    rw [hx]
    rfl

/-- Every rational number reads back. -/
theorem readsBack_rational (x : ℚ) : ReadsBack (of x : Exact rational) := by
  refine ⟨of x, ?_, decide_eq_true rfl⟩
  by_cases hneg : x < 0
  · obtain ⟨t, hp, ht⟩ := pieces_rationalDigits (x := -x) (by linarith)
    have hminus : (Piece.read '-' (rationalDigits (-x)) : Piece (Exact rational) × List Char) =
        (.token ['-'] (.mark .minus), rationalDigits (-x)) := rfl
    have hliteral : Scalar.literal (of x : Exact rational) = '-' :: rationalDigits (-x) := if_pos hneg
    have hneg : Scalar.neg (of (-x) : Exact rational) = of x := by
      show (⟨some (- -x)⟩ : Exact rational) = of x
      rw [neg_neg]
      rfl
    rw [literalValue?, hliteral, pieces_cons, hminus, hp]
    simp only [ht, Option.map_some, hneg]
  · obtain ⟨t, hp, ht⟩ := pieces_rationalDigits (x := x) (by linarith)
    have hliteral : Scalar.literal (of x : Exact rational) = rationalDigits x := if_neg hneg
    rw [literalValue?, hliteral, hp]
    exact ht

end QuilControl
