import Mathlib.Algebra.Field.Basic
import QuilControl.Expr.Eval
import QuilControl.Traverse

/-!
# Exact arithmetic

The numbers of a field, with one more number that stands for every undefined result. Sums,
differences, products and quotients are those of the field; the functions and the power may be
undefined anywhere. Evaluation meets no rounding here, so what holds of it is what the program
means: `eval_of_plus` and its neighbours say that an operator gives the value of the field.
-/

namespace QuilControl

/-- What exact arithmetic over `K` leaves open: π, the functions that need not be defined
everywhere, which number a decimal reads as, and how numbers are written. -/
structure Exact.Setting (K : Type) where
  pi : K
  sin : K → Option K
  cos : K → Option K
  sqrt : K → Option K
  exp : K → Option K
  pow : K → K → Option K
  ofDecimal : Nat → Int → Option K
  isNegative : K → Bool
  literal : Option K → List Char
  plain : Option K → List Char

/-- A number of the field, or the undefined one. -/
structure Exact {K : Type} (S : Exact.Setting K) where
  value? : Option K

namespace Exact

variable {K : Type} {S : Setting K}

def of (x : K) : Exact S := ⟨some x⟩

theorem of_injective {x y : K} (h : (of x : Exact S) = of y) : x = y := by
  injection h with h; exact Option.some.inj h

section Instance

variable [Field K] [DecidableEq K]

/-- The undefined number equals no number, itself included. -/
instance : Scalar (Exact S) where
  beq a b :=
    match a.value?, b.value? with
    | some x, some y => x = y
    | _, _ => false
  ofNat n := ⟨some n⟩
  ofDecimal m e := ⟨S.ofDecimal m e⟩
  pi := ⟨some S.pi⟩
  isFinite a := a.value?.isSome
  isNegative a := a.value?.any S.isNegative
  neg a := ⟨a.value?.map fun x => -x⟩
  add a b := ⟨a.value?.bind fun x => b.value?.map fun y => x + y⟩
  sub a b := ⟨a.value?.bind fun x => b.value?.map fun y => x - y⟩
  mul a b := ⟨a.value?.bind fun x => b.value?.map fun y => x * y⟩
  div a b := ⟨a.value?.bind fun x => b.value?.bind fun y => if y = 0 then none else some (x / y)⟩
  pow a b := ⟨a.value?.bind fun x => b.value?.bind fun y => S.pow x y⟩
  sin a := ⟨a.value?.bind S.sin⟩
  cos a := ⟨a.value?.bind S.cos⟩
  sqrt a := ⟨a.value?.bind S.sqrt⟩
  exp a := ⟨a.value?.bind S.exp⟩
  literal a := S.literal a.value?
  plain a := S.plain a.value?

/-! ## Which numbers are which -/

@[simp]
theorem isFinite_of (x : K) : Scalar.isFinite (of x : Exact S) = true := rfl

theorem eq_of_isFinite {v : Exact S} (h : Scalar.isFinite v = true) : ∃ x, v = of x := by
  obtain ⟨_ | x⟩ := v
  · cases h
  · exact ⟨x, rfl⟩

theorem eq_of_beq {v w : Exact S} (h : (v == w) = true) : ∃ x, v = of x ∧ w = of x := by
  obtain ⟨_ | x⟩ := v <;> obtain ⟨_ | y⟩ := w
  · cases h
  · cases h
  · cases h
  · have hxy : x = y := of_decide_eq_true h
    exact ⟨x, rfl, by rw [hxy]; rfl⟩

theorem eq_of_isZero {v : Exact S} (h : Scalar.isZero v = true) : v = of 0 := by
  obtain ⟨x, hv, h0⟩ := eq_of_beq h
  have hx : x = ((0 : ℕ) : K) := of_injective h0.symm
  rw [hv, hx, Nat.cast_zero]

theorem eq_of_isOne {v : Exact S} (h : Scalar.isOne v = true) : v = of 1 := by
  obtain ⟨x, hv, h1⟩ := eq_of_beq h
  have hx : x = ((1 : ℕ) : K) := of_injective h1.symm
  rw [hv, hx, Nat.cast_one]

theorem isZero_of (y : K) : Scalar.isZero (of y : Exact S) = decide (y = 0) := by
  change decide (y = ((0 : ℕ) : K)) = decide (y = 0)
  rw [Nat.cast_zero]

/-! ## Values of operators -/

@[simp]
theorem finite_of (x : K) : finite (of x : Exact S) = .ok (of x) := rfl

/-- A value that passes the check for finiteness is a number of the field, and is kept. -/
theorem finite_eq_ok {v w : Exact S} (h : finite v = .ok w) : v = w ∧ ∃ x, w = of x := by
  obtain ⟨_ | x⟩ := v
  · cases h
  · cases h; exact ⟨rfl, x, rfl⟩

@[simp]
theorem neg_of (x : K) : Sign.minus.apply (of x : Exact S) = of (-x) := rfl

@[simp]
theorem eval_of_plus (x y : K) : Operator.plus.eval (of x : Exact S) (of y) = .ok (of (x + y)) := rfl

@[simp]
theorem eval_of_minus (x y : K) : Operator.minus.eval (of x : Exact S) (of y) = .ok (of (x - y)) := rfl

@[simp]
theorem eval_of_times (x y : K) : Operator.times.eval (of x : Exact S) (of y) = .ok (of (x * y)) := rfl

/-- A quotient has a value unless its divisor is zero. -/
theorem eval_of_over (x y : K) :
    Operator.over.eval (of x : Exact S) (of y) =
      if y = 0 then .error .divisionByZero else .ok (of (x / y)) := by
  unfold Operator.eval
  rw [isZero_of]
  by_cases hy : y = 0
  · simp [hy]
  · simp only [hy, decide_true, decide_false, Bool.and_false, Bool.false_eq_true, if_false]
    change finite (⟨if y = 0 then none else some (x / y)⟩ : Exact S) = _
    rw [if_neg hy]
    rfl

/-- An operator has a value only between numbers of the field. -/
theorem eq_of_eval {op : Operator} {v w u : Exact S} (h : op.eval v w = .ok u) :
    (∃ x, v = of x) ∧ (∃ y, w = of y) ∧ ∃ z, u = of z := by
  unfold Operator.eval at h
  split at h
  · cases h
  obtain ⟨rfl, z, hz⟩ := finite_eq_ok h
  obtain ⟨_ | x⟩ := v
  · cases op <;> cases hz
  obtain ⟨_ | y⟩ := w
  · cases op <;> cases hz
  exact ⟨⟨x, rfl⟩, ⟨y, rfl⟩, z, hz⟩

theorem eval_eq_ok {m : Memory (Exact S)} {e : Expr (Exact S)} {v : Exact S} (h : e.eval m = .ok v) :
    ∃ x, v = of x := by
  have of_finite {a : Exact S} (ha : finite a = .ok v) : ∃ x, v = of x := (finite_eq_ok ha).2
  cases e with
  | number a => exact of_finite h
  | pi => exact of_finite h
  | address slot =>
    simp only [Expr.eval, MemoryReference.eval] at h
    split at h
    · cases h
    split at h
    · cases h
    exact of_finite h
  | call f a =>
    obtain ⟨b, -, hv⟩ := exists_of_bind_eq_ok h
    exact of_finite hv
  | signed s a =>
    obtain ⟨b, -, hv⟩ := exists_of_bind_eq_ok h
    exact of_finite hv
  | binary op l r =>
    obtain ⟨a, -, hright⟩ := exists_of_bind_eq_ok h
    obtain ⟨b, -, hv⟩ := exists_of_bind_eq_ok hright
    exact (eq_of_eval hv).2.2

end Instance

end Exact

end QuilControl
