/-!
# Checked products

The arithmetic of words is checked. A product that is no word ends the whole computation: it returns no
error, let alone the remainder. So a computation that multiplies may stop in two ways.
-/

namespace QuilControl

/-- How a computation stops without a value. -/
inductive Stop (ε : Type) where
  /-- It returns an error. -/
  | reported (e : ε)
  /-- It needs a product that is no word, and returns nothing. -/
  | overflow

/-- The product of two words, if it is one. -/
def product? (a b : UInt64) : Option UInt64 :=
  if a.toNat * b.toNat < UInt64.size then some (a * b) else none

variable {a b c : UInt64}

/-- What there is of a product is exact. -/
theorem product?_eq_some_iff : product? a b = some c ↔ c.toNat = a.toNat * b.toNat := by
  unfold product?
  have hlt := c.toNat_lt
  have hmul : (a * b).toNat = a.toNat * b.toNat % UInt64.size := UInt64.toNat_mul a b
  split
  · next h =>
    rw [Nat.mod_eq_of_lt h] at hmul
    rw [Option.some_inj, ← UInt64.toNat_inj, hmul, eq_comm]
  · next h =>
    refine iff_of_false nofun fun heq => h ?_
    rw [← heq]
    exact hlt

theorem product?_eq_none_iff : product? a b = none ↔ UInt64.size ≤ a.toNat * b.toNat := by
  unfold product?
  split <;> simp_all

end QuilControl
