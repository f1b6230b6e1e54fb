import QuilControl.Expr.Simplify

/-!
# The rules of simplification

`combine` tries its rules in order. What can come out, and under which conditions, is said once by
`Combines` (`combines_combine`): what simplification does to a whole expression follows by cases on
it. Where no rule applies the operator stays (`Irreducible.combine_eq`). Nothing is assumed of the
numbers: their operations are any functions.
-/

namespace QuilControl.Expr

variable {N : Type} [Scalar N]

/-- Whether an operator gives its left operand when this is the right one. -/
def isRightUnit (e : Expr N) : Operator → Bool
  | .plus | .minus => e.isZero
  | .times | .«over» => e.isOne
  | .power => false

/-- Whether an operator gives its right operand when this is the left one. -/
def isLeftUnit (e : Expr N) : Operator → Bool
  | .plus => e.isZero
  | .times => e.isOne
  | .minus | .«over» | .power => false

/-- No rule applies to an operator between these operands. -/
structure Irreducible (op : Operator) (l r : Expr N) : Prop where
  /-- They are no literals that have a value together. -/
  fold : fold? op l r = none
  right : r.isRightUnit op = false
  left : l.isLeftUnit op = false
  /-- No factor of a dividend has a quotient with the divisor. -/
  factors : op = .«over» → ∀ a b, l = binary .times a b →
    fold? .«over» a r = none ∧ fold? .«over» b r = none

/-- The ways in which an operator between two operands is simplified. -/
inductive Combines : Operator → Expr N → Expr N → Expr N → Prop
  /-- Two literals become their value. -/
  | fold {op : Operator} {l r : Expr N} {v : N} (h : fold? op l r = some v) :
    Combines op l r (number v)
  /-- An operand that changes nothing is dropped. -/
  | dropRight {op : Operator} {l r : Expr N} (h : r.isRightUnit op = true) : Combines op l r l
  | dropLeft {op : Operator} {l r : Expr N} (h : l.isLeftUnit op = true) : Combines op l r r
  /-- The quotient of a literal factor and a literal divisor becomes the first factor. -/
  | moveLeft {a b d e : Expr N} {c : N} (h : fold? .«over» a d = some c)
    (product : Combines .times (number c) b e) : Combines .«over» (binary .times a b) d e
  | moveRight {a b d e : Expr N} {c : N} (h : fold? .«over» b d = some c)
    (product : Combines .times (number c) a e) : Combines .«over» (binary .times a b) d e
  /-- Without a rule the operator stays. -/
  | keep {op : Operator} {l r : Expr N} (h : Irreducible op l r) : Combines op l r (binary op l r)

theorem fold?_eq_some_iff {op : Operator} {l r : Expr N} {v : N} :
    fold? op l r = some v ↔ ∃ a b, l = number a ∧ r = number b ∧ op.eval a b = .ok v := by
  constructor
  · intro h
    unfold fold? at h
    split at h
    · next a b =>
      refine ⟨a, b, rfl, rfl, ?_⟩
      cases hab : op.eval a b with
      | error => rw [hab] at h; cases h
      | ok w => rw [hab] at h; cases h; rfl
    · cases h
  · rintro ⟨a, b, rfl, rfl, h⟩
    simp only [fold?, h, Except.toOption]

/-- Folding comes before all other rules. -/
theorem combine_of_fold? {op : Operator} {l r : Expr N} {v : N} (h : fold? op l r = some v) :
    combine op l r = number v := by
  cases op <;> simp only [combine, sum, difference, product, quotient, powerOf, h]

/-- Apart from quotients, an operator is folded, or drops an operand, or stays. -/
theorem combine_of_ne_over {op : Operator} (hop : op ≠ .«over») (l r : Expr N) :
    combine op l r =
      match fold? op l r with
      | some v => number v
      | none =>
        if r.isRightUnit op then l else if l.isLeftUnit op then r else binary op l r := by
  cases op with
  | «over» => exact absurd rfl hop
  | plus | minus | times | power => rfl

theorem combines_of_ne_over {op : Operator} (hop : op ≠ .«over») (l r : Expr N) :
    Combines op l r (combine op l r) := by
  rw [combine_of_ne_over hop]
  split
  · next v h => exact .fold h
  next hfold =>
  split
  · next h => exact .dropRight h
  next hright =>
  split
  · next h => exact .dropLeft h
  next hleft =>
  exact .keep ⟨hfold, Bool.eq_false_iff.2 hright, Bool.eq_false_iff.2 hleft, fun h => absurd h hop⟩

theorem combines_over (l r : Expr N) : Combines .«over» l r (quotient l r) := by
  have htimes : Operator.times ≠ .«over» := nofun
  unfold quotient
  split
  · next v h => exact .fold h
  next hfold =>
  split
  · next h => exact .dropRight h
  next hright =>
  have hright := Bool.eq_false_iff.2 hright
  split
  · next a b =>
    unfold productOver
    split
    · next c h => exact .moveLeft h (combines_of_ne_over htimes _ _)
    next hfirst =>
    split
    · next c h => exact .moveRight h (combines_of_ne_over htimes _ _)
    next hsecond =>
    refine .keep ⟨hfold, hright, rfl, fun _ a' b' hl => ?_⟩
    cases hl
    exact ⟨hfirst, hsecond⟩
  · next hproduct => exact .keep ⟨hfold, hright, rfl, fun _ a b hl => absurd hl (hproduct a b)⟩

/-- What comes out of `combine` comes from one of the rules. -/
theorem combines_combine (op : Operator) (l r : Expr N) : Combines op l r (combine op l r) := by
  by_cases hop : op = .«over»
  · rw [hop]
    exact combines_over l r
  · exact combines_of_ne_over hop l r

/-- Where no rule applies the operator stays. -/
theorem Irreducible.combine_eq {op : Operator} {l r : Expr N} (h : Irreducible op l r) :
    combine op l r = binary op l r := by
  obtain ⟨hfold, hright, hleft, hfactors⟩ := h
  by_cases hop : op = .«over»
  · subst hop
    have hone : r.isOne = false := hright
    simp only [combine, quotient, hfold, hone, Bool.false_eq_true, if_false]
    split
    · next a b =>
      obtain ⟨hfirst, hsecond⟩ := hfactors rfl a b rfl
      simp only [productOver, hfirst, hsecond]
    · rfl
  · simp only [combine_of_ne_over hop, hfold, hright, hleft, Bool.false_eq_true, if_false]

end QuilControl.Expr
