import QuilControl.Proofs.Expr.Rules

/-!
# Normal expressions

An expression is normal when no rule of simplification applies anywhere in it. The rules give normal
expressions for normal operands, also where one of them moves a literal and starts again with a
product. So simplified expressions are normal, and the normal expressions are those that
simplification leaves alone (`simplify_simplify`).
-/

namespace QuilControl.Expr

variable {N : Type} [Scalar N]

/-- No rule of simplification applies anywhere in an expression. -/
def IsNormal : Expr N → Prop
  | number _ => True
  | pi => False
  | address _ => True
  | call f argument => argument.IsNormal ∧ ∀ v, argument = number v → (f.eval v).toOption = none
  | signed sign operand => operand.IsNormal ∧ sign = .minus ∧ operand.isNumber = false
  | binary op left right => left.IsNormal ∧ right.IsNormal ∧ Irreducible op left right

/-- An operator between normal operands is simplified to a normal expression. -/
theorem Combines.isNormal {op : Operator} {l r e : Expr N} (h : Combines op l r e) (hl : l.IsNormal)
    (hr : r.IsNormal) : e.IsNormal := by
  induction h with
  | fold => trivial
  | dropRight => exact hl
  | dropLeft => exact hr
  | moveLeft _ _ ih => exact ih trivial hl.2.1
  | moveRight _ _ ih => exact ih trivial hl.1
  | keep h => exact ⟨hl, hr, h⟩

theorem isNormal_callOf (f : MathFunction) {e : Expr N} (h : e.IsNormal) : (callOf f e).IsNormal := by
  unfold callOf
  split
  · next v =>
    split
    · trivial
    · next error hv =>
      refine ⟨trivial, fun w hw => ?_⟩
      cases hw
      rw [hv]
      rfl
  · next hnumber => exact ⟨h, fun v hv => absurd hv (hnumber v)⟩

theorem isNormal_signOf (sign : Sign) {e : Expr N} (h : e.IsNormal) : (signOf sign e).IsNormal := by
  unfold signOf
  split
  · exact h
  · trivial
  · next hnumber =>
    refine ⟨h, rfl, ?_⟩
    cases e with
    | number v => exact absurd rfl (hnumber v)
    | _ => rfl

theorem isNormal_simplify (e : Expr N) : e.simplify.IsNormal := by
  induction e with
  | number | pi | address => trivial
  | call f argument ih => exact isNormal_callOf f ih
  | signed sign operand ih => exact isNormal_signOf sign ih
  | binary op left right ihl ihr => exact (combines_combine op _ _).isNormal ihl ihr

/-- A normal expression stays as it is. -/
theorem simplify_of_isNormal {e : Expr N} (h : e.IsNormal) : e.simplify = e := by
  induction e with
  | number | address => rfl
  | pi => exact h.elim
  | call f argument ih =>
    obtain ⟨hargument, hvalue⟩ := h
    rw [simplify, ih hargument]
    cases argument with
    | number v =>
      have hnone := hvalue v rfl
      simp only [callOf]
      split
      · next w hw => rw [hw] at hnone; cases hnone
      · rfl
    | _ => rfl
  | signed sign operand ih =>
    obtain ⟨hoperand, rfl, hnumber⟩ := h
    rw [simplify, ih hoperand]
    cases operand with
    | number v => cases hnumber
    | _ => rfl
  | binary op left right ihl ihr =>
    obtain ⟨hleft, hright, hirreducible⟩ := h
    rw [simplify, ihl hleft, ihr hright, hirreducible.combine_eq]

/-- **Simplifying twice is simplifying once**, whatever the operations on numbers are: the second time
changes nothing. The expressions that simplification leaves alone are the normal ones. -/
theorem simplify_simplify (e : Expr N) :
    e.simplify.simplify = e.simplify ∧ (e.simplify = e ↔ e.IsNormal) :=
  ⟨simplify_of_isNormal (isNormal_simplify e), fun h => h ▸ isNormal_simplify e, simplify_of_isNormal⟩

end QuilControl.Expr
