import QuilControl.Proofs.Expr.Rules

/-!
# What expressions are made of

The slots and literals of an expression. The rules of simplification drop and move literals only, so
the slots stay where they are (`slots_simplify`). The literals of a simplified expression are those of
the expression, their negations, π and values that evaluation found to be finite: finite literals stay
finite (`MadeOf.simplify`).
-/

namespace QuilControl

variable {N : Type}

namespace Expr

def literals : Expr N → List N
  | number v => [v]
  | pi => []
  | address _ => []
  | call _ argument => argument.literals
  | signed _ operand => operand.literals
  | binary _ left right => left.literals ++ right.literals

/-- Every slot of an expression has a property, and every literal has another one. -/
def MadeOf (P : MemoryReference → Prop) (Q : N → Prop) : Expr N → Prop
  | number v => Q v
  | pi => True
  | address slot => P slot
  | call _ argument => argument.MadeOf P Q
  | signed _ operand => operand.MadeOf P Q
  | binary _ left right => left.MadeOf P Q ∧ right.MadeOf P Q

theorem madeOf_iff {P : MemoryReference → Prop} {Q : N → Prop} {e : Expr N} :
    e.MadeOf P Q ↔ (∀ r ∈ e.references, P r) ∧ ∀ v ∈ e.literals, Q v := by
  induction e with
  | number | pi | address => simp [MadeOf, references, literals]
  | call _ _ ih => exact ih
  | signed _ _ ih => exact ih
  | binary _ left right ihl ihr =>
    simp only [MadeOf, references, literals, ihl, ihr, List.mem_append, or_imp, forall_and]
    constructor
    · rintro ⟨⟨hlr, hlv⟩, hrr, hrv⟩
      exact ⟨⟨hlr, hrr⟩, hlv, hrv⟩
    · rintro ⟨⟨hlr, hrr⟩, hlv, hrv⟩
      exact ⟨⟨hlr, hlv⟩, hrr, hrv⟩

theorem MadeOf.mono {P P' : MemoryReference → Prop} {Q Q' : N → Prop} {e : Expr N} (h : e.MadeOf P Q)
    (hP : ∀ r, P r → P' r) (hQ : ∀ v, Q v → Q' v) : e.MadeOf P' Q' := by
  obtain ⟨hr, hv⟩ := madeOf_iff.1 h
  exact madeOf_iff.2 ⟨fun r hm => hP r (hr r hm), fun v hm => hQ v (hv v hm)⟩

/-! ## Slots under simplification -/

section Slots

variable [Scalar N]

/-- What a rule drops is a literal. -/
theorem references_of_unit {e : Expr N} {op : Operator}
    (h : e.isRightUnit op = true ∨ e.isLeftUnit op = true) : e.references = [] := by
  cases e with
  | number => rfl
  | _ => rcases h with h | h <;> cases op <;> cases h

/-- Every rule keeps the slots of its operands, in order. -/
theorem Combines.references {op : Operator} {l r e : Expr N} (h : Combines op l r e) :
    e.references = l.references ++ r.references := by
  induction h with
  | fold h =>
    obtain ⟨a, b, rfl, rfl, -⟩ := fold?_eq_some_iff.1 h
    rfl
  | dropRight h => rw [references_of_unit (.inl h), List.append_nil]
  | dropLeft h => rw [references_of_unit (.inr h), List.nil_append]
  | moveLeft h _ ih =>
    obtain ⟨a, d, rfl, rfl, -⟩ := fold?_eq_some_iff.1 h
    rw [ih]
    simp only [Expr.references, List.nil_append, List.append_nil]
  | moveRight h _ ih =>
    obtain ⟨b, d, rfl, rfl, -⟩ := fold?_eq_some_iff.1 h
    rw [ih]
    simp only [Expr.references, List.nil_append, List.append_nil]
  | keep => rfl

theorem references_callOf (f : MathFunction) (e : Expr N) : (callOf f e).references = e.references := by
  unfold callOf
  split
  · split <;> rfl
  · rfl

theorem references_signOf (sign : Sign) (e : Expr N) : (signOf sign e).references = e.references := by
  unfold signOf
  split <;> rfl

theorem references_simplify (e : Expr N) : e.simplify.references = e.references := by
  induction e with
  | number | pi | address => rfl
  | call f argument ih => exact (references_callOf f _).trans ih
  | signed sign operand ih => exact (references_signOf sign _).trans ih
  | binary op left right ihl ihr =>
    rw [simplify, (combines_combine op _ _).references, ihl, ihr]
    rfl

/-- **Simplification keeps what is read from memory**: the same slots in the same order, each as often
as before. So an expression that reads memory stays one, and becomes no literal. -/
theorem slots_simplify (e : Expr N) :
    e.simplify.references = e.references ∧ e.simplify.isSymbolic = e.isSymbolic ∧
      (e.isSymbolic = true → e.simplify.isNumber = false) := by
  have hreferences := references_simplify e
  have hsymbolic : e.simplify.isSymbolic = e.isSymbolic := by
    rw [Bool.eq_iff_iff, isSymbolic_iff_references_ne_nil, isSymbolic_iff_references_ne_nil, hreferences]
  refine ⟨hreferences, hsymbolic, fun h => ?_⟩
  rw [← hsymbolic] at h
  cases hsimplified : e.simplify with
  | number v => rw [hsimplified] at h; cases h
  | _ => rfl

end Slots

/-! ## Literals under simplification -/

section Literals

variable [Scalar N] {P : MemoryReference → Prop}

/-- The literals are finite, and the slots have the property. -/
abbrev FiniteOver (P : MemoryReference → Prop) (e : Expr N) : Prop :=
  e.MadeOf P fun v => Scalar.isFinite v = true

theorem isFinite_of_finite {v w : N} (h : finite v = .ok w) : Scalar.isFinite w = true := by
  unfold finite at h
  split at h
  · cases h; assumption
  · cases h

/-- A folded value is finite. -/
theorem isFinite_of_fold? {op : Operator} {l r : Expr N} {v : N} (h : fold? op l r = some v) :
    Scalar.isFinite v = true := by
  obtain ⟨a, b, -, -, hab⟩ := fold?_eq_some_iff.1 h
  unfold Operator.eval at hab
  split at hab
  · cases hab
  · exact isFinite_of_finite hab

/-- Every rule keeps literals finite and brings in no slot. -/
theorem Combines.finiteOver {op : Operator} {l r e : Expr N} (h : Combines op l r e)
    (hl : l.FiniteOver P) (hr : r.FiniteOver P) : e.FiniteOver P := by
  induction h with
  | fold h => exact isFinite_of_fold? h
  | dropRight => exact hl
  | dropLeft => exact hr
  | moveLeft h _ ih => exact ih (isFinite_of_fold? h) hl.2
  | moveRight h _ ih => exact ih (isFinite_of_fold? h) hl.1
  | keep => exact ⟨hl, hr⟩

theorem finiteOver_callOf (f : MathFunction) {e : Expr N} (h : e.FiniteOver P) :
    (callOf f e).FiniteOver P := by
  unfold callOf
  split
  · split
    · exact isFinite_of_finite ‹_›
    · exact h
  · exact h

theorem finiteOver_signOf (hneg : ∀ v : N, Scalar.isFinite v = true → Scalar.isFinite (Scalar.neg v) = true)
    (s : Sign) {e : Expr N} (h : e.FiniteOver P) : (signOf s e).FiniteOver P := by
  unfold signOf
  split
  · exact h
  · exact hneg _ h
  · exact h

/-- Simplification keeps literals finite and brings in no slot. -/
theorem MadeOf.simplify (hpi : Scalar.isFinite (Scalar.pi : N) = true)
    (hneg : ∀ v : N, Scalar.isFinite v = true → Scalar.isFinite (Scalar.neg v) = true) {e : Expr N}
    (h : e.FiniteOver P) : e.simplify.FiniteOver P := by
  induction e with
  | number | address => exact h
  | pi => exact hpi
  | call f argument ih => exact finiteOver_callOf f (ih h)
  | signed s operand ih => exact finiteOver_signOf hneg s (ih h)
  | binary op left right ihl ihr => exact (combines_combine op _ _).finiteOver (ihl h.1) (ihr h.2)

end Literals

end Expr

end QuilControl
