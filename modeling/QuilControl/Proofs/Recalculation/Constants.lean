import QuilControl.Proofs.Expr.Rules
import QuilControl.Proofs.Recalculation.Sites
import QuilControl.Proofs.Scalar.Rational
import QuilControl.Traverse

/-!
# Constants stay inline

Evaluation and simplification are two walks over an expression with the same operations on numbers,
whatever these are. Where evaluation without memory gives a value, simplification gives that very
value as a literal (`Expr.simplify_of_eval`): the parts of the expression have values, so they are
literals when the rules are tried, and folding comes before the rules that drop an operand. So moving
the arithmetic out of a program leaves such an expression in its place, as its value
(`Expr.constant_staysInline`).
-/

namespace QuilControl

variable {N : Type} [Scalar N]

namespace Expr

/-! ## Values without memory -/

theorem eq_of_finite {v w : N} (h : finite v = .ok w) : v = w := by
  unfold finite at h
  split at h
  · cases h; rfl
  · cases h

/-- What reads no memory has the same value, or the same error, against any memory. -/
theorem eval_of_not_isSymbolic {e : Expr N} (h : e.isSymbolic = false) (m m' : Memory N) :
    e.eval m = e.eval m' := by
  induction e with
  | number | pi => rfl
  | address slot => cases h
  | call f argument ih => simp only [eval, ih h]
  | signed sign operand ih => simp only [eval, ih h]
  | binary op left right ihl ihr =>
    obtain ⟨hl, hr⟩ := Bool.or_eq_false_iff.1 h
    simp only [eval, ihl hl, ihr hr]

/-- What has a value against empty memory reads no memory. -/
theorem isSymbolic_of_eval_empty {e : Expr N} {v : N} (h : e.eval ∅ = .ok v) : e.isSymbolic = false := by
  induction e generalizing v with
  | number | pi => rfl
  | address slot => cases h
  | call f argument ih =>
    obtain ⟨w, hw, -⟩ := exists_of_bind_eq_ok h
    exact ih hw
  | signed sign operand ih =>
    obtain ⟨w, hw, -⟩ := exists_of_bind_eq_ok h
    exact ih hw
  | binary op left right ihl ihr =>
    obtain ⟨l, hl, hrest⟩ := exists_of_bind_eq_ok h
    obtain ⟨r, hr, -⟩ := exists_of_bind_eq_ok hrest
    exact Bool.or_eq_false_iff.2 ⟨ihl hl, ihr hr⟩

/-! ## Literals as operands -/

theorem callOf_of_eval {f : MathFunction} {v w : N} (h : f.eval v = .ok w) :
    callOf f (number v) = number w := by
  simp only [callOf, h]

theorem signOf_number (sign : Sign) (v : N) : signOf sign (number v) = number (sign.apply v) := by
  cases sign <;> rfl

theorem combine_of_eval {op : Operator} {l r v : N} (h : op.eval l r = .ok v) :
    combine op (number l) (number r) = number v :=
  combine_of_fold? (fold?_eq_some_iff.2 ⟨l, r, rfl, rfl, h⟩)

/-- The value of an expression that reads no memory is what it simplifies to. -/
theorem simplify_of_eval {e : Expr N} {m : Memory N} {v : N} (hs : e.isSymbolic = false)
    (h : e.eval m = .ok v) : e.simplify = number v := by
  induction e generalizing v with
  | number w => rw [simplify, eq_of_finite h]
  | pi => rw [simplify, eq_of_finite h]
  | address slot => cases hs
  | call f argument ih =>
    obtain ⟨w, hw, hv⟩ := exists_of_bind_eq_ok h
    rw [simplify, ih hs hw, callOf_of_eval hv]
  | signed sign operand ih =>
    obtain ⟨w, hw, hv⟩ := exists_of_bind_eq_ok h
    rw [simplify, ih hs hw, signOf_number, eq_of_finite hv]
  | binary op left right ihl ihr =>
    obtain ⟨hsl, hsr⟩ := Bool.or_eq_false_iff.1 hs
    obtain ⟨l, hl, hrest⟩ := exists_of_bind_eq_ok h
    obtain ⟨r, hr, hv⟩ := exists_of_bind_eq_ok hrest
    rw [simplify, ihl hsl hl, ihr hsr hr, combine_of_eval hv]

/-! ## In a program -/

/-- Moving arithmetic out leaves a literal in place of an expression: it needs no slot and no frame,
and what else the program holds does not matter. -/
structure StaysInline (e : Expr N) (v : N) : Prop where
  /-- As a parameter of a gate. -/
  angle : ∀ table, substituteAngle table e = (number v, table)
  /-- As a phase, a scale or a frequency. -/
  update : ∀ (p : Program N) table update frame,
    substituteInstruction p table (.frameUpdate update frame e) =
      .ok (.frameUpdate update frame (number v), table)
  /-- At each of its places in a program. -/
  site : ∀ (p : Program N) q, p.substituteArithmetic = .ok q → ∀ (i : Nat) quantity,
    p.sites[i]? = some ⟨quantity, e⟩ → q.program.sites[i]? = some ⟨quantity, number v⟩

theorem staysInline_of_simplify {e : Expr N} {v : N} (h : e.simplify = number v) : e.StaysInline v where
  angle table := by rw [substituteAngle_of_isNumber (by rw [h]; rfl), h]
  update p table update frame := by rw [substituteInstruction_of_isNumber (by rw [h]; rfl), h]
  site p q hq i quantity hi := by
    obtain ⟨hlt, hsite⟩ := List.getElem?_eq_some_iff.1 hi
    have hbecomes := (Program.substitutes hq).becomes
    have hlt' : i < q.program.sites.length := hbecomes.length_eq ▸ hlt
    obtain ⟨hquantity, ⟨-, hexpr⟩ | ⟨-, -, -, -, hnumber, -⟩⟩ := hbecomes.get hlt hlt'
    · rw [List.getElem?_eq_getElem hlt', Option.some.injEq]
      simp only [List.get_eq_getElem, hsite, h] at hquantity hexpr
      exact congrArg₂ Site.mk hquantity hexpr
    · simp only [List.get_eq_getElem, hsite, h] at hnumber
      cases hnumber

/-- **A constant stays inline with its value.** An expression that has a value without memory has that
value against any memory, simplifies to it, and stays in a program as this literal. -/
theorem constant_staysInline {e : Expr N} {v : N} (h : e.constant? = some v) :
    e.isSymbolic = false ∧ (∀ memory : Memory N, e.eval memory = .ok v) ∧ e.simplify = number v ∧
      e.StaysInline v := by
  have hempty : e.eval ∅ = .ok v := by
    cases he : e.eval (∅ : Memory N) with
    | error error => rw [constant?, he] at h; cases h
    | ok w => rw [constant?, he] at h; cases h; rfl
  have hsymbolic := isSymbolic_of_eval_empty hempty
  have hsimplify := simplify_of_eval hsymbolic hempty
  exact ⟨hsymbolic, fun memory => (eval_of_not_isSymbolic hsymbolic memory ∅).trans hempty, hsimplify,
    staysInline_of_simplify hsimplify⟩

open Exact in
/-- Operands that change nothing are folded all the same, beside a parameter that reads memory. -/
theorem constant_staysInline_gate :
    let e : Expr (Exact rational) :=
      (.number (of 0) + .number (of 2)) * .number (of 1) / .call .cosine (.number (of 1))
    let p : Program (Exact rational) :=
      { definitions := [], frames := [], declarations := []
        body := [.gate ⟨[], "U", [.address ⟨"a", 0⟩, e], [.fixed 0]⟩] }
    e.constant? = some (of 2) ∧ e.simplify = .number (of 2) ∧ ∃ q, p.substituteArithmetic = .ok q ∧
      q.program.sites[1]? = some ⟨.angle, .number (of 2)⟩ := by
  intro e p
  have hvalue : e.constant?.map (·.value?) = some (some 2) := by decide +kernel
  have hconstant : e.constant? = some (of 2) := by
    obtain ⟨⟨x⟩, hx, rfl⟩ := Option.map_eq_some_iff.1 hvalue
    exact hx
  obtain ⟨-, -, hsimplify, hinline⟩ := constant_staysInline hconstant
  obtain ⟨q, hq⟩ : ∃ q, p.substituteArithmetic = .ok q := ⟨_, rfl⟩
  exact ⟨hconstant, hsimplify, q, hq, hinline.site p q hq 1 .angle rfl⟩

end Expr

end QuilControl
