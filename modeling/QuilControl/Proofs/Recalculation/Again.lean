import QuilControl.Proofs.Recalculation.Refusals

/-!
# Moving arithmetic out twice

A program stays as it is, without a slot, exactly when it does not declare the region of the computed
values and has a literal at every site (`Program.substituteArithmetic_eq_self_iff`); no frame is looked
up for a literal. Once arithmetic has been moved out, the program is of this kind when no slot was
needed, and otherwise declares the region.
-/

namespace QuilControl

variable {N : Type} [Scalar N] {p : Program N} {table : RecalculationTable}

theorem Expr.simplify_of_isNumber {e : Expr N} (h : e.isNumber = true) : e.simplify = e := by
  cases e with
  | number v => rfl
  | _ => cases h

/-! ## Literals stay -/

theorem substituteAngles_of_literals {es : List (Expr N)} (h : ∀ e ∈ es, e.isNumber = true) :
    substituteAngles table es = (es, table) := by
  induction es with
  | nil => rfl
  | cons e es ih =>
    have he : e.isNumber = true := h e (by simp)
    have hsimplify := Expr.simplify_of_isNumber he
    have hangle : substituteAngle table e = (e, table) := by
      rw [substituteAngle_of_isNumber (by rw [hsimplify, he]), hsimplify]
    rw [substituteAngles, hangle, ih fun e' he' => h e' (by simp [he'])]

/-- An instruction with literals at its sites stays. -/
theorem substituteInstruction_of_literals {i : Instruction N} (h : ∀ s ∈ i.sites, s.expr.isNumber = true) :
    substituteInstruction p table i = .ok (i, table) := by
  cases i with
  | gate g =>
    have hparameters : ∀ e ∈ g.parameters, e.isNumber = true := fun e he =>
      h ⟨.angle, e⟩ (List.mem_map_of_mem he)
    simp [substituteInstruction, substituteAngles_of_literals hparameters]
  | frameUpdate update frame value =>
    have hvalue : value.isNumber = true := h ⟨update.quantity frame, value⟩ (by simp [Instruction.sites])
    have hsimplify := Expr.simplify_of_isNumber hvalue
    rw [substituteInstruction_of_isNumber (by rw [hsimplify, hvalue]), hsimplify]
  | declaration | pragma | call | measurement | fence | delay | other => rfl

theorem substituteBody_of_literals {is : List (Instruction N)}
    (h : ∀ s ∈ is.flatMap Instruction.sites, s.expr.isNumber = true) :
    substituteBody p table is = .ok (is, table) := by
  induction is with
  | nil => rfl
  | cons i rest ih =>
    simp only [List.flatMap_cons, List.forall_mem_append] at h
    rw [substituteBody, substituteInstruction_of_literals h.1]
    simp only [ih h.2]

/-! ## Programs that stay -/

/-- Where no slot was needed, every site has a literal. -/
theorem Program.isNumber_of_table_eq_nil {q : Substituted N} (h : p.substituteArithmetic = .ok q)
    (hnil : q.table = []) : ∀ s ∈ q.program.sites, s.expr.isNumber = true := by
  intro t ht
  obtain ⟨i, hi, rfl⟩ := List.getElem_of_mem ht
  have hbecomes := (Program.substitutes h).becomes
  obtain ⟨-, ⟨hnumber, hexpr⟩ | ⟨k, text, -, hk, -⟩⟩ := hbecomes.get (hbecomes.length_eq ▸ hi) hi
  · simp only [List.get_eq_getElem] at hnumber hexpr
    rw [hexpr, hnumber]
  · simp [hnil] at hk

theorem Program.undeclared_of_substituteArithmetic {q : Substituted N} (h : p.substituteArithmetic = .ok q) :
    ∀ d ∈ p.declarations, d.name ≠ "__SUBST" := by
  intro d hd hname
  rw [substituteArithmetic_of_declared ⟨d, hd, hname⟩] at h
  cases h

theorem Program.substituteArithmetic_eq_self_iff :
    p.substituteArithmetic = .ok ⟨p, []⟩ ↔
      (∀ d ∈ p.declarations, d.name ≠ "__SUBST") ∧ ∀ s ∈ p.sites, s.expr.isNumber = true := by
  constructor
  · intro h
    exact ⟨undeclared_of_substituteArithmetic h, isNumber_of_table_eq_nil h rfl⟩
  · rintro ⟨hfree, hsites⟩
    have hnone : p.declaration? substitutionName = none := declaration?_eq_none_iff.2 hfree
    have hbody : substituteBody p [] p.body = .ok (p.body, []) := substituteBody_of_literals hsites
    rw [substituteArithmetic, hnone]
    simp only [hbody, List.isEmpty_nil, if_true]

/-- **Moving arithmetic out a second time.** If slots were needed, their region is declared now, and the
program is refused. If none was, the program stays as it is. -/
theorem Program.substituteArithmetic_again {q : Substituted N} (h : p.substituteArithmetic = .ok q) :
    (q.table ≠ [] → q.program.substituteArithmetic = .error .substitutionDeclared) ∧
      (q.table = [] → q.program.substituteArithmetic = .ok ⟨q.program, []⟩) := by
  obtain ⟨-, -, -, hdeclarations⟩ := Program.of_substituteArithmetic_eq_ok h
  constructor
  · intro hslots
    rw [if_neg (by simpa using hslots)] at hdeclarations
    refine substituteArithmetic_of_declared ⟨substitutionDeclaration q.table, ?_, rfl⟩
    simp [hdeclarations]
  · intro hnil
    rw [if_pos (by simp [hnil])] at hdeclarations
    refine substituteArithmetic_eq_self_iff.2 ⟨?_, isNumber_of_table_eq_nil h hnil⟩
    rw [hdeclarations]
    exact undeclared_of_substituteArithmetic h

open Exact in
/-- A program that needs a slot, and one with a sum of literals as a frequency of a frame that has no
definition. -/
theorem substituteArithmetic_again_frequency :
    let frame : Frame := ⟨"xy", [.fixed 0]⟩
    let slots : Program (Exact rational) :=
      { definitions := [], frames := [], declarations := []
        body := [.gate ⟨[], "RX", [.address ⟨"a", 0⟩], [.fixed 0]⟩] }
    let literals : Program (Exact rational) :=
      { definitions := [], frames := [], declarations := []
        body := [.frameUpdate .setFrequency frame (.number (of 2) + .number (of 3))] }
    (∃ q, slots.substituteArithmetic = .ok q ∧
      q.program.substituteArithmetic = .error .substitutionDeclared) ∧
    ∃ q, literals.substituteArithmetic = .ok q ∧ q.program.substituteArithmetic = .ok ⟨q.program, []⟩ := by
  intro frame slots literals
  constructor
  · have hq : slots.substituteArithmetic = .ok _ := rfl
    exact ⟨_, hq, (Program.substituteArithmetic_again hq).1 (List.cons_ne_nil _ _)⟩
  · have hq : literals.substituteArithmetic = .ok _ := rfl
    exact ⟨_, hq, (Program.substituteArithmetic_again hq).2 rfl⟩

end QuilControl
