import QuilControl.Program.Edit
import QuilControl.Proofs.Program.Lines
import QuilControl.Proofs.Randomized.Appended
import QuilControl.Proofs.Recalculation.Slots
import QuilControl.Proofs.Scalar.Rational

/-!
# Programs over their history

A program is read, edited in place, copied without its body and transformed, in any order. Through all
of it no name is declared twice and the body declares nothing (`Program.IsWellFormed`): each operation
keeps this (`Operation.isWellFormed_apply`), so every history does (`Operation.isWellFormed_run`).
Adding checks each name, and a new name in front or behind is checked before; the operations that fail
leave the program as it was, except for a list of instructions, whose first part stays
(`Edit.of_addAll_eq_error`).
-/

namespace QuilControl

variable {N : Type}

/-! ## Well-formed programs -/

/-- No name is declared twice, and declarations stand with the declarations. -/
structure Program.IsWellFormed (p : Program N) : Prop where
  distinct : p.names.Nodup
  body : ∀ i ∈ p.body, i.isDeclaration = false

namespace Program.IsWellFormed

variable {p q : Program N} {is : List (Instruction N)}

theorem empty : (Program.empty : Program N).IsWellFormed := ⟨List.nodup_nil, by simp [Program.empty]⟩

theorem header (h : p.IsWellFormed) : p.header.IsWellFormed := ⟨h.distinct, by simp [Program.header]⟩

theorem addAll? (h : p.IsWellFormed) (hq : p.addAll? is = .ok q) : q.IsWellFormed := by
  obtain ⟨hnodup, hfresh, rfl⟩ := addAll?_eq_ok hq
  refine ⟨?_, fun i hi => ?_⟩
  · rw [names, List.map_append, List.nodup_append]
    refine ⟨h.distinct, hnodup, ?_⟩
    rintro name hname _ hother rfl
    obtain ⟨d, hd, rfl⟩ := List.mem_map.1 hother
    exact hfresh d hd hname
  · rcases List.mem_append.1 hi with hi | hi
    · exact h.body i hi
    · simpa using (List.mem_filter.1 hi).2

theorem add (h : p.IsWellFormed) {i : Instruction N} (hq : p.add i = .ok q) : q.IsWellFormed := by
  have hone : p.addAll? [i] = .ok q := by
    rw [addAll?_cons, hq]
    rfl
  exact h.addAll? hone

/-- Also when one of the instructions is refused. -/
theorem addAll (h : p.IsWellFormed) (is : List (Instruction N)) : (p.addAll is).1.IsWellFormed := by
  induction is generalizing p with
  | nil => exact h
  | cons i is ih =>
    rw [Program.addAll]
    cases hi : p.add i with
    | error e => exact h
    | ok q => exact ih (h.add hi)

end Program.IsWellFormed

theorem Instruction.isDeclaration_outline (i : Instruction N) : i.outline.isDeclaration = i.isDeclaration := by
  cases i <;> rfl

section Substitution

variable [Scalar N]

/-- The region of the computed values is new, and the sites are no place for a declaration. -/
theorem Program.IsWellFormed.substituteArithmetic {p : Program N} {q : Substituted N} (h : p.IsWellFormed)
    (hq : p.substituteArithmetic = .ok q) : q.program.IsWellFormed := by
  have hfresh : substitutionName ∉ p.names := by
    rw [← p.declaration?_isSome]
    unfold Program.substituteArithmetic at hq
    split at hq
    · cases hq
    · next hnone =>
      rw [hnone]
      exact Bool.false_ne_true
  obtain ⟨hbody, -, -, hdeclarations⟩ := Program.of_substituteArithmetic_eq_ok hq
  refine ⟨?_, fun i hi => ?_⟩
  · rw [Program.names, hdeclarations]
    split
    · exact h.distinct
    · exact List.nodup_cons.2 ⟨hfresh, h.distinct⟩
  · have houtline : i.outline ∈ p.body.map Instruction.outline :=
      outline_substituteBody hbody ▸ List.mem_map_of_mem hi
    obtain ⟨j, hj, heq⟩ := List.mem_map.1 houtline
    rw [← i.isDeclaration_outline, ← heq, j.isDeclaration_outline]
    exact h.body j hj

end Substitution

/-! ## Edits that fail -/

namespace Edit

variable {p q : Program N} {e : QuilError}

theorem of_declare_eq_error {d : Declaration} (h : (declare d).apply p = (q, some e)) : q = p := by
  rw [apply_declare] at h
  cases hd : p.declare d with
  | ok q => rw [hd] at h; cases h
  | error e => rw [hd] at h; cases h; rfl

theorem of_add_eq_error {i : Instruction N} (h : (add i).apply p = (q, some e)) : q = p := by
  rw [apply_add] at h
  cases hi : p.add i with
  | ok q => rw [hi] at h; cases h
  | error e => rw [hi] at h; cases h; rfl

/-- Instructions that are not all added: those in front of the first that is refused are. -/
theorem of_addAll_eq_error {is : List (Instruction N)} (h : (addAll is).apply p = (q, some e)) :
    ∃ before i after, is = before ++ i :: after ∧ (addAll before).apply p = (q, none) ∧
      (add i).apply q = (q, some e) := by
  induction is generalizing p with
  | nil => cases h
  | cons i is ih =>
    rw [apply_cons] at h
    split at h
    · next r hr =>
      obtain ⟨before, j, after, rfl, hbefore, hj⟩ := ih h
      refine ⟨i :: before, j, after, rfl, ?_, hj⟩
      rw [apply_cons, hr]
      exact hbefore
    · next r e hr =>
      cases h
      obtain rfl := of_add_eq_error hr
      exact ⟨[], i, is, rfl, rfl, hr⟩

end Edit

/-! ## Histories -/

/-- What is done with a program. -/
inductive Operation (N : Type) : Type 1 where
  /-- Replace the program by the one that a text is. -/
  | read (source : String)
  | declare (d : Declaration)
  | add (i : Instruction N)
  | addAll (is : List (Instruction N))
  /-- Take a copy without the body. -/
  | header
  | substituteArithmetic
  /-- Append randomized measurements, whose set gives these answers by now. -/
  | append {ε : Type} (r : RandomizedMeasurements N ε) (answers : UnitarySet N ε)

namespace Operation

/-- The outcome, or the program as it was when there is none. -/
def orKeep {ε : Type} (p : Program N) : Except ε (Program N) → Program N
  | .ok q => q
  | .error _ => p

variable [Scalar N]

/-- The program after an operation, whether or not it has failed. -/
def apply (p : Program N) : Operation N → Program N
  | read source => orKeep p (Program.ofText source)
  | declare d => ((Edit.declare d).apply p).1
  | add i => ((Edit.add i).apply p).1
  | addAll is => ((Edit.addAll is).apply p).1
  | header => p.header
  | substituteArithmetic => orKeep p (p.substituteArithmetic.map (·.program))
  | append r answers => orKeep p (r.appendAnswered answers p)

/-- The program that operations make of the empty one. -/
def run (ops : List (Operation N)) : Program N := ops.foldl apply .empty

omit [Scalar N] in
theorem isWellFormed_orKeep {ε : Type} {p : Program N} {outcome : Except ε (Program N)}
    (h : p.IsWellFormed) (hok : ∀ q, outcome = .ok q → q.IsWellFormed) : (orKeep p outcome).IsWellFormed := by
  cases outcome with
  | error e => exact h
  | ok q => exact hok q rfl

theorem isWellFormed_apply {p : Program N} (h : p.IsWellFormed) (op : Operation N) :
    (op.apply p).IsWellFormed := by
  cases op with
  | read source =>
    refine isWellFormed_orKeep h fun q hq => ?_
    refine Program.ofText_induction ?_ ?_ .empty hq
    · exact fun p definitions frames hp => ⟨hp.distinct, hp.body⟩
    · exact fun text _ part _ line i p q _ hp hadd => hp.add hadd
  | declare d =>
    rw [apply, Edit.apply_declare]
    cases hd : p.declare d with
    | error e => exact h
    | ok q => exact h.add (i := .declaration d) hd
  | add i =>
    rw [apply, Edit.apply_add]
    cases hi : p.add i with
    | error e => exact h
    | ok q => exact h.add hi
  | addAll is =>
    rw [apply, Edit.apply_addAll]
    exact h.addAll is
  | header => exact h.header
  | substituteArithmetic =>
    refine isWellFormed_orKeep h fun q hq => ?_
    cases hs : p.substituteArithmetic with
    | error e => rw [hs] at hq; cases hq
    | ok s =>
      rw [hs] at hq
      cases hq
      exact h.substituteArithmetic hs
  | append r answers =>
    refine isWellFormed_orKeep h fun q hq => ?_
    obtain ⟨-, unitaries, -, hadded⟩ := RandomizedMeasurements.appendAnswered_eq_ok hq
    exact h.header.addAll? hadded

/-- **Every history gives a well-formed program**, whichever of its operations fail. An edit that fails
changes nothing, except that a list of instructions leaves the effect of those in front of the first
that is refused. -/
theorem isWellFormed_run (ops : List (Operation N)) :
    (run ops).IsWellFormed ∧
      ∀ (p q : Program N) (e : QuilError),
        (∀ d, (Edit.declare d).apply p = (q, some e) → q = p) ∧
        (∀ i, (Edit.add i).apply p = (q, some e) → q = p) ∧
        ∀ is, (Edit.addAll is).apply p = (q, some e) →
          ∃ before i after, is = before ++ i :: after ∧ (Edit.addAll before).apply p = (q, none) ∧
            (Edit.add i).apply q = (q, some e) := by
  have hfold (p : Program N) (hp : p.IsWellFormed) : (ops.foldl apply p).IsWellFormed := by
    induction ops generalizing p with
    | nil => exact hp
    | cons op ops ih => exact ih _ (isWellFormed_apply hp op)
  exact ⟨hfold _ .empty, fun p q e => ⟨fun _ => Edit.of_declare_eq_error, fun _ => Edit.of_add_eq_error,
    fun _ => Edit.of_addAll_eq_error⟩⟩

/-- A program with a computed angle. Another text, a second `ro` and the instructions behind it are
refused. -/
theorem isWellFormed_run_refused :
    let is : List (Instruction (Exact rational)) :=
      [.gate ⟨[], "X", [], [.fixed 0]⟩, .declaration ⟨"ro", .bit, 1, none⟩, .gate ⟨[], "Y", [], [.fixed 0]⟩]
    let ops : List (Operation (Exact rational)) :=
      [.read "DECLARE ro BIT[2]\nRX(2*theta[0]) 0", .declare ⟨"theta", .real, 1, none⟩, .substituteArithmetic,
        .read "DECLARE ro BIT\nDECLARE ro BIT", .declare ⟨"ro", .bit, 7, none⟩, .addAll is]
    let p := run ops
    p.names = ["__SUBST", "ro", "theta"] ∧ p.body.length = 2 ∧ p.IsWellFormed ∧
      ∃ q, (Edit.addAll is).apply p = (q, some (.duplicateDeclaration "ro")) ∧
        ∃ before i after, is = before ++ i :: after ∧ (Edit.addAll before).apply p = (q, none) ∧
          (Edit.add i).apply q = (q, some (.duplicateDeclaration "ro")) := by
  intro is ops p
  have hevaluated : p.names = ["__SUBST", "ro", "theta"] ∧ p.body.length = 2 := by decide +kernel
  obtain ⟨hwellFormed, hfailed⟩ := isWellFormed_run ops
  have hrefused : ((Edit.addAll is).apply p).2 = some (.duplicateDeclaration "ro") := by decide +kernel
  have happly : (Edit.addAll is).apply p =
      (((Edit.addAll is).apply p).1, some (.duplicateDeclaration "ro")) := Prod.ext rfl hrefused
  obtain ⟨-, -, hlist⟩ := hfailed p _ _
  exact ⟨hevaluated.1, hevaluated.2, hwellFormed, _, happly, hlist is happly⟩

end Operation

end QuilControl
