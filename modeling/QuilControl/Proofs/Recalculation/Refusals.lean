import QuilControl.Proofs.Recalculation.Sites
import QuilControl.Proofs.Scalar.Rational
import QuilControl.Proofs.Traverse

/-!
# When arithmetic cannot be moved out

Only frequencies can be refused: one that does not simplify to a literal needs the sample rate of its
frame, which the first definition of the frame has to give as an expression, in the first attribute of
that name. Whether an instruction is refused depends on the definitions alone and not on the slots in
use (`substituteInstruction_eq_error_iff`), so the error of a body is that of its first refused
instruction (`substituteBody_eq_error_iff`).
-/

namespace QuilControl

variable {N : Type}

/-! ## Definitions that come first -/

/-- `d` is the first definition of a frame, by its name and the order of its qubits. -/
def Program.Defines (p : Program N) (frame : Frame) (d : FrameDefinition N) : Prop :=
  ∃ before after, p.frames = before ++ d :: after ∧ d.frame = frame ∧ ∀ b ∈ before, b.frame ≠ frame

/-- `value` is that of the first attribute of a name. -/
def FrameDefinition.Gives (d : FrameDefinition N) (key : String) (value : Attribute N) : Prop :=
  ∃ before after, d.attributes = before ++ (key, value) :: after ∧ ∀ b ∈ before, b.1 ≠ key

theorem Program.frame?_eq_some_iff {p : Program N} {frame : Frame} {d : FrameDefinition N} :
    p.frame? frame = some d ↔ p.Defines frame d := by
  simp only [frame?, Defines, List.find?_eq_some_iff_append, decide_eq_true_eq, Bool.not_eq_true',
    decide_eq_false_iff_not]
  constructor
  · rintro ⟨hd, before, after, h, hbefore⟩
    exact ⟨before, after, h, hd, hbefore⟩
  · rintro ⟨before, after, h, hd, hbefore⟩
    exact ⟨hd, before, after, h, hbefore⟩

theorem Program.frame?_eq_none_iff {p : Program N} {frame : Frame} :
    p.frame? frame = none ↔ ∀ d ∈ p.frames, d.frame ≠ frame := by
  simp [frame?]

theorem Program.declaration?_eq_none_iff {p : Program N} {name : String} :
    p.declaration? name = none ↔ ∀ d ∈ p.declarations, d.name ≠ name := by
  simp [declaration?]

theorem FrameDefinition.attribute?_eq_some_iff {d : FrameDefinition N} {key : String} {value : Attribute N} :
    d.attribute? key = some value ↔ d.Gives key value := by
  simp only [attribute?, Gives, Option.map_eq_some_iff, List.find?_eq_some_iff_append, decide_eq_true_eq,
    Bool.not_eq_true', decide_eq_false_iff_not]
  constructor
  · rintro ⟨⟨_, _⟩, ⟨rfl, before, after, h, hbefore⟩, rfl⟩
    exact ⟨before, after, h, hbefore⟩
  · rintro ⟨before, after, h, hbefore⟩
    exact ⟨(key, value), ⟨rfl, before, after, h, hbefore⟩, rfl⟩

theorem FrameDefinition.attribute?_eq_none_iff {d : FrameDefinition N} {key : String} :
    d.attribute? key = none ↔ ∀ a ∈ d.attributes, a.1 ≠ key := by
  simp [attribute?]

/-! ## Refused frequencies -/

/-- The frame has no sample rate that a frequency can be divided by. -/
inductive Program.Unsampled (p : Program N) (frame : Frame) : SubstitutionError → Prop
  | undefined (h : ∀ d ∈ p.frames, d.frame ≠ frame) : p.Unsampled frame (.missingDefFrame frame.text)
  | missing {d : FrameDefinition N} (hd : p.Defines frame d) (h : ∀ a ∈ d.attributes, a.1 ≠ "SAMPLE-RATE") :
    p.Unsampled frame (.missingSampleRate frame.text)
  | string {d : FrameDefinition N} {rate : String} (hd : p.Defines frame d)
    (h : d.Gives "SAMPLE-RATE" (.string rate)) : p.Unsampled frame (.invalidSampleRate rate frame.text)

theorem toSamples_eq_error_iff {p : Program N} {frame : Frame} {e : SubstitutionError} {x : Expr N} :
    toSamples p frame x = .error e ↔ p.Unsampled frame e := by
  unfold toSamples
  constructor
  · intro h
    split at h
    · next hd =>
      cases h
      exact .undefined (Program.frame?_eq_none_iff.1 hd)
    · next d hd =>
      have hd := Program.frame?_eq_some_iff.1 hd
      split at h
      · next ha =>
        cases h
        exact .missing hd (FrameDefinition.attribute?_eq_none_iff.1 ha)
      · next rate ha =>
        cases h
        exact .string hd (FrameDefinition.attribute?_eq_some_iff.1 ha)
      · split at h <;> cases h
  · rintro (h | ⟨hd, h⟩ | ⟨hd, h⟩)
    · rw [Program.frame?_eq_none_iff.2 h]
    · rw [Program.frame?_eq_some_iff.2 hd]
      simp only [FrameDefinition.attribute?_eq_none_iff.2 h]
    · rw [Program.frame?_eq_some_iff.2 hd]
      simp only [FrameDefinition.attribute?_eq_some_iff.2 h]

variable [Scalar N]

/-- The instruction sets or shifts a frequency that is no literal, on a frame without such a rate. -/
inductive Instruction.Refused (p : Program N) : Instruction N → SubstitutionError → Prop
  | frequency {update : FrameUpdate} {frame : Frame} {value : Expr N} {e : SubstitutionError}
    (hupdate : update = .setFrequency ∨ update = .shiftFrequency) (hvalue : value.simplify.isNumber = false)
    (h : p.Unsampled frame e) : Refused p (.frameUpdate update frame value) e

variable {p : Program N} {frame : Frame} {e : SubstitutionError}

theorem convert_eq_error_iff {update : FrameUpdate} {x : Expr N} :
    update.convert p frame x = .error e ↔
      (update = .setFrequency ∨ update = .shiftFrequency) ∧ p.Unsampled frame e := by
  cases update <;> simp [FrameUpdate.convert, toSamples_eq_error_iff]

/-- Whatever slots are in use, an instruction fails just when it is refused. -/
theorem substituteInstruction_eq_error_iff (table : RecalculationTable) {i : Instruction N} :
    substituteInstruction p table i = .error e ↔ i.Refused p e := by
  cases i with
  | frameUpdate update frame value =>
    have hrefused : (Instruction.frameUpdate update frame value).Refused p e ↔
        value.simplify.isNumber = false ∧ update.convert p frame value.simplify = .error e := by
      rw [convert_eq_error_iff]
      constructor
      · rintro ⟨hupdate, hvalue, h⟩
        exact ⟨hvalue, hupdate, h⟩
      · rintro ⟨hvalue, hupdate, h⟩
        exact .frequency hupdate hvalue h
    rw [hrefused, substituteInstruction]
    by_cases hn : value.simplify.isNumber = true
    · simp [hn]
    · cases update.convert p frame value.simplify <;> simp [hn]
  | gate | declaration | pragma | call | measurement | fence | delay | other =>
    constructor
    · intro h
      cases h
    · rintro ⟨⟩

/-- A body fails with its first refused instruction. -/
theorem substituteBody_eq_error_iff (table : RecalculationTable) {is : List (Instruction N)} :
    substituteBody p table is = .error e ↔ FirstFault (Instruction.Refused p) is e := by
  induction is generalizing table with
  | nil => simp [substituteBody]
  | cons i rest ih =>
    rw [substituteBody, firstFault_cons]
    simp only [← substituteInstruction_eq_error_iff table]
    cases substituteInstruction p table i with
    | error e' => simp
    | ok step =>
      obtain ⟨first, next⟩ := step
      rw [← ih next]
      dsimp only
      cases substituteBody p next rest <;> simp

/-! ## Programs -/

theorem Program.substituteArithmetic_of_declared (h : ∃ d ∈ p.declarations, d.name = "__SUBST") :
    p.substituteArithmetic = .error .substitutionDeclared := by
  obtain ⟨d, hmem, hname⟩ := h
  unfold substituteArithmetic
  cases hd : p.declaration? substitutionName with
  | none => exact absurd hname (declaration?_eq_none_iff.1 hd d hmem)
  | some d => rfl

theorem Program.substituteArithmetic_eq_error_iff (h : ∀ d ∈ p.declarations, d.name ≠ "__SUBST") :
    p.substituteArithmetic = .error e ↔ FirstFault (Instruction.Refused p) p.body e := by
  have hnone : p.declaration? substitutionName = none := declaration?_eq_none_iff.2 h
  rw [← substituteBody_eq_error_iff [], substituteArithmetic, hnone]
  dsimp only
  cases substituteBody p [] p.body <;> simp

/-- **When arithmetic cannot be moved out.** The region of the computed values must not be declared. Then
the arithmetic can be moved out unless an instruction sets or shifts a frequency that is no literal on
a frame without a numeric sample rate, and the error is that of the first such instruction. -/
theorem Program.substituteArithmetic_fails_iff (p : Program N) :
    (p.substituteArithmetic = .error .substitutionDeclared ↔ ∃ d ∈ p.declarations, d.name = "__SUBST") ∧
    ((∀ d ∈ p.declarations, d.name ≠ "__SUBST") →
      ((∃ e, p.substituteArithmetic = .error e) ↔ ∃ i ∈ p.body, ∃ e, i.Refused p e) ∧
      ∀ e, p.substituteArithmetic = .error e ↔ FirstFault (Instruction.Refused p) p.body e) := by
  refine ⟨⟨fun h => ?_, substituteArithmetic_of_declared⟩, fun h => ⟨?_, fun e => ?_⟩⟩
  · by_contra hnone
    have hfree : ∀ d ∈ p.declarations, d.name ≠ "__SUBST" := fun d hd hname => hnone ⟨d, hd, hname⟩
    -- A refused instruction never gives this error.
    obtain ⟨_, _, _, -, ⟨-, -, hunsampled⟩, -⟩ := (substituteArithmetic_eq_error_iff hfree).1 h
    cases hunsampled
  · simp only [substituteArithmetic_eq_error_iff h]
    exact exists_firstFault_iff
  · exact substituteArithmetic_eq_error_iff h

open Exact in
/-- A frame with two definitions, of which the first has two sample rates, behind a literal frequency of
a frame that has no definition. -/
theorem substituteArithmetic_fails_iff_string :
    let frame : Frame := ⟨"xy", [.fixed 0]⟩
    let other : Frame := ⟨"z", [.fixed 1]⟩
    let p : Program (Exact rational) :=
      { definitions := []
        frames := [⟨frame, [("SAMPLE-RATE", .string "fast"), ("SAMPLE-RATE", .expression (.number (of 1000)))]⟩,
          ⟨frame, [("SAMPLE-RATE", .expression (.number (of 1000)))]⟩]
        declarations := [⟨"f", .real, 1, none⟩]
        body := [.gate ⟨[], "RX", [.address ⟨"f", 0⟩], [.fixed 0]⟩,
          .frameUpdate .setFrequency other (.number (of 5)),
          .frameUpdate .shiftFrequency frame (.address ⟨"f", 0⟩),
          .frameUpdate .setFrequency other (.address ⟨"f", 0⟩)] }
    p.substituteArithmetic = .error (.invalidSampleRate "fast" "0 \"xy\"") := by
  intro frame other p
  have hfree : ∀ d ∈ p.declarations, d.name ≠ "__SUBST" := by decide
  have hrefused : Instruction.Refused p (.frameUpdate .shiftFrequency frame (.address ⟨"f", 0⟩))
      (.invalidSampleRate "fast" frame.text) :=
    .frequency (Or.inr rfl) rfl (.string ⟨[], _, rfl, rfl, by simp⟩ ⟨[], _, rfl, by simp⟩)
  have htext : frame.text = "0 \"xy\"" := by decide +kernel
  rw [← htext]
  refine ((p.substituteArithmetic_fails_iff.2 hfree).2 _).2 ⟨p.body.take 2, _, p.body.drop 3, rfl, hrefused, ?_⟩
  intro b hb e
  simp only [p, List.take_succ_cons, List.take_zero, List.mem_cons, List.not_mem_nil, or_false] at hb
  rcases hb with rfl | rfl
  · rintro ⟨⟩
  · rintro ⟨-, hvalue, -⟩
    cases hvalue

end QuilControl
