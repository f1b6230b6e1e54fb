import QuilControl.Expr.Eval
import QuilControl.Randomized.Basic

/-!
# Memory contents for randomized programs

A run of a randomized program needs the parameters of all unitaries and a seed for each qubit. The
destinations start as zeros.
-/

namespace QuilControl

/-- Why there are no memory contents for a run. -/
inductive ParameterError (ε : Type) where
  /-- The set of unitaries has no parameters. -/
  | unitarySet (error : ε)
  /-- The set gives a number of parameters that is not the length of the source region. -/
  | sourceLength (expected found : Nat)
  | missingSeed (qubit : UInt64)

/-- The wording of an error, given the wording of failures of the set. -/
def ParameterError.message {ε : Type} (describe : ε → String) : ParameterError ε → String
  | unitarySet e => "an error occurred while building unitary set parameters: " ++ describe e
  | sourceLength expected found =>
    "unitary set produced " ++ toString found ++ " source values, expected " ++ toString expected
  | missingSeed q => "seed not provided for qubit " ++ toString q.toNat

namespace RandomizedMeasurements

variable {N ε : Type} [Scalar N]

/-- The contents of the regions of qubits: the seed, and zeros. -/
def qubitContents (seeds : SortedMap UInt64 Seed) :
    List RandomizedQubit → Except (ParameterError ε) (List (String × List N))
  | [] => .ok []
  | q :: rest =>
    match seeds.get? q.measurement.qubit with
    | none => .error (.missingSeed q.measurement.qubit)
    | some seed =>
      match qubitContents seeds rest with
      | .error e => .error e
      | .ok others =>
        .ok ((q.seed.name, [seed.toScalar]) ::
          (q.destination.name, List.replicate q.parameterCount.toNat (Scalar.ofNat 0)) :: others)

omit [Scalar N] in
/-- The number of parameters that a set of unitaries has to give, when it gives `answers` by now. The number
of unitaries is the one that it gave at first. -/
def expectedCount? (r : RandomizedMeasurements N ε) (answers : UnitarySet N ε) : Option UInt64 :=
  product? answers.parameterCount r.unitaries.count

/-- The memory contents of a run with the given seeds (`to_parameters`), when the set of unitaries gives
`answers` by now. Seeds of other qubits do not matter. -/
def parametersAnswered (r : RandomizedMeasurements N ε) (answers : UnitarySet N ε)
    (seeds : SortedMap UInt64 Seed) : Except (Stop (ParameterError ε)) (Memory N) :=
  match answers.parameters with
  | .error e => .error (.reported (.unitarySet e))
  | .ok source =>
    match r.expectedCount? answers with
    | none => .error .overflow
    | some expected =>
      if source.length ≠ expected.toNat then
        .error (.reported (.sourceLength expected.toNat source.length))
      else
        match qubitContents seeds (r.measurements.map (⟨·, answers.parameterCount⟩)) with
        | .error e => .error (.reported e)
        | .ok contents => .ok (SortedMap.ofList ((sourceName, source) :: contents))

/-- The memory contents of a run when the set gives the same answers as at first. -/
def parameters (r : RandomizedMeasurements N ε) (seeds : SortedMap UInt64 Seed) :
    Except (Stop (ParameterError ε)) (Memory N) :=
  r.parametersAnswered r.unitaries seeds

end RandomizedMeasurements

end QuilControl
