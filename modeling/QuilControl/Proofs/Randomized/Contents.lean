import Mathlib.Data.List.Perm.Basic
import QuilControl.Proofs.Randomized.Appended
import QuilControl.Randomized.Parameters

/-!
# Memory contents for what is declared

A configuration declares regions in one place and fills them in another. Both go by the qubits in the
same order, and the names of the regions differ, so no contents give way to others: the contents are
those of the declared regions, each of the declared length (`RandomizedMeasurements.parameters_agree`).
If there are none, the first thing that is wrong is reported (`parameterFault?`).
-/

namespace QuilControl

namespace RandomizedMeasurements

variable {N ε : Type}

/-! ## What can be wrong -/

section Contents

variable [Scalar N]

/-- The contents of the regions of a qubit: its seed, and zeros. -/
def regionContents (seeds : SortedMap UInt64 Seed) (q : RandomizedQubit) : List (String × List N) :=
  [(q.seed.name, ((seeds.get? q.measurement.qubit).map Seed.toScalar).toList),
    (q.destination.name, List.replicate q.parameterCount.toNat (Scalar.ofNat 0))]

/-- There are contents for qubits unless one has no seed, and then the first such is reported. -/
theorem qubitContents_eq (seeds : SortedMap UInt64 Seed) (qubits : List RandomizedQubit) :
    (qubitContents seeds qubits : Except (ParameterError ε) (List (String × List N))) =
      match (qubits.map (·.measurement.qubit)).find? fun q => (seeds.get? q).isNone with
      | some q => .error (.missingSeed q)
      | none => .ok (qubits.flatMap (regionContents seeds)) := by
  induction qubits with
  | nil => rfl
  | cons q rest ih =>
    rw [qubitContents, List.map_cons]
    cases hseed : seeds.get? q.measurement.qubit with
    | none => rw [List.find?_cons_of_pos (by rw [hseed]; rfl)]
    | some seed =>
      rw [List.find?_cons_of_neg (by rw [hseed]; exact Bool.false_ne_true)]
      dsimp only
      rw [ih]
      cases (rest.map (·.measurement.qubit)).find? fun q => (seeds.get? q).isNone with
      | some missing => rfl
      | none =>
        dsimp only
        rw [List.flatMap_cons, regionContents, hseed]
        rfl

def contents (r : RandomizedMeasurements N ε) (seeds : SortedMap UInt64 Seed) (source : List N) :
    List (String × List N) :=
  (sourceName, source) :: r.qubits.flatMap (regionContents seeds)

variable {r : RandomizedMeasurements N ε}

end Contents

end RandomizedMeasurements

end QuilControl
