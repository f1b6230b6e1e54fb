import QuilControl.Checked
import QuilControl.Duration
import QuilControl.Randomized.UnitarySet
import QuilControl.Sequencer.SubRegion
import QuilControl.SortedMap

/-!
# Randomized measurements

A configuration names the qubits to be measured in random bases, the set of unitaries that the
bases are drawn from, and how long a program has to wait for the draws. `ofMeasurements` builds one
and says what is wrong otherwise.
-/

namespace QuilControl

/-- Why measurements cannot be randomized together. -/
inductive RandomizationError where
  | noMeasurements
  | unitaryCountOutOfRange (count : UInt64)
  | noParametersPerUnitary
  | duplicateQubit (qubit : UInt64)
deriving DecidableEq

def RandomizationError.message : RandomizationError → String
  | noMeasurements => "at least one measurement must be randomized"
  | unitaryCountOutOfRange count =>
    "the unitary count must be within range [1, 255], found " ++ toString count.toNat
  | noParametersPerUnitary => "a unitary must be described by at least one parameter"
  | duplicateQubit q => "qubit " ++ toString q.toNat ++ " is randomized more than once"

/-- The first number that has occurred before. -/
def firstRepeated (seen : List UInt64) : List UInt64 → Option UInt64
  | [] => none
  | q :: rest => if q ∈ seen then some q else firstRepeated (q :: seen) rest

theorem nodup_of_firstRepeated {seen qubits : List UInt64} (h : firstRepeated seen qubits = none) :
    qubits.Nodup ∧ ∀ q ∈ qubits, q ∉ seen := by
  induction qubits generalizing seen with
  | nil => exact ⟨List.nodup_nil, fun q hq => absurd hq List.not_mem_nil⟩
  | cons q rest ih =>
    unfold firstRepeated at h
    split at h
    · cases h
    · next hq =>
      obtain ⟨hn, hs⟩ := ih h
      refine ⟨List.nodup_cons.2 ⟨fun hm => hs q hm List.mem_cons_self, hn⟩, fun r hr => ?_⟩
      rcases List.mem_cons.1 hr with rfl | hr
      · exact hq
      · exact fun hm => hs r hr (List.mem_cons_of_mem _ hm)

/-- A configuration: at least one qubit, none twice, and from one to 255 unitaries of at least one
parameter each, whose parameters a word counts. -/
structure RandomizedMeasurements (N ε : Type) where
  measurements : List RandomizedMeasurement
  unitaries : UnitarySet N ε
  /-- How long a program waits before its first instruction. -/
  delay : Duration
  /-- The number of parameters of all unitaries. -/
  sourceLength : UInt64
  measurements_ne_nil : measurements ≠ []
  count_ne_zero : unitaries.count ≠ 0
  count_le : unitaries.count ≤ 255
  parameterCount_ne_zero : unitaries.parameterCount ≠ 0
  nodup : (measurements.map (·.qubit)).Nodup
  sourceLength_eq : product? unitaries.parameterCount unitaries.count = some sourceLength

namespace RandomizedMeasurements

variable {N ε : Type}

/-- Randomize measurements (`try_new`). Of several things that are wrong the first in the order of
`RandomizationError` is reported. The number of all parameters is only computed when nothing is. -/
def ofMeasurements (measurements : List RandomizedMeasurement) (unitaries : UnitarySet N ε)
    (delay : Duration) : Except (Stop RandomizationError) (RandomizedMeasurements N ε) :=
  if hm : measurements = [] then .error (.reported .noMeasurements)
  else if hc : unitaries.count = 0 ∨ ¬unitaries.count ≤ 255 then
    .error (.reported (.unitaryCountOutOfRange unitaries.count))
  else if hp : unitaries.parameterCount = 0 then .error (.reported .noParametersPerUnitary)
  else
    match hd : firstRepeated [] (measurements.map (·.qubit)) with
    | some q => .error (.reported (.duplicateQubit q))
    | none =>
      match hl : product? unitaries.parameterCount unitaries.count with
      | none => .error .overflow
      | some sourceLength => .ok
        { measurements, unitaries, delay, sourceLength
          measurements_ne_nil := hm
          count_ne_zero := fun h => hc (.inl h)
          count_le := Decidable.of_not_not fun h => hc (.inr h)
          parameterCount_ne_zero := hp
          nodup := (nodup_of_firstRepeated hd).1
          sourceLength_eq := hl }

/-- The qubits with the sizes of their regions. -/
def qubits (r : RandomizedMeasurements N ε) : List RandomizedQubit :=
  r.measurements.map (⟨·, r.unitaries.parameterCount⟩)

def sourceName : String := "randomized_measurement_source"

/-- The region that holds the parameters of all unitaries. -/
def source (r : RandomizedMeasurements N ε) : Declaration := ⟨sourceName, .real, r.sourceLength, none⟩

/-- All generated regions: the source, then the destination and the seed of each qubit. -/
def declarations (r : RandomizedMeasurements N ε) : List Declaration :=
  r.source :: r.qubits.flatMap fun q => [q.destination, q.seed]

/-- The unitaries drawn on the first `shots` shots, for each qubit with a seed
(`get_random_indices`). Their number fits in a byte. -/
def drawnUnitaries (r : RandomizedMeasurements N ε) (seeds : SortedMap UInt64 Seed) (shots : UInt32) :
    SortedMap UInt64 (List UInt8) :=
  seeds.map fun _ seed => seed.selections 0 shots r.unitaries.count.toUInt8

end RandomizedMeasurements

end QuilControl
