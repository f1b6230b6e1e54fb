import QuilControl.Randomized.Measurement

/-!
# Sets of unitaries

A measurement basis is drawn from a set of unitaries, each given by the same number of real
parameters. The sequencer copies the parameters of the drawn one to a region of the qubit; the
instructions of the set then carry it out.
-/

namespace QuilControl

/-- A qubit that is measured in a random basis, with the number of parameters of a unitary. -/
structure RandomizedQubit where
  measurement : RandomizedMeasurement
  parameterCount : UInt64
deriving DecidableEq

namespace RandomizedQubit

def qubit (q : RandomizedQubit) : Qubit := .fixed q.measurement.qubit

/-- The name of a region that belongs to a qubit. -/
def regionName (stem : String) (qubit : UInt64) : String := stem ++ "_q" ++ toString qubit.toNat

/-- The region that the parameters of the drawn unitary are copied to (`destination_declaration`).
-/
def destination (q : RandomizedQubit) : Declaration :=
  ⟨regionName "randomized_measurement_destination" q.measurement.qubit, .real, q.parameterCount,
    none⟩

/-- The region that holds the seed of the draws (`seed_declaration`). -/
def seed (q : RandomizedQubit) : Declaration :=
  ⟨regionName "randomized_measurement_seed" q.measurement.qubit, .integer, 1, none⟩

end RandomizedQubit

/-- A set of unitaries with numbers in `N`, and failures in `ε`. -/
structure UnitarySet (N ε : Type) where
  /-- The number of unitaries. -/
  count : UInt64
  /-- The number of parameters of one unitary. -/
  parameterCount : UInt64
  /-- The parameters of all unitaries, one after the other. -/
  parameters : Except ε (List N)
  /-- The instructions that carry out the drawn unitary on each qubit. -/
  instructions : List RandomizedQubit → Except ε (List (Instruction N))

end QuilControl
