import QuilControl.Instruction.Printer

/-!
# Measurements that can be randomized

A measurement in a random basis is of a fixed qubit and has a target.
-/

namespace QuilControl

structure RandomizedMeasurement where
  qubit : UInt64
  target : MemoryReference
deriving DecidableEq

inductive MeasurementError where
  | unsupportedQubit (qubit : Qubit)
  | missingTarget (qubit : Qubit)
deriving DecidableEq

def MeasurementError.message : MeasurementError → String
  | unsupportedQubit q => "only measurements on fixed qubits are supported, found " ++
      String.ofList q.chars
  | missingTarget q => "measurement of qubit " ++ String.ofList q.chars ++
      " has no target memory reference"

namespace RandomizedMeasurement

/-- The randomized form of a measurement (`try_from`). -/
def ofMeasurement (m : Measurement) : Except MeasurementError RandomizedMeasurement :=
  match m.qubit with
  | .named _ => .error (.unsupportedQubit m.qubit)
  | .fixed q =>
    match m.target with
    | none => .error (.missingTarget m.qubit)
    | some target => .ok ⟨q, target⟩

def toMeasurement (m : RandomizedMeasurement) : Measurement := ⟨.fixed m.qubit, some m.target⟩

theorem ofMeasurement_toMeasurement (m : RandomizedMeasurement) :
    ofMeasurement m.toMeasurement = .ok m := rfl

end RandomizedMeasurement

end QuilControl
