import QuilControl.Grid
import QuilControl.Randomized.UnitarySet

/-!
# Unitaries made of turns about two axes

Any unitary of one qubit is `RZ(a) RX(pi/2) RZ(b) RX(pi/2) RZ(c)` for some angles, so three
parameters describe it. They are given in turns: the instructions multiply them by 2π.
-/

namespace QuilControl

/-- Angles of unitaries, one unitary a row. -/
structure ZxzxzSet (N : Type) where
  angles : Grid N
  columns_eq : angles.columns = 3

/-- Angles that are not three to a row. -/
structure ColumnCountError where
  found : Nat
deriving DecidableEq

def ColumnCountError.message (e : ColumnCountError) : String :=
  "unitary angles must have 3 columns, found " ++ toString e.found

namespace ZxzxzSet

variable {N : Type}

/-- The unitaries of the given angles (`from_angles`). -/
def ofAngles (angles : Grid N) : Except ColumnCountError (ZxzxzSet N) :=
  if h : angles.columns = 3 then .ok ⟨angles, h⟩ else .error ⟨angles.columns⟩

variable [Scalar N]

/-- The twelve rotations of a tetrahedron (`tetrahedral`). -/
def tetrahedral : ZxzxzSet N :=
  let zero : N := Scalar.ofNat 0
  let half : N := Scalar.div Scalar.pi (Scalar.ofNat 2)
  let back : N := Scalar.neg half
  let full : N := Scalar.pi
  { angles :=
      { rows := 12
        columns := 3
        entries :=
          [zero, half, back,
           full, half, back,
           zero, half, half,
           full, half, half,
           back, half, full,
           back, half, zero,
           half, half, full,
           half, half, zero,
           half, full, back,
           full, full, zero,
           back, zero, back,
           zero, zero, full]
        length_entries := rfl }
    columns_eq := rfl }

def rotation (name : String) (angle : Expr N) (qubit : Qubit) : Instruction N :=
  .gate ⟨[], name, [angle], [qubit]⟩

/-- A quarter turn about the first axis (`rx_pi_over_2`). -/
def quarterTurn (q : RandomizedQubit) : Instruction N :=
  rotation "RX" (.binary .«over» .pi (.number (Scalar.ofNat 2))) q.qubit

/-- A turn about the third axis by a drawn parameter (`rz`). -/
def drawnTurn (index : UInt64) (q : RandomizedQubit) : Instruction N :=
  rotation "RZ" (.binary .times (.binary .times (.number (Scalar.ofNat 2)) .pi)
    (.address ⟨q.destination.name, index⟩)) q.qubit

/-- The drawn unitaries (`to_instructions`): the qubits' turns up to the second fence, the rest
after it. -/
def instructions (qubits : List RandomizedQubit) : List (Instruction N) :=
  .fence [] :: qubits.flatMap (fun q => [drawnTurn 0 q, quarterTurn q, drawnTurn 1 q]) ++
    .fence [] :: qubits.flatMap fun q => [quarterTurn q, drawnTurn 2 q]

/-- The set of the unitaries. It never fails. -/
def toUnitarySet (s : ZxzxzSet N) : UnitarySet N Empty where
  count := UInt64.ofNat s.angles.rows
  parameterCount := 3
  parameters := .ok s.angles.entries
  instructions qubits := .ok (instructions qubits)

end ZxzxzSet

end QuilControl
