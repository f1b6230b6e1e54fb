import QuilControl.Program.Printer
import QuilControl.Program.Parser
import QuilControl.Randomized.Basic

/-!
# Programs with randomized measurements

The randomized form of a program declares the generated regions after its own, waits, draws, runs
the body, then the drawn unitaries, and measures. A program that measures one of the qubits itself,
or has a region of a generated name, is refused.
-/

namespace QuilControl

/-- Why randomized measurements cannot be appended to a program. -/
inductive AppendError (ε : Type) where
  /-- The program measures these qubits itself, listed in increasing order. -/
  | alreadyMeasured (qubits : List UInt64)
  /-- The text is no program, or a declaration is refused. -/
  | quil (error : QuilError)
  /-- The draw is no valid call. -/
  | draw (error : SequencerError)
  /-- The set of unitaries has no instructions. -/
  | unitarySet (error : ε)

namespace AppendError

/-- The wording of an error, given the wording of failures of the set. -/
def message {ε : Type} (describe : ε → String) : AppendError ε → String
  | alreadyMeasured qubits =>
    "program contains preexisting measurements on qubits: \x7b" ++
      ", ".intercalate (qubits.map fun q => toString q.toNat) ++ "\x7d"
  | quil e => "Quil error: " ++ e.message
  | draw e => "error building choose_random_real_sub_regions call: " ++ e.message
  | unitarySet e => "an error occurred while building unitary set instructions: " ++ describe e

end AppendError

namespace RandomizedMeasurements

variable {N ε : Type}

/-- The randomized qubits that a program measures itself, in increasing order. -/
def measuredIn (r : RandomizedMeasurements N ε) (p : Program N) : List UInt64 :=
  let measured := p.measuredQubits
  let both := (r.measurements.map (·.qubit)).filter fun q => measured.contains (.fixed q)
  (SortedMap.ofList (both.map fun q => (q, ()))).keys

/-- Add instructions in order, or fail as a randomized program does. -/
def addOr (p : Program N) (instructions : List (Instruction N)) :
    Except (AppendError ε) (Program N) :=
  match p.addAll? instructions with
  | .error e => .error (.quil e)
  | .ok q => .ok q

variable [Scalar N]

/-- The draws of the unitaries of qubits, when a unitary has `size` parameters by now. -/
def drawsOfSize (r : RandomizedMeasurements N ε) (size : UInt64) :
    List RandomizedQubit → Except SequencerError (List (Instruction N))
  | [] => .ok []
  | q :: rest =>
    match SubRegionDraw.ofRegions q.destination r.source size ⟨q.seed.name, 0⟩ with
    | .error e => .error e
    | .ok draw =>
      match r.drawsOfSize size rest with
      | .error e => .error e
      | .ok others => .ok (.call draw.call :: others)

/-- What a program does before its body: wait, declare the external function, draw. -/
def prologue (r : RandomizedMeasurements N ε) (draws : List (Instruction N)) :
    List (Instruction N) :=
  .delay ⟨r.qubits.map (·.qubit), [], r.delay.inSeconds⟩ :: .pragma SubRegionDraw.externPragma ::
    draws

omit [Scalar N] in
def epilogue (r : RandomizedMeasurements N ε) : List (Instruction N) :=
  .fence [] :: r.measurements.map (.measurement ·.toMeasurement)

/-- Append randomized measurements (`append_to_program`) when the set of unitaries gives `answers` by
now. Its first answers have fixed the regions; the draws and the instructions follow the later
ones. -/
def appendAnswered (r : RandomizedMeasurements N ε) (answers : UnitarySet N ε) (p : Program N) :
    Except (AppendError ε) (Program N) :=
  if r.measuredIn p ≠ [] then .error (.alreadyMeasured (r.measuredIn p))
  else
    match addOr p.header (r.declarations.map .declaration) with
    | .error e => .error e
    | .ok declared =>
      match r.drawsOfSize answers.parameterCount r.qubits with
      | .error e => .error (.draw e)
      | .ok draws =>
        match addOr declared (r.prologue draws ++ p.body) with
        | .error e => .error e
        | .ok prepared =>
          match answers.instructions r.qubits with
          | .error e => .error (.unitarySet e)
          | .ok unitaries => addOr prepared (unitaries ++ r.epilogue)

/-- Append randomized measurements when the set gives the same answers as at first. -/
def appendTo (r : RandomizedMeasurements N ε) (p : Program N) : Except (AppendError ε) (Program N) :=
  r.appendAnswered r.unitaries p

/-- Append randomized measurements to the text of a program (`append_to_quil`). -/
def appendToText (r : RandomizedMeasurements N ε) (source : String) :
    Except (AppendError ε) String :=
  match (Program.ofText source : Except QuilError (Program N)) with
  | .error e => .error (.quil e)
  | .ok p =>
    match r.appendTo p with
    | .error e => .error e
    | .ok q => .ok q.text

end RandomizedMeasurements

end QuilControl
