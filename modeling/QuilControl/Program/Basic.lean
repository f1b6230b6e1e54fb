import QuilControl.Fault
import QuilControl.Instruction.Basic
import QuilControl.SortedMap

/-!
# Programs

A program has four sections: definitions kept as text, frame definitions, declarations and the
body. Instructions are added one by one. A declaration goes to its own section, and is refused when
its name is declared already; a refusal changes nothing.
-/

namespace QuilControl

/-- A program, with numbers in `N`. -/
structure Program (N : Type) where
  /-- Blocks other than frame definitions, as their text. -/
  definitions : List String
  frames : List (FrameDefinition N)
  declarations : List Declaration
  body : List (Instruction N)
deriving BEq

namespace Program

variable {N : Type}

def empty : Program N := ⟨[], [], [], []⟩

def declaration? (p : Program N) (name : String) : Option Declaration :=
  p.declarations.find? (·.name = name)

/-- The first definition of a frame (`frame`). Both its name and the order of its qubits count. -/
def frame? (p : Program N) (frame : Frame) : Option (FrameDefinition N) :=
  p.frames.find? (·.frame = frame)

/-- Add a declaration, unless its name is declared already (`add_declaration`). -/
def declare (p : Program N) (d : Declaration) : Except QuilError (Program N) :=
  match p.declaration? d.name with
  | some _ => .error (.duplicateDeclaration d.name)
  | none => .ok { p with declarations := p.declarations ++ [d] }

/-- Add an instruction: a declaration to the declarations, any other to the body
(`add_instruction`). -/
def add (p : Program N) : Instruction N → Except QuilError (Program N)
  | .declaration d => p.declare d
  | i => .ok { p with body := p.body ++ [i] }

/-- Add instructions in order, up to the first that is refused (`add_instructions`). Those before it
stay. -/
def addAll (p : Program N) : List (Instruction N) → Program N × Option QuilError
  | [] => (p, none)
  | i :: rest =>
    match p.add i with
    | .error e => (p, some e)
    | .ok q => q.addAll rest

/-- Add instructions in order, or fail with the first refusal. -/
def addAll? (p : Program N) (instructions : List (Instruction N)) : Except QuilError (Program N) :=
  match p.addAll instructions with
  | (_, some e) => .error e
  | (q, none) => .ok q

/-- A program without its body (`clone_without_body`). -/
def header (p : Program N) : Program N := { p with body := [] }

/-- The qubits that the body measures, each once and in order (`measured_qubits`). -/
def measuredQubits (p : Program N) : List Qubit :=
  let measured := p.body.filterMap fun
    | .measurement m => some m.qubit
    | _ => none
  (SortedMap.ofList (measured.map fun q => (q, ()))).keys

end Program

end QuilControl
