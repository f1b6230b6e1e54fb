import QuilControl.Expr.Printer
import QuilControl.Expr.Simplify
import QuilControl.Instruction.Printer
import QuilControl.Program.Parser

/-!
# Moving arithmetic out of a program

The sequencer evaluates no arithmetic, and wants angles in turns, scales in eighths of its range
and frequencies relative to a frame. So every gate parameter, phase, scale and frequency that does
not simplify to a literal becomes a slot of one region, and a table says how each slot is computed.
Expressions with the same text share a slot; slots are numbered in the order of first use.
-/

namespace QuilControl

def substitutionName : String := "__SUBST"

/-- Why the arithmetic of a program cannot be moved out. -/
inductive SubstitutionError where
  /-- The text is no program. -/
  | parse (error : QuilError)
  /-- A frequency is set on a frame without a definition. -/
  | missingDefFrame (frame : String)
  /-- The definition of the frame has no sample rate. -/
  | missingSampleRate (frame : String)
  /-- The sample rate is a string. -/
  | invalidSampleRate (sampleRate frame : String)
  /-- The program declares the region of the computed values itself. -/
  | substitutionDeclared
deriving DecidableEq

namespace SubstitutionError

def message : SubstitutionError → String
  | parse e => "failed to parse program: " ++ e.message
  | missingDefFrame frame => "no DEFFRAME for " ++ frame
  | missingSampleRate frame => "SAMPLE-RATE is required for frame " ++ frame
  | invalidSampleRate rate frame => "unable to use SAMPLE-RATE " ++ rate ++ " for frame " ++ frame
  | substitutionDeclared =>
    "program already declares the substitution region " ++ substitutionName

end SubstitutionError

/-- The texts of the computed values, by slot number. -/
abbrev RecalculationTable := List String

/-- A program without arithmetic, and how its slots are computed. -/
structure Substituted (N : Type) where
  program : Program N
  table : RecalculationTable

namespace RecalculationTable

/-- The slot of a text, and the table with it: a new text gets the next slot. -/
def slot (table : RecalculationTable) (text : String) : Nat × RecalculationTable :=
  match table.findIdx? (· = text) with
  | some k => (k, table)
  | none => (table.length, table ++ [text])

end RecalculationTable

variable {N : Type} [Scalar N]

/-- The expression that reads a computed value. -/
def substitutionSlot (k : Nat) : Expr N := .address ⟨substitutionName, UInt64.ofNat k⟩

/-- Replace a simplified expression by the slot of its converted form. -/
def allocate (table : RecalculationTable) (converted : Expr N) : Expr N × RecalculationTable :=
  let found := table.slot converted.simplify.text
  (substitutionSlot found.1, found.2)

/-- Radians in turns. -/
def toTurns (e : Expr N) : Expr N := e / .number Scalar.turn

/-- A scale in eighths, the full range of the sequencer. -/
def toEighths (e : Expr N) : Expr N := e / .number (Scalar.ofNat 8)

/-- A frequency relative to the center frequency of its frame, in samples. -/
def toSamples (p : Program N) (frame : Frame) (e : Expr N) : Except SubstitutionError (Expr N) :=
  match p.frame? frame with
  | none => .error (.missingDefFrame frame.text)
  | some d =>
    match d.attribute? "SAMPLE-RATE" with
    | none => .error (.missingSampleRate frame.text)
    | some (.string rate) => .error (.invalidSampleRate rate frame.text)
    | some (.expression rate) =>
      match d.attribute? "CENTER-FREQUENCY" with
      | some (.expression center) => .ok ((e - center) / rate)
      | _ => .ok (e / rate)

/-- The form of the value of a frame update that the sequencer takes. -/
def FrameUpdate.convert (p : Program N) (frame : Frame) (e : Expr N) :
    FrameUpdate → Except SubstitutionError (Expr N)
  | setPhase | shiftPhase => .ok (toTurns e)
  | setScale => .ok (toEighths e)
  | setFrequency | shiftFrequency => toSamples p frame e

/-- Replace an angle, unless it is a literal (`rewrite_angle`). -/
def substituteAngle (table : RecalculationTable) (e : Expr N) : Expr N × RecalculationTable :=
  let simplified := e.simplify
  if simplified.isNumber then (simplified, table) else allocate table (toTurns simplified)

def substituteAngles (table : RecalculationTable) :
    List (Expr N) → List (Expr N) × RecalculationTable
  | [] => ([], table)
  | e :: rest =>
    let first := substituteAngle table e
    let others := substituteAngles first.2 rest
    (first.1 :: others.1, others.2)

/-- Replace the arithmetic of an instruction of a program (`rewrite_instruction`). -/
def substituteInstruction (p : Program N) (table : RecalculationTable) :
    Instruction N → Except SubstitutionError (Instruction N × RecalculationTable)
  | .gate g =>
    let parameters := substituteAngles table g.parameters
    .ok (.gate { g with parameters := parameters.1 }, parameters.2)
  | .frameUpdate update frame value =>
    let simplified := value.simplify
    if simplified.isNumber then .ok (.frameUpdate update frame simplified, table)
    else
      match update.convert p frame simplified with
      | .error e => .error e
      | .ok converted =>
        let slot := allocate table converted
        .ok (.frameUpdate update frame slot.1, slot.2)
  | i => .ok (i, table)

/-- Replace the arithmetic of instructions in order. -/
def substituteBody (p : Program N) (table : RecalculationTable) :
    List (Instruction N) → Except SubstitutionError (List (Instruction N) × RecalculationTable)
  | [] => .ok ([], table)
  | i :: rest =>
    match substituteInstruction p table i with
    | .error e => .error e
    | .ok (first, next) =>
      match substituteBody p next rest with
      | .error e => .error e
      | .ok (others, last) => .ok (first :: others, last)

/-- The declaration of the region of the computed values. -/
def substitutionDeclaration (table : RecalculationTable) : Declaration :=
  ⟨substitutionName, .real, UInt64.ofNat table.length, none⟩

namespace Program

/-- Move the arithmetic out of a program (`rewrite_arithmetic`). If a slot was needed, its region
becomes the first declaration. -/
def substituteArithmetic (p : Program N) : Except SubstitutionError (Substituted N) :=
  match p.declaration? substitutionName with
  | some _ => .error .substitutionDeclared
  | none =>
    match substituteBody p [] p.body with
    | .error e => .error e
    | .ok (body, table) =>
      let declarations :=
        if table.isEmpty then p.declarations else substitutionDeclaration table :: p.declarations
      .ok ⟨{ p with declarations := declarations, body := body }, table⟩

/-- Move the arithmetic out of the program that a text is (`rewrite_quil`). -/
def substituteText (source : String) : Except SubstitutionError (Substituted N) :=
  match Program.ofText source with
  | .error e => .error (.parse e)
  | .ok p => p.substituteArithmetic

end Program

end QuilControl
