import QuilControl.Expr.Printer
import QuilControl.Instruction.Basic

/-!
# Written instructions

Every instruction is one line of keywords and operands between single blanks; a frame definition
has one further line for each attribute.
-/

namespace QuilControl

def quoted (text : String) : List Char := '"' :: text.toList ++ ['"']

/-- Texts, each with a blank in front. -/
def spaced (texts : List (List Char)) : List Char := texts.flatMap (' ' :: ·)

/-- Texts with commas between them (`write_separated`). -/
def commaSeparated : List (List Char) → List Char
  | [] => []
  | [text] => text
  | text :: rest => text ++ ',' :: ' ' :: commaSeparated rest

def Declaration.chars (d : Declaration) : List Char :=
  "DECLARE ".toList ++ d.name.toList ++ ' ' :: d.scalar.keyword.toList ++
    '[' :: Nat.toDigits 10 d.length.toNat ++ ']' ::
    (match d.sharing with
      | none => []
      | some text => " SHARING ".toList ++ text.toList)

def Qubit.chars : Qubit → List Char
  | fixed index => Nat.toDigits 10 index.toNat
  | named name => name.toList

def PragmaArgument.chars : PragmaArgument → List Char
  | identifier name => name.toList
  | integer value => Nat.toDigits 10 value.toNat

def Pragma.chars (p : Pragma) : List Char :=
  "PRAGMA ".toList ++ p.name.toList ++ spaced (p.arguments.map (·.chars)) ++
    (match p.data with
      | none => []
      | some data => ' ' :: quoted data)

def Measurement.chars (m : Measurement) : List Char :=
  "MEASURE ".toList ++ m.qubit.chars ++
    (match m.target with
      | none => []
      | some target => ' ' :: target.chars)

def Frame.chars (f : Frame) : List Char :=
  f.qubits.flatMap (fun q => q.chars ++ [' ']) ++ quoted f.name

def Frame.text (f : Frame) : String := String.ofList f.chars

variable {N : Type} [Scalar N]

def CallArgument.chars : CallArgument N → List Char
  | identifier name => name.toList
  | .slot s => s.chars
  | immediate value => Scalar.literal value

def Call.chars (c : Call N) : List Char :=
  "CALL ".toList ++ c.name.toList ++ spaced (c.arguments.map (·.chars))

def Gate.chars (g : Gate N) : List Char :=
  g.modifiers.flatMap (fun m => m.keyword.toList ++ [' ']) ++ g.name.toList ++
    (if g.parameters.isEmpty then []
      else '(' :: commaSeparated (g.parameters.map (·.chars)) ++ [')']) ++
    spaced (g.qubits.map (·.chars))

def Delay.chars (d : Delay N) : List Char :=
  "DELAY".toList ++ spaced (d.qubits.map (·.chars)) ++ spaced (d.frames.map quoted) ++
    ' ' :: Scalar.literal d.seconds

def Attribute.chars : Attribute N → List Char
  | string text => quoted text
  | expression value => value.chars

def FrameDefinition.chars (d : FrameDefinition N) : List Char :=
  "DEFFRAME ".toList ++ d.frame.chars ++ ':' ::
    d.attributes.flatMap fun a => "\n    ".toList ++ a.1.toList ++ ':' :: ' ' :: a.2.chars

def Instruction.chars : Instruction N → List Char
  | declaration d => d.chars
  | pragma p => p.chars
  | call c => c.chars
  | gate g => g.chars
  | measurement m => m.chars
  | fence qubits => "FENCE".toList ++ spaced (qubits.map (·.chars))
  | delay d => d.chars
  | frameUpdate update frame value =>
    update.keyword.toList ++ ' ' :: frame.chars ++ ' ' :: value.chars
  | other text => text.toList

def Instruction.text (i : Instruction N) : String := String.ofList i.chars

end QuilControl
