import QuilControl.Instruction.Printer
import QuilControl.Program.Basic

/-!
# Written programs

Definitions, frames, declarations and the body follow each other, with an empty line between those
that are not empty.
-/

namespace QuilControl.Program

/-- Texts, each followed by a line end. -/
def terminated (texts : List (List Char)) : List Char := texts.flatMap (· ++ ['\n'])

/-- Sections with an empty line between them. -/
def joinSections : List (List (List Char)) → List Char
  | [] => []
  | [part] => terminated part
  | part :: rest => terminated part ++ '\n' :: joinSections rest

variable {N : Type} [Scalar N]

def sections (p : Program N) : List (List (List Char)) :=
  [p.definitions.map String.toList, p.frames.map (·.chars), p.declarations.map (·.chars),
    p.body.map (·.chars)]

def chars (p : Program N) : List Char := joinSections (p.sections.filter (!·.isEmpty))

def text (p : Program N) : String := String.ofList p.chars

end QuilControl.Program
