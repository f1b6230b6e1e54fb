import QuilControl.Instruction.Parser
import QuilControl.Program.Basic

/-!
# Reading programs

A program is read line by line. A comment ends a line, except inside a string. A line that begins
with `DEF` opens a block, which goes on with the indented lines behind it: attributes of a frame, or
text that is kept. Any other line holds statements with semicolons between them.
-/

namespace QuilControl

/-- A block whose lines are being collected. -/
inductive Block (N : Type) where
  | frame (definition : FrameDefinition N)
  | verbatim (text : List Char)

/-- How far a program has been read. -/
structure Progress (N : Type) where
  program : Program N
  block : Option (Block N)

/-- A line up to its comment (`strip_comment`). A hash inside a string begins none. -/
def stripComment (inString : Bool) : List Char → List Char
  | [] => []
  | c :: rest =>
    if c = '#' && !inString then []
    else c :: stripComment (if c = '"' then !inString else inString) rest

/-- Cut a line at the semicolons outside strings. -/
def cutStatements (inString : Bool) : List Char → List (List Char)
  | [] => [[]]
  | c :: rest =>
    if c = ';' && !inString then [] :: cutStatements inString rest
    else
      match cutStatements (if c = '"' then !inString else inString) rest with
      | [] => [[c]]
      | part :: parts => (c :: part) :: parts

/-- The statements of a line: its parts that are not blank (`split_statements`). -/
def statements (line : List Char) : List (List Char) :=
  (cutStatements false line).filter (!Text.isBlank ·)

def isIndented : List Char → Bool
  | [] => false
  | c :: _ => c = ' ' || c = '\t'

section

variable {N : Type} [Scalar N]

omit [Scalar N] in
/-- The program with an open block put into its section (`close_into`). -/
def Progress.close (progress : Progress N) : Program N :=
  match progress.block with
  | none => progress.program
  | some (.frame d) => { progress.program with frames := progress.program.frames ++ [d] }
  | some (.verbatim text) =>
    { progress.program with
      definitions := progress.program.definitions ++ [String.ofList text] }

/-- Read statements of a line in order and add them to a program. -/
def addStatements (line : Nat) (p : Program N) : List (List Char) → Except QuilError (Program N)
  | [] => .ok p
  | statement :: rest =>
    match Instruction.ofChars line statement with
    | .error e => .error e
    | .ok instruction =>
      match p.add instruction with
      | .error e => .error e
      | .ok q => addStatements line q rest

/-- Read a header or attribute of a frame definition from a text on a line. -/
def readOnLine {α : Type} (line : Nat) (read : List (Token N) → Except (Fault N) α)
    (text : List Char) : Except QuilError α :=
  match statementTokens line text with
  | .error e => .error e
  | .ok tokens =>
    match read tokens with
    | .error fault => .error (fault.atLine line)
    | .ok a => .ok a

/-- Read a line that continues no block. -/
def openLine (line : Nat) (p : Program N) (text : List Char) : Except QuilError (Progress N) :=
  let statement := Text.trim text
  let word := firstWord statement
  if word = "DEFFRAME".toList then
    match readOnLine (N := N) line Frame.ofHeaderTokens statement with
    | .error e => .error e
    | .ok frame => .ok ⟨p, some (.frame ⟨frame, []⟩)⟩
  else if "DEF".toList.isPrefixOf word then .ok ⟨p, some (.verbatim statement)⟩
  else
    match addStatements line p (statements statement) with
    | .error e => .error e
    | .ok q => .ok ⟨q, none⟩

def readLine (line : Nat) (progress : Progress N) (raw : List Char) :
    Except QuilError (Progress N) :=
  let text := Text.trimEnd (stripComment false raw)
  if Text.isBlank text then .ok progress
  else if isIndented text then
    match progress.block with
    | some (.frame d) =>
      match readOnLine line Attribute.ofTokens text with
      | .error e => .error e
      | .ok a =>
        .ok { progress with block := some (.frame { d with attributes := d.attributes ++ [a] }) }
    | some (.verbatim kept) =>
      .ok { progress with block := some (.verbatim (kept ++ '\n' :: text)) }
    | none => openLine line progress.program text
  else openLine line progress.close text

/-- The loop of `parse_program` over lines, the first of which has the number `line`. -/
def readLines (line : Nat) (progress : Progress N) :
    List (List Char) → Except QuilError (Progress N)
  | [] => .ok progress
  | raw :: rest =>
    match readLine line progress raw with
    | .error e => .error e
    | .ok next => readLines (line + 1) next rest

/-- The program that a text is (`parse_program`). -/
def Program.ofChars (source : List Char) : Except QuilError (Program N) :=
  match readLines 1 ⟨Program.empty, none⟩ (Text.lines source) with
  | .error e => .error e
  | .ok progress => .ok progress.close

def Program.ofText (source : String) : Except QuilError (Program N) := Program.ofChars source.toList

end

end QuilControl
