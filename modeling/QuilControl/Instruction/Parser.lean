import QuilControl.Expr.Parser
import QuilControl.Instruction.Basic
import QuilControl.Text.Blank

/-!
# Reading instructions

The first word of a statement decides: some instructions are kept as their text, the others are
read token by token, and no token may be left. Each reader below takes the tokens behind what has
been read so far and gives a value with the tokens it leaves.
-/

namespace QuilControl

variable {N : Type} [Scalar N]

/-! ## Single tokens -/

omit [Scalar N] in
def readIdentifier : List (Token N) → Except (Fault N) (String × List (Token N))
  | .identifier name :: rest => .ok (name, rest)
  | tokens => .error (.expecting "identifier" tokens)

omit [Scalar N] in
def readString : List (Token N) → Except (Fault N) (String × List (Token N))
  | .string text :: rest => .ok (text, rest)
  | tokens => .error (.expecting "string" tokens)

omit [Scalar N] in
def readMark (m : Mark) : List (Token N) → Except (Fault N) (List (Token N))
  | .mark found :: rest =>
    if found = m then .ok rest
    else .error (.unexpected (String.singleton m.char) (.mark found) rest)
  | tokens => .error (.expecting (String.singleton m.char) tokens)

omit [Scalar N] in
/-- Succeed if no token is left (`expect_end`). -/
def readEnd : List (Token N) → Except (Fault N) Unit
  | [] => .ok ()
  | tokens => .error (.expecting "end of instruction" tokens)

omit [Scalar N] in
/-- Read qubits as far as they go (`parse_qubits`). -/
def readQubits : List (Token N) → List Qubit × List (Token N)
  | .int index :: rest => (.fixed index :: (readQubits rest).1, (readQubits rest).2)
  | .identifier name :: rest => (.named name :: (readQubits rest).1, (readQubits rest).2)
  | tokens => ([], tokens)

/-! ## Expressions and slots -/

def readExpr (tokens : List (Token N)) : Except (Fault N) (Expr N × List (Token N)) :=
  (Expr.readBinary 0 tokens).map fun read => (read.value, read.rest)

omit [Scalar N] in
def readIndex (tokens : List (Token N)) : Except (Fault N) (UInt64 × List (Token N)) :=
  (Expr.readIndex tokens).map fun read => (read.value, read.rest)

/-- Read expressions between commas (`parse_expression_list`). -/
def readExprs (tokens : List (Token N)) : Except (Fault N) (List (Expr N) × List (Token N)) :=
  match Expr.readBinary 0 tokens with
  | .error fault => .error fault
  | .ok first =>
    match _eq : first.rest with
    | .mark .comma :: after =>
      match readExprs after with
      | .error fault => .error fault
      | .ok (others, rest) => .ok (first.value :: others, rest)
    | rest => .ok ([first.value], rest)
termination_by tokens.length
decreasing_by
  have := first.shorter
  rw [_eq] at this
  simp only [List.length_cons] at this
  omega

omit [Scalar N] in
/-- Read a slot (`parse_memory_reference`). Without an index it is slot zero. -/
def readSlot (tokens : List (Token N)) : Except (Fault N) (MemoryReference × List (Token N)) := do
  let (name, rest) ← readIdentifier tokens
  match rest with
  | .mark .leftBracket :: after =>
    let (index, rest) ← readIndex after
    return (⟨name, index⟩, rest)
  | rest => return (⟨name, 0⟩, rest)

/-! ## Operands of each instruction -/

omit [Scalar N] in
/-- Read the `[length]` of a declaration; without it the length is one. -/
def readLength : List (Token N) → Except (Fault N) (UInt64 × List (Token N))
  | .mark .leftBracket :: after => readIndex after
  | tokens => .ok (1, tokens)

omit [Scalar N] in
/-- Read what follows `DECLARE` (`parse_declaration`). The rest of the statement behind `SHARING` is
kept as its text: `textOf` gives the text of unread tokens from their number. -/
def readDeclaration (textOf : Nat → List Char) (tokens : List (Token N)) :
    Except (Fault N) (Declaration × List (Token N)) := do
  let (name, rest) ← readIdentifier tokens
  let (keyword, rest) ← readIdentifier rest
  match ScalarType.ofKeyword? keyword with
  | none => .error (.unknownScalarType keyword)
  | some scalar =>
    let (length, rest) ← readLength rest
    match rest with
    | .identifier word :: shared =>
      if word = "SHARING" then
        if shared.isEmpty then .error (.unexpectedEnd "shared memory region" [])
        else return (⟨name, scalar, length, some (String.ofList (textOf shared.length))⟩, [])
      else return (⟨name, scalar, length, none⟩, rest)
    | rest => return (⟨name, scalar, length, none⟩, rest)

omit [Scalar N] in
/-- Read arguments of a pragma as far as they go. -/
def readPragmaArguments : List (Token N) → List PragmaArgument × List (Token N)
  | .identifier name :: rest =>
    (.identifier name :: (readPragmaArguments rest).1, (readPragmaArguments rest).2)
  | .int value :: rest =>
    (.integer value :: (readPragmaArguments rest).1, (readPragmaArguments rest).2)
  | tokens => ([], tokens)

omit [Scalar N] in
/-- Read what follows `PRAGMA` (`parse_pragma`). -/
def readPragma (tokens : List (Token N)) : Except (Fault N) (Pragma × List (Token N)) := do
  let (name, rest) ← readIdentifier tokens
  match readPragmaArguments rest with
  | (arguments, .string data :: rest) => return (⟨name, arguments, some data⟩, rest)
  | (arguments, rest) => return (⟨name, arguments, none⟩, rest)

/-- Read the arguments of a call, up to the end of the statement. -/
def readCallArguments : List (Token N) → Except (Fault N) (List (CallArgument N))
  | [] => .ok []
  | .identifier name :: .mark .leftBracket :: .int index :: .mark .rightBracket :: rest => do
    return .slot ⟨name, index⟩ :: (← readCallArguments rest)
  | .identifier _ :: .mark .leftBracket :: .int _ :: rest => .error (.expecting "]" rest)
  | .identifier _ :: .mark .leftBracket :: rest => .error (.expecting "integer" rest)
  | .identifier name :: rest => do return .identifier name :: (← readCallArguments rest)
  | .int value :: rest => do return .immediate (Expr.ofInt value) :: (← readCallArguments rest)
  | .float value :: rest => do return .immediate value :: (← readCallArguments rest)
  | .mark .minus :: .int value :: rest => do
    return .immediate (Scalar.neg (Expr.ofInt value)) :: (← readCallArguments rest)
  | .mark .minus :: .float value :: rest => do
    return .immediate (Scalar.neg value) :: (← readCallArguments rest)
  | .mark .minus :: rest => .error (.expecting "number" rest)
  | tokens => .error (.expecting "call argument" tokens)

/-- Read what follows `CALL` (`parse_call`). -/
def readCall (tokens : List (Token N)) : Except (Fault N) (Call N × List (Token N)) := do
  let (name, rest) ← readIdentifier tokens
  return (⟨name, ← readCallArguments rest⟩, [])

omit [Scalar N] in
/-- Read what follows `MEASURE` (`parse_measurement`). A missing qubit counts as a statement that
ends too early, whatever stands in its place. -/
def readMeasurement (tokens : List (Token N)) :
    Except (Fault N) (Measurement × List (Token N)) := do
  let (qubit, rest) ← match tokens with
    | .int index :: rest => .ok (Qubit.fixed index, rest)
    | .identifier name :: rest => .ok (Qubit.named name, rest)
    | tokens => .error (Fault.unexpectedEnd "qubit" tokens)
  match rest with
  | [] => return (⟨qubit, none⟩, [])
  | rest =>
    let (target, rest) ← readSlot rest
    return (⟨qubit, some target⟩, rest)

/-- Read what follows `DELAY`, given the qubits and frames so far (`parse_delay`). An integer is a
qubit, unless it ends the statement: then it is the duration. No qubit may follow a frame. -/
def readDelay (qubits : List Qubit) (frames : List String) :
    List (Token N) → Except (Fault N) (Delay N)
  | [] => .error (.unexpectedEnd "delay duration" [])
  | [.int value] => .ok ⟨qubits, frames, Expr.ofInt value⟩
  | .int index :: rest =>
    if frames.isEmpty then readDelay (qubits ++ [.fixed index]) frames rest
    else .error (.unexpected "delay duration" (.int index) rest)
  | .identifier name :: rest =>
    if frames.isEmpty then readDelay (qubits ++ [.named name]) frames rest
    else .error (.unexpected "delay duration" (.identifier name) rest)
  | .string name :: rest => readDelay qubits (frames ++ [name]) rest
  | [.float value] => .ok ⟨qubits, frames, value⟩
  | .float _ :: rest => .error (.expecting "end of instruction" rest)
  | tokens => .error (.expecting "delay duration" tokens)

omit [Scalar N] in
/-- Read the modifiers of a gate and its name, where `word` is the first of them. -/
def readModifiers (word : String) (tokens : List (Token N)) :
    Except (Fault N) ((List GateModifier × String) × List (Token N)) :=
  match GateModifier.ofKeyword? word with
  | none => .ok (([], word), tokens)
  | some modifier =>
    match tokens with
    | .identifier next :: rest => do
      let ((modifiers, name), rest) ← readModifiers next rest
      return ((modifier :: modifiers, name), rest)
    | tokens => .error (.expecting "identifier" tokens)

/-- Read the parameters of a gate in parentheses, if there are any. -/
def readParameters : List (Token N) → Except (Fault N) (List (Expr N) × List (Token N))
  | .mark .leftParen :: inside => do
    let (parameters, rest) ← readExprs inside
    let rest ← readMark .rightParen rest
    return (parameters, rest)
  | tokens => .ok ([], tokens)

/-- Read a gate whose first word is `word` (`parse_gate`). It needs a qubit. -/
def readGate (word : String) (tokens : List (Token N)) :
    Except (Fault N) (Gate N × List (Token N)) := do
  let ((modifiers, name), rest) ← readModifiers word tokens
  let (parameters, rest) ← readParameters rest
  match readQubits rest with
  | ([], rest) => .error (.expecting "qubit" rest)
  | (qubits, rest) => return (⟨modifiers, name, parameters, qubits⟩, rest)

omit [Scalar N] in
def readFrame (tokens : List (Token N)) : Except (Fault N) (Frame × List (Token N)) := do
  let (qubits, rest) := readQubits tokens
  let (name, rest) ← readString rest
  return (⟨name, qubits⟩, rest)

/-- Read a frame and its new value (`parse_frame_expression`). -/
def readFrameUpdate (update : FrameUpdate) (tokens : List (Token N)) :
    Except (Fault N) (Instruction N × List (Token N)) := do
  let (frame, rest) ← readFrame tokens
  let (value, rest) ← readExpr rest
  return (.frameUpdate update frame value, rest)

/-! ## Statements -/

/-- Read what follows the first word of an instruction. -/
def readOperands (textOf : Nat → List Char) (keyword : String) (tokens : List (Token N)) :
    Except (Fault N) (Instruction N × List (Token N)) :=
  match keyword with
  | "DECLARE" => do
    let (d, rest) ← readDeclaration textOf tokens
    return (.declaration d, rest)
  | "PRAGMA" => do
    let (p, rest) ← readPragma tokens
    return (.pragma p, rest)
  | "CALL" => do
    let (c, rest) ← readCall tokens
    return (.call c, rest)
  | "MEASURE" => do
    let (m, rest) ← readMeasurement tokens
    return (.measurement m, rest)
  | "FENCE" => .ok (.fence (readQubits tokens).1, (readQubits tokens).2)
  | "DELAY" => do return (.delay (← readDelay [] [] tokens), [])
  | word =>
    match FrameUpdate.ofKeyword? word with
    | some update => readFrameUpdate update tokens
    | none => do
      let (g, rest) ← readGate word tokens
      return (.gate g, rest)

def Instruction.ofTokens (textOf : Nat → List Char) (tokens : List (Token N)) :
    Except (Fault N) (Instruction N) := do
  let (keyword, rest) ← readIdentifier tokens
  let (instruction, rest) ← readOperands textOf keyword rest
  readEnd rest
  return instruction

/-- The text of a statement from its `unread`-th last token on, given where its tokens start
(`remainder`). -/
def textOfUnread (statement : List Char) (starts : List Nat) (unread : Nat) : List Char :=
  match starts.drop (starts.length - unread) with
  | [] => []
  | start :: _ => Text.trim (Text.dropBytes start statement)

/-- Instructions that are kept as their text (`VERBATIM_KEYWORDS`). -/
def verbatimKeywords : List String :=
  ["ADD", "AND", "CAPTURE", "CONVERT", "DIV", "EQ", "EXCHANGE", "GE", "GT", "HALT", "INCLUDE",
    "IOR", "JUMP", "JUMP-UNLESS", "JUMP-WHEN", "LABEL", "LE", "LOAD", "LT", "MOVE", "MUL", "NEG",
    "NONBLOCKING", "NOP", "NOT", "PULSE", "RAW-CAPTURE", "RESET", "STORE", "SUB", "SWAP-PHASES",
    "WAIT", "XOR"]

/-- The text up to the first white space or opening parenthesis (`first_word`). -/
def firstWord (text : List Char) : List Char :=
  text.takeWhile fun c => !(Text.isWhiteSpace c || c = '(')

/-- The instruction that a statement on a line is (`parse_instruction`). White space around it does
not count. -/
def Instruction.ofChars (line : Nat) (text : List Char) : Except QuilError (Instruction N) :=
  let statement := Text.trim text
  if verbatimKeywords.contains (String.ofList (firstWord statement)) then
    .ok (.other (String.ofList statement))
  else
    match statementTokens line statement with
    | .error e => .error e
    | .ok tokens =>
      let starts := (tokenize (N := N) statement).map (·.start)
      match Instruction.ofTokens (textOfUnread statement starts) tokens with
      | .error fault => .error (fault.atLine line)
      | .ok instruction => .ok instruction

/-- The instruction that a statement on a line is. -/
def Instruction.ofText (line : Nat) (text : String) : Except QuilError (Instruction N) :=
  Instruction.ofChars line text.toList

/-! ## Frame definitions -/

omit [Scalar N] in
/-- The frame that the header `DEFFRAME qubits "name":` defines (`parse_frame_header`). -/
def Frame.ofHeaderTokens (tokens : List (Token N)) : Except (Fault N) Frame := do
  let (keyword, rest) ← readIdentifier tokens
  if keyword ≠ "DEFFRAME" then
    throw (.unexpected "DEFFRAME" (.identifier keyword) rest)
  let (frame, rest) ← readFrame rest
  let rest ← readMark .colon rest
  readEnd rest
  return frame

/-- The attribute that the line `KEY: value` gives (`parse_frame_attribute`). -/
def Attribute.ofTokens (tokens : List (Token N)) : Except (Fault N) (String × Attribute N) := do
  let (key, rest) ← readIdentifier tokens
  let rest ← readMark .colon rest
  match rest with
  | .string text :: rest =>
    readEnd rest
    return (key, .string text)
  | rest =>
    let (value, rest) ← readExpr rest
    readEnd rest
    return (key, .expression value)

end QuilControl
