import QuilControl.Token.Lexer

/-!
# What is wrong with a text

A `Fault` is found while the tokens of one statement are read. It keeps the tokens that were still
unread, so it also says where reading stopped. A `QuilError` adds the line, and covers what can be
wrong with a whole program.
-/

namespace QuilControl

/-- Why the tokens of a statement make no sense. -/
inductive Fault (N : Type) where
  /-- `found` stands where something else is expected; `after` follows it. -/
  | unexpected (expected : String) (found : Token N) (after : List (Token N))
  /-- The statement ends too early; `unread` has not been looked at. -/
  | unexpectedEnd (expected : String) (unread : List (Token N))
  /-- A declaration with a type that does not exist. -/
  | unknownScalarType (found : String)

namespace Fault

variable {N : Type}

/-- What `unexpected` says of the next token where something else is expected, or `unexpected_end`
when no token is left. -/
def expecting (expected : String) : List (Token N) → Fault N
  | [] => unexpectedEnd expected []
  | found :: after => unexpected expected found after

end Fault

/-- Why a text is no Quil, or a program refuses an instruction. -/
inductive QuilError where
  /-- A stretch of a statement that is no token, at the column of its first byte. -/
  | lexer (line column : Nat) (message : String)
  | unexpectedToken (line : Nat) (expected found : String)
  | unexpectedEnd (line : Nat) (expected : String)
  | unknownScalarType (line : Nat) (found : String)
  /-- A region of that name is declared already. -/
  | duplicateDeclaration (name : String)
  /-- A text that should be `name[index]`. -/
  | invalidMemoryReference (text : String)
deriving DecidableEq

namespace QuilError

def message : QuilError → String
  | lexer line column message =>
    "Lexer error at line " ++ toString line ++ ", column " ++ toString column ++ ": " ++ message
  | unexpectedToken line expected found =>
    "Unexpected token at line " ++ toString line ++ ": expected " ++ expected ++ ", found " ++ found
  | unexpectedEnd line expected =>
    "Unexpected end of instruction at line " ++ toString line ++ ": expected " ++ expected
  | unknownScalarType line found =>
    "Unknown memory type '" ++ found ++ "' at line " ++ toString line
  | duplicateDeclaration name => "Duplicate declaration: " ++ name
  | invalidMemoryReference text => "Invalid memory reference: '" ++ text ++ "'"

end QuilError

variable {N : Type} [Scalar N]

/-- A fault of the statement on a line. -/
def Fault.atLine (line : Nat) : Fault N → QuilError
  | unexpected expected found _ => .unexpectedToken line expected found.text
  | unexpectedEnd expected _ => .unexpectedEnd line expected
  | unknownScalarType found => .unknownScalarType line found

theorem Fault.atLine_ne_lexer (fault : Fault N) (line line' column : Nat) (message : String) :
    fault.atLine line ≠ .lexer line' column message := by
  cases fault <;> nofun

/-- The tokens among entries, unless a stretch is no token: then the first such stretch. -/
def Entry.tokens : List (Entry N) → Except (Entry N) (List (Token N))
  | [] => .ok []
  | entry :: rest =>
    match entry.content with
    | .error _ => .error entry
    | .ok t =>
      match tokens rest with
      | .error bad => .error bad
      | .ok ts => .ok (t :: ts)

def Entry.invalidText (entry : Entry N) : List Char :=
  match entry.content with
  | .error chars => chars
  | .ok _ => []

/-- The tokens of a statement on a line. -/
def statementTokens (line : Nat) (statement : List Char) : Except QuilError (List (Token N)) :=
  match Entry.tokens (tokenize statement) with
  | .error bad => .error (.lexer line (bad.start + 1) (invalidTokenMessage bad.invalidText))
  | .ok tokens => .ok tokens

end QuilControl
