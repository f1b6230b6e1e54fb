import QuilControl.Expr.Basic

/-!
# Instructions

The instructions that carry declarations, pragmas, external calls, parameter expressions or
measurement targets have a form of their own. Every other instruction is kept as its text.
-/

namespace QuilControl

/-- Element types of memory regions. -/
inductive ScalarType where
  | bit | octet | integer | real
deriving DecidableEq

namespace ScalarType

def keyword : ScalarType → String
  | bit => "BIT"
  | octet => "OCTET"
  | integer => "INTEGER"
  | real => "REAL"

def all : List ScalarType := [bit, octet, integer, real]

def ofKeyword? (keyword : String) : Option ScalarType := all.find? (·.keyword = keyword)

theorem ofKeyword?_keyword (t : ScalarType) : ofKeyword? t.keyword = some t := by
  cases t <;> decide

end ScalarType

/-- A declared region: its name, the type and number of its elements, and the text behind
`SHARING`, if any. -/
structure Declaration where
  name : String
  scalar : ScalarType
  length : UInt64
  sharing : Option String
deriving DecidableEq

/-- A qubit: a physical one by number, or a formal one by name. -/
inductive Qubit where
  | fixed (index : UInt64)
  | named (name : String)
deriving DecidableEq

/-- Fixed qubits come first, by number; named ones follow, by name. -/
def Qubit.order : Qubit → Qubit → Ordering
  | .fixed a, .fixed b => compare a b
  | .fixed _, .named _ => .lt
  | .named _, .fixed _ => .gt
  | .named a, .named b => compare a b

instance : Ord Qubit := ⟨Qubit.order⟩

instance : Std.LawfulEqOrd Qubit where
  compare_self {a} := by
    cases a with
    | fixed i => exact (Std.ReflCmp.compare_self : compare i i = .eq)
    | named s => exact (Std.ReflCmp.compare_self : compare s s = .eq)
  eq_of_compare {a b} h := by
    cases a <;> cases b
    · next i j =>
      have h' : compare i j = .eq := h
      exact congrArg _ (Std.LawfulEqCmp.eq_of_compare h')
    · cases h
    · cases h
    · next s t =>
      have h' : compare s t = .eq := h
      exact congrArg _ (Std.LawfulEqCmp.eq_of_compare h')

instance : Std.TransOrd Qubit where
  eq_swap {a b} := by
    cases a <;> cases b
    · next i j => exact (Std.OrientedCmp.eq_swap : compare i j = (compare j i).swap)
    · rfl
    · rfl
    · next s t => exact (Std.OrientedCmp.eq_swap : compare s t = (compare t s).swap)
  isLE_trans {a b c} hab hbc := by
    cases a <;> cases b <;> cases c
    · next i j k =>
      exact (Std.TransCmp.isLE_trans (hab : (compare i j).isLE) (hbc : (compare j k).isLE) :
        (compare i k).isLE)
    · rfl
    · cases hbc
    · rfl
    · cases hab
    · cases hab
    · cases hbc
    · next s t u =>
      exact (Std.TransCmp.isLE_trans (hab : (compare s t).isLE) (hbc : (compare t u).isLE) :
        (compare s u).isLE)

inductive PragmaArgument where
  | identifier (name : String)
  | integer (value : UInt64)
deriving DecidableEq

/-- `PRAGMA name arguments "data"`. -/
structure Pragma where
  name : String
  arguments : List PragmaArgument
  data : Option String
deriving DecidableEq

/-- An argument of an external call: a whole region or a name the callee knows, a slot, or a
number. -/
inductive CallArgument (N : Type) where
  | identifier (name : String)
  | slot (slot : MemoryReference)
  | immediate (value : N)
deriving BEq

/-- `CALL name arguments`. -/
structure Call (N : Type) where
  name : String
  arguments : List (CallArgument N)
deriving BEq

inductive GateModifier where
  | controlled | dagger | forked
deriving DecidableEq

namespace GateModifier

def keyword : GateModifier → String
  | controlled => "CONTROLLED"
  | dagger => "DAGGER"
  | forked => "FORKED"

def all : List GateModifier := [controlled, dagger, forked]

def ofKeyword? (keyword : String) : Option GateModifier := all.find? (·.keyword = keyword)

end GateModifier

structure Gate (N : Type) where
  modifiers : List GateModifier
  name : String
  parameters : List (Expr N)
  qubits : List Qubit
deriving BEq

structure Measurement where
  qubit : Qubit
  target : Option MemoryReference
deriving DecidableEq

/-- `DELAY qubits "frames" seconds`. -/
structure Delay (N : Type) where
  qubits : List Qubit
  frames : List String
  seconds : N
deriving BEq

/-- A frame: the qubits it belongs to, and its name. -/
structure Frame where
  name : String
  qubits : List Qubit
deriving DecidableEq

/-- What an instruction does to a frame. -/
inductive FrameUpdate where
  | setPhase | shiftPhase | setScale | setFrequency | shiftFrequency
deriving DecidableEq

namespace FrameUpdate

def keyword : FrameUpdate → String
  | setPhase => "SET-PHASE"
  | shiftPhase => "SHIFT-PHASE"
  | setScale => "SET-SCALE"
  | setFrequency => "SET-FREQUENCY"
  | shiftFrequency => "SHIFT-FREQUENCY"

def all : List FrameUpdate := [setPhase, shiftPhase, setScale, setFrequency, shiftFrequency]

def ofKeyword? (keyword : String) : Option FrameUpdate := all.find? (·.keyword = keyword)

end FrameUpdate

/-- The value of an attribute of a frame definition. -/
inductive Attribute (N : Type) where
  | string (text : String)
  | expression (value : Expr N)
deriving BEq

/-- A `DEFFRAME` block, with its attributes in order. -/
structure FrameDefinition (N : Type) where
  frame : Frame
  attributes : List (String × Attribute N)
deriving BEq

/-- The first attribute of a name (`attribute`). -/
def FrameDefinition.attribute? {N : Type} (d : FrameDefinition N) (key : String) :
    Option (Attribute N) :=
  (d.attributes.find? (·.1 = key)).map (·.2)

/-- An instruction, with numbers in `N`. -/
inductive Instruction (N : Type) where
  | declaration (declaration : Declaration)
  | pragma (pragma : Pragma)
  | call (call : Call N)
  | gate (gate : Gate N)
  | measurement (measurement : Measurement)
  /-- A fence of some qubits; without any, of all. -/
  | fence (qubits : List Qubit)
  | delay (delay : Delay N)
  /-- A new phase, scale or frequency of a frame. -/
  | frameUpdate (update : FrameUpdate) (frame : Frame) (value : Expr N)
  /-- Any other instruction, as its text. -/
  | other (text : String)
deriving BEq

def Instruction.isDeclaration {N : Type} : Instruction N → Bool
  | declaration _ => true
  | _ => false

end QuilControl
