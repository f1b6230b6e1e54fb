import QuilControl.Json.Decoder
import QuilControl.Program.Basic

/-!
# JSON forms of programs

Each type has a form that is written, `toJson`, and a decoder of it, `ofJson`. A choice is written
as an object with the name of the case as its only key; a case without contents as its name.
-/

namespace QuilControl

open JsonValue (variant record ofString ofWord ofFloat ofList ofOption)

/-! ## Expressions -/

def MemoryReference.toJson (r : MemoryReference) : JsonValue :=
  record [("name", ofString r.name), ("index", ofWord r.index)]

def MemoryReference.ofJson : JsonDecoder MemoryReference := fun depth v =>
  match JsonDecoder.record ["name", "index"] depth v with
  | some (inner, [some name, some index]) =>
    match JsonDecoder.text inner name, JsonDecoder.word inner index with
    | some name, some index => some ⟨name, index⟩
    | _, _ => none
  | _ => none

def MathFunction.jsonName : MathFunction → String
  | sine => "Sine"
  | cosine => "Cosine"
  | squareRoot => "SquareRoot"
  | exponent => "Exponent"

def Sign.jsonName : Sign → String
  | plus => "Plus"
  | minus => "Minus"

def Operator.jsonName : Operator → String
  | plus => "Plus"
  | minus => "Minus"
  | times => "Star"
  | «over» => "Slash"
  | power => "Caret"

def Sign.all : List Sign := [plus, minus]

def Operator.all : List Operator := [plus, minus, times, «over», power]

def Expr.toJson : Expr Float → JsonValue
  | number v => variant "Number" (ofFloat v)
  | pi => ofString "Pi"
  | address r => variant "Address" r.toJson
  | call f e =>
    variant "FunctionCall" (record [("function", ofString f.jsonName), ("argument", e.toJson)])
  | signed s e =>
    variant "Prefix" (record [("operator", ofString s.jsonName), ("expression", e.toJson)])
  | binary op l r =>
    variant "Infix" (record [("left", l.toJson), ("operator", ofString op.jsonName),
      ("right", r.toJson)])

def Expr.ofJson : JsonDecoder (Expr Float)
  | 0, v =>
    match JsonDecoder.choice 0 v with
    | some ("Pi", _, none) => some .pi
    | _ => none
  | 1, v =>
    match JsonDecoder.choice 1 v with
    | some ("Pi", _, none) => some .pi
    | some ("Pi", _, some .null) => some .pi
    | some ("Number", inner, some contents) => (JsonDecoder.real inner contents).map .number
    | _ => none
  | depth + 2, v =>
    match JsonDecoder.choice (depth + 2) v with
    | some ("Pi", _, none) => some .pi
    | some ("Pi", _, some .null) => some .pi
    | some ("Number", inner, some contents) => (JsonDecoder.real inner contents).map .number
    | some ("Address", inner, some contents) => (MemoryReference.ofJson inner contents).map .address
    | some ("FunctionCall", inner, some contents) =>
      match JsonDecoder.record ["function", "argument"] inner contents with
      | some (leaf, [some f, some e]) =>
        match JsonDecoder.cases MathFunction.jsonName MathFunction.all leaf f, ofJson depth e with
        | some f, some e => some (.call f e)
        | _, _ => none
      | _ => none
    | some ("Prefix", inner, some contents) =>
      match JsonDecoder.record ["operator", "expression"] inner contents with
      | some (leaf, [some s, some e]) =>
        match JsonDecoder.cases Sign.jsonName Sign.all leaf s, ofJson depth e with
        | some s, some e => some (.signed s e)
        | _, _ => none
      | _ => none
    | some ("Infix", inner, some contents) =>
      match JsonDecoder.record ["left", "operator", "right"] inner contents with
      | some (leaf, [some l, some op, some r]) =>
        match ofJson depth l, JsonDecoder.cases Operator.jsonName Operator.all leaf op,
          ofJson depth r with
        | some l, some op, some r => some (.binary op l r)
        | _, _, _ => none
      | _ => none
    | _ => none

/-! ## Instructions -/

def ScalarType.jsonName : ScalarType → String
  | bit => "Bit"
  | octet => "Octet"
  | integer => "Integer"
  | real => "Real"

def Declaration.toJson (d : Declaration) : JsonValue :=
  record [("name", ofString d.name),
    ("size", record [("data_type", ofString d.scalar.jsonName), ("length", ofWord d.length)]),
    ("sharing", ofOption ofString d.sharing)]

/-- The element type and length of a document. -/
def Declaration.sizeOfJson : JsonDecoder (ScalarType × UInt64) := fun depth v =>
  match JsonDecoder.record ["data_type", "length"] depth v with
  | some (inner, [some scalar, some length]) =>
    match JsonDecoder.cases ScalarType.jsonName ScalarType.all inner scalar,
      JsonDecoder.word inner length with
    | some scalar, some length => some (scalar, length)
    | _, _ => none
  | _ => none

def Declaration.ofJson : JsonDecoder Declaration := fun depth v =>
  match JsonDecoder.record ["name", "size", "sharing"] depth v with
  | some (inner, [some name, some size, sharing]) =>
    match JsonDecoder.text inner name, sizeOfJson inner size,
      JsonDecoder.optionalField JsonDecoder.text inner sharing with
    | some name, some size, some sharing => some ⟨name, size.1, size.2, sharing⟩
    | _, _, _ => none
  | _ => none

def Qubit.toJson : Qubit → JsonValue
  | fixed i => variant "Fixed" (ofWord i)
  | named n => variant "Variable" (ofString n)

def Qubit.ofJson : JsonDecoder Qubit := fun depth v =>
  match JsonDecoder.choice depth v with
  | some ("Fixed", inner, some contents) => (JsonDecoder.word inner contents).map .fixed
  | some ("Variable", inner, some contents) => (JsonDecoder.text inner contents).map .named
  | _ => none

def PragmaArgument.toJson : PragmaArgument → JsonValue
  | identifier n => variant "Identifier" (ofString n)
  | integer i => variant "Integer" (ofWord i)

def PragmaArgument.ofJson : JsonDecoder PragmaArgument := fun depth v =>
  match JsonDecoder.choice depth v with
  | some ("Identifier", inner, some contents) => (JsonDecoder.text inner contents).map .identifier
  | some ("Integer", inner, some contents) => (JsonDecoder.word inner contents).map .integer
  | _ => none

def Pragma.toJson (p : Pragma) : JsonValue :=
  record [("name", ofString p.name), ("arguments", ofList PragmaArgument.toJson p.arguments),
    ("data", ofOption ofString p.data)]

def Pragma.ofJson : JsonDecoder Pragma := fun depth v =>
  match JsonDecoder.record ["name", "arguments", "data"] depth v with
  | some (inner, [some name, some arguments, data]) =>
    match JsonDecoder.text inner name, JsonDecoder.list PragmaArgument.ofJson inner arguments,
      JsonDecoder.optionalField JsonDecoder.text inner data with
    | some name, some arguments, some data => some ⟨name, arguments, data⟩
    | _, _, _ => none
  | _ => none

def CallArgument.toJson : CallArgument Float → JsonValue
  | identifier n => variant "Identifier" (ofString n)
  | slot r => variant "MemoryReference" r.toJson
  | immediate v => variant "Immediate" (ofFloat v)

def CallArgument.ofJson : JsonDecoder (CallArgument Float) := fun depth v =>
  match JsonDecoder.choice depth v with
  | some ("Identifier", inner, some contents) => (JsonDecoder.text inner contents).map .identifier
  | some ("MemoryReference", inner, some contents) =>
    (MemoryReference.ofJson inner contents).map .slot
  | some ("Immediate", inner, some contents) => (JsonDecoder.real inner contents).map .immediate
  | _ => none

def Call.toJson (c : Call Float) : JsonValue :=
  record [("name", ofString c.name), ("arguments", ofList CallArgument.toJson c.arguments)]

def Call.ofJson : JsonDecoder (Call Float) := fun depth v =>
  match JsonDecoder.record ["name", "arguments"] depth v with
  | some (inner, [some name, some arguments]) =>
    match JsonDecoder.text inner name, JsonDecoder.list CallArgument.ofJson inner arguments with
    | some name, some arguments => some ⟨name, arguments⟩
    | _, _ => none
  | _ => none

def GateModifier.jsonName : GateModifier → String
  | controlled => "Controlled"
  | dagger => "Dagger"
  | forked => "Forked"

def Gate.toJson (g : Gate Float) : JsonValue :=
  record [("name", ofString g.name), ("parameters", ofList Expr.toJson g.parameters),
    ("qubits", ofList Qubit.toJson g.qubits),
    ("modifiers", ofList (fun m => ofString (GateModifier.jsonName m)) g.modifiers)]

def Gate.ofJson : JsonDecoder (Gate Float) := fun depth v =>
  match JsonDecoder.record ["name", "parameters", "qubits", "modifiers"] depth v with
  | some (inner, [some name, some parameters, some qubits, some modifiers]) =>
    match JsonDecoder.text inner name, JsonDecoder.list Expr.ofJson inner parameters,
      JsonDecoder.list Qubit.ofJson inner qubits,
      JsonDecoder.list (JsonDecoder.cases GateModifier.jsonName GateModifier.all) inner
        modifiers with
    | some name, some parameters, some qubits, some modifiers =>
      some ⟨modifiers, name, parameters, qubits⟩
    | _, _, _, _ => none
  | _ => none

def Measurement.toJson (m : Measurement) : JsonValue :=
  record [("qubit", m.qubit.toJson), ("target", ofOption MemoryReference.toJson m.target)]

def Measurement.ofJson : JsonDecoder Measurement := fun depth v =>
  match JsonDecoder.record ["qubit", "target"] depth v with
  | some (inner, [some qubit, target]) =>
    match Qubit.ofJson inner qubit,
      JsonDecoder.optionalField MemoryReference.ofJson inner target with
    | some qubit, some target => some ⟨qubit, target⟩
    | _, _ => none
  | _ => none

def Delay.toJson (d : Delay Float) : JsonValue :=
  record [("qubits", ofList Qubit.toJson d.qubits), ("frame_names", ofList ofString d.frames),
    ("duration", ofFloat d.seconds)]

def Delay.ofJson : JsonDecoder (Delay Float) := fun depth v =>
  match JsonDecoder.record ["qubits", "frame_names", "duration"] depth v with
  | some (inner, [some qubits, some frames, some seconds]) =>
    match JsonDecoder.list Qubit.ofJson inner qubits,
      JsonDecoder.list JsonDecoder.text inner frames,
      JsonDecoder.real inner seconds with
    | some qubits, some frames, some seconds => some ⟨qubits, frames, seconds⟩
    | _, _, _ => none
  | _ => none

def Frame.toJson (f : Frame) : JsonValue :=
  record [("name", ofString f.name), ("qubits", ofList Qubit.toJson f.qubits)]

def Frame.ofJson : JsonDecoder Frame := fun depth v =>
  match JsonDecoder.record ["name", "qubits"] depth v with
  | some (inner, [some name, some qubits]) =>
    match JsonDecoder.text inner name, JsonDecoder.list Qubit.ofJson inner qubits with
    | some name, some qubits => some ⟨name, qubits⟩
    | _, _ => none
  | _ => none

def FrameUpdate.jsonName : FrameUpdate → String
  | setPhase => "SetPhase"
  | shiftPhase => "ShiftPhase"
  | setScale => "SetScale"
  | setFrequency => "SetFrequency"
  | shiftFrequency => "ShiftFrequency"

/-- The field with the value of an update. -/
def FrameUpdate.jsonField : FrameUpdate → String
  | setPhase | shiftPhase => "phase"
  | setScale => "scale"
  | setFrequency | shiftFrequency => "frequency"

/-- The instruction of an update of a document. -/
def FrameUpdate.ofJson (update : FrameUpdate) : JsonDecoder (Instruction Float) := fun depth v =>
  match JsonDecoder.record ["frame", update.jsonField] depth v with
  | some (inner, [some frame, some value]) =>
    match Frame.ofJson inner frame, Expr.ofJson inner value with
    | some frame, some value => some (.frameUpdate update frame value)
    | _, _ => none
  | _ => none

def Instruction.toJson : Instruction Float → JsonValue
  | declaration d => variant "Declaration" d.toJson
  | pragma p => variant "Pragma" p.toJson
  | call c => variant "Call" c.toJson
  | gate g => variant "Gate" g.toJson
  | measurement m => variant "Measurement" m.toJson
  | fence qubits => variant "Fence" (record [("qubits", ofList Qubit.toJson qubits)])
  | delay d => variant "Delay" d.toJson
  | frameUpdate u f e =>
    variant u.jsonName (record [("frame", f.toJson), (u.jsonField, e.toJson)])
  | other text => variant "Other" (ofString text)

def Instruction.ofJson : JsonDecoder (Instruction Float) := fun depth v =>
  match JsonDecoder.choice depth v with
  | some ("Declaration", inner, some contents) =>
    (Declaration.ofJson inner contents).map .declaration
  | some ("Pragma", inner, some contents) => (Pragma.ofJson inner contents).map .pragma
  | some ("Call", inner, some contents) => (Call.ofJson inner contents).map .call
  | some ("Gate", inner, some contents) => (Gate.ofJson inner contents).map .gate
  | some ("Measurement", inner, some contents) =>
    (Measurement.ofJson inner contents).map .measurement
  | some ("Fence", inner, some contents) =>
    match JsonDecoder.record ["qubits"] inner contents with
    | some (leaf, [some qubits]) => (JsonDecoder.list Qubit.ofJson leaf qubits).map .fence
    | _ => none
  | some ("Delay", inner, some contents) => (Delay.ofJson inner contents).map .delay
  | some ("Other", inner, some contents) => (JsonDecoder.text inner contents).map .other
  | some (name, inner, some contents) =>
    match FrameUpdate.all.find? (·.jsonName = name) with
    | some update => update.ofJson inner contents
    | none => none
  | _ => none

/-! ## Programs -/

def Attribute.toJson : Attribute Float → JsonValue
  | string text => variant "String" (ofString text)
  | expression e => variant "Expression" e.toJson

def Attribute.ofJson : JsonDecoder (Attribute Float) := fun depth v =>
  match JsonDecoder.choice depth v with
  | some ("String", inner, some contents) => (JsonDecoder.text inner contents).map .string
  | some ("Expression", inner, some contents) => (Expr.ofJson inner contents).map .expression
  | _ => none

def FrameDefinition.toJson (d : FrameDefinition Float) : JsonValue :=
  record [("identifier", d.frame.toJson),
    ("attributes", ofList (fun a => .array [ofString a.1, Attribute.toJson a.2]) d.attributes)]

def FrameDefinition.ofJson : JsonDecoder (FrameDefinition Float) := fun depth v =>
  match JsonDecoder.record ["identifier", "attributes"] depth v with
  | some (inner, [some frame, some attributes]) =>
    match Frame.ofJson inner frame,
      JsonDecoder.list (JsonDecoder.pair JsonDecoder.text Attribute.ofJson) inner attributes with
    | some frame, some attributes => some ⟨frame, attributes⟩
    | _, _ => none
  | _ => none

def Program.toJson (p : Program Float) : JsonValue :=
  record [("definitions", ofList ofString p.definitions),
    ("frames", ofList FrameDefinition.toJson p.frames),
    ("declarations", ofList Declaration.toJson p.declarations),
    ("body", ofList Instruction.toJson p.body)]

def Program.ofJson : JsonDecoder (Program Float) := fun depth v =>
  match JsonDecoder.record ["definitions", "frames", "declarations", "body"] depth v with
  | some (inner, [some definitions, some frames, some declarations, some body]) =>
    match JsonDecoder.list JsonDecoder.text inner definitions,
      JsonDecoder.list FrameDefinition.ofJson inner frames,
      JsonDecoder.list Declaration.ofJson inner declarations,
      JsonDecoder.list Instruction.ofJson inner body with
    | some definitions, some frames, some declarations, some body =>
      some ⟨definitions, frames, declarations, body⟩
    | _, _, _, _ => none
  | _ => none

end QuilControl
