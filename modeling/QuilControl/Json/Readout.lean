import QuilControl.Json.Decoder
import QuilControl.Readout.RegisterMap

/-!
# JSON forms of run data

Rows of a register carry no tag: they are read as the narrowest type that takes all of them. Rows of
complex numbers have no form.
-/

namespace QuilControl

open JsonValue (variant record ofString ofInt ofWord ofFloat ofOption)

namespace JsonDecoder

def signedWord : JsonDecoder Int64 := (integerIn Int64.minValue.toInt Int64.maxValue.toInt).map Int64.ofInt

def octet : JsonDecoder UInt8 := (natBelow 256).map UInt8.ofNat

/-- A complex number, as the list of its parts. -/
def complex : JsonDecoder (ComplexNumber Float) := (pair real real).map fun z => ⟨z.1, z.2⟩

end JsonDecoder

def ComplexNumber.toJson (z : ComplexNumber Float) : JsonValue :=
  .array [ofFloat z.re, ofFloat z.im]

def signedWordJson (i : Int64) : JsonValue := ofInt i.toInt

/-! ## Values -/

def ReadoutValues.toJson : ReadoutValues → JsonValue
  | integer values => variant "Integer" (.ofList signedWordJson values)
  | real values => variant "Real" (.ofList ofFloat values)
  | complex values => variant "Complex" (.ofList ComplexNumber.toJson values)

def ReadoutValues.ofJson : JsonDecoder ReadoutValues := fun depth v =>
  match JsonDecoder.choice depth v with
  | some ("Integer", inner, some contents) =>
    (JsonDecoder.list JsonDecoder.signedWord inner contents).map .integer
  | some ("Real", inner, some contents) =>
    (JsonDecoder.list JsonDecoder.real inner contents).map .real
  | some ("Complex", inner, some contents) =>
    (JsonDecoder.list JsonDecoder.complex inner contents).map .complex
  | _ => none

def MemoryValues.toJson : MemoryValues → JsonValue
  | binary values => variant "Binary" (.ofList (fun b => ofInt (UInt8.toNat b)) values)
  | integer values => variant "Integer" (.ofList signedWordJson values)
  | real values => variant "Real" (.ofList ofFloat values)

def MemoryValues.ofJson : JsonDecoder MemoryValues := fun depth v =>
  match JsonDecoder.choice depth v with
  | some ("Binary", inner, some contents) =>
    (JsonDecoder.list JsonDecoder.octet inner contents).map .binary
  | some ("Integer", inner, some contents) =>
    (JsonDecoder.list JsonDecoder.signedWord inner contents).map .integer
  | some ("Real", inner, some contents) =>
    (JsonDecoder.list JsonDecoder.real inner contents).map .real
  | _ => none

/-! ## Registers -/

def RegisterData.toJson : RegisterData → Option JsonValue
  | bytes rows => some (.ofList (.ofList fun i => ofInt (Int8.toInt i)) rows)
  | words rows => some (.ofList (.ofList fun i => ofInt (Int16.toInt i)) rows)
  | reals rows => some (.ofList (.ofList ofFloat) rows)
  | complexes _ => none

/-- The rows of a document whose entries are integers between two bounds. -/
def RegisterData.integerRows (low high : Int) : JsonDecoder (List (List Int)) :=
  JsonDecoder.list (JsonDecoder.list (JsonDecoder.integerIn low high))

def RegisterData.ofJson : JsonDecoder RegisterData := fun depth v =>
  match integerRows Int8.minValue.toInt Int8.maxValue.toInt depth v with
  | some rows => some (.bytes (rows.map (·.map Int8.ofInt)))
  | none =>
    match integerRows Int16.minValue.toInt Int16.maxValue.toInt depth v with
    | some rows => some (.words (rows.map (·.map Int16.ofInt)))
    | none => (JsonDecoder.list (JsonDecoder.list JsonDecoder.real) depth v).map .reals

/-- The form of a grid: a version, the shape, and the entries row by row. -/
def Grid.toJson {α : Type} (item : α → JsonValue) (g : Grid α) : JsonValue :=
  record [("v", ofInt 1), ("dim", .array [ofInt g.rows, ofInt g.columns]),
    ("data", .ofList item g.entries)]

/-- What has been read of a grid: whether there was a version, the shape, the entries. -/
structure GridParts (α : Type) where
  version : Bool
  shape : Option (Nat × Nat)
  entries : Option (List α)

namespace GridParts

variable {α : Type}

/-- Take the version, which has to be one. -/
def takeVersion (depth : Nat) (v : JsonValue) (parts : GridParts α) : Option (GridParts α) :=
  match JsonDecoder.natBelow 256 depth v with
  | some 1 => some { parts with version := true }
  | _ => none

def takeShape (depth : Nat) (v : JsonValue) (parts : GridParts α) : Option (GridParts α) :=
  (JsonDecoder.pair (JsonDecoder.natBelow UInt64.size) (JsonDecoder.natBelow UInt64.size) depth v).map
    fun shape => { parts with shape := some shape }

def takeEntries (item : JsonDecoder α) (depth : Nat) (v : JsonValue) (parts : GridParts α) :
    Option (GridParts α) :=
  (JsonDecoder.list item depth v).map fun entries => { parts with entries := some entries }

/-- Take the fields of a grid. A field that is given again replaces the earlier one; there are no
others. -/
def takeFields (item : JsonDecoder α) (depth : Nat) (parts : GridParts α) :
    List (List JsonUnit × JsonValue) → Option (GridParts α)
  | [] => some parts
  | (key, v) :: rest =>
    let taken := match JsonUnit.text? key with
      | some "v" => parts.takeVersion depth v
      | some "dim" => parts.takeShape depth v
      | some "data" => parts.takeEntries item depth v
      | _ => none
    match taken with
    | none => none
    | some next => takeFields item depth next rest

def grid? (parts : GridParts α) : Option (Grid α) :=
  match parts.version, parts.shape, parts.entries with
  | true, some shape, some entries => Grid.ofEntries? shape.1 shape.2 entries
  | _, _, _ => none

end GridParts

def Grid.ofJson {α : Type} (item : JsonDecoder α) : JsonDecoder (Grid α)
  | depth + 1, .object fields =>
    (GridParts.takeFields item depth ⟨false, none, none⟩ fields).bind GridParts.grid?
  | depth + 1, .array [version, shape, entries] =>
    (((GridParts.takeVersion depth version ⟨false, none, none⟩).bind
      (GridParts.takeShape depth shape)).bind
        (GridParts.takeEntries item depth entries)).bind GridParts.grid?
  | _, _ => none

def RegisterMatrix.toJson : RegisterMatrix → JsonValue
  | integer grid => variant "Integer" (grid.toJson signedWordJson)
  | real grid => variant "Real" (grid.toJson ofFloat)
  | complex grid => variant "Complex" (grid.toJson ComplexNumber.toJson)

def RegisterMatrix.ofJson : JsonDecoder RegisterMatrix := fun depth v =>
  match JsonDecoder.choice depth v with
  | some ("Integer", inner, some contents) =>
    (Grid.ofJson JsonDecoder.signedWord inner contents).map .integer
  | some ("Real", inner, some contents) => (Grid.ofJson JsonDecoder.real inner contents).map .real
  | some ("Complex", inner, some contents) =>
    (Grid.ofJson JsonDecoder.complex inner contents).map .complex
  | _ => none

def SortedMap.toJson {α : Type} (item : α → JsonValue) (m : SortedMap String α) : JsonValue :=
  record (m.entries.map fun e => (e.1, item e.2))

/-- The map of a document. Of two entries of one name the later counts. -/
def SortedMap.ofJson {α : Type} (item : JsonDecoder α) : JsonDecoder (SortedMap String α) :=
  (JsonDecoder.entries item).map SortedMap.ofList

def RegisterMap.toJson (m : RegisterMap) : JsonValue := SortedMap.toJson RegisterMatrix.toJson m

def RegisterMap.ofJson : JsonDecoder RegisterMap := SortedMap.ofJson RegisterMatrix.ofJson

/-! ## Runs -/

def QpuData.toJson (d : QpuData) : JsonValue :=
  record [("mappings", record (d.mappings.entries.map fun e => (e.1, ofString e.2))),
    ("readout_values", d.readout.toJson ReadoutValues.toJson),
    ("memory_values", d.memory.toJson MemoryValues.toJson)]

def QpuData.ofJson : JsonDecoder QpuData := fun depth v =>
  match JsonDecoder.record ["mappings", "readout_values", "memory_values"] depth v with
  | some (inner, [some mappings, some readout, some memory]) =>
    match JsonDecoder.entries JsonDecoder.text inner mappings,
      SortedMap.ofJson ReadoutValues.ofJson inner readout,
      SortedMap.ofJson MemoryValues.ofJson inner memory with
    | some mappings, some readout, some memory =>
      some ⟨ReadoutMappings.ofList mappings, readout, memory⟩
    | _, _, _ => none
  | _ => none

/-- The forms of the registers of a simulator, unless one has none. -/
def registersToJson (registers : SortedMap String RegisterData) : Option JsonValue :=
  (traverse? (fun (e : String × RegisterData) => e.2.toJson.map (e.1, ·)) registers.entries).map
    record

def ResultData.toJson : ResultData → Option JsonValue
  | qpu data => some (variant "Qpu" data.toJson)
  | qvm registers =>
    (registersToJson registers).map fun memory => variant "Qvm" (record [("memory", memory)])

def ResultData.ofJson : JsonDecoder ResultData := fun depth v =>
  match JsonDecoder.choice depth v with
  | some ("Qpu", inner, some contents) => (QpuData.ofJson inner contents).map .qpu
  | some ("Qvm", inner, some contents) =>
    match JsonDecoder.record ["memory"] inner contents with
    | some (leaf, [some memory]) => (SortedMap.ofJson RegisterData.ofJson leaf memory).map .qvm
    | _ => none
  | _ => none

def Duration.toJson (d : Duration) : JsonValue :=
  record [("secs", ofWord d.seconds), ("nanos", ofInt d.nanoseconds)]

/-- Whether a document is an object with other fields than those named. -/
def hasOtherFields (names : List String) : JsonValue → Bool
  | .object fields => fields.any fun f => !names.any fun n => JsonUnit.text? f.1 = some n
  | _ => false

/-- The duration of a document. Surplus nanoseconds count as seconds; there are no other fields. -/
def Duration.ofJson : JsonDecoder Duration := fun depth v =>
  if hasOtherFields ["secs", "nanos"] v then none
  else
    match JsonDecoder.record ["secs", "nanos"] depth v with
    | some (inner, [some seconds, some nanoseconds]) =>
      match JsonDecoder.word inner seconds, JsonDecoder.natBelow UInt32.size inner nanoseconds with
      | some seconds, some nanoseconds => Duration.ofParts? seconds nanoseconds
      | _, _ => none
    | _ => none

def ExecutionData.toJson (d : ExecutionData) : Option JsonValue :=
  d.result.toJson.map fun result =>
    record [("result_data", result), ("duration", ofOption Duration.toJson d.duration)]

def ExecutionData.ofJson : JsonDecoder ExecutionData := fun depth v =>
  match JsonDecoder.record ["result_data", "duration"] depth v with
  | some (inner, [some result, duration]) =>
    match ResultData.ofJson inner result,
      JsonDecoder.optionalField Duration.ofJson inner duration with
    | some result, some duration => some ⟨result, duration⟩
    | _, _ => none
  | _ => none

end QuilControl
