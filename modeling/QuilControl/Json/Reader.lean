import QuilControl.Json.Token

/-!
# Reading JSON documents

The reader takes the tokens one by one. It remembers the arrays and objects that are still open, so
nesting costs no recursion, and what may come next.
-/

namespace QuilControl

/-- Fields, last first. -/
abbrev JsonFields := List (List JsonUnit × JsonValue)

/-- An array or object that is still open, with its contents so far, last first. -/
inductive JsonFrame where
  | array (items : List JsonValue)
  /-- The value of `key` is being read. -/
  | object (fields : JsonFields) (key : List JsonUnit)

/-- Where the reader is, inside the frames `outer`. -/
inductive JsonReading where
  /-- A value has to come. -/
  | value (outer : List JsonFrame)
  /-- An array has just been opened. -/
  | firstItem (outer : List JsonFrame)
  /-- An item has been read. -/
  | afterItem (items : List JsonValue) (outer : List JsonFrame)
  /-- An object has just been opened. -/
  | firstKey (outer : List JsonFrame)
  /-- A key has to come. -/
  | nextKey (fields : JsonFields) (outer : List JsonFrame)
  /-- A key has been read. -/
  | afterKey (fields : JsonFields) (key : List JsonUnit) (outer : List JsonFrame)
  /-- A field has been read. -/
  | afterField (fields : JsonFields) (outer : List JsonFrame)
  /-- The document is complete. -/
  | finished (document : JsonValue)

namespace JsonReading

/-- A value is complete: put it into the innermost frame. -/
def complete (v : JsonValue) : List JsonFrame → JsonReading
  | [] => finished v
  | .array items :: outer => afterItem (v :: items) outer
  | .object fields key :: outer => afterField ((key, v) :: fields) outer

def start (outer : List JsonFrame) : JsonToken → Option JsonReading
  | .null => some (complete .null outer)
  | .bool b => some (complete (.bool b) outer)
  | .number n => some (complete (.number n) outer)
  | .string units => some (complete (.string units) outer)
  | .openArray => some (firstItem outer)
  | .openObject => some (firstKey outer)
  | _ => none

def step : JsonReading → JsonToken → Option JsonReading
  | value outer, t => start outer t
  | firstItem outer, .closeArray => some (complete (.array []) outer)
  | firstItem outer, t => start (.array [] :: outer) t
  | afterItem items outer, .comma => some (value (.array items :: outer))
  | afterItem items outer, .closeArray => some (complete (.array items.reverse) outer)
  | firstKey outer, .closeObject => some (complete (.object []) outer)
  | firstKey outer, .string key => some (afterKey [] key outer)
  | nextKey fields outer, .string key => some (afterKey fields key outer)
  | afterKey fields key outer, .colon => some (value (.object fields key :: outer))
  | afterField fields outer, .comma => some (nextKey fields outer)
  | afterField fields outer, .closeObject => some (complete (.object fields.reverse) outer)
  | _, _ => none

/-- Take tokens up to the last; the document has to be complete then. -/
def run : JsonReading → List JsonToken → Option JsonValue
  | finished document, [] => some document
  | _, [] => none
  | reading, t :: rest =>
    match reading.step t with
    | none => none
    | some next => run next rest

end JsonReading

/-- The document that a text is. -/
def JsonValue.ofChars? (text : List Char) : Option JsonValue :=
  match JsonToken.ofChars? text with
  | none => none
  | some tokens => JsonReading.run (.value []) tokens

end QuilControl
