import QuilControl.Json.Number

/-!
# JSON documents

The tree of a document. Numbers and strings keep their spelling as far as a reading may depend on
it: a string is a list of characters and of escaped 16-bit units, and has a text only if the units
pair up.
-/

namespace QuilControl

/-- A part of a string: a character, or an escaped unit. -/
inductive JsonUnit where
  | char (c : Char)
  | unit (code : Nat)
deriving DecidableEq

/-- A document. Fields are in the order in which they are written; a name may occur again. -/
inductive JsonValue where
  | null
  | bool (value : Bool)
  | number (value : JsonNumber)
  | string (units : List JsonUnit)
  | array (items : List JsonValue)
  | object (fields : List (List JsonUnit × JsonValue))

namespace JsonUnit

/-- Whether a unit is the first of a pair. -/
def isHigh (code : Nat) : Bool := 0xD800 ≤ code && code < 0xDC00

/-- Whether a unit is the second of a pair. -/
def isLow (code : Nat) : Bool := 0xDC00 ≤ code && code < 0xE000

/-- The characters of a string, if its units pair up. -/
def chars? : List JsonUnit → Option (List Char)
  | [] => some []
  | char c :: rest => (chars? rest).map (c :: ·)
  | unit code :: rest =>
    if isHigh code then
      match rest with
      | unit low :: after =>
        if isLow low then
          (chars? after).map
            (Char.ofNat (0x10000 + (code - 0xD800) * 0x400 + (low - 0xDC00)) :: ·)
        else none
      | _ => none
    else if isLow code then none
    else (chars? rest).map (Char.ofNat code :: ·)

def text? (units : List JsonUnit) : Option String := (chars? units).map String.ofList

def ofText (text : String) : List JsonUnit := text.toList.map char

theorem chars?_map_char (text : List Char) : chars? (text.map char) = some text := by
  induction text with
  | nil => rfl
  | cons c rest ih => simp [chars?, ih]

theorem text?_ofText (text : String) : text? (ofText text) = some text := by
  simp [text?, ofText, chars?_map_char]

end JsonUnit

namespace JsonValue

/-! ## Building documents -/

def ofString (text : String) : JsonValue := string (JsonUnit.ofText text)

def ofInt (i : Int) : JsonValue := number (.ofInt i)

def ofWord (w : UInt64) : JsonValue := ofInt w.toNat

/-- A double. Documents have no infinity and no NaN: they are written as `null`. -/
def ofFloat (v : Float) : JsonValue := if v.isFinite then number (.ofFloat v) else null

def ofList {α : Type} (item : α → JsonValue) (values : List α) : JsonValue :=
  array (values.map item)

def ofOption {α : Type} (item : α → JsonValue) : Option α → JsonValue
  | none => null
  | some a => item a

def record (fields : List (String × JsonValue)) : JsonValue :=
  object (fields.map fun f => (JsonUnit.ofText f.1, f.2))

/-- A case of a choice, with its contents. -/
def variant (name : String) (contents : JsonValue) : JsonValue := record [(name, contents)]

end JsonValue

end QuilControl
