import QuilControl.Json.Reader
import QuilControl.Traverse

/-!
# Reading values from JSON documents

A decoder gets a document and the number of levels that the document may still be nested. Arrays
and objects cost one level; what is not looked at costs nothing.
-/

namespace QuilControl

/-- A way to read documents as values. -/
abbrev JsonDecoder (α : Type) := Nat → JsonValue → Option α

namespace JsonDecoder

variable {α β : Type}

/-- The most levels a document may be nested. -/
def maxDepth : Nat := 127

def decode (d : JsonDecoder α) (text : String) : Option α :=
  (JsonValue.ofChars? text.toList).bind (d maxDepth)

/-- Apply a partial function to what is read. -/
def filterMap (f : α → Option β) (d : JsonDecoder α) : JsonDecoder β := fun depth v =>
  (d depth v).bind f

def map (f : α → β) (d : JsonDecoder α) : JsonDecoder β := fun depth v => (d depth v).map f

/-! ## Leaves -/

def text : JsonDecoder String
  | _, .string units => JsonUnit.text? units
  | _, _ => none

def integer : JsonDecoder Int
  | _, .number n => n.integer?
  | _, _ => none

def integerIn (low high : Int) : JsonDecoder Int :=
  integer.filterMap fun i => if low ≤ i ∧ i ≤ high then some i else none

def natBelow (bound : Nat) : JsonDecoder Nat :=
  (integerIn 0 (bound - 1)).map Int.toNat

def word : JsonDecoder UInt64 := (natBelow UInt64.size).map UInt64.ofNat

/-- A double; integers are taken as well. -/
def real : JsonDecoder Float
  | _, .number n => n.real?
  | _, _ => none

/-! ## Structures -/

/-- `null` or a value. -/
def option (d : JsonDecoder α) : JsonDecoder (Option α)
  | _, .null => some none
  | depth, v => (d depth v).map some

def list (d : JsonDecoder α) : JsonDecoder (List α)
  | depth + 1, .array items => traverse? (d depth) items
  | _, _ => none

def pair (d : JsonDecoder α) (e : JsonDecoder β) : JsonDecoder (α × β)
  | depth + 1, .array [a, b] =>
    match d depth a, e depth b with
    | some x, some y => some (x, y)
    | _, _ => none
  | _, _ => none

/-- The entries of an object, in order. -/
def entries (d : JsonDecoder α) : JsonDecoder (List (String × α))
  | depth + 1, .object fields =>
    traverse? (fun (f : List JsonUnit × JsonValue) =>
      match JsonUnit.text? f.1, d depth f.2 with
      | some key, some x => some (key, x)
      | _, _ => none) fields
  | _, _ => none

/-- The case that a document is: its name, and its contents with the levels left for them. A case
without contents may be written as its name alone. -/
def choice : JsonDecoder (String × Nat × Option JsonValue)
  | depth + 1, .object [(key, contents)] =>
    (JsonUnit.text? key).map (·, depth, some contents)
  | depth, .string units => (JsonUnit.text? units).map (·, depth, none)
  | _, _ => none

/-- A choice among cases without contents. -/
def cases (name : α → String) (all : List α) : JsonDecoder α := fun depth v =>
  match choice depth v with
  | some (found, _, none) => all.find? (name · = found)
  | some (found, _, some .null) => all.find? (name · = found)
  | _ => none

/-- Put a field into its slot. A field that is given twice is refused, an unknown one ignored. -/
def fillSlot (names : List String) (slots : List (Option JsonValue)) (name : String)
    (v : JsonValue) : Option (List (Option JsonValue)) :=
  match names.findIdx? (· = name) with
  | none => some slots
  | some i =>
    match slots[i]? with
    | some none => some (slots.set i (some v))
    | _ => none

/-- Put fields into the slots of their names. -/
def fillSlots (names : List String) (slots : List (Option JsonValue)) :
    List (List JsonUnit × JsonValue) → Option (List (Option JsonValue))
  | [] => some slots
  | (key, v) :: rest =>
    match JsonUnit.text? key with
    | none => none
    | some name =>
      match fillSlot names slots name v with
      | none => none
      | some filled => fillSlots names filled rest

/-- The fields of a record in the order of `names`, with the levels left for them. A record may be
written as the list of its fields; then none may be missing. -/
def record (names : List String) : JsonDecoder (Nat × List (Option JsonValue))
  | depth + 1, .object fields =>
    (fillSlots names (names.map fun _ => none) fields).map (depth, ·)
  | depth + 1, .array items =>
    if items.length = names.length then some (depth, items.map some) else none
  | _, _ => none

/-- The fields of a record of which every one may be missing, also at the end of a list. -/
def looseRecord (names : List String) : JsonDecoder (Nat × List (Option JsonValue))
  | depth + 1, .array items =>
    if items.length ≤ names.length then
      some (depth, items.map some ++ List.replicate (names.length - items.length) none)
    else none
  | depth, v => record names depth v

def optionalField (d : JsonDecoder α) (depth : Nat) : Option JsonValue → Option (Option α)
  | none => some none
  | some v => option d depth v

end JsonDecoder

end QuilControl
