import QuilControl.Json.Token

/-!
# Writing JSON documents

A document is written without blanks. The tokens of an array or object are its items or fields, each
followed by what comes behind it: a comma, or the end.
-/

namespace QuilControl

def JsonNumber.chars (n : JsonNumber) : List Char :=
  if n.negative then '-' :: n.digits.text else n.digits.text

namespace JsonUnit

def hexDigit (n : Nat) : Char := Nat.digitChar (n % 16)

/-- The escape of a 16-bit unit. -/
def escapedUnit (code : Nat) : List Char :=
  ['\\', 'u', hexDigit (code / 4096), hexDigit (code / 256), hexDigit (code / 16), hexDigit code]

/-- The letter behind a backslash that stands for a character. -/
def shortEscape? (c : Char) : Option Char :=
  if c = '"' || c = '\\' then some c
  else if c = '\x08' then some 'b'
  else if c = '\x0c' then some 'f'
  else if c = '\n' then some 'n'
  else if c = '\r' then some 'r'
  else if c = '\t' then some 't'
  else none

def chars : JsonUnit → List Char
  | char c =>
    match shortEscape? c with
    | some letter => ['\\', letter]
    | none => if c < ' ' then escapedUnit c.toNat else [c]
  | unit code => escapedUnit code

end JsonUnit

def JsonToken.chars : JsonToken → List Char
  | openArray => ['[']
  | closeArray => [']']
  | openObject => ['\x7b']
  | closeObject => ['\x7d']
  | colon => [':']
  | comma => [',']
  | null => ['n', 'u', 'l', 'l']
  | bool true => ['t', 'r', 'u', 'e']
  | bool false => ['f', 'a', 'l', 's', 'e']
  | number n => n.chars
  | string units => '"' :: units.flatMap JsonUnit.chars ++ ['"']

namespace JsonValue

mutual

def tokens : JsonValue → List JsonToken
  | null => [.null]
  | bool b => [.bool b]
  | number n => [.number n]
  | string units => [.string units]
  | array [] => [.openArray, .closeArray]
  | array (item :: items) => .openArray :: item.tokens ++ itemTokens items
  | object [] => [.openObject, .closeObject]
  | object ((key, v) :: fields) =>
    .openObject :: .string key :: .colon :: v.tokens ++ fieldTokens fields

/-- The tokens of an array behind an item. -/
def itemTokens : List JsonValue → List JsonToken
  | [] => [.closeArray]
  | item :: items => .comma :: item.tokens ++ itemTokens items

/-- The tokens of an object behind a field. -/
def fieldTokens : List (List JsonUnit × JsonValue) → List JsonToken
  | [] => [.closeObject]
  | (key, v) :: fields => .comma :: .string key :: .colon :: v.tokens ++ fieldTokens fields

end

def text (v : JsonValue) : String := String.ofList (v.tokens.flatMap JsonToken.chars)

end JsonValue

end QuilControl
