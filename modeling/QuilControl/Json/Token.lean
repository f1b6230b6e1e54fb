import QuilControl.Json.Value
import QuilControl.Text.Hexadecimal

/-!
# Tokens of JSON documents

Punctuation, words, numbers and strings, with blanks between them.
-/

namespace QuilControl

inductive JsonToken where
  | openArray | closeArray | openObject | closeObject | colon | comma
  | null
  | bool (value : Bool)
  | number (value : JsonNumber)
  | string (units : List JsonUnit)

namespace JsonToken

/-- Whether a character may stand between tokens. -/
def isBlank (c : Char) : Bool := c = ' ' || c = '\t' || c = '\n' || c = '\r'

/-! ## Strings -/

/-- The character that a letter stands for behind a backslash. -/
def escaped? (c : Char) : Option Char :=
  if c = '"' || c = '\\' || c = '/' then some c
  else if c = 'b' then some '\x08'
  else if c = 'f' then some '\x0c'
  else if c = 'n' then some '\n'
  else if c = 'r' then some '\r'
  else if c = 't' then some '\t'
  else none

/-- The parts of a string up to its closing quote, and the text after that. -/
def readUnits : List Char → Option (List JsonUnit × List Char)
  | [] => none
  | c :: rest =>
    if c = '"' then some ([], rest)
    else if c = '\\' then
      match rest with
      | [] => none
      | e :: after =>
        if e = 'u' then
          match after with
          | h₁ :: h₂ :: h₃ :: h₄ :: tail =>
            match Text.hexValue? 0 [h₁, h₂, h₃, h₄] with
            | none => none
            | some code => (readUnits tail).map fun r => (.unit code :: r.1, r.2)
          | _ => none
        else
          match escaped? e with
          | none => none
          | some d => (readUnits after).map fun r => (.char d :: r.1, r.2)
    else if c < ' ' then none
    else (readUnits rest).map fun r => (.char c :: r.1, r.2)

/-! ## One token -/

/-- Read the rest of a word of which the first letter has been read. -/
def readWord (letters : List Char) (token : JsonToken) (text : List Char) :
    Option (JsonToken × List Char) :=
  if letters.isPrefixOf text then some (token, text.drop letters.length) else none

/-- The token at the start of a text, and the text after it. -/
def read : List Char → Option (JsonToken × List Char)
  | [] => none
  | c :: rest =>
    if c = '[' then some (.openArray, rest)
    else if c = ']' then some (.closeArray, rest)
    else if c = '\x7b' then some (.openObject, rest)
    else if c = '\x7d' then some (.closeObject, rest)
    else if c = ':' then some (.colon, rest)
    else if c = ',' then some (.comma, rest)
    else if c = '"' then (readUnits rest).map fun r => (.string r.1, r.2)
    else if c = 'n' then readWord ['u', 'l', 'l'] .null rest
    else if c = 't' then readWord ['r', 'u', 'e'] (.bool true) rest
    else if c = 'f' then readWord ['a', 'l', 's', 'e'] (.bool false) rest
    else (JsonNumber.read (c :: rest)).map fun r => (.number r.1, r.2)

/-! ## All tokens -/

/-- The tokens of a text, at most `fuel` of them. -/
def readAll : Nat → List Char → Option (List JsonToken)
  | 0, text => if text.all isBlank then some [] else none
  | fuel + 1, text =>
    match text.dropWhile isBlank with
    | [] => some []
    | c :: rest =>
      match read (c :: rest) with
      | none => none
      | some found => (readAll fuel found.2).map (found.1 :: ·)

/-- The tokens of a text, if all of it is tokens and blanks. A token has at least one character, so
there are no more tokens than characters. -/
def ofChars? (text : List Char) : Option (List JsonToken) := readAll text.length text

end JsonToken

end QuilControl
