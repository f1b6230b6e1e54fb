import QuilControl.Text.Hexadecimal

/-!
# Flat YAML mappings

Documents of one `key: scalar` entry a line. Scalars are plain, or in single or double quotes. All
entries start in the same column; blank lines and comments may stand between them. Other documents
are not read.
-/

namespace QuilControl.Yaml

def isBlank (c : Char) : Bool := c = ' ' || c = '\t'

def endsToken : List Char → Bool
  | [] => true
  | c :: _ => isBlank c

def isComment : List Char → Bool
  | [] => true
  | c :: _ => c = '#'

/-- Whether the rest of a line, behind a token, holds nothing but blanks and a comment. -/
def endsLine (text : List Char) : Bool := isComment (text.dropWhile isBlank)

def trimEnd (text : List Char) : List Char := (text.reverse.dropWhile isBlank).reverse

/-! ## Scalars -/

/-- Characters that begin something other than a plain scalar. -/
def indicators : List Char :=
  [',', '[', ']', '\x7b', '\x7d', '#', '&', '*', '!', '|', '>', '\'', '"', '%', '@', '\x60']

/-- Whether a plain scalar may begin here. -/
def beginsPlain : List Char → Bool
  | [] => false
  | c :: rest =>
    if c = '-' || c = '?' || c = ':' then !endsToken rest
    else !isBlank c && !indicators.contains c

/-- The text up to a colon that ends a key or to a comment, and the rest. -/
def splitPlain : List Char → List Char × List Char
  | [] => ([], [])
  | c :: rest =>
    if c = ':' && endsToken rest then ([], c :: rest)
    else if isBlank c && rest.head? = some '#' then ([], c :: rest)
    else ((c :: (splitPlain rest).1), (splitPlain rest).2)

/-- The contents of a scalar in single quotes, in which a quote is written twice, and the rest. -/
def readSingle : List Char → Option (List Char × List Char)
  | [] => none
  | c :: rest =>
    if c = '\'' then
      match rest with
      | [] => some ([], [])
      | d :: after =>
        if d = '\'' then (readSingle after).map fun r => ('\'' :: r.1, r.2)
        else some ([], d :: after)
    else (readSingle rest).map fun r => (c :: r.1, r.2)

/-- The character of hexadecimal digits. -/
def hexChar? (digits : List Char) : Option Char :=
  match Text.hexValue? 0 digits with
  | none => none
  | some code => if code.isValidChar then some (Char.ofNat code) else none

/-- The character that a letter stands for behind a backslash. -/
def escaped? (c : Char) : Option Char :=
  match c with
  | '0' => some '\x00'
  | 'a' => some '\x07'
  | 'b' => some '\x08'
  | 't' | '\t' => some '\t'
  | 'n' => some '\n'
  | 'v' => some '\x0b'
  | 'f' => some '\x0c'
  | 'r' => some '\r'
  | 'e' => some '\x1b'
  | ' ' => some ' '
  | '"' => some '"'
  | '/' => some '/'
  | '\\' => some '\\'
  | 'N' => some '\x85'
  | '_' => some '\xa0'
  | 'L' => some '\u2028'
  | 'P' => some '\u2029'
  | _ => none

/-- How many hexadecimal digits follow a letter behind a backslash. -/
def hexCount (c : Char) : Nat :=
  if c = 'x' then 2 else if c = 'u' then 4 else if c = 'U' then 8 else 0

/-- The contents of a scalar in double quotes, and the rest; at most `fuel` characters. -/
def readDouble : Nat → List Char → Option (List Char × List Char)
  | 0, _ => none
  | _, [] => none
  | fuel + 1, c :: rest =>
    if c = '"' then some ([], rest)
    else if c = '\\' then
      match rest with
      | [] => none
      | e :: after =>
        let count := hexCount e
        if count = 0 then
          match escaped? e with
          | none => none
          | some d => (readDouble fuel after).map fun r => (d :: r.1, r.2)
        else if after.length < count then none
        else
          match hexChar? (after.take count) with
          | none => none
          | some d => (readDouble fuel (after.drop count)).map fun r => (d :: r.1, r.2)
    else (readDouble fuel rest).map fun r => (c :: r.1, r.2)

/-- The scalar at the start of a text, and the rest. -/
def readScalar (text : List Char) : Option (List Char × List Char) :=
  match text with
  | [] => none
  | c :: rest =>
    if c = '"' then readDouble (rest.length + 1) rest
    else if c = '\'' then readSingle rest
    else if beginsPlain text then
      some (trimEnd (splitPlain text).1, (splitPlain text).2)
    else none

/-! ## Lines -/

/-- The value of an entry, from the text behind the colon. -/
def readValue (text : List Char) : Option (List Char) :=
  if endsLine text then some []
  else
    match readScalar (text.dropWhile isBlank) with
    | none => none
    | some (value, rest) => if endsLine rest then some value else none

def readEntry (text : List Char) : Option (String × String) :=
  match readScalar text with
  | none => none
  | some (key, rest) =>
    match rest.dropWhile isBlank with
    | [] => none
    | c :: after =>
      if c = ':' && endsToken after then
        (readValue after).map (String.ofList key, String.ofList ·)
      else none

/-- Whether a line holds no part of an entry. A tab is no indentation. -/
def isSkipped (line : List Char) : Bool := isComment (line.dropWhile (· = ' '))

/-- Whether a line begins with a marker of three of the given characters. -/
def hasMarker (mark : Char) (line : List Char) : Bool :=
  [mark, mark, mark].isPrefixOf line && endsToken (line.drop 3)

/-- Whether nothing but a comment follows the marker of a line. -/
def isBareMarker (line : List Char) : Bool := endsLine (line.drop 3)

def indent (line : List Char) : Nat := (line.takeWhile (· = ' ')).length

/-- The entries of lines that all begin in one column. An end marker stops them. -/
def readEntries (column : Nat) : List (List Char) → Option (List (String × String))
  | [] => some []
  | line :: rest =>
    if isSkipped line then readEntries column rest
    else if hasMarker '-' line then none
    else if hasMarker '.' line then
      if isBareMarker line && rest.all isSkipped then some [] else none
    else if indent line ≠ column then none
    else
      match readEntry (line.drop column) with
      | none => none
      | some entry => (readEntries column rest).map (entry :: ·)

/-- Whether a character may stand in a document. -/
def isAllowed (c : Char) : Bool :=
  c = '\t' || c = '\n' || c = '\r' || c = '\x85' || (' ' ≤ c && c ≤ '~') ||
    ('\xa0' ≤ c && c ≠ '\ufeff' && c ≠ '\ufffe' && c ≠ '\uffff')

def isBreak (c : Char) : Bool :=
  c = '\n' || c = '\r' || c = '\x85' || c = '\u2028' || c = '\u2029'

/-- The lines of a text. A line end of two characters leaves an empty line, which does not
matter. -/
def lines : List Char → List (List Char)
  | [] => [[]]
  | c :: rest =>
    if isBreak c then [] :: lines rest
    else
      match lines rest with
      | [] => [[c]]
      | line :: more => (c :: line) :: more

/-- The entries of lines of which the first, if there is one, is not skipped. -/
def readBody : List (List Char) → Option (List (String × String))
  | [] => some []
  | first :: rest => readEntries (indent first) (first :: rest)

/-- The entries of a document, in order. A document may begin with a marker. -/
def flatEntries? (text : List Char) : Option (List (String × String)) :=
  if !text.all isAllowed then none
  else
    match (lines text).dropWhile isSkipped with
    | [] => some []
    | first :: rest =>
      if hasMarker '-' first then
        if isBareMarker first then readBody (rest.dropWhile isSkipped) else none
      else readBody (first :: rest)

end QuilControl.Yaml
