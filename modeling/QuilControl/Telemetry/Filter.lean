import QuilControl.Text.Blank

/-!
# Log filters

A filter is a list of directives with commas between them. A directive is a level, or a target that
may be followed by an equals sign and a level.
-/

namespace QuilControl.LogFilter

def levels : List (List Char) :=
  ["off", "error", "warn", "info", "debug", "trace", "0", "1", "2", "3", "4", "5"].map String.toList

def isLevel (text : List Char) : Bool := levels.contains (text.map Char.toLower)

def isTargetChar (c : Char) : Bool := c.isAlphanum || c = '_' || c = ':' || c = '-'

def isDirective (text : List Char) : Bool :=
  let target := text.takeWhile isTargetChar
  match text.dropWhile isTargetChar with
  | [] => !target.isEmpty
  | c :: level => !target.isEmpty && c = '=' && (level.isEmpty || isLevel level)

/-- The parts of a text between commas. -/
def split : List Char → List (List Char)
  | [] => [[]]
  | c :: rest =>
    match split rest with
    | [] => [[c]]
    | part :: parts => if c = ',' then [] :: part :: parts else (c :: part) :: parts

/-- Whether a text is a filter. Empty parts do not matter. -/
def isValid (text : List Char) : Bool :=
  (split text).all fun part => part.isEmpty || isDirective part

end QuilControl.LogFilter
