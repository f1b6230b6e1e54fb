import QuilControl.Scalar

/-!
# Tokens

The words of a statement: literals, identifiers and the marks of its grammar. `Token.chars` is the
text of a token as messages quote it.
-/

namespace QuilControl

inductive Mark where
  | plus | minus | star | slash | caret
  | leftParen | rightParen | leftBracket | rightBracket | comma | colon
deriving DecidableEq

namespace Mark

def char : Mark → Char
  | plus => '+'
  | minus => '-'
  | star => '*'
  | slash => '/'
  | caret => '^'
  | leftParen => '('
  | rightParen => ')'
  | leftBracket => '['
  | rightBracket => ']'
  | comma => ','
  | colon => ':'

def all : List Mark :=
  [plus, minus, star, slash, caret, leftParen, rightParen, leftBracket, rightBracket, comma, colon]

/-- The mark that a character writes. -/
def ofChar? (c : Char) : Option Mark := all.find? (·.char = c)

theorem ofChar?_char (m : Mark) : ofChar? m.char = some m := by cases m <;> rfl

theorem char_of_ofChar? {c : Char} {m : Mark} (h : ofChar? c = some m) : m.char = c := by
  simpa using List.find?_some h

end Mark

inductive Token (N : Type) where
  | float (value : N)
  | int (value : UInt64)
  | string (text : String)
  | identifier (name : String)
  | mark (mark : Mark)

namespace Token

variable {N : Type} [Scalar N]

/-- The text of a token in a message. -/
def chars : Token N → List Char
  | float value => Scalar.plain value
  | int value => Nat.toDigits 10 value.toNat
  | string text => '"' :: text.toList ++ ['"']
  | identifier name => name.toList
  | mark m => [m.char]

def text (t : Token N) : String := String.ofList t.chars

end Token

end QuilControl
