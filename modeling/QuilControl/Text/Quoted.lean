import QuilControl.Text.Unprintable

/-!
# Quoted text

A text between double quotes, in which quotes, backslashes and whatever has no printed form are
written as escapes.
-/

namespace QuilControl.Text

/-- The escape of a character, or the character itself. -/
def escape (c : Char) : List Char :=
  if c = '"' then ['\\', '"']
  else if c = '\\' then ['\\', '\\']
  else if c = '\n' then ['\\', 'n']
  else if c = '\r' then ['\\', 'r']
  else if c = '\t' then ['\\', 't']
  else if c = '\x00' then ['\\', '0']
  else if isUnprintable c then
    ['\\', 'u', '\x7b'] ++ Nat.toDigits 16 c.toNat ++ ['\x7d']
  else [c]

def quoted (text : List Char) : List Char := '"' :: text.flatMap escape ++ ['"']

end QuilControl.Text
