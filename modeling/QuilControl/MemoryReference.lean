import QuilControl.Fault

/-!
# Memory references

One slot of a declared region, written `name[index]`. `MemoryReference.ofChars?` is the strict
reader of that form, as the keys of readout mappings use it: no blanks, and the index in digits.
-/

namespace QuilControl

/-- A slot of a declared memory region. -/
structure MemoryReference where
  name : String
  index : UInt64
deriving DecidableEq

namespace MemoryReference

/-- The written form `name[index]`. -/
def chars (r : MemoryReference) : List Char :=
  r.name.toList ++ '[' :: Nat.toDigits 10 r.index.toNat ++ [']']

def text (r : MemoryReference) : String := String.ofList r.chars

/-- Whether a text may name a region: a letter or underscore first, then letters, digits,
underscores and hyphens, and no hyphen at the end. -/
def isRegionName : List Char → Bool
  | [] => false
  | c :: rest =>
    isNameStart c && rest.all (fun d => isNameChar d || d = '-') && (c :: rest).getLast? != some '-'

/-- The value of an index in digits that fits a word. -/
def readIndex? (digits : List Char) : Option UInt64 :=
  if digits.isEmpty || !digits.all Char.isDigit then none
  else
    let value := Numeral.digitsValue digits
    if value < UInt64.size then some (UInt64.ofNat value) else none

/-- Read `name[index]` (`from_str`). The name ends at the first bracket. -/
def ofChars? (text : List Char) : Option MemoryReference :=
  let name := text.takeWhile (· ≠ '[')
  match text.dropWhile (· ≠ '[') with
  | [] => none
  | _ :: rest =>
    if rest.getLast? = some ']' && isRegionName name then
      (readIndex? rest.dropLast).map (⟨String.ofList name, ·⟩)
    else none

def ofText (text : String) : Except QuilError MemoryReference :=
  match ofChars? text.toList with
  | some r => .ok r
  | none => .error (.invalidMemoryReference text)

end MemoryReference

end QuilControl
