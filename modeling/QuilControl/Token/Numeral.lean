import QuilControl.Scalar

/-!
# Number literals

A literal is digits, then possibly a point with digits behind it, then possibly a power of ten. The
longest such text at a place is read: a power of ten counts only when it has a digit
(`Numeral.text_read`: what is read and what is left make up the text).
-/

namespace QuilControl

/-- The parts of a number literal. `power` is the text of the power of ten, with its letter. -/
structure Numeral where
  whole : List Char
  fraction : Option (List Char)
  power : List Char

namespace Numeral

def text (n : Numeral) : List Char :=
  n.whole ++ (match n.fraction with
    | none => []
    | some digits => '.' :: digits) ++ n.power

def isInteger (n : Numeral) : Bool := n.fraction.isNone && n.power.isEmpty

def digitsValue (digits : List Char) : Nat := Nat.ofDigitChars 10 digits 0

def powerValue : List Char → Int
  | _ :: '-' :: digits => -(digitsValue digits : Int)
  | _ :: '+' :: digits => digitsValue digits
  | _ :: digits => digitsValue digits
  | [] => 0

/-- The number nearest to the literal. -/
def value {N : Type} [Scalar N] (n : Numeral) : N :=
  let behind := n.fraction.getD []
  Scalar.ofDecimal (digitsValue (n.whole ++ behind)) (powerValue n.power - behind.length)

/-- An optional sign and the text after it. -/
def readSign : List Char → List Char × List Char
  | [] => ([], [])
  | c :: rest => if c = '+' || c = '-' then ([c], rest) else ([], c :: rest)

/-- The power of ten at the start of a text, and the text after it. Without a digit there is
none. -/
def readPower : List Char → List Char × List Char
  | [] => ([], [])
  | c :: rest =>
    if c = 'e' || c = 'E' then
      let signed := readSign rest
      match signed.2.takeWhile Char.isDigit with
      | [] => ([], c :: rest)
      | digits => (c :: signed.1 ++ digits, signed.2.dropWhile Char.isDigit)
    else ([], c :: rest)

/-- The literal at the start of a text, and the text after it. -/
def read (text : List Char) : Numeral × List Char :=
  let whole := text.takeWhile Char.isDigit
  match text.dropWhile Char.isDigit with
  | '.' :: after =>
    let power := readPower (after.dropWhile Char.isDigit)
    (⟨whole, some (after.takeWhile Char.isDigit), power.1⟩, power.2)
  | after =>
    let power := readPower after
    (⟨whole, none, power.1⟩, power.2)

/-! ## Nothing is lost -/

theorem readSign_append (text : List Char) : (readSign text).1 ++ (readSign text).2 = text := by
  cases text with
  | nil => rfl
  | cons c rest => simp only [readSign]; split <;> rfl

theorem readPower_append (text : List Char) : (readPower text).1 ++ (readPower text).2 = text := by
  cases text with
  | nil => rfl
  | cons c rest =>
    simp only [readPower]
    split
    · split
      · rfl
      · have h := List.takeWhile_append_dropWhile (p := Char.isDigit) (l := (readSign rest).2)
        rw [List.cons_append, List.cons_append, List.append_assoc, h, readSign_append]
    · rfl

theorem text_read (source : List Char) : (read source).1.text ++ (read source).2 = source := by
  unfold read
  have h := List.takeWhile_append_dropWhile (p := Char.isDigit) (l := source)
  dsimp only
  split
  · next after ha =>
    have h' := List.takeWhile_append_dropWhile (p := Char.isDigit) (l := after)
    have hp := readPower_append (after.dropWhile Char.isDigit)
    rw [ha] at h
    simp only [text, List.append_assoc, List.cons_append, hp, h']
    exact h
  · have hp := readPower_append (source.dropWhile Char.isDigit)
    simp only [text, List.append_nil, List.append_assoc, hp]
    exact h

end Numeral

end QuilControl
