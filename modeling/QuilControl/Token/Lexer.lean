import QuilControl.Text.Blank
import QuilControl.Token
import QuilControl.Token.Numeral

/-!
# From text to tokens

A text is cut into pieces: blanks, comments, tokens, and stretches that are no token. At each place
the longest piece is taken. A character that starts nothing is a piece of its own, an open string
reaches to the end of the text, and a number out of range covers its literal. The texts of the
pieces make up the whole text again (`flatMap_chars_pieces`).
-/

namespace QuilControl

inductive Piece (N : Type) where
  | blank (chars : List Char)
  | comment (chars : List Char)
  | token (chars : List Char) (token : Token N)
  | invalid (chars : List Char)

/-- A token, or a stretch that is none, with the bytes it spans. -/
structure Entry (N : Type) where
  /-- The token, or the text that is no token. -/
  content : Except (List Char) (Token N)
  start : Nat
  stop : Nat

/-- Blanks that separate tokens. -/
def isSeparator (c : Char) : Bool := c = ' ' || c = '\t' || c = '\r' || c = '\n'

def isNameStart (c : Char) : Bool := c.isAlpha || c = '_'

/-- Characters inside an identifier, hyphens apart. -/
def isNameChar (c : Char) : Bool := c.isAlphanum || c = '_'

/-- The rest of an identifier, and the text after it. A hyphen belongs to it when a name character
follows. -/
def readName : List Char → List Char × List Char
  | [] => ([], [])
  | '-' :: c :: rest =>
    if isNameChar c then ('-' :: c :: (readName rest).1, (readName rest).2)
    else ([], '-' :: c :: rest)
  | c :: rest =>
    if isNameChar c then (c :: (readName rest).1, (readName rest).2) else ([], c :: rest)

def startsWithDigit : List Char → Bool
  | [] => false
  | c :: _ => c.isDigit

namespace Piece

variable {N : Type} [Scalar N]

def chars : Piece N → List Char
  | blank cs => cs
  | comment cs => cs
  | token cs _ => cs
  | invalid cs => cs

/-- The piece of a number literal (`finite_float`). -/
def ofNumeral (n : Numeral) : Piece N :=
  if n.isInteger then
    let value := Numeral.digitsValue n.whole
    if value < UInt64.size then token n.text (.int (UInt64.ofNat value)) else invalid n.text
  else
    let value : N := n.value
    if Scalar.isFinite value then token n.text (.float value) else invalid n.text

/-- The piece of a string literal, given what follows its opening quote, and the text after it. -/
def readString (rest : List Char) : Piece N × List Char :=
  let inside := rest.takeWhile (· ≠ '"')
  match rest.dropWhile (· ≠ '"') with
  | [] => (invalid ('"' :: rest), [])
  | quote :: after => (token ('"' :: inside ++ [quote]) (.string (String.ofList inside)), after)

/-- The first piece of the text `c :: rest`, and the text after it. -/
def read (c : Char) (rest : List Char) : Piece N × List Char :=
  if isSeparator c then (blank [c], rest)
  else if c = '#' then (comment (c :: rest.takeWhile (· ≠ '\n')), rest.dropWhile (· ≠ '\n'))
  else if c = '"' then readString rest
  else if isNameStart c then
    let name := readName rest
    (token (c :: name.1) (.identifier (String.ofList (c :: name.1))), name.2)
  else if c.isDigit || (c = '.' && startsWithDigit rest) then
    let numeral := Numeral.read (c :: rest)
    (ofNumeral numeral.1, numeral.2)
  else
    match Mark.ofChar? c with
    | some m => (token [c] (.mark m), rest)
    | none => (invalid [c], rest)

/-! ## Nothing is lost -/

omit [Scalar N] in
@[simp]
theorem chars_blank (cs : List Char) : (blank cs : Piece N).chars = cs := rfl

omit [Scalar N] in
@[simp]
theorem chars_comment (cs : List Char) : (comment cs : Piece N).chars = cs := rfl

omit [Scalar N] in
@[simp]
theorem chars_token (cs : List Char) (t : Token N) : (token cs t).chars = cs := rfl

omit [Scalar N] in
@[simp]
theorem chars_invalid (cs : List Char) : (invalid cs : Piece N).chars = cs := rfl

@[simp]
theorem chars_ofNumeral (n : Numeral) : (ofNumeral n : Piece N).chars = n.text := by
  unfold ofNumeral
  split <;> dsimp only <;> split <;> rfl

theorem readName_append (text : List Char) : (readName text).1 ++ (readName text).2 = text := by
  fun_induction readName text <;> simp_all

omit [Scalar N] in
theorem chars_readString (rest : List Char) :
    (readString rest : Piece N × List Char).1.chars ++ (readString rest : Piece N × List Char).2 =
      '"' :: rest := by
  have h := List.takeWhile_append_dropWhile (p := fun c : Char => decide (c ≠ '"')) (l := rest)
  unfold readString
  dsimp only
  split
  · simp
  · next quote after hq =>
    rw [hq] at h
    simp only [chars_token, List.cons_append, List.append_assoc, List.nil_append]
    exact congrArg _ h

theorem numeral_whole_or_point {c : Char} {rest : List Char}
    (h : (c.isDigit || (c = '.' && startsWithDigit rest)) = true) :
    (Numeral.read (c :: rest)).1.text ≠ [] := by
  unfold Numeral.read
  by_cases hd : c.isDigit
  · dsimp only
    split <;> simp [Numeral.text, hd]
  · have hc : c = '.' := by simp_all
    subst hc
    simp [Numeral.text, hd]

/-- A piece and the text after it make up the text. -/
theorem chars_read (c : Char) (rest : List Char) :
    (read c rest : Piece N × List Char).1.chars ++ (read c rest : Piece N × List Char).2 =
      c :: rest := by
  unfold read
  split
  · rfl
  split
  · simp
  split
  · next h => subst h; exact chars_readString rest
  split
  · simp [readName_append]
  split
  · simpa using Numeral.text_read (c :: rest)
  · split <;> simp

/-- A piece has a character. -/
theorem chars_read_ne_nil (c : Char) (rest : List Char) :
    (read c rest : Piece N × List Char).1.chars ≠ [] := by
  unfold read
  split
  · simp
  split
  · simp
  split
  · unfold readString; dsimp only; split <;> simp
  split
  · simp
  split
  · next h => simpa using numeral_whole_or_point h
  · split <;> simp

/-- What follows a piece is not longer than what followed its first character. -/
theorem length_read_le (c : Char) (rest : List Char) :
    (read c rest : Piece N × List Char).2.length ≤ rest.length := by
  have h := congrArg List.length (chars_read (N := N) c rest)
  have hne := List.length_pos_iff.2 (chars_read_ne_nil (N := N) c rest)
  rw [List.length_append, List.length_cons] at h
  omega

end Piece

section Pieces

variable {N : Type} [Scalar N]

/-- The pieces of a text, in order. -/
def pieces : List Char → List (Piece N)
  | [] => []
  | c :: rest =>
    let next := (Piece.read c rest : Piece N × List Char)
    next.1 :: pieces next.2
termination_by text => text.length
decreasing_by
  have := Piece.length_read_le (N := N) c rest
  simp only [List.length_cons]
  omega

/-- The pieces of a text make it up. -/
theorem flatMap_chars_pieces (text : List Char) :
    (pieces text : List (Piece N)).flatMap Piece.chars = text := by
  fun_induction pieces (N := N) text with
  | case1 => rfl
  | case2 c rest next ih =>
    rw [List.flatMap_cons, ih]
    exact Piece.chars_read c rest

/-- The tokens and invalid stretches among pieces, when the first piece starts at byte `offset`. -/
def locate (offset : Nat) : List (Piece N) → List (Entry N)
  | [] => []
  | piece :: rest =>
    let stop := offset + Text.utf8Length piece.chars
    match piece with
    | .token _ t => ⟨.ok t, offset, stop⟩ :: locate stop rest
    | .invalid cs => ⟨.error cs, offset, stop⟩ :: locate stop rest
    | _ => locate stop rest

/-- The tokens and invalid stretches of a text, with their spans (`tokenize`). -/
def tokenize (text : List Char) : List (Entry N) := locate 0 (pieces text)

end Pieces

/-- The message about a stretch that is no token. -/
def invalidTokenMessage (chars : List Char) : String :=
  "Invalid token: '" ++ String.ofList chars ++ "'"

end QuilControl
