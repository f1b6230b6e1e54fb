/-!
# White space, lines and byte lengths

Text is handled as its list of characters. White space is the Unicode property; a line ends at a
line feed, and a carriage return directly before it belongs to the line end. Positions count the
bytes of the UTF-8 form.
-/

namespace QuilControl.Text

/-- Code points with the Unicode property `White_Space`, as ranges. -/
def whiteSpaceRanges : List (Nat × Nat) :=
  [(0x09, 0x0D), (0x20, 0x20), (0x85, 0x85), (0xA0, 0xA0), (0x1680, 0x1680), (0x2000, 0x200A),
    (0x2028, 0x2029), (0x202F, 0x202F), (0x205F, 0x205F), (0x3000, 0x3000)]

def isWhiteSpace (c : Char) : Bool :=
  whiteSpaceRanges.any fun range => range.1 ≤ c.toNat && c.toNat ≤ range.2

def trimStart (text : List Char) : List Char := text.dropWhile isWhiteSpace

def trimEnd : List Char → List Char
  | [] => []
  | c :: rest =>
    match trimEnd rest with
    | [] => if isWhiteSpace c then [] else [c]
    | kept => c :: kept

def trim (text : List Char) : List Char := trimEnd (trimStart text)

def isBlank (text : List Char) : Bool := text.all isWhiteSpace

def utf8Length : List Char → Nat
  | [] => 0
  | c :: rest => c.utf8Size + utf8Length rest

/-- The text after its first `bytes` bytes; a character that begins before that point is dropped. -/
def dropBytes : Nat → List Char → List Char
  | 0, text => text
  | _ + 1, [] => []
  | bytes + 1, c :: rest => dropBytes (bytes + 1 - c.utf8Size) rest

/-- Drop a carriage return that ends a line. -/
def dropCarriageReturn : List Char → List Char
  | [] => []
  | ['\r'] => []
  | c :: rest => c :: dropCarriageReturn rest

/-- The lines of a text, without their ends. A text that ends with a line feed has no further,
empty line after it. -/
def lines (text : List Char) : List (List Char) :=
  go [] text
where
  /-- Split the rest of the text, given the characters of the current line so far, last first. -/
  go (current : List Char) : List Char → List (List Char)
    | [] => if current.isEmpty then [] else [current.reverse]
    | c :: rest =>
      if c = '\n' then dropCarriageReturn current.reverse :: go [] rest
      else go (c :: current) rest

@[simp]
theorem utf8Length_nil : utf8Length [] = 0 := rfl

@[simp]
theorem utf8Length_cons (c : Char) (text : List Char) :
    utf8Length (c :: text) = c.utf8Size + utf8Length text := rfl

@[simp]
theorem utf8Length_append (a b : List Char) :
    utf8Length (a ++ b) = utf8Length a + utf8Length b := by
  induction a with
  | nil => simp
  | cons c a ih => simp [ih, Nat.add_assoc]

end QuilControl.Text
