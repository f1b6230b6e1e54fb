import QuilControl.Expr.Basic

/-!
# Written expressions

Parentheses stand only where the reader would otherwise group differently. A literal behind a sign
is wrapped, because a minus directly in front of a literal is part of it; and a minus behind a
letter gets a blank in front, because it could continue the name.
-/

namespace QuilControl.Expr

variable {N : Type} [Scalar N]

/-- How strongly an expression holds together: operators by precedence, then signs and negative
literals, then everything else. -/
def strength : Expr N → Nat
  | binary op _ _ => op.precedence
  | signed _ _ => 4
  | number v => if Scalar.isNegative v then 4 else 5
  | _ => 5

/-- Whether an operand behind a sign needs parentheses. -/
def needsWrapBehindSign (operand : Expr N) : Bool := operand.strength < 4 || operand.isNumber

def needsWrapLeft (op : Operator) (left : Expr N) : Bool :=
  if op.groupsRight then left.strength ≤ op.precedence else left.strength < op.precedence

def needsWrapRight (op : Operator) (right : Expr N) : Bool :=
  if op.groupsRight then right.strength < op.precedence else right.strength ≤ op.precedence

/-- An operand, in parentheses where needed (`fmt_operand`). -/
def wrap (needed : Bool) (text : List Char) : List Char :=
  if needed then '(' :: text ++ [')'] else text

def endsWithLetter (text : List Char) : Bool := text.getLast?.any Char.isAlpha

def signChar : Sign → Char
  | .plus => '+'
  | .minus => '-'

def chars : Expr N → List Char
  | number v => Scalar.literal v
  | pi => ['p', 'i']
  | address slot => slot.chars
  | call f argument => f.name.toList ++ '(' :: argument.chars ++ [')']
  | signed sign operand => signChar sign :: wrap operand.needsWrapBehindSign operand.chars
  | binary op left right =>
    let l := wrap (needsWrapLeft op left) left.chars
    let gap := if op = .minus && endsWithLetter l then [' '] else []
    l ++ gap ++ op.mark.char :: wrap (needsWrapRight op right) right.chars

def text (e : Expr N) : String := String.ofList e.chars

end QuilControl.Expr
