import QuilControl.Expr.Basic

/-!
# Reading expressions

Operators are read by precedence: `readBinary least` reads an expression whose outermost operators
all have at least the precedence `least`. A sign binds more strongly than any operator, and a minus
directly in front of a literal is part of the literal. Each reader says what is left of its tokens,
with the proof that it is less, which is why reading ends.
-/

namespace QuilControl

/-- What a reader gives: a value, and the tokens it leaves, fewer than `bound`. -/
structure Parsed (N α : Type) (bound : Nat) where
  value : α
  rest : List (Token N)
  shorter : rest.length < bound

namespace Expr

variable {N : Type} [Scalar N]

/-- Read `[index]` behind a region name; the opening bracket has been read (`parse_index`). -/
def readIndex (tokens : List (Token N)) :
    Except (Fault N) (Parsed N UInt64 (tokens.length + 1)) :=
  match tokens with
  | .int index :: .mark .rightBracket :: rest =>
    .ok ⟨index, rest, by simp only [List.length_cons]; omega⟩
  | .int _ :: rest => .error (.expecting "]" rest)
  | rest => .error (.expecting "integer" rest)

/-- The number of an integer literal. -/
def ofInt (value : UInt64) : N := Scalar.ofNat value.toNat

mutual

/-- Read an expression whose outermost operators have at least the precedence `least`
(`parse_binary_expr`). -/
def readBinary (least : Nat) (tokens : List (Token N)) :
    Except (Fault N) (Parsed N (Expr N) tokens.length) :=
  match readUnary tokens with
  | .error fault => .error fault
  | .ok left =>
    match readOperators least left.value left.rest with
    | .error fault => .error fault
    | .ok all => .ok ⟨all.value, all.rest, by have := left.shorter; have := all.shorter; omega⟩
termination_by 3 * tokens.length + 2
decreasing_by
  · omega
  · have := left.shorter; omega

/-- The loop of `parse_binary_expr`: read operators of at least the precedence `least` and their
right operands, behind the operand `left`. -/
def readOperators (least : Nat) (left : Expr N) (tokens : List (Token N)) :
    Except (Fault N) (Parsed N (Expr N) (tokens.length + 1)) :=
  match tokens with
  | .mark m :: after =>
    match Operator.ofMark? m with
    | none => .ok ⟨left, .mark m :: after, by omega⟩
    | some op =>
      if op.precedence < least then .ok ⟨left, .mark m :: after, by omega⟩
      else
        match readBinary op.rightLeast after with
        | .error fault => .error fault
        | .ok right =>
          match readOperators least (binary op left right.value) right.rest with
          | .error fault => .error fault
          | .ok all =>
            .ok ⟨all.value, all.rest, by
              have := right.shorter
              have := all.shorter
              simp only [List.length_cons]
              omega⟩
  | rest => .ok ⟨left, rest, by omega⟩
termination_by 3 * tokens.length
decreasing_by
  · simp only [List.length_cons]; omega
  · have := right.shorter; simp only [List.length_cons]; omega

/-- Read an operand with its signs (`parse_unary_expr`). -/
def readUnary (tokens : List (Token N)) : Except (Fault N) (Parsed N (Expr N) tokens.length) :=
  match tokens with
  | .mark .minus :: .int value :: rest =>
    .ok ⟨number (Scalar.neg (ofInt value)), rest, by simp only [List.length_cons]; omega⟩
  | .mark .minus :: .float value :: rest =>
    .ok ⟨number (Scalar.neg value), rest, by simp only [List.length_cons]; omega⟩
  | .mark .minus :: after =>
    match readUnary after with
    | .error fault => .error fault
    | .ok operand =>
      .ok ⟨signed .minus operand.value, operand.rest, by
        have := operand.shorter; simp only [List.length_cons]; omega⟩
  | .mark .plus :: after =>
    match readUnary after with
    | .error fault => .error fault
    | .ok operand =>
      .ok ⟨signed .plus operand.value, operand.rest, by
        have := operand.shorter; simp only [List.length_cons]; omega⟩
  | rest => readPrimary rest
termination_by 3 * tokens.length + 1
decreasing_by
  · simp only [List.length_cons]; omega
  · simp only [List.length_cons]; omega
  · omega

/-- Read a literal, a name, a function call or an expression in parentheses (`parse_primary_expr`).
A bare name is slot zero of its region. -/
def readPrimary (tokens : List (Token N)) : Except (Fault N) (Parsed N (Expr N) tokens.length) :=
  match tokens with
  | .int value :: rest => .ok ⟨number (ofInt value), rest, by simp only [List.length_cons]; omega⟩
  | .float value :: rest => .ok ⟨number value, rest, by simp only [List.length_cons]; omega⟩
  | .identifier name :: .mark .leftBracket :: after =>
    match readIndex after with
    | .error fault => .error fault
    | .ok index =>
      .ok ⟨address ⟨name, index.value⟩, index.rest, by
        have := index.shorter; simp only [List.length_cons]; omega⟩
  | .identifier name :: after =>
    if name = "pi" then .ok ⟨pi, after, by simp only [List.length_cons]; omega⟩
    else
      match after with
      | .mark .leftParen :: inside =>
        match MathFunction.ofName? name with
        | none =>
          .error (.unexpected "expression function" (.identifier name) (.mark .leftParen :: inside))
        | some f =>
          match readBinary 0 inside with
          | .error fault => .error fault
          | .ok argument =>
            match h : argument.rest with
            | .mark .rightParen :: rest =>
              .ok ⟨call f argument.value, rest, by
                have := argument.shorter
                rw [h] at this
                simp only [List.length_cons] at this ⊢
                omega⟩
            | rest => .error (.expecting ")" rest)
      | rest => .ok ⟨address ⟨name, 0⟩, rest, by simp only [List.length_cons]; omega⟩
  | .mark .leftParen :: inside =>
    match readBinary 0 inside with
    | .error fault => .error fault
    | .ok grouped =>
      match h : grouped.rest with
      | .mark .rightParen :: rest =>
        .ok ⟨grouped.value, rest, by
          have := grouped.shorter
          rw [h] at this
          simp only [List.length_cons] at this ⊢
          omega⟩
      | rest => .error (.expecting ")" rest)
  | rest => .error (.expecting "expression" rest)
termination_by 3 * tokens.length
decreasing_by
  all_goals simp only [List.length_cons]; omega

end

/-- The expression that a list of tokens is. -/
def ofTokens (tokens : List (Token N)) : Except (Fault N) (Expr N) :=
  match readBinary 0 tokens with
  | .error fault => .error fault
  | .ok read =>
    match read.rest with
    | [] => .ok read.value
    | rest => .error (.expecting "end of instruction" rest)

/-- The expression that a text is (`parse_expression`). Errors are on line 1. -/
def ofText (source : String) : Except QuilError (Expr N) :=
  match statementTokens 1 source.toList with
  | .error e => .error e
  | .ok tokens =>
    match ofTokens tokens with
    | .error fault => .error (fault.atLine 1)
    | .ok e => .ok e

end Expr

end QuilControl
