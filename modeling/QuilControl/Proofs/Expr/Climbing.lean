import QuilControl.Expr.Printer
import QuilControl.Proofs.Expr.Leaves
import QuilControl.Proofs.Token.Literal

/-!
# Reading back by precedence

An expression is written as tokens (`Expr.tokens`), with parentheses only where the reader would
group differently. Reading these tokens gives the expression again, up to what its literals read as
(`Expr.reread`).

The statement that the induction carries is about the operators that may follow (`Expr.ReadsFrom`).
In front of tokens that end the expression, reading at a precedence it reaches is reading on behind
it, with the expression as the left operand. An operator ends its left operand because it binds no
more strongly than the operators in there; what follows ends the right operand for the same reason.
-/

namespace QuilControl

variable {N : Type}

/-- What a reader gives, without the proof that it is shorter. -/
def given {α : Type} {bound : Nat} (r : Except (Fault N) (Parsed N α bound)) :
    Except (Fault N) (α × List (Token N)) := r.map fun read => (read.value, read.rest)

theorem eq_of_given {α : Type} {bound : Nat} {r : Except (Fault N) (Parsed N α bound)} {v : α}
    {rest : List (Token N)} (h : given r = .ok (v, rest)) :
    ∃ shorter, r = .ok ⟨v, rest, shorter⟩ := by
  cases r with
  | error f => cases h
  | ok read =>
    obtain ⟨value, left, shorter⟩ := read
    cases h
    exact ⟨shorter, rfl⟩

theorem Operator.mark_of_ofMark? {m : Mark} {op : Operator} (h : ofMark? m = some op) : op.mark = m := by
  cases m <;> cases h <;> rfl

theorem Operator.precedence_lt_four (op : Operator) : op.precedence < 4 := by cases op <;> decide

theorem Operator.rightLeast_le_four (op : Operator) : op.rightLeast ≤ 4 := by cases op <;> decide

namespace Expr

/-- An expression whose operators all have at least the precedence `least` ends in front of the
tokens: none of these operators follows, nor an index. -/
def Ends (least : Nat) : List (Token N) → Prop
  | .mark m :: _ => m ≠ .leftBracket ∧ ∀ op, Operator.ofMark? m = some op → op.precedence < least
  | _ => True

theorem Ends.mono {a b : Nat} {rest : List (Token N)} (h : Ends a rest) (hab : a ≤ b) : Ends b rest := by
  unfold Ends at *
  split at h
  · exact ⟨h.1, fun op hop => Nat.lt_of_lt_of_le (h.2 op hop) hab⟩
  · trivial

theorem ends_nil {least : Nat} : Ends least ([] : List (Token N)) := trivial

theorem ends_rightParen {least : Nat} (rest : List (Token N)) : Ends least (.mark .rightParen :: rest) :=
  ⟨by decide, fun _ h => by cases h⟩

theorem ends_comma {least : Nat} (rest : List (Token N)) : Ends least (.mark .comma :: rest) :=
  ⟨by decide, fun _ h => by cases h⟩

theorem ends_operator {least : Nat} {op : Operator} (h : op.precedence < least) (rest : List (Token N)) :
    Ends least (.mark op.mark :: rest) := by
  refine ⟨by cases op <;> decide, fun op' hop => ?_⟩
  rw [Operator.ofMark?_mark] at hop
  cases hop
  exact h

/-- Reading operators of at least the precedence `least` stops in front of the tokens. -/
def Stops (least : Nat) (tokens : List (Token N)) : Prop :=
  ∀ op : Operator, tokens.head? = some (.mark op.mark) → op.precedence < least

theorem Stops.mono {a b : Nat} {rest : List (Token N)} (h : Stops a rest) (hab : a ≤ b) : Stops b rest :=
  fun op hop => Nat.lt_of_lt_of_le (h op hop) hab

theorem Ends.head?_ne {least : Nat} {rest : List (Token N)} (h : Ends least rest) :
    rest.head? ≠ some (.mark .leftBracket) := by
  intro hb
  obtain ⟨after, rfl⟩ := List.head?_eq_some_iff.1 hb
  exact h.1 rfl

theorem Ends.stops {least : Nat} {rest : List (Token N)} (h : Ends least rest) : Stops least rest := by
  intro op hop
  obtain ⟨after, rfl⟩ := List.head?_eq_some_iff.1 hop
  exact h.2 op op.ofMark?_mark

section Readers

variable [Scalar N]

/-! ## One step of a reader -/

theorem given_readBinary {least : Nat} {tokens rest : List (Token N)} {left : Expr N}
    (h : given (readUnary tokens) = .ok (left, rest)) :
    given (readBinary least tokens) = given (readOperators least left rest) := by
  obtain ⟨shorter, hr⟩ := eq_of_given h
  rw [readBinary, hr]
  dsimp only
  cases readOperators least left rest <;> rfl

theorem given_readOperators_of_stops {least : Nat} {left : Expr N} {rest : List (Token N)}
    (h : Stops least rest) : given (readOperators least left rest) = .ok (left, rest) := by
  unfold readOperators
  split
  · next m after =>
    split
    · rfl
    · next op hop =>
      rw [if_pos (h op (by rw [Operator.mark_of_ofMark? hop]; rfl))]
      rfl
  · rfl

theorem given_readOperators {least : Nat} {op : Operator} {left right : Expr N}
    {after rest : List (Token N)} (h : least ≤ op.precedence)
    (hr : given (readBinary op.rightLeast after) = .ok (right, rest)) :
    given (readOperators least left (.mark op.mark :: after)) =
      given (readOperators least (binary op left right) rest) := by
  obtain ⟨shorter, hr⟩ := eq_of_given hr
  rw [readOperators]
  simp only [Operator.ofMark?_mark]
  rw [if_neg (Nat.not_lt.2 h), hr]
  dsimp only
  cases readOperators least (binary op left right) rest <;> rfl

theorem given_readUnary_plus {after rest : List (Token N)} {operand : Expr N}
    (h : given (readUnary after) = .ok (operand, rest)) :
    given (readUnary (.mark .plus :: after)) = .ok (signed .plus operand, rest) := by
  obtain ⟨shorter, hr⟩ := eq_of_given h
  rw [readUnary, hr]
  rfl

def startsWithNumber : List (Token N) → Bool
  | t :: _ => t.number?.isSome
  | [] => false

theorem given_readUnary_minus {after rest : List (Token N)} {operand : Expr N}
    (hn : startsWithNumber after = false) (h : given (readUnary after) = .ok (operand, rest)) :
    given (readUnary (.mark .minus :: after)) = .ok (signed .minus operand, rest) := by
  obtain ⟨shorter, hr⟩ := eq_of_given h
  rw [readUnary, hr]
  · rfl
  · rintro value tail rfl; cases hn
  · rintro value tail rfl; cases hn

/-- A minus in front of a number is part of it. -/
theorem given_readUnary_negative {t : Token N} {x : N} (h : t.number? = some x) (rest : List (Token N)) :
    given (readUnary (.mark .minus :: t :: rest)) = .ok (number (Scalar.neg x), rest) := by
  cases t with
  | float v => cases h; rw [readUnary]; rfl
  | int v => cases h; rw [readUnary]; rfl
  | string | identifier | mark => cases h

theorem given_readUnary_number {t : Token N} {x : N} (h : t.number? = some x) (rest : List (Token N)) :
    given (readUnary (t :: rest)) = .ok (number x, rest) := by
  cases t with
  | float v => cases h; rw [readUnary, readPrimary]; all_goals simp [given, Except.map]
  | int v => cases h; rw [readUnary, readPrimary]; all_goals simp [given, Except.map]
  | string | identifier | mark => cases h

theorem readUnary_identifier (name : String) (rest : List (Token N)) :
    readUnary (.identifier name :: rest) = readPrimary (.identifier name :: rest) := by
  rw [readUnary] <;> simp

theorem given_readUnary_slot (name : String) (index : UInt64) (rest : List (Token N)) :
    given (readUnary (.identifier name :: .mark .leftBracket :: .int index :: .mark .rightBracket :: rest)) =
      .ok (address ⟨name, index⟩, rest) := by
  rw [readUnary_identifier, readPrimary]
  rfl

theorem given_readUnary_pi {rest : List (Token N)} (h : rest.head? ≠ some (.mark .leftBracket)) :
    given (readUnary (.identifier "pi" :: rest)) = .ok (pi, rest) := by
  rw [readUnary_identifier]
  by_cases hp : ∃ inside, rest = .mark .leftParen :: inside
  · obtain ⟨inside, rfl⟩ := hp
    rw [readPrimary]
    rfl
  · rw [readPrimary]
    · rfl
    · rintro after rfl
      exact h rfl
    · rintro inside rfl
      exact hp ⟨inside, rfl⟩

/-- A bare name is slot zero of its region. -/
theorem given_readUnary_name {name : String} (hname : name ≠ "pi") {rest : List (Token N)}
    (hb : rest.head? ≠ some (.mark .leftBracket)) (hp : rest.head? ≠ some (.mark .leftParen)) :
    given (readUnary (.identifier name :: rest)) = .ok (address ⟨name, 0⟩, rest) := by
  rw [readUnary_identifier, readPrimary]
  · rw [if_neg hname]
    rfl
  · rintro after rfl
    exact hb rfl
  · rintro inside rfl
    exact hp rfl

theorem given_readUnary_call {name : String} {f : MathFunction} (hf : MathFunction.ofName? name = some f)
    {inside rest : List (Token N)} {argument : Expr N}
    (h : given (readBinary 0 inside) = .ok (argument, .mark .rightParen :: rest)) :
    given (readUnary (.identifier name :: .mark .leftParen :: inside)) = .ok (call f argument, rest) := by
  obtain ⟨shorter, hr⟩ := eq_of_given h
  have hpi : name ≠ "pi" := by
    rintro rfl
    exact absurd hf (by decide +revert)
  rw [readUnary_identifier, readPrimary]
  simp only [if_neg hpi, hf, hr]
  rfl

theorem given_readUnary_parens {inside rest : List (Token N)} {e : Expr N}
    (h : given (readBinary 0 inside) = .ok (e, .mark .rightParen :: rest)) :
    given (readUnary (.mark .leftParen :: inside)) = .ok (e, rest) := by
  obtain ⟨shorter, hr⟩ := eq_of_given h
  have hu : readUnary (.mark .leftParen :: inside) = readPrimary (.mark .leftParen :: inside) := by
    rw [readUnary] <;> simp
  rw [hu, readPrimary, hr]
  rfl

end Readers

/-! ## Written tokens -/

section Writing

def signMark : Sign → Mark
  | .plus => .plus
  | .minus => .minus

def wrapTokens (needed : Bool) (tokens : List (Token N)) : List (Token N) :=
  if needed then .mark .leftParen :: tokens ++ [.mark .rightParen] else tokens

/-- The least precedence an operator behind an expression must not reach for the expression to end
there: four when there is no operator in it to continue. -/
def endsBelow : Expr N → Nat
  | binary op _ _ => op.rightLeast
  | _ => 4

variable [Scalar N]

def tokens : Expr N → List (Token N)
  | number v => literalTokens v
  | pi => [.identifier "pi"]
  | address slot =>
    [.identifier slot.name, .mark .leftBracket, .int slot.index, .mark .rightBracket]
  | call f argument => .identifier f.name :: .mark .leftParen :: argument.tokens ++ [.mark .rightParen]
  | signed sign operand => .mark (signMark sign) :: wrapTokens operand.needsWrapBehindSign operand.tokens
  | binary op left right =>
    wrapTokens (needsWrapLeft op left) left.tokens ++
      .mark op.mark :: wrapTokens (needsWrapRight op right) right.tokens

/-- The expression with what its literals read as in their places. -/
def reread : Expr N → Expr N
  | number v => number (QuilControl.reread v)
  | pi => pi
  | address slot => address slot
  | call f argument => call f argument.reread
  | signed sign operand => signed sign operand.reread
  | binary op left right => binary op left.reread right.reread

/-! ## Reading what is written -/

/-- In front of tokens that end the expression, its own tokens read as it, both as an operand with
its signs, when it is one, and as the left operand of what follows. -/
structure ReadsFrom (e : Expr N) : Prop where
  unary : ∀ rest, 4 ≤ e.strength → Ends 4 rest → given (readUnary (e.tokens ++ rest)) = .ok (e.reread, rest)
  binary : ∀ least rest, least ≤ e.strength → Ends e.endsBelow rest →
    given (readBinary least (e.tokens ++ rest)) = given (readOperators least e.reread rest)

namespace ReadsFrom

theorem whole {e : Expr N} (h : e.ReadsFrom) {least : Nat} (hl : least ≤ e.strength) {rest : List (Token N)}
    (hr : Ends e.endsBelow rest) (hl' : Ends least rest) :
    given (readBinary least (e.tokens ++ rest)) = .ok (e.reread, rest) := by
  rw [h.binary least rest hl hr, given_readOperators_of_stops hl'.stops]

/-- In parentheses an expression reads as an operand whatever follows. -/
theorem parens {e : Expr N} (h : e.ReadsFrom) (rest : List (Token N)) :
    given (readUnary (wrapTokens true e.tokens ++ rest)) = .ok (e.reread, rest) := by
  have hi : given (readBinary 0 (e.tokens ++ .mark .rightParen :: rest)) =
      .ok (e.reread, .mark .rightParen :: rest) :=
    h.whole (Nat.zero_le _) (ends_rightParen rest) (ends_rightParen rest)
  have happ : wrapTokens true e.tokens ++ rest =
      .mark .leftParen :: (e.tokens ++ .mark .rightParen :: rest) := by simp [wrapTokens]
  rw [happ, given_readUnary_parens hi]

/-- An expression without an operator at its head reads as one. -/
theorem of_unary {e : Expr N} (he : e.endsBelow = 4)
    (h : ∀ rest, Ends 4 rest → given (readUnary (e.tokens ++ rest)) = .ok (e.reread, rest)) :
    e.ReadsFrom where
  unary := fun rest _ => h rest
  binary := fun _ rest _ hr => given_readBinary (h rest (he ▸ hr))

/-- An operand with or without parentheses. -/
theorem operand {e : Expr N} (h : e.ReadsFrom) {wrapped : Bool} {least : Nat} {rest : List (Token N)}
    (hw : wrapped = false → least ≤ e.strength ∧ Ends e.endsBelow rest) :
    given (readBinary least (wrapTokens wrapped e.tokens ++ rest)) =
      given (readOperators least e.reread rest) := by
  cases wrapped with
  | true => exact given_readBinary (h.parens rest)
  | false => exact h.binary least rest (hw rfl).1 (hw rfl).2

end ReadsFrom

theorem readsFrom_number {v : N} (h : ReadsBack v) : (number v : Expr N).ReadsFrom := by
  refine ReadsFrom.of_unary rfl fun rest _ => ?_
  rcases literalTokens_cases h with ⟨t, ht, hn⟩ | ⟨t, x, ht, hn, hx⟩
  · rw [tokens, reread, ht]
    exact given_readUnary_number hn rest
  · rw [tokens, reread, ht, hx]
    exact given_readUnary_negative hn rest

theorem readsFrom_pi : (pi : Expr N).ReadsFrom :=
  ReadsFrom.of_unary rfl fun _ hr => given_readUnary_pi hr.head?_ne

theorem readsFrom_address (slot : MemoryReference) : (address slot : Expr N).ReadsFrom :=
  ReadsFrom.of_unary rfl fun rest _ => given_readUnary_slot slot.name slot.index rest

theorem readsFrom_call (f : MathFunction) {argument : Expr N} (h : argument.ReadsFrom) :
    (call f argument).ReadsFrom := by
  refine ReadsFrom.of_unary rfl fun rest _ => ?_
  have hi := h.whole (Nat.zero_le _) (ends_rightParen rest) (ends_rightParen rest)
  have happ : (call f argument).tokens ++ rest =
      .identifier f.name :: .mark .leftParen :: (argument.tokens ++ .mark .rightParen :: rest) := by
    simp [tokens]
  have hf : MathFunction.ofName? f.name = some f := by cases f <;> decide
  rw [happ]
  exact given_readUnary_call hf hi

/-- What stands behind a sign does not begin with a number. -/
theorem startsWithNumber_operand (e : Expr N) (rest : List (Token N)) :
    startsWithNumber (wrapTokens e.needsWrapBehindSign e.tokens ++ rest) = false := by
  unfold wrapTokens
  by_cases hw : e.needsWrapBehindSign = true
  · rw [if_pos hw]
    rfl
  · rw [if_neg hw]
    cases e with
    | number v => simp [needsWrapBehindSign, isNumber] at hw
    | pi | address | call | signed => rfl
    | binary op left right => cases op <;> simp [needsWrapBehindSign, strength, Operator.precedence] at hw

theorem readsFrom_signed (sign : Sign) {operand : Expr N} (h : operand.ReadsFrom) :
    (signed sign operand).ReadsFrom := by
  refine ReadsFrom.of_unary rfl fun rest hr => ?_
  have hu : given (readUnary (wrapTokens operand.needsWrapBehindSign operand.tokens ++ rest)) =
      .ok (operand.reread, rest) := by
    by_cases hw : operand.needsWrapBehindSign = true
    · rw [hw]
      exact h.parens rest
    · have hs : 4 ≤ operand.strength := by
        simp only [needsWrapBehindSign, Bool.or_eq_true, decide_eq_true_eq, not_or, Nat.not_lt] at hw
        exact hw.1
      rw [Bool.eq_false_iff.2 hw]
      exact h.unary rest hs hr
  cases sign with
  | plus => exact given_readUnary_plus hu
  | minus => exact given_readUnary_minus (startsWithNumber_operand operand rest) hu

/-- An operator behind a left operand without parentheses ends it. -/
theorem ends_left {op : Operator} {left : Expr N} (h : needsWrapLeft op left = false)
    (rest : List (Token N)) : Ends left.endsBelow (.mark op.mark :: rest) := by
  refine ends_operator ?_ rest
  cases left with
  | binary op' l r =>
    cases op <;> cases op' <;>
      simp_all [needsWrapLeft, strength, endsBelow, Operator.precedence, Operator.rightLeast,
        Operator.groupsRight]
  | number | pi | address | call | signed => exact op.precedence_lt_four

/-- What ends an operation ends its right operand without parentheses. -/
theorem ends_right {op : Operator} {right : Expr N} (h : needsWrapRight op right = false)
    {rest : List (Token N)} (hr : Ends op.rightLeast rest) : Ends right.endsBelow rest := by
  refine hr.mono ?_
  cases right with
  | binary op' l r =>
    cases op <;> cases op' <;>
      simp_all [needsWrapRight, strength, endsBelow, Operator.precedence, Operator.rightLeast,
        Operator.groupsRight]
  | number | pi | address | call | signed => exact op.rightLeast_le_four

theorem le_strength_left {op : Operator} {left : Expr N} (h : needsWrapLeft op left = false) :
    op.precedence ≤ left.strength := by
  unfold needsWrapLeft at h
  split at h <;> simp only [decide_eq_false_iff_not] at h <;> omega

theorem le_strength_right {op : Operator} {right : Expr N} (h : needsWrapRight op right = false) :
    op.rightLeast ≤ right.strength := by
  unfold needsWrapRight at h
  unfold Operator.rightLeast
  split at h <;> simp_all only [decide_eq_false_iff_not, if_true, Bool.false_eq_true, if_false] <;> omega

theorem readsFrom_binary (op : Operator) {left right : Expr N} (hl : left.ReadsFrom) (hr : right.ReadsFrom) :
    (Expr.binary op left right).ReadsFrom where
  unary := by
    intro rest hs
    cases op <;> simp [strength, Operator.precedence] at hs
  binary := by
    intro least rest hleast hrest
    have hright : given (readBinary op.rightLeast
        (wrapTokens (needsWrapRight op right) right.tokens ++ rest)) = .ok (right.reread, rest) := by
      rw [hr.operand fun hw => ⟨le_strength_right hw, ends_right hw hrest⟩]
      exact given_readOperators_of_stops hrest.stops
    have happ : (Expr.binary op left right).tokens ++ rest =
        wrapTokens (needsWrapLeft op left) left.tokens ++
          .mark op.mark :: (wrapTokens (needsWrapRight op right) right.tokens ++ rest) := by simp [tokens]
    rw [happ, hl.operand fun hw => ⟨Nat.le_trans hleast (le_strength_left hw), ends_left hw _⟩]
    exact given_readOperators hleast hright

/-- The tokens of an expression read as it wherever the expression ends. -/
theorem readsFrom {P : MemoryReference → Prop} {e : Expr N} (h : e.MadeOf P ReadsBack) : e.ReadsFrom := by
  induction e with
  | number v => exact readsFrom_number h
  | pi => exact readsFrom_pi
  | address slot => exact readsFrom_address slot
  | call f argument ih => exact readsFrom_call f (ih h)
  | signed sign operand ih => exact readsFrom_signed sign (ih h)
  | binary op left right ihl ihr => exact readsFrom_binary op (ihl h.1) (ihr h.2)

end Writing

end Expr

end QuilControl
