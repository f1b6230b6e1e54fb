import QuilControl.Proofs.Expr.Climbing

/-!
# The grammar of expressions

The grammar has one part for each precedence. A sum is made of products, a product of powers, and a power of
operands with their signs; sums and products group to the left, powers to the right. `Derives` relates the
tokens of a part to its tree, and says what follows: a bare name must not be followed by a bracket.

Reading climbs the precedences instead, with one loop for all operators. It finds a tree exactly when the
grammar has it (`ofTokens_eq_ok_iff`), so a list of tokens has at most one tree. In the one direction the loop
keeps what the operand on its left was derived as (`Stands`); in the other a derivation is read on behind, as
long as no operator follows that would be part of it (`Reads`).
-/

namespace QuilControl

/-- The least precedence of an operator that may stand in the left operand without parentheses. -/
def Operator.leftLeast (op : Operator) : Nat := if op.groupsRight then op.precedence + 1 else op.precedence

theorem Operator.leftLeast_le {op op' : Operator} (h : op'.precedence < op.rightLeast) :
    op'.leftLeast ≤ op.precedence := by
  revert h
  cases op <;> cases op' <;> decide

namespace Expr

/-- The parts of the grammar, from the loosest to the tightest. -/
inductive Part where
  | sum | product | power | unary | atom

variable {N : Type} [Scalar N]

/-- The tokens begin with a part of the grammar that has the tree, and the last tokens follow it. -/
inductive Derives : Part → List (Token N) → Expr N → List (Token N) → Prop
  | product {ts rest : List (Token N)} {e : Expr N} (h : Derives .product ts e rest) : Derives .sum ts e rest
  /-- A sum, a plus or minus, and a product. -/
  | add {op : Operator} {ts us rest : List (Token N)} {l r : Expr N} (hop : op = .plus ∨ op = .minus)
    (hl : Derives .sum ts l (.mark op.mark :: us)) (hr : Derives .product us r rest) :
    Derives .sum ts (.binary op l r) rest
  | power {ts rest : List (Token N)} {e : Expr N} (h : Derives .power ts e rest) : Derives .product ts e rest
  /-- A product, a star or slash, and a power. -/
  | multiply {op : Operator} {ts us rest : List (Token N)} {l r : Expr N} (hop : op = .times ∨ op = .over)
    (hl : Derives .product ts l (.mark op.mark :: us)) (hr : Derives .power us r rest) :
    Derives .product ts (.binary op l r) rest
  | unary {ts rest : List (Token N)} {e : Expr N} (h : Derives .unary ts e rest) : Derives .power ts e rest
  /-- An operand, a caret, and a power. -/
  | raise {ts us rest : List (Token N)} {l r : Expr N} (hl : Derives .unary ts l (.mark .caret :: us))
    (hr : Derives .power us r rest) : Derives .power ts (.binary .power l r) rest
  /-- A minus and a number are one negative literal. -/
  | negative {t : Token N} {x : N} (ht : t.number? = some x) (rest : List (Token N)) :
    Derives .unary (.mark .minus :: t :: rest) (.number (Scalar.neg x)) rest
  | minus {ts rest : List (Token N)} {e : Expr N} (hn : startsWithNumber ts = false)
    (h : Derives .unary ts e rest) : Derives .unary (.mark .minus :: ts) (.signed .minus e) rest
  | plus {ts rest : List (Token N)} {e : Expr N} (h : Derives .unary ts e rest) :
    Derives .unary (.mark .plus :: ts) (.signed .plus e) rest
  | atom {ts rest : List (Token N)} {e : Expr N} (h : Derives .atom ts e rest) : Derives .unary ts e rest
  | number {t : Token N} {x : N} (ht : t.number? = some x) (rest : List (Token N)) :
    Derives .atom (t :: rest) (.number x) rest
  | slot (name : String) (index : UInt64) (rest : List (Token N)) :
    Derives .atom (.identifier name :: .mark .leftBracket :: .int index :: .mark .rightBracket :: rest)
      (.address ⟨name, index⟩) rest
  | pi {rest : List (Token N)} (hb : rest.head? ≠ some (.mark .leftBracket)) :
    Derives .atom (.identifier "pi" :: rest) .pi rest
  | call {name : String} {f : MathFunction} {inside rest : List (Token N)} {e : Expr N}
    (hf : MathFunction.ofName? name = some f) (h : Derives .sum inside e (.mark .rightParen :: rest)) :
    Derives .atom (.identifier name :: .mark .leftParen :: inside) (.call f e) rest
  /-- A bare name is slot zero of its region. -/
  | name {name : String} {rest : List (Token N)} (hname : name ≠ "pi")
    (hb : rest.head? ≠ some (.mark .leftBracket)) (hp : rest.head? ≠ some (.mark .leftParen)) :
    Derives .atom (.identifier name :: rest) (.address ⟨name, 0⟩) rest
  | parens {inside rest : List (Token N)} {e : Expr N} (h : Derives .sum inside e (.mark .rightParen :: rest)) :
    Derives .atom (.mark .leftParen :: inside) e rest

/-! ## What the grammar derives is read -/

/-- The precedence of the operators of a part. -/
def Part.precedence : Part → Nat
  | sum => 1
  | product => 2
  | power => 3
  | unary | atom => 4

/-- The least precedence of an operator that would continue a part. -/
def Part.rightLeast : Part → Nat
  | sum => 2
  | product | power => 3
  | unary | atom => 4

/-- An operand is read whatever follows. Any other part is read as the left operand of what follows, unless
an operator follows that would continue it. -/
def Reads (part : Part) (ts : List (Token N)) (e : Expr N) (rest : List (Token N)) : Prop :=
  match part with
  | .unary | .atom => given (readUnary ts) = .ok (e, rest)
  | .sum | .product | .power => ∀ least ≤ part.precedence, Stops part.rightLeast rest →
    given (readBinary least ts) = given (readOperators least e rest)

omit [Scalar N] in
theorem stops_operator {least : Nat} {op : Operator} (h : op.precedence < least) (rest : List (Token N)) :
    Stops least (.mark op.mark :: rest) := (ends_operator h rest).stops

/-- An operator behind its left operand, and its right operand. -/
theorem given_readBinary_operator (op : Operator) {least : Nat} {ts us rest : List (Token N)} {l r : Expr N}
    (hleast : least ≤ op.precedence)
    (hl : given (readBinary least ts) = given (readOperators least l (.mark op.mark :: us)))
    (hr : given (readBinary op.rightLeast us) = given (readOperators op.rightLeast r rest))
    (hs : Stops op.rightLeast rest) :
    given (readBinary least ts) = given (readOperators least (binary op l r) rest) := by
  rw [given_readOperators_of_stops hs] at hr
  rw [hl, given_readOperators hleast hr]

theorem Derives.reads {part : Part} {ts rest : List (Token N)} {e : Expr N} (h : Derives part ts e rest) :
    Reads part ts e rest := by
  have inside {ts rest : List (Token N)} {e : Expr N} (h : Reads .sum ts e (.mark .rightParen :: rest)) :
      given (readBinary 0 ts) = .ok (e, .mark .rightParen :: rest) := by
    have hstops {least : Nat} : Stops least (.mark .rightParen :: rest) := (ends_rightParen rest).stops
    rw [h 0 (Nat.zero_le _) hstops, given_readOperators_of_stops hstops]
  induction h with
  | product _ ih => exact fun least hleast hs => ih least (Nat.le_succ_of_le hleast) (hs.mono (by decide))
  | power _ ih => exact fun least hleast hs => ih least (Nat.le_succ_of_le hleast) hs
  | unary _ ih => exact fun least _ _ => given_readBinary ih
  | @add op _ _ _ _ _ hop _ _ ihl ihr =>
    intro least hleast hs
    have hl : op.precedence = 1 ∧ op.rightLeast = 2 := by rcases hop with rfl | rfl <;> exact ⟨rfl, rfl⟩
    refine given_readBinary_operator op (hl.1 ▸ hleast) (ihl least hleast (stops_operator ?_ _)) ?_ (hl.2 ▸ hs)
    · rw [hl.1]
      decide
    · rw [hl.2]
      exact ihr 2 (Nat.le_refl _) (hs.mono (by decide))
  | @multiply op _ _ _ _ _ hop _ _ ihl ihr =>
    intro least hleast hs
    have hl : op.precedence = 2 ∧ op.rightLeast = 3 := by rcases hop with rfl | rfl <;> exact ⟨rfl, rfl⟩
    refine given_readBinary_operator op (hl.1 ▸ hleast) (ihl least hleast (stops_operator ?_ _)) ?_ (hl.2 ▸ hs)
    · rw [hl.1]
      decide
    · rw [hl.2]
      exact ihr 3 (Nat.le_refl _) hs
  | raise _ _ ihl ihr =>
    intro least hleast hs
    exact given_readBinary_operator .power hleast (given_readBinary ihl) (ihr 3 (Nat.le_refl _) hs) hs
  | negative ht rest => exact given_readUnary_negative ht rest
  | minus hn _ ih => exact given_readUnary_minus hn ih
  | plus _ ih => exact given_readUnary_plus ih
  | atom _ ih => exact ih
  | number ht rest => exact given_readUnary_number ht rest
  | slot name index rest => exact given_readUnary_slot name index rest
  | pi hb => exact given_readUnary_pi hb
  | call hf _ ih => exact given_readUnary_call hf (inside ih)
  | name hname hb hp => exact given_readUnary_name hname hb hp
  | parens _ ih => exact given_readUnary_parens (inside ih)

/-! ## What is read is derived -/

/-- The part of the grammar whose operators have at least the precedence `least`. -/
def Part.ofLeast : Nat → Part
  | 0 | 1 => sum
  | 2 => product
  | 3 => power
  | _ => unary

theorem Derives.loosen {least least' : Nat} {ts rest : List (Token N)} {e : Expr N}
    (h : Derives (.ofLeast least') ts e rest) (hl : least ≤ least') : Derives (.ofLeast least) ts e rest := by
  induction hl with
  | refl => exact h
  | @step k _ ih =>
    refine ih ?_
    match k with
    | 0 => exact h
    | 1 => exact .product h
    | 2 => exact .power h
    | 3 => exact .unary h
    | _ + 4 => exact h

/-- The rules for operators as one rule. -/
theorem Derives.operator {op : Operator} {ts us rest : List (Token N)} {l r : Expr N}
    (hl : Derives (.ofLeast op.leftLeast) ts l (.mark op.mark :: us))
    (hr : Derives (.ofLeast op.rightLeast) us r rest) :
    Derives (.ofLeast op.precedence) ts (.binary op l r) rest := by
  cases op with
  | plus => exact .add (.inl rfl) hl hr
  | minus => exact .add (.inr rfl) hl hr
  | times => exact .multiply (.inl rfl) hl hr
  | «over» => exact .multiply (.inr rfl) hl hr
  | power => exact .raise hl hr

theorem Derives.ofLeast {ts rest : List (Token N)} {e : Expr N} (h : Derives .unary ts e rest) (least : Nat) :
    Derives (.ofLeast least) ts e rest := by
  match least with
  | 0 | 1 => exact .product (.power (.unary h))
  | 2 => exact .power (.unary h)
  | 3 => exact .unary h
  | _ + 4 => exact h

/-- What the operand on the left of an operator was derived as: an operand with its signs, or an operation
that nothing that follows would continue. -/
def Stands (least : Nat) (ts : List (Token N)) (e : Expr N) (rest : List (Token N)) : Prop :=
  Derives .unary ts e rest ∨
    ∃ op : Operator, least ≤ op.precedence ∧ Derives (.ofLeast op.precedence) ts e rest ∧ Stops op.rightLeast rest

theorem Stands.derives {least : Nat} {ts rest : List (Token N)} {e : Expr N} (h : Stands least ts e rest) :
    Derives (.ofLeast least) ts e rest := by
  rcases h with h | ⟨op, hop, h, -⟩
  · exact h.ofLeast least
  · exact h.loosen hop

/-- An operator that follows may stand behind the operand. -/
theorem Stands.left {least : Nat} {op : Operator} {ts us : List (Token N)} {e : Expr N}
    (h : Stands least ts e (.mark op.mark :: us)) : Derives (.ofLeast op.leftLeast) ts e (.mark op.mark :: us) := by
  rcases h with h | ⟨op', -, h, hs⟩
  · exact h.ofLeast _
  · exact h.loosen (Operator.leftLeast_le (hs op rfl))

/-- The readers read what the grammar derives while their measure is below `k`. -/
structure ReadersDerive (N : Type) [Scalar N] (k : Nat) : Prop where
  binary : ∀ (least : Nat) (tokens : List (Token N)) (r : Parsed N (Expr N) tokens.length),
    3 * tokens.length + 2 < k → readBinary least tokens = .ok r →
      Derives (.ofLeast least) tokens r.value r.rest ∧ Stops least r.rest
  operators : ∀ (least : Nat) (start : List (Token N)) (left : Expr N) (tokens : List (Token N))
    (r : Parsed N (Expr N) (tokens.length + 1)), 3 * tokens.length < k → Stands least start left tokens →
      readOperators least left tokens = .ok r → Derives (.ofLeast least) start r.value r.rest ∧ Stops least r.rest
  unary : ∀ (tokens : List (Token N)) (r : Parsed N (Expr N) tokens.length), 3 * tokens.length + 1 < k →
    readUnary tokens = .ok r → Derives .unary tokens r.value r.rest
  primary : ∀ (tokens : List (Token N)) (r : Parsed N (Expr N) tokens.length), 3 * tokens.length < k →
    readPrimary tokens = .ok r → Derives .atom tokens r.value r.rest

section Steps

variable {k : Nat} (ih : ReadersDerive N k)

include ih

theorem readBinary_derives {least : Nat} {tokens : List (Token N)} {r : Parsed N (Expr N) tokens.length}
    (hk : 3 * tokens.length + 2 < k + 1) (h : readBinary least tokens = .ok r) :
    Derives (.ofLeast least) tokens r.value r.rest ∧ Stops least r.rest := by
  unfold readBinary at h
  split at h
  · cases h
  · next left hleft =>
    have hshort := left.shorter
    have hunary := ih.unary tokens left (by omega) hleft
    split at h
    · cases h
    · next all hall =>
      cases h
      exact ih.operators least tokens left.value left.rest all (by omega) (.inl hunary) hall

theorem readOperators_derives {least : Nat} {start : List (Token N)} {left : Expr N} {tokens : List (Token N)}
    {r : Parsed N (Expr N) (tokens.length + 1)} (hk : 3 * tokens.length < k + 1)
    (hl : Stands least start left tokens) (h : readOperators least left tokens = .ok r) :
    Derives (.ofLeast least) start r.value r.rest ∧ Stops least r.rest := by
  unfold readOperators at h
  split at h
  · next m after =>
    simp only [List.length_cons] at hk
    split at h
    · next hm =>
      cases h
      refine ⟨hl.derives, fun op hop => ?_⟩
      cases hop
      rw [op.ofMark?_mark] at hm
      cases hm
    · next op hm =>
      obtain rfl := Operator.mark_of_ofMark? hm
      split at h
      · next hlt =>
        cases h
        exact ⟨hl.derives, stops_operator hlt after⟩
      · next hle =>
        split at h
        · cases h
        · next right hright =>
          have hshort := right.shorter
          obtain ⟨hderives, hstops⟩ := ih.binary op.rightLeast after right (by omega) hright
          split at h
          · cases h
          · next all hall =>
            cases h
            have hboth : Stands least start (binary op left right.value) right.rest :=
              .inr ⟨op, Nat.not_lt.1 hle, .operator hl.left hderives, hstops⟩
            exact ih.operators least start _ right.rest all (by omega) hboth hall
  · next hne =>
    cases h
    refine ⟨hl.derives, fun op hop => ?_⟩
    obtain ⟨after, rfl⟩ := List.head?_eq_some_iff.1 hop
    exact absurd rfl (hne _ _)

theorem readUnary_derives {tokens : List (Token N)} {r : Parsed N (Expr N) tokens.length}
    (hk : 3 * tokens.length + 1 < k + 1) (h : readUnary tokens = .ok r) :
    Derives .unary tokens r.value r.rest := by
  unfold readUnary at h
  split at h
  · cases h
    exact .negative rfl _
  · cases h
    exact .negative rfl _
  · next after hint hfloat =>
    simp only [List.length_cons] at hk
    split at h
    · cases h
    · next operand hoperand =>
      cases h
      refine .minus ?_ (ih.unary after operand (by omega) hoperand)
      cases after with
      | nil => rfl
      | cons t after =>
        cases t with
        | int value => exact absurd rfl (hint value after)
        | float value => exact absurd rfl (hfloat value after)
        | string | identifier | mark => rfl
  · next after =>
    simp only [List.length_cons] at hk
    split at h
    · cases h
    · next operand hoperand =>
      cases h
      exact .plus (ih.unary after operand (by omega) hoperand)
  · exact .atom (ih.primary tokens r (by omega) h)

theorem readPrimary_derives {tokens : List (Token N)} {r : Parsed N (Expr N) tokens.length}
    (hk : 3 * tokens.length < k + 1) (h : readPrimary tokens = .ok r) :
    Derives .atom tokens r.value r.rest := by
  have inside {ts : List (Token N)} {r : Parsed N (Expr N) ts.length} {rest : List (Token N)}
      (hk : 3 * ts.length + 2 < k) (h : readBinary 0 ts = .ok r) (hr : r.rest = .mark .rightParen :: rest) :
      Derives .sum ts r.value (.mark .rightParen :: rest) := hr ▸ (ih.binary 0 ts r hk h).1
  have head_ne {m : Mark} {ts : List (Token N)} (h : ∀ after, ts = .mark m :: after → False) :
      ts.head? ≠ some (.mark m) := fun hm => (List.head?_eq_some_iff.1 hm).elim h
  unfold readPrimary at h
  split at h
  · cases h
    exact .number rfl _
  · cases h
    exact .number rfl _
  · split at h
    · cases h
    · next index hindex =>
      cases h
      unfold readIndex at hindex
      split at hindex
      · cases hindex
        exact .slot _ _ _
      · cases hindex
      · cases hindex
  · next name after hbracket =>
    split at h
    · next hname =>
      cases h
      rw [hname]
      exact .pi (head_ne hbracket)
    · next hname =>
      split at h
      · next within _ =>
        simp only [List.length_cons] at hk
        split at h
        · cases h
        · next f hf =>
          split at h
          · cases h
          · next argument hargument =>
            split at h
            · next rest hr =>
              cases h
              exact .call hf (inside (by omega) hargument hr)
            · cases h
      · next hparen =>
        cases h
        exact .name hname (head_ne hbracket) (head_ne hparen)
  · next within =>
    simp only [List.length_cons] at hk
    split at h
    · cases h
    · next grouped hgrouped =>
      split at h
      · next rest hr =>
        cases h
        exact .parens (inside (by omega) hgrouped hr)
      · cases h
  · cases h

end Steps

theorem readersDerive (k : Nat) : ReadersDerive N k := by
  induction k with
  | zero =>
    constructor
    · intro least tokens r hk; omega
    · intro least start left tokens r hk; omega
    · intro tokens r hk; omega
    · intro tokens r hk; omega
  | succ k ih =>
    constructor
    · intro least tokens r hk h
      exact readBinary_derives ih hk h
    · intro least start left tokens r hk hl h
      exact readOperators_derives ih hk hl h
    · intro tokens r hk h
      exact readUnary_derives ih hk h
    · intro tokens r hk h
      exact readPrimary_derives ih hk h

/-- What is read is the part of the grammar with the operators that may be read. -/
theorem derives_of_readBinary {least : Nat} {tokens : List (Token N)} {r : Parsed N (Expr N) tokens.length}
    (h : readBinary least tokens = .ok r) : Derives (.ofLeast least) tokens r.value r.rest :=
  ((readersDerive (3 * tokens.length + 3)).binary least tokens r (by omega) h).1

/-! ## What a tree is made of -/

/-- The tokens that follow are the end of the tokens. -/
theorem Derives.suffix {part : Part} {ts rest : List (Token N)} {e : Expr N} (h : Derives part ts e rest) :
    rest <:+ ts := by
  induction h with
  | product _ ih | power _ ih | unary _ ih | atom _ ih => exact ih
  | add _ _ _ ihl ihr | multiply _ _ _ ihl ihr | raise _ _ ihl ihr =>
    exact ihr.trans ((List.suffix_cons _ _).trans ihl)
  | minus _ _ ih | plus _ ih => exact ih.trans (List.suffix_cons _ _)
  | negative _ rest => exact ⟨[_, _], rfl⟩
  | slot _ _ rest => exact ⟨[_, _, _, _], rfl⟩
  | number | pi | name => exact List.suffix_cons _ _
  | call _ _ ih =>
    exact (List.suffix_cons _ _).trans (ih.trans ((List.suffix_cons _ _).trans (List.suffix_cons _ _)))
  | parens _ ih => exact (List.suffix_cons _ _).trans (ih.trans (List.suffix_cons _ _))

/-- The names of a tree are identifiers of its tokens, and its literals are numbers of its tokens or their
negations. -/
theorem Derives.madeOf {P : MemoryReference → Prop} {Q : N → Prop} {part : Part} {ts rest : List (Token N)}
    {e : Expr N} (h : Derives part ts e rest)
    (names : ∀ name, Token.identifier name ∈ ts → ∀ index, P ⟨name, index⟩)
    (numbers : ∀ t ∈ ts, ∀ x, t.number? = some x → Q x ∧ Q (Scalar.neg x)) : e.MadeOf P Q := by
  induction h with
  | product _ ih | power _ ih | unary _ ih | atom _ ih => exact ih names numbers
  | add _ hl _ ihl ihr | multiply _ hl _ ihl ihr | raise hl _ ihl ihr =>
    have hsub := ((List.suffix_cons _ _).trans hl.suffix).subset
    exact ⟨ihl names numbers, ihr (fun name h => names name (hsub h)) fun t ht => numbers t (hsub ht)⟩
  | minus _ _ ih | plus _ ih | parens _ ih =>
    exact ih (fun name h => names name (.tail _ h)) fun t ht => numbers t (.tail _ ht)
  | call _ _ ih =>
    exact ih (fun name h => names name (.tail _ (.tail _ h))) fun t ht => numbers t (.tail _ (.tail _ ht))
  | negative ht rest => exact (numbers _ (.tail _ (.head _)) _ ht).2
  | number ht rest => exact (numbers _ (.head _) _ ht).1
  | slot name index rest => exact names name (.head _) index
  | pi => trivial
  | name => exact names _ (.head _) 0

/-! ## A whole list of tokens -/

theorem ofTokens_of_derives {tokens : List (Token N)} {e : Expr N} (h : Derives .sum tokens e []) :
    ofTokens tokens = .ok e := by
  have hread : given (readBinary 0 tokens) = .ok (e, []) := by
    rw [h.reads 0 (Nat.zero_le _) ends_nil.stops, given_readOperators_of_stops ends_nil.stops]
  obtain ⟨shorter, hr⟩ := eq_of_given hread
  unfold ofTokens
  rw [hr]

theorem derives_of_ofTokens {tokens : List (Token N)} {e : Expr N} (h : ofTokens tokens = .ok e) :
    Derives .sum tokens e [] := by
  unfold ofTokens at h
  split at h
  · cases h
  · next read hread =>
    split at h
    · next hrest =>
      cases h
      exact hrest ▸ derives_of_readBinary hread
    · cases h

/-- **Reading by precedence is the grammar.** The tokens of an expression are those that the grammar has a
tree for, the tree is the expression, and there is only one. -/
theorem ofTokens_eq_ok_iff (tokens : List (Token N)) :
    (∀ e, ofTokens tokens = .ok e ↔ Derives .sum tokens e []) ∧
      ∀ e e', Derives .sum tokens e [] → Derives .sum tokens e' [] → e = e' := by
  refine ⟨fun e => ⟨derives_of_ofTokens, ofTokens_of_derives⟩, fun e e' h h' => ?_⟩
  have hread := ofTokens_of_derives h
  rw [ofTokens_of_derives h'] at hread
  cases hread
  rfl

end Expr

end QuilControl
