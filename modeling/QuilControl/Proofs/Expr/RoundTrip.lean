import QuilControl.Proofs.Expr.Slot

/-!
# Expressions read back

The text of an expression spells its tokens, in front of anything that cannot continue its last
word (`Expr.spells`), and its tokens read as it. So the text of an expression is an expression
again, and the same one: literals are equal as numbers.
-/

namespace QuilControl

variable {N : Type} [Scalar N]

namespace Expr

/-- Texts that do not continue the last word of a text: a number, or a name when the text ends with
a letter. -/
def breaks (text rest : List Char) : Prop :=
  breaksNumber rest ∧ (endsWithLetter text = true → breaksName rest)

theorem breaks_nil (text : List Char) : breaks text [] := ⟨breaksNumber_nil, fun _ => breaksName_nil⟩

theorem breaks_cons {text rest : List Char} {c : Char} (hc : isNameChar c = false) (hmark : c ≠ '.' ∧ c ≠ '-') :
    breaks text (c :: rest) :=
  ⟨breaksNumber_cons.2 ⟨hc, hmark.1⟩, fun _ => breaksName_cons.2 ⟨hc, hmark.2⟩⟩

/-- Names have the form of identifiers, and literals read back. -/
abbrev Legible (e : Expr N) : Prop := e.MadeOf (fun r => isIdentifier r.name.toList = true) ReadsBack

theorem endsWithLetter_append {a b : List Char} (h : b ≠ []) : endsWithLetter (a ++ b) = endsWithLetter b := by
  unfold endsWithLetter
  rw [List.getLast?_append, List.getLast?_eq_some_getLast h]
  rfl

theorem wrap_ne_nil {text : List Char} (h : text ≠ []) (wrapped : Bool) : wrap wrapped text ≠ [] := by
  cases wrapped with
  | true => simp [wrap]
  | false => exact h

theorem literal_ne_nil {v : N} (h : ReadsBack v) : Scalar.literal v ≠ [] := by
  obtain ⟨w, hw, -⟩ := h
  intro hnil
  rw [literalValue?, hnil, pieces_nil] at hw
  cases hw

theorem chars_ne_nil {e : Expr N} (h : e.Legible) : e.chars ≠ [] := by
  cases e with
  | number v => exact literal_ne_nil h
  | pi | address | call | signed | binary => simp [chars, MemoryReference.chars]

/-! ## From text to tokens -/

/-- Parentheses spell themselves. -/
theorem spells_wrap {text : List Char} {ts : List (Token N)} (h : Spells (breaks text) text ts)
    (wrapped : Bool) :
    Spells (breaks (wrap wrapped text)) (wrap wrapped text) (wrapTokens wrapped ts) := by
  cases wrapped with
  | false => exact h
  | true =>
    have hclose : Spells (N := N) anyText (text ++ [Mark.rightParen.char]) (ts ++ [.mark .rightParen]) :=
      h.append (spells_mark .rightParen) fun _ _ =>
        breaks_cons (by decide) (by decide)
    exact ((spells_mark .leftParen).append hclose fun _ _ => trivial).mono fun _ _ => trivial

/-- An operator between two texts, with a blank in front of a minus behind a letter. -/
theorem spells_binary (op : Operator) {l r : List Char} {ts us : List (Token N)}
    (hl : Spells (breaks l) l ts) (hr : Spells (breaks r) r us) :
    Spells (breaks r) (l ++ (if op = .minus && endsWithLetter l then [' '] else []) ++ op.mark.char :: r)
      (ts ++ .mark op.mark :: us) := by
  have hop : Spells (breaks r) ([op.mark.char] ++ r) ([.mark op.mark] ++ us) :=
    (spells_mark op.mark).append hr fun _ _ => trivial
  by_cases hgap : (op = .minus && endsWithLetter l) = true
  · rw [if_pos hgap, List.append_assoc]
    have hblank := (spells_blank (N := N)).append hop fun _ _ => trivial
    exact hl.append hblank fun _ _ => breaks_cons (by decide) (by decide)
  · rw [if_neg hgap, List.append_nil]
    refine hl.append hop fun rest _ => ⟨breaksNumber_cons.2 ?_, fun hletter => breaksName_cons.2 ?_⟩
    · cases op <;> decide
    · have hminus : op ≠ .minus := by
        rintro rfl
        exact hgap (by rw [hletter]; rfl)
      cases op with
      | minus => exact absurd rfl hminus
      | plus | times | «over» | power => decide

/-- The text of an expression spells its tokens. -/
theorem spells (e : Expr N) (h : e.Legible) : Spells (breaks e.chars) e.chars e.tokens := by
  induction e with
  | number v => exact (spells_literal h).mono fun _ hr => hr.1
  | pi =>
    have hpi := spells_identifier (N := N) (show isIdentifier "pi".toList = true by decide)
    exact hpi.mono fun _ hr => hr.2 rfl
  | address slot => exact (slot.writtenAs_chars.spells h).mono fun _ _ => trivial
  | call f argument ih =>
    have hname := spells_identifier (N := N) (show isIdentifier f.name.toList = true by cases f <;> decide)
    have hinside := spells_wrap (ih h) true
    have hall := hname.append hinside fun rest _ => breaksName_cons.2 (by decide)
    rw [chars, tokens, List.append_assoc]
    refine hall.mono fun rest hr => ⟨hr.1, fun hletter => ?_⟩
    rw [wrap, if_pos rfl, endsWithLetter_append (List.cons_ne_nil _ _)] at hletter
    exact absurd hletter (by decide)
  | signed sign operand ih =>
    have hoperand : operand.Legible := h
    have hinside := spells_wrap (ih hoperand) operand.needsWrapBehindSign
    have hne := wrap_ne_nil (chars_ne_nil hoperand) operand.needsWrapBehindSign
    have hchar : signChar sign = (signMark sign).char := by cases sign <;> rfl
    have hall := (spells_mark (signMark sign)).append hinside fun _ _ => trivial
    rw [chars, tokens, hchar]
    refine hall.mono fun rest hr => ⟨hr.1, fun hletter => hr.2 ?_⟩
    rw [← List.singleton_append, endsWithLetter_append hne]
    exact hletter
  | binary op left right ihl ihr =>
    obtain ⟨hleft, hright⟩ := h
    have hall := spells_binary op (spells_wrap (ihl hleft) (needsWrapLeft op left))
      (spells_wrap (ihr hright) (needsWrapRight op right))
    refine hall.mono fun rest hr => ⟨hr.1, fun hletter => hr.2 ?_⟩
    have hne := wrap_ne_nil (chars_ne_nil hright) (needsWrapRight op right)
    rw [chars, endsWithLetter_append (List.cons_ne_nil _ _), ← List.singleton_append,
      endsWithLetter_append hne]
    exact hletter

/-! ## From tokens to the expression -/

/-- Literals that read back read as equal ones. -/
theorem same_reread {P : MemoryReference → Prop} {e : Expr N} (h : e.MadeOf P ReadsBack) :
    e.reread.same e = true := by
  induction e with
  | number v => exact ReadsBack.beq h
  | pi => rfl
  | address slot => simp [reread, same]
  | call f argument ih => simp [reread, same, ih h]
  | signed sign operand ih => simp [reread, same, ih h]
  | binary op left right ihl ihr => simp [reread, same, ihl h.1, ihr h.2]

/-- The text of a legible expression reads as it, with what its literals read as in their places. -/
theorem ofText_text_eq_reread {e : Expr N} (h : e.Legible) : ofText e.text = .ok e.reread := by
  have htokens := (e.spells h).statementTokens (breaks_nil _) 1
  have hread : given (readBinary 0 e.tokens) = .ok (e.reread, []) := by
    have := (readsFrom h).whole (Nat.zero_le _) (ends_nil (N := N)) ends_nil
    rwa [List.append_nil] at this
  obtain ⟨shorter, hr⟩ := eq_of_given hread
  have hof : ofTokens e.tokens = .ok e.reread := by
    unfold ofTokens
    rw [hr]
  unfold ofText text
  rw [String.toList_ofList, htokens]
  simp only [hof]

/-- **Written expressions read back.** If numbers that are finite read back, then the text of an
expression with identifiers for names and finite literals is an expression, and the same one. -/
theorem ofText_text (law : ∀ v : N, Scalar.isFinite v = true → ReadsBack v) (e : Expr N)
    (names : ∀ r ∈ e.references, isIdentifier r.name.toList = true)
    (finite : ∀ v ∈ e.literals, Scalar.isFinite v = true) :
    ∃ e', ofText e.text = .ok e' ∧ (e' == e) = true := by
  have hlegible : e.Legible := madeOf_iff.2 ⟨names, fun v hv => law v (finite v hv)⟩
  exact ⟨e.reread, ofText_text_eq_reread hlegible, same_reread hlegible⟩

/-- The text `pi*theta-x[1]--2^-(7)` reads back, over the whole numbers. -/
theorem ofText_text_whole :
    let slot : Expr Whole := address ⟨"theta-x", 1⟩
    let e := pi * slot - binary .power (number ⟨-2⟩) (-number ⟨7⟩)
    ∃ e', ofText e.text = .ok e' ∧ (e' == e) = true :=
  ofText_text Whole.readsBack _ (by decide) (by decide)

end Expr

end QuilControl
