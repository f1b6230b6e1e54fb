import QuilControl.Proofs.Instruction.Legible

/-!
# Phrases and sentences

A phrase is a text on one line that spells its tokens in front of a blank or the end, and does not
end with white space. Words are phrases, and phrases with blanks between them are one. A sentence is
a text on one line that has its tokens when nothing follows; a phrase in front of a sentence makes a
longer one.
-/

namespace QuilControl

variable {N : Type} [Scalar N]

/-- The text is at its end, or a blank follows. -/
def atGap (rest : List Char) : Prop := ∀ c ∈ rest.head?, c = ' '

theorem atGap_nil : atGap [] := by simp [atGap]

theorem atGap_blank (rest : List Char) : atGap (' ' :: rest) := by simp [atGap]

theorem breaksName_of_atGap {rest : List Char} (h : atGap rest) : breaksName rest := by
  intro c hc
  rw [h c hc]
  decide

theorem breaksNumber_of_atGap {rest : List Char} (h : atGap rest) : breaksNumber rest := by
  intro c hc
  rw [h c hc]
  decide

/-- A text on one line that spells its tokens in front of a blank or the end. -/
structure Phrase (text : List Char) (tokens : List (Token N)) : Prop where
  spells : Spells atGap text tokens
  solidEnd : Text.solidEnd text
  ne_nil : text ≠ []
  oneLine : '\n' ∉ text

omit [Scalar N] in
theorem newline_not_mem {cs : List Char} (h : ∀ c ∈ cs, isTokenChar c = true) : '\n' ∉ cs := by
  intro hm
  exact absurd (h _ hm) (by decide)

theorem solidEnd_of_tokenChars {cs : List Char} (h : ∀ c ∈ cs, isTokenChar c = true) : Text.solidEnd cs := by
  refine Text.solidEnd_of_forall fun c hc => ?_
  have := h c hc
  simp only [isTokenChar, Bool.and_eq_true, Bool.not_eq_true'] at this
  exact this.1.1.1

theorem isTokenChar_digits (n : Nat) : ∀ c ∈ Nat.toDigits 10 n, isTokenChar c = true := fun _ hc =>
  isTokenChar_of_isDigit (Nat.isDigit_of_mem_toDigits (by decide) (by decide) hc)

def MemoryReference.tokens (s : MemoryReference) : List (Token N) :=
  [.identifier s.name, .mark .leftBracket, .int s.index, .mark .rightBracket]

/-! ## Words -/

namespace Phrase

theorem word {text : List Char} {ts : List (Token N)} (h : Spells atGap text ts) (hne : text ≠ [])
    (hchars : ∀ c ∈ text, isTokenChar c = true) : Phrase text ts :=
  ⟨h, solidEnd_of_tokenChars hchars, hne, newline_not_mem hchars⟩

theorem identifier {name : String} (h : IsName name) : Phrase (N := N) name.toList [.identifier name] := by
  refine word ((spells_identifier h).mono fun _ => breaksName_of_atGap) ?_ (isTokenChar_of_isIdentifier h)
  intro hnil
  rw [IsName, hnil] at h
  cases h

/-- A keyword. -/
theorem keyword (word : String) (h : IsName word) :
    Phrase (N := N) word.toList [.identifier word] := Phrase.identifier h

theorem natural (n : UInt64) : Phrase (N := N) (Nat.toDigits 10 n.toNat) [.int n] :=
  word ((spells_natural n).mono fun _ => breaksNumber_of_atGap) Nat.toDigits_ne_nil (isTokenChar_digits _)

theorem quoted {text : String} (h : IsQuotable text) : Phrase (N := N) (quoted text) [.string text] := by
  refine ⟨(spells_string h.1).mono fun _ _ => trivial, Text.solidEnd_concat _ (by decide),
    by simp [QuilControl.quoted], ?_⟩
  simpa [QuilControl.quoted] using h.2

theorem slot {s : MemoryReference} (h : s.IsLegible) : Phrase (N := N) s.chars s.tokens := by
  refine ⟨(s.writtenAs_chars.spells h).mono fun _ _ => trivial, Text.solidEnd_concat _ (by decide),
    by simp [MemoryReference.chars], ?_⟩
  have hname := newline_not_mem (isTokenChar_of_isIdentifier h)
  have hindex := newline_not_mem (isTokenChar_digits s.index.toNat)
  simp [MemoryReference.chars, hname, hindex]

theorem ne_string_of_number? {t : Token N} {x : N} (h : t.number? = some x) (s : String) : t ≠ .string s := by
  rintro rfl
  cases h

theorem isTokenChar_literal (laws : LiteralLaws N) {v : N} (h : ReadsBack v) :
    ∀ c ∈ Scalar.literal v, isTokenChar c = true := by
  have hchars := flatMap_chars_pieces (N := N) (Scalar.literal v)
  have hlegible {cs : List Char} {t : Token N} (hm : Piece.token cs t ∈ pieces (Scalar.literal v)) :=
    (isLegible_of_mem_pieces laws hm).2.1
  rcases pieces_literal h with ⟨cs, t, hp, ht⟩ | ⟨ms, cs, t, x, hp, ht, -⟩
  · rw [hp] at hchars hlegible
    have hcs := hlegible List.mem_cons_self (ne_string_of_number? ht)
    rw [← hchars]
    simpa using hcs
  · rw [hp] at hchars hlegible
    have hms := hlegible List.mem_cons_self (by simp)
    have hcs := hlegible (List.mem_cons_of_mem _ List.mem_cons_self) (ne_string_of_number? ht)
    rw [← hchars]
    intro c hc
    simp only [List.flatMap_cons, List.flatMap_nil, List.append_nil, Piece.chars_token, List.mem_append] at hc
    rcases hc with hc | hc
    · exact hms c hc
    · exact hcs c hc

theorem literal (laws : LiteralLaws N) {v : N} (h : Scalar.isFinite v = true) :
    Phrase (Scalar.literal v) (literalTokens v) := by
  have hback := laws.readsBack v h
  exact word ((spells_literal hback).mono fun _ => breaksNumber_of_atGap) (Expr.literal_ne_nil hback)
    (isTokenChar_literal laws hback)

theorem expr_solid (laws : LiteralLaws N) {e : Expr N} (h : e.Legible) :
    Text.solidEnd e.chars ∧ '\n' ∉ e.chars := by
  have wrapped {e : Expr N} (he : Text.solidEnd e.chars ∧ '\n' ∉ e.chars) (w : Bool) :
      Text.solidEnd (Expr.wrap w e.chars) ∧ '\n' ∉ Expr.wrap w e.chars := by
    cases w with
    | true => exact ⟨Text.solidEnd_concat _ (by decide), by simp [Expr.wrap, he.2]⟩
    | false => exact he
  induction e with
  | number v =>
    have hchars := isTokenChar_literal laws h
    exact ⟨solidEnd_of_tokenChars hchars, newline_not_mem hchars⟩
  | pi => exact ⟨by intro c hc; cases hc; decide, by simp [Expr.chars]⟩
  | address s =>
    have hslot := Phrase.slot (N := N) h
    exact ⟨hslot.solidEnd, hslot.oneLine⟩
  | call f argument ih =>
    have hname : '\n' ∉ f.name.toList := by cases f <;> decide
    exact ⟨Text.solidEnd_concat _ (by decide), by simp [Expr.chars, hname, (ih h).2]⟩
  | signed sign operand ih =>
    have hoperand : operand.Legible := h
    obtain ⟨hend, hline⟩ := wrapped (ih h) operand.needsWrapBehindSign
    have hne := Expr.wrap_ne_nil (Expr.chars_ne_nil hoperand) operand.needsWrapBehindSign
    have hsign : '\n' ≠ Expr.signChar sign := by cases sign <;> decide
    exact ⟨Text.solidEnd_append hend hne [_], by simp [Expr.chars, hsign, hline]⟩
  | binary op left right ihl ihr =>
    obtain ⟨-, hleft⟩ := wrapped (ihl h.1) (Expr.needsWrapLeft op left)
    obtain ⟨hend, hright⟩ := wrapped (ihr h.2) (Expr.needsWrapRight op right)
    have hne := Expr.wrap_ne_nil (Expr.chars_ne_nil h.2) (Expr.needsWrapRight op right)
    have hop : '\n' ≠ op.mark.char := by cases op <;> decide
    refine ⟨?_, ?_⟩
    · exact Text.solidEnd_append (b := op.mark.char :: _) (Text.solidEnd_append hend hne [_]) (by simp) _
    · simp only [Expr.chars, List.mem_append, List.mem_cons, hleft, hright, hop, or_false, false_or]
      split <;> simp

theorem expr (laws : LiteralLaws N) {e : Expr N} (h : e.IsLegible) : Phrase e.chars e.tokens := by
  have hlegible := h.legible laws
  obtain ⟨hend, hline⟩ := expr_solid laws hlegible
  exact ⟨(e.spells hlegible).mono fun _ hr => ⟨breaksNumber_of_atGap hr, fun _ => breaksName_of_atGap hr⟩,
    hend, Expr.chars_ne_nil hlegible, hline⟩

/-! ## Phrases of phrases -/

variable {a b : List Char} {ts us : List (Token N)}

/-- Phrases with a blank between them. -/
theorem append (ha : Phrase a ts) (hb : Phrase b us) : Phrase (a ++ ' ' :: b) (ts ++ us) where
  spells := ha.spells.append (spells_blank.append hb.spells fun _ _ => trivial) fun _ _ => atGap_blank _
  solidEnd := by
    rw [← List.singleton_append, ← List.append_assoc]
    exact Text.solidEnd_append hb.solidEnd hb.ne_nil _
  ne_nil := by simp
  oneLine := by simp [ha.oneLine, hb.oneLine]

/-- A phrase with others behind it. -/
theorem spaced {α : Type} {f : α → List Char} {g : α → List (Token N)} {xs : List α}
    (ha : Phrase a ts) (h : ∀ x ∈ xs, Phrase (f x) (g x)) :
    Phrase (a ++ QuilControl.spaced (xs.map f)) (ts ++ xs.flatMap g) := by
  induction xs generalizing a ts with
  | nil => simpa [QuilControl.spaced] using ha
  | cons x xs ih =>
    have hx := ha.append (h x List.mem_cons_self)
    have hall := ih hx fun y hy => h y (List.mem_cons_of_mem _ hy)
    simpa [QuilControl.spaced] using hall

/-- Words, each with one token, behind a phrase. -/
theorem words {α : Type} {f : α → List Char} {g : α → Token N} {xs : List α}
    (ha : Phrase a ts) (h : ∀ x ∈ xs, Phrase (f x) [g x]) :
    Phrase (a ++ QuilControl.spaced (xs.map f)) (ts ++ xs.map g) := by
  rw [List.map_eq_flatMap (f := g)]
  exact ha.spaced h

/-- Words, each with one token and a blank behind it, in front of a phrase. -/
theorem leading {α : Type} {f : α → List Char} {g : α → Token N} {xs : List α}
    (h : ∀ x ∈ xs, Phrase (f x) [g x]) (ha : Phrase a ts) :
    Phrase (xs.flatMap (fun x => f x ++ [' ']) ++ a) (xs.map g ++ ts) := by
  induction xs with
  | nil => exact ha
  | cons x xs ih =>
    have hrest := ih fun y hy => h y (List.mem_cons_of_mem _ hy)
    simpa using (h x List.mem_cons_self).append hrest

/-- A colon right behind a text. -/
theorem concat_colon {before : List Char → Prop} (h : Spells before a ts) (hb : ∀ rest, before (':' :: rest))
    (hline : '\n' ∉ a) : Phrase (a ++ [':']) (ts ++ [.mark .colon]) where
  spells := (h.append (spells_mark .colon) fun rest _ => hb rest).mono fun _ _ => trivial
  solidEnd := Text.solidEnd_concat _ (by decide)
  ne_nil := by simp
  oneLine := by simp [hline]

/-- The pieces of a phrase stand in front of those of what follows. -/
theorem pieces_append (ha : Phrase a ts) (b : List Char) :
    ∃ ps : List (Piece N), pieces (a ++ ' ' :: b) = ps ++ pieces b ∧ (∀ p ∈ ps, p.isPlain = true) ∧
      tokensOf ps = ts := by
  have hspells := ha.spells.append (spells_blank (N := N)) fun _ _ => atGap_blank _
  obtain ⟨ps, hps, hplain, htokens⟩ := hspells b trivial
  rw [List.append_assoc, List.singleton_append] at hps
  rw [List.append_nil] at htokens
  exact ⟨ps, hps, hplain, htokens⟩

theorem isShared (ha : Phrase a ts) (hs : Text.solidStart a) : IsShared N a :=
  ⟨(ha.spells.pieces_eq atGap_nil).1, hs, ha.solidEnd, ha.oneLine, ha.ne_nil⟩

end Phrase

/-! ## Sentences -/

/-- A text on one line that is cut into blanks and its tokens. -/
structure Sentence (text : List Char) (tokens : List (Token N)) : Prop where
  plain : ∀ p ∈ (pieces text : List (Piece N)), p.isPlain = true
  tokens_eq : tokensOf (pieces text) = tokens
  solidEnd : Text.solidEnd text
  ne_nil : text ≠ []
  oneLine : '\n' ∉ text

namespace Sentence

variable {a b : List Char} {ts us : List (Token N)}

theorem of_phrase (h : Phrase a ts) : Sentence a ts :=
  ⟨(h.spells.pieces_eq atGap_nil).1, (h.spells.pieces_eq atGap_nil).2, h.solidEnd, h.ne_nil, h.oneLine⟩

theorem of_shared {text : List Char} (h : IsShared N text) :
    Sentence text (tokensOf (pieces text : List (Piece N))) :=
  ⟨h.plain, rfl, h.solidEnd, h.ne_nil, h.oneLine⟩

/-- A phrase and a sentence behind a blank. -/
theorem append (ha : Phrase a ts) (hb : Sentence b us) : Sentence (a ++ ' ' :: b) (ts ++ us) := by
  obtain ⟨ps, hps, hplain, htokens⟩ := ha.pieces_append b
  refine ⟨?_, ?_, ?_, by simp, by simp [ha.oneLine, hb.oneLine]⟩
  · rw [hps]
    intro p hp
    rcases List.mem_append.1 hp with hp | hp
    · exact hplain p hp
    · exact hb.plain p hp
  · rw [hps, tokensOf_append, htokens, hb.tokens_eq]
  · rw [← List.singleton_append, ← List.append_assoc]
    exact Text.solidEnd_append hb.solidEnd hb.ne_nil _

theorem statementTokens (h : Sentence a ts) (line : Nat) : statementTokens line a = .ok ts := by
  rw [statementTokens_of_valid line (invalid_notMem_of_plain h.plain), h.tokens_eq]

/-- A sentence that does not begin with white space is a statement. -/
theorem isStatement (laws : LiteralLaws N) (h : Sentence a ts) (hs : Text.solidStart a) : IsStatement a where
  uncommented := by
    rw [onlyInStrings_pieces laws (List.append_nil _).symm h.plain (Or.inl rfl)]
    rfl
  uncut := by
    rw [onlyInStrings_pieces laws (List.append_nil _).symm h.plain (Or.inr rfl)]
    rfl
  solidEnd := h.solidEnd
  solidStart := hs
  notBlank := Text.not_isBlank hs h.ne_nil
  oneLine := h.oneLine

end Sentence

end QuilControl
