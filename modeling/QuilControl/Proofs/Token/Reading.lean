import QuilControl.Proofs.Text.Trim
import QuilControl.Proofs.Token.Literal

/-!
# What the tokens of a text are like

Names have the form of identifiers, strings hold no quote, and numbers are finite and carry no sign:
these are the tokens that can be written again. A token outside a string is made of characters that
neither separate words nor begin a string or comment.
-/

namespace QuilControl

/-! ## Characters -/

theorem not_isWhiteSpace_of_isNameChar {c : Char} (h : isNameChar c = true) : Text.isWhiteSpace c = false := by
  rw [isNameChar_iff, isAlpha_iff_toNat, Char.isDigit_iff_toNat] at h
  rcases h with h | rfl
  · have h0 : '0'.toNat = 48 := rfl
    have h9 : '9'.toNat = 57 := rfl
    simp only [Text.isWhiteSpace, Text.whiteSpaceRanges, List.any_cons, List.any_nil, Bool.or_false,
      Bool.or_eq_false_iff, Bool.and_eq_false_iff, decide_eq_false_iff_not]
    omega
  · decide

theorem isWhiteSpace_of_isSeparator {c : Char} (h : isSeparator c = true) : Text.isWhiteSpace c = true := by
  simp only [isSeparator, Bool.or_eq_true, decide_eq_true_eq] at h
  rcases h with ((rfl | rfl) | rfl) | rfl <;> decide

def isTokenChar (c : Char) : Bool := !Text.isWhiteSpace c && c ≠ '"' && c ≠ '#' && c ≠ ';'

theorem isTokenChar_of_isNameChar {c : Char} (h : isNameChar c = true) : isTokenChar c = true := by
  have hq : c ≠ '"' := by rintro rfl; exact absurd h (by decide)
  have hh : c ≠ '#' := by rintro rfl; exact absurd h (by decide)
  have hs : c ≠ ';' := by rintro rfl; exact absurd h (by decide)
  simp [isTokenChar, not_isWhiteSpace_of_isNameChar h, hq, hh, hs]

theorem isTokenChar_of_isDigit {c : Char} (h : c.isDigit = true) : isTokenChar c = true :=
  isTokenChar_of_isNameChar (isNameChar_of_isDigit h)

theorem isTokenChar_mark (m : Mark) : isTokenChar m.char = true := by cases m <;> decide

theorem infix_hyphens_cons {c : Char} (h : c ≠ '-') (cs : List Char) :
    ['-', '-'] <:+: c :: cs ↔ ['-', '-'] <:+: cs := by
  rw [List.infix_cons_iff, List.cons_prefix_cons]
  exact or_iff_right fun hc => h hc.1.symm

theorem getLast?_cons_ne_hyphen {c : Char} (h : c ≠ '-') (cs : List Char) :
    (c :: cs).getLast? ≠ some '-' ↔ cs.getLast? ≠ some '-' := by
  cases cs with
  | nil => simpa using h
  | cons d ds => rw [List.getLast?_cons_cons]

/-- The rest of a name has no hyphen at its end, and no two hyphens in a row. -/
theorem isNameTail_iff {cs : List Char} :
    isNameTail cs = true ↔ (∀ d ∈ cs, isNameChar d = true ∨ d = '-') ∧ cs.getLast? ≠ some '-' ∧
      ¬ ['-', '-'] <:+: cs := by
  have hname {c : Char} (h : isNameChar c = true) : c ≠ '-' := by
    rintro rfl
    exact absurd h (by decide)
  fun_induction isNameTail cs with
  | case1 => simp
  | case2 c rest ih =>
    simp only [Bool.and_eq_true, ih]
    by_cases hc : isNameChar c = true
    · have hlast : ('-' :: c :: rest).getLast? ≠ some '-' ↔ rest.getLast? ≠ some '-' := by
        rw [List.getLast?_cons_cons]
        exact getLast?_cons_ne_hyphen (hname hc) rest
      have hinfix : ['-', '-'] <:+: '-' :: c :: rest ↔ ['-', '-'] <:+: rest := by
        rw [List.infix_cons_iff, infix_hyphens_cons (hname hc)]
        refine or_iff_right fun h => hname hc ?_
        rw [List.cons_prefix_cons, List.cons_prefix_cons] at h
        exact h.2.1.symm
      rw [hlast, hinfix]
      simp [hc]
    · refine iff_of_false (fun h => hc h.1) ?_
      rintro ⟨hall, -, hinfix⟩
      have hhyphen := (hall c (by simp)).resolve_left hc
      exact hinfix ⟨[], rest, by rw [hhyphen]; rfl⟩
  | case3 c rest hne ih =>
    simp only [Bool.and_eq_true, ih]
    by_cases hc : isNameChar c = true
    · rw [getLast?_cons_ne_hyphen (hname hc), infix_hyphens_cons (hname hc)]
      simp [hc]
    · refine iff_of_false (fun h => hc h.1) ?_
      rintro ⟨hall, hlast, -⟩
      have hhyphen := (hall c (by simp)).resolve_left hc
      cases rest with
      | nil => exact hlast (by rw [hhyphen]; rfl)
      | cons d rest => exact hne d rest hhyphen rfl

theorem isNameChar_of_isIdentifier {name : List Char} (h : isIdentifier name = true) :
    ∀ c ∈ name, isNameChar c = true ∨ c = '-' := by
  cases name with
  | nil => cases h
  | cons c cs =>
    obtain ⟨hc, hcs⟩ := Bool.and_eq_true_iff.1 h
    intro d hd
    rcases List.mem_cons.1 hd with rfl | hd
    · exact Or.inl (isNameChar_of_isNameStart hc)
    · exact (isNameTail_iff.1 hcs).1 d hd

theorem isTokenChar_of_isIdentifier {name : List Char} (h : isIdentifier name = true) :
    ∀ c ∈ name, isTokenChar c = true := by
  intro c hc
  rcases isNameChar_of_isIdentifier h c hc with hname | rfl
  · exact isTokenChar_of_isNameChar hname
  · decide

theorem isTokenChar_readPower (text : List Char) :
    ∀ c ∈ (Numeral.readPower text).1, isTokenChar c = true := by
  cases text with
  | nil => simp [Numeral.readPower]
  | cons c rest =>
    rw [Numeral.readPower]
    by_cases he : (c = 'e' || c = 'E') = true
    · rw [if_pos he]
      have hc : isTokenChar c = true := by
        simp only [Bool.or_eq_true, decide_eq_true_eq] at he
        rcases he with rfl | rfl <;> decide
      have hsign : ∀ d ∈ (Numeral.readSign rest).1, isTokenChar d = true := by
        cases rest with
        | nil => simp [Numeral.readSign]
        | cons s tail =>
          rw [Numeral.readSign]
          split
          · next hs =>
            intro d hd
            simp only [List.mem_singleton] at hd
            simp only [Bool.or_eq_true, decide_eq_true_eq] at hs
            rw [hd]
            rcases hs with rfl | rfl <;> decide
          · simp
      dsimp only
      split
      · simp
      · next digits _ =>
        intro d hd
        simp only [List.cons_append, List.mem_cons, List.mem_append] at hd
        rcases hd with rfl | hd | hd
        · exact hc
        · exact hsign d hd
        · exact isTokenChar_of_isDigit (List.mem_takeWhile_imp hd)
    · rw [if_neg he]
      simp

theorem isTokenChar_numeral (text : List Char) :
    ∀ c ∈ (Numeral.read text).1.text, isTokenChar c = true := by
  have hdigits (cs : List Char) : ∀ c ∈ cs.takeWhile Char.isDigit, isTokenChar c = true := fun c hc =>
    isTokenChar_of_isDigit (List.mem_takeWhile_imp hc)
  intro c hc
  unfold Numeral.read at hc
  dsimp only at hc
  split at hc
  · simp only [Numeral.text, List.append_assoc, List.cons_append, List.mem_append, List.mem_cons] at hc
    rcases hc with hc | rfl | hc | hc
    · exact hdigits _ c hc
    · decide
    · exact hdigits _ c hc
    · exact isTokenChar_readPower _ c hc
  · simp only [Numeral.text, List.append_nil, List.mem_append] at hc
    rcases hc with hc | hc
    · exact hdigits _ c hc
    · exact isTokenChar_readPower _ c hc

/-! ## Tokens -/

variable {N : Type} [Scalar N]

/-- Texts with the form of an identifier. -/
def IsName (name : String) : Prop := isIdentifier name.toList = true

instance (name : String) : Decidable (IsName name) := inferInstanceAs (Decidable (isIdentifier _ = true))

/-- Texts that can stand between quotes on a line. -/
def IsQuotable (text : String) : Prop := '"' ∉ text.toList ∧ '\n' ∉ text.toList

def Token.IsLegible : Token N → Prop
  | float value => Scalar.isFinite value = true ∧ Scalar.isNegative value = false
  | int _ => True
  | string text => IsQuotable text
  | identifier name => IsName name
  | mark _ => True

/-- The texts of tokens: token characters, or a string between its quotes. -/
def IsTokenText (cs : List Char) : Prop :=
  (cs ≠ [] ∧ ∀ c ∈ cs, isTokenChar c = true) ∨ ∃ inside, cs = '"' :: inside ++ ['"'] ∧ '"' ∉ inside

theorem readName_isIdentifier {c : Char} (h : isNameStart c = true) (rest : List Char) :
    isIdentifier (c :: (readName rest).1) = true := by
  rw [isIdentifier, h, isNameTail_readName]
  rfl

/-- An identifier that is read has the form of one. -/
theorem isName_read {c : Char} {rest cs tail : List Char} {name : String}
    (h : (Piece.read c rest : Piece N × List Char) = (.token cs (.identifier name), tail)) : IsName name := by
  cases Piece.reads_of_eq h with
  | name hc =>
    rw [IsName, String.toList_ofList]
    exact readName_isIdentifier hc rest

theorem isName_of_mem_pieces {text cs : List Char} {name : String}
    (h : Piece.token cs (.identifier name) ∈ (pieces text : List (Piece N))) : IsName name := by
  fun_induction pieces (N := N) text with
  | case1 => cases h
  | case2 c rest next ih =>
    rcases List.mem_cons.1 h with hfirst | hrest
    · exact isName_read (Prod.ext hfirst.symm rfl)
    · exact ih hrest

/-- What is read as a token. -/
theorem isLegible_read (laws : LiteralLaws N) {c : Char} {rest cs : List Char} {t : Token N}
    {tail : List Char} (h : Piece.read c rest = (.token cs t, tail)) :
    IsTokenText cs ∧ ((∀ s, t ≠ .string s) → ∀ d ∈ cs, isTokenChar d = true) ∧
      ('\n' ∉ c :: rest → t.IsLegible) := by
  cases Piece.reads_of_eq h with
  | string hc ha =>
    have hin : '"' ∉ rest.takeWhile (fun c => decide (c ≠ '"')) := by
      intro hm
      simpa using List.mem_takeWhile_imp hm
    refine ⟨Or.inr ⟨_, rfl, hin⟩, fun hne => absurd rfl (hne _), fun hn => ?_⟩
    simp only [Token.IsLegible, IsQuotable, String.toList_ofList]
    refine ⟨hin, fun hm => hn (List.mem_cons_of_mem _ ?_)⟩
    exact (List.takeWhile_sublist _).subset hm
  | name hc =>
    have hid := readName_isIdentifier hc rest
    have hchars := isTokenChar_of_isIdentifier hid
    exact ⟨Or.inl ⟨List.cons_ne_nil _ _, hchars⟩, fun _ => hchars, fun _ => isName_read h⟩
  | int hdigit =>
    have hchars := isTokenChar_numeral (c :: rest)
    have hne := Piece.numeral_whole_or_point (show (c.isDigit || (c = '.' && startsWithDigit rest)) = true by
      rw [hdigit]; rfl)
    exact ⟨Or.inl ⟨hne, hchars⟩, fun _ => hchars, fun _ => trivial⟩
  | float hnumber hf =>
    have hchars := isTokenChar_numeral (c :: rest)
    exact ⟨Or.inl ⟨Piece.numeral_whole_or_point hnumber, hchars⟩, fun _ => hchars,
      fun _ => ⟨hf, laws.nonnegative_ofDecimal _ _⟩⟩
  | mark hm =>
    have hchars : ∀ d ∈ [c], isTokenChar d = true := by
      rw [← hm]
      simpa using isTokenChar_mark _
    exact ⟨Or.inl ⟨List.cons_ne_nil _ _, hchars⟩, fun _ => hchars, fun _ => trivial⟩

/-! ## Statements -/

/-- The pieces that are tokens or blanks. -/
theorem read_of_isPlain {c : Char} {rest tail : List Char} {p : Piece N} (laws : LiteralLaws N)
    (h : Piece.read c rest = (p, tail)) (hp : p.isPlain = true) :
    (∃ b, p = .blank [b] ∧ isSeparator b = true) ∨ ∃ cs t, p = .token cs t ∧ IsTokenText cs := by
  cases p with
  | blank cs =>
    cases Piece.reads_of_eq h with
    | blank hc => exact Or.inl ⟨c, rfl, hc⟩
  | token cs t => exact Or.inr ⟨cs, t, rfl, (isLegible_read laws h).1⟩
  | comment | invalid => cases hp

theorem isLegible_of_mem_pieces (laws : LiteralLaws N) {text cs : List Char} {t : Token N}
    (h : Piece.token cs t ∈ (pieces text : List (Piece N))) :
    IsTokenText cs ∧ ((∀ s, t ≠ .string s) → ∀ d ∈ cs, isTokenChar d = true) ∧
      ('\n' ∉ text → t.IsLegible) := by
  fun_induction pieces (N := N) text with
  | case1 => cases h
  | case2 c rest next ih =>
    rcases List.mem_cons.1 h with hfirst | hrest
    · exact isLegible_read laws (Prod.ext hfirst.symm rfl)
    · obtain ⟨hcs, hchars, ht⟩ := ih hrest
      have happend : next.1.chars ++ next.2 = c :: rest := Piece.chars_read c rest
      refine ⟨hcs, hchars, fun hn => ht fun hm => hn ?_⟩
      rw [← happend]
      exact List.mem_append_right _ hm

omit [Scalar N] in
theorem tokens_locate {ps : List (Piece N)} {offset : Nat} {ts : List (Token N)}
    (h : Entry.tokens (locate offset ps) = .ok ts) : ts = tokensOf ps ∧ ∀ cs, Piece.invalid cs ∉ ps := by
  induction ps generalizing offset ts with
  | nil => cases h; simp
  | cons p ps ih =>
    cases p with
    | token cs t =>
      simp only [locate, Entry.tokens] at h
      split at h
      · cases h
      · next us hus =>
        cases h
        obtain ⟨rfl, hinvalid⟩ := ih hus
        exact ⟨rfl, by simpa using hinvalid⟩
    | invalid cs => simp [locate, Entry.tokens] at h
    | blank cs =>
      obtain ⟨rfl, hinvalid⟩ := ih h
      exact ⟨rfl, by simpa using hinvalid⟩
    | comment cs =>
      obtain ⟨rfl, hinvalid⟩ := ih h
      exact ⟨rfl, by simpa using hinvalid⟩

theorem statementTokens_eq_ok {line : Nat} {text : List Char} {ts : List (Token N)}
    (h : statementTokens line text = .ok ts) :
    ts = tokensOf (pieces text) ∧ ∀ cs, Piece.invalid cs ∉ (pieces text : List (Piece N)) := by
  unfold statementTokens tokenize at h
  split at h
  · cases h
  · next us hus => cases h; exact tokens_locate hus

end QuilControl
