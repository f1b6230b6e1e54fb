import Mathlib.Data.List.TakeWhile
import QuilControl.Fault

/-!
# How texts cut into tokens

A text spells some tokens when, in front of any text that does not run into it, it is cut into
blanks and just these tokens (`Spells`). Spellings join (`Spells.append`), so the tokens of a long
text follow from those of its words: marks, identifiers, integers and strings spell themselves.
-/

namespace QuilControl

variable {N : Type}

/-! ## Characters of names -/

theorem isAlpha_iff_toNat {c : Char} :
    c.isAlpha = true ↔ (65 ≤ c.toNat ∧ c.toNat ≤ 90) ∨ (97 ≤ c.toNat ∧ c.toNat ≤ 122) := by
  have hupper : c.isUpper = true ↔ 65 ≤ c.toNat ∧ c.toNat ≤ 90 := decide_eq_true_iff
  have hlower : c.isLower = true ↔ 97 ≤ c.toNat ∧ c.toNat ≤ 122 :=
    (Bool.and_eq_true_iff ..).trans (and_congr decide_eq_true_iff decide_eq_true_iff)
  exact (Bool.or_eq_true_iff ..).trans (or_congr hupper hlower)

theorem isNameStart_iff {c : Char} : isNameStart c = true ↔ c.isAlpha = true ∨ c = '_' := by
  rw [isNameStart, Bool.or_eq_true, decide_eq_true_iff]

theorem isNameChar_iff {c : Char} :
    isNameChar c = true ↔ (c.isAlpha = true ∨ c.isDigit = true) ∨ c = '_' := by
  rw [isNameChar, Bool.or_eq_true, decide_eq_true_iff]
  exact or_congr_left Bool.or_eq_true_iff

theorem isNameChar_of_isNameStart {c : Char} (h : isNameStart c = true) : isNameChar c = true :=
  isNameChar_iff.2 ((isNameStart_iff.1 h).imp_left Or.inl)

theorem isNameChar_of_isDigit {c : Char} (h : c.isDigit = true) : isNameChar c = true :=
  isNameChar_iff.2 (Or.inl (Or.inr h))

theorem not_isNameStart_of_isDigit {c : Char} (h : c.isDigit = true) : isNameStart c = false := by
  have hdigit : 48 ≤ c.toNat ∧ c.toNat ≤ 57 := Char.isDigit_iff_toNat.1 h
  rw [← Bool.not_eq_true, isNameStart_iff, isAlpha_iff_toNat]
  rintro (halpha | rfl)
  · omega
  · exact absurd h (by decide)

/-! ## Pieces -/

def Piece.token? : Piece N → Option (Token N)
  | token _ t => some t
  | _ => none

/-- Blanks and tokens: neither a comment nor a stretch that is no token. -/
def Piece.isPlain : Piece N → Bool
  | blank _ => true
  | token _ _ => true
  | _ => false

def tokensOf (ps : List (Piece N)) : List (Token N) := ps.filterMap Piece.token?

@[simp]
theorem tokensOf_nil : tokensOf ([] : List (Piece N)) = [] := rfl

@[simp]
theorem tokensOf_append (ps qs : List (Piece N)) : tokensOf (ps ++ qs) = tokensOf ps ++ tokensOf qs :=
  List.filterMap_append

@[simp]
theorem tokensOf_token (cs : List Char) (t : Token N) (ps : List (Piece N)) :
    tokensOf (.token cs t :: ps) = t :: tokensOf ps := rfl

@[simp]
theorem tokensOf_blank (cs : List Char) (ps : List (Piece N)) : tokensOf (.blank cs :: ps) = tokensOf ps := rfl

@[simp]
theorem tokensOf_comment (cs : List Char) (ps : List (Piece N)) : tokensOf (.comment cs :: ps) = tokensOf ps := rfl

theorem invalid_notMem_of_plain {ps : List (Piece N)} (h : ∀ p ∈ ps, p.isPlain = true) (cs : List Char) :
    Piece.invalid cs ∉ ps := fun hm => absurd (h _ hm) (by simp [Piece.isPlain])

theorem locate_append (offset : Nat) (ps qs : List (Piece N)) :
    locate offset (ps ++ qs) =
      locate offset ps ++ locate (offset + Text.utf8Length (ps.flatMap Piece.chars)) qs := by
  induction ps generalizing offset with
  | nil => simp [locate]
  | cons p ps ih =>
    simp only [List.cons_append, List.flatMap_cons, Text.utf8Length_append, ← Nat.add_assoc]
    cases p <;> simp [locate, ih, Piece.chars]

section Lexer

variable [Scalar N]

theorem pieces_nil : (pieces [] : List (Piece N)) = [] := by rw [pieces]

theorem pieces_cons (c : Char) (rest : List Char) :
    (pieces (c :: rest) : List (Piece N)) = (Piece.read c rest).1 :: pieces (Piece.read (N := N) c rest).2 := by
  rw [pieces]

/-- What is read at a character. -/
inductive Piece.Reads (c : Char) (rest : List Char) : Piece N → List Char → Prop
  | blank (h : isSeparator c = true) : Reads c rest (.blank [c]) rest
  | comment (h : c = '#') :
    Reads c rest (.comment (c :: rest.takeWhile (· ≠ '\n'))) (rest.dropWhile (· ≠ '\n'))
  | openString (h : c = '"') : Reads c rest (.invalid ('"' :: rest)) []
  | string (h : c = '"') {after : List Char} (ha : rest.dropWhile (· ≠ '"') = '"' :: after) :
    Reads c rest
      (.token ('"' :: rest.takeWhile (· ≠ '"') ++ ['"']) (.string (String.ofList (rest.takeWhile (· ≠ '"')))))
      after
  | name (h : isNameStart c = true) :
    Reads c rest (.token (c :: (readName rest).1) (.identifier (String.ofList (c :: (readName rest).1))))
      (readName rest).2
  | int (h : c.isDigit = true) (value : UInt64) :
    Reads c rest (.token (Numeral.read (c :: rest)).1.text (.int value)) (Numeral.read (c :: rest)).2
  | float (h : (c.isDigit || (c = '.' && startsWithDigit rest)) = true)
    (hf : Scalar.isFinite ((Numeral.read (c :: rest)).1.value : N) = true) :
    Reads c rest (.token (Numeral.read (c :: rest)).1.text (.float (Numeral.read (c :: rest)).1.value))
      (Numeral.read (c :: rest)).2
  | outOfRange (h : (c.isDigit || (c = '.' && startsWithDigit rest)) = true) :
    Reads c rest (.invalid (Numeral.read (c :: rest)).1.text) (Numeral.read (c :: rest)).2
  | mark {m : Mark} (h : m.char = c) : Reads c rest (.token [c] (.mark m)) rest
  | stray : Reads c rest (.invalid [c]) rest

theorem Piece.reads (c : Char) (rest : List Char) :
    Reads c rest (Piece.read (N := N) c rest).1 (Piece.read (N := N) c rest).2 := by
  unfold Piece.read
  split
  · exact .blank ‹_›
  split
  · exact .comment ‹_›
  split
  · next hc =>
    unfold Piece.readString
    dsimp only
    split
    · exact .openString hc
    · next quote after hdrop =>
      have hquote : quote = '"' := by
        have := List.head?_dropWhile_not (fun c : Char => decide (c ≠ '"')) rest
        rw [hdrop] at this
        simpa using this
      subst hquote
      exact .string hc hdrop
  split
  · exact .name ‹_›
  split
  · next hnumber =>
    unfold Piece.ofNumeral
    dsimp only
    split
    · next hinteger =>
      split
      · refine .int ?_ _
        by_contra hd
        have hc : c = '.' := by simp_all
        subst hc
        simp [Numeral.read, Numeral.isInteger] at hinteger
      · exact .outOfRange hnumber
    · split
      · exact .float hnumber ‹_›
      · exact .outOfRange hnumber
  split
  · exact .mark (Mark.char_of_ofChar? ‹_›)
  · exact .stray

theorem Piece.reads_of_eq {c : Char} {rest tail : List Char} {p : Piece N} (h : Piece.read c rest = (p, tail)) :
    Reads c rest p tail := by
  have := Piece.reads (N := N) c rest
  rwa [h] at this

/-- What is left of the pieces of a text are the pieces of what is left of the text. -/
theorem pieces_of_append {text : List Char} {ps qs : List (Piece N)} (h : pieces text = ps ++ qs) :
    text = ps.flatMap Piece.chars ++ qs.flatMap Piece.chars ∧ pieces (qs.flatMap Piece.chars) = qs := by
  refine ⟨by rw [← List.flatMap_append, ← h, flatMap_chars_pieces], ?_⟩
  induction ps generalizing text with
  | nil => rw [List.nil_append] at h; rw [← h, flatMap_chars_pieces]
  | cons p ps ih =>
    cases text with
    | nil => rw [pieces_nil] at h; cases h
    | cons c rest =>
      rw [pieces_cons] at h
      injection h with _ h
      exact ih h

omit [Scalar N] in
theorem content_locate (ps : List (Piece N)) (offset : Nat) (h : ∀ cs, Piece.invalid cs ∉ ps) :
    Entry.tokens (locate offset ps) = .ok (tokensOf ps) := by
  induction ps generalizing offset with
  | nil => rfl
  | cons p ps ih =>
    have hps := ih (offset + Text.utf8Length p.chars) fun cs hm => h cs (List.mem_cons_of_mem _ hm)
    cases p with
    | blank | comment => exact hps
    | token cs t => simp only [locate, Entry.tokens, hps, tokensOf_token]
    | invalid cs => exact absurd List.mem_cons_self (h cs)

/-- The tokens of a statement all of whose stretches are tokens. -/
theorem statementTokens_of_valid (line : Nat) {text : List Char}
    (h : ∀ cs, Piece.invalid cs ∉ (pieces text : List (Piece N))) :
    statementTokens line text = .ok (tokensOf (pieces text : List (Piece N))) := by
  unfold statementTokens tokenize
  rw [content_locate _ _ h]

/-! ## Spelling -/

/-- In front of every text that `before` holds of, the text is cut into blanks and the tokens. -/
def Spells (before : List Char → Prop) (text : List Char) (tokens : List (Token N)) : Prop :=
  ∀ rest, before rest → ∃ ps : List (Piece N), pieces (text ++ rest) = ps ++ pieces rest ∧
    (∀ p ∈ ps, p.isPlain) ∧ tokensOf ps = tokens

def anyText (_ : List Char) : Prop := True

/-- The text does not go on with a character of a name, nor with a hyphen. -/
def breaksName (rest : List Char) : Prop := ∀ c ∈ rest.head?, isNameChar c = false ∧ c ≠ '-'

/-- The text does not go on with a character of a number. -/
def breaksNumber (rest : List Char) : Prop := ∀ c ∈ rest.head?, isNameChar c = false ∧ c ≠ '.'

/-- What does not begin with a sign. -/
def breaksSign (rest : List Char) : Prop := ∀ c ∈ rest.head?, c ≠ '+' ∧ c ≠ '-'

theorem breaksName_nil : breaksName [] := by intro c hc; cases hc

theorem breaksNumber_nil : breaksNumber [] := by intro c hc; cases hc

theorem breaksName_cons {c : Char} {rest : List Char} :
    breaksName (c :: rest) ↔ isNameChar c = false ∧ c ≠ '-' := by simp [breaksName]

theorem breaksNumber_cons {c : Char} {rest : List Char} :
    breaksNumber (c :: rest) ↔ isNameChar c = false ∧ c ≠ '.' := by simp [breaksNumber]

namespace Spells

variable {before before' : List Char → Prop} {a b : List Char} {ts us : List (Token N)}

theorem mono (h : Spells before a ts) (hb : ∀ rest, before' rest → before rest) : Spells before' a ts :=
  fun rest hr => h rest (hb rest hr)

/-- Spellings join when the second text does not run into the first. -/
theorem append (ha : Spells before a ts) (hb : Spells before' b us)
    (h : ∀ rest, before' rest → before (b ++ rest)) : Spells before' (a ++ b) (ts ++ us) := by
  intro rest hr
  obtain ⟨ps, hps, hp, rfl⟩ := ha (b ++ rest) (h rest hr)
  obtain ⟨qs, hqs, hq, rfl⟩ := hb rest hr
  refine ⟨ps ++ qs, by rw [List.append_assoc, hps, hqs, List.append_assoc], ?_, tokensOf_append ps qs⟩
  intro p hm
  rcases List.mem_append.1 hm with hm | hm
  · exact hp p hm
  · exact hq p hm

/-- A text that is read as one token. -/
theorem of_read {c : Char} {cs : List Char} {t : Token N}
    (h : ∀ rest, before rest → Piece.read c (cs ++ rest) = (.token (c :: cs) t, rest)) :
    Spells before (c :: cs) [t] := by
  intro rest hr
  refine ⟨[.token (c :: cs) t], ?_, by simp [Piece.isPlain], rfl⟩
  rw [List.cons_append, pieces_cons, h rest hr]
  rfl

/-- What the whole text is cut into. -/
theorem pieces_eq (h : Spells before a ts) (hb : before []) :
    (∀ p ∈ (pieces a : List (Piece N)), p.isPlain) ∧ tokensOf (pieces a : List (Piece N)) = ts := by
  obtain ⟨ps, hps, hp, ht⟩ := h [] hb
  rw [List.append_nil, pieces_nil, List.append_nil] at hps
  rw [hps]
  exact ⟨hp, ht⟩

theorem statementTokens (h : Spells before a ts) (hb : before []) (line : Nat) :
    statementTokens line a = .ok ts := by
  obtain ⟨hp, ht⟩ := h.pieces_eq hb
  rw [statementTokens_of_valid line (invalid_notMem_of_plain hp), ht]

end Spells

/-! ## Words -/

theorem spells_blank : Spells (N := N) anyText [' '] [] := by
  intro rest _
  refine ⟨[.blank [' ']], ?_, by simp [Piece.isPlain], rfl⟩
  rw [List.singleton_append, pieces_cons]
  rfl

theorem spells_mark (m : Mark) : Spells (N := N) anyText [m.char] [.mark m] := by
  refine Spells.of_read fun rest _ => ?_
  cases m <;> rfl

theorem startsWithDigit_append {cs : List Char} (rest : List Char) (h : startsWithDigit cs = true) :
    startsWithDigit (cs ++ rest) = true := by
  cases cs with
  | nil => cases h
  | cons c cs => exact h

/-- The characters after the first of an identifier: name characters, and hyphens with a name
character behind them. -/
def isNameTail : List Char → Bool
  | [] => true
  | '-' :: c :: rest => isNameChar c && isNameTail rest
  | c :: rest => isNameChar c && isNameTail rest

def isIdentifier : List Char → Bool
  | [] => false
  | c :: rest => isNameStart c && isNameTail rest

theorem readName_cons {c : Char} (h : c ≠ '-') (rest : List Char) :
    readName (c :: rest) =
      if isNameChar c then (c :: (readName rest).1, (readName rest).2) else ([], c :: rest) := by
  rw [readName]
  rintro d tail rfl
  exact absurd rfl h

theorem readName_of_breaksName {rest : List Char} (h : breaksName rest) : readName rest = ([], rest) := by
  cases rest with
  | nil => rfl
  | cons c rest =>
    obtain ⟨hc, hd⟩ := breaksName_cons.1 h
    rw [readName_cons hd, hc]
    rfl

theorem readName_append {cs rest : List Char} (h : isNameTail cs = true) (hr : breaksName rest) :
    readName (cs ++ rest) = (cs, rest) := by
  fun_induction isNameTail cs with
  | case1 => exact readName_of_breaksName hr
  | case2 c cs ih =>
    obtain ⟨hc, hcs⟩ := Bool.and_eq_true_iff.1 h
    rw [List.cons_append, List.cons_append, readName, if_pos hc, ih hcs]
  | case3 c cs _ ih =>
    obtain ⟨hc, hcs⟩ := Bool.and_eq_true_iff.1 h
    have hd : c ≠ '-' := by rintro rfl; exact absurd hc (by decide)
    rw [List.cons_append, readName_cons hd, if_pos hc, ih hcs]

/-- What is read of a name has the form of the rest of a name. -/
theorem isNameTail_readName (text : List Char) : isNameTail (readName text).1 = true := by
  fun_induction readName text with
  | case1 => rfl
  | case2 c rest hc ih => simp [isNameTail, hc, ih]
  | case3 => rfl
  | case4 c rest hne hc ih =>
    have hd : c ≠ '-' := by rintro rfl; exact absurd hc (by decide)
    dsimp only
    rw [isNameTail]
    · rw [hc, ih]; rfl
    · rintro d tail rfl
      exact absurd rfl hd
  | case5 => rfl

/-! ### What a first character decides -/

theorem not_isSeparator_of_isNameStart {c : Char} (h : isNameStart c = true) : isSeparator c = false := by
  rw [Bool.eq_false_iff]
  intro hs
  simp only [isSeparator, Bool.or_eq_true, decide_eq_true_eq] at hs
  rcases hs with ((rfl | rfl) | rfl) | rfl <;> exact absurd h (by decide)

theorem read_of_isNameStart {c : Char} (h : isNameStart c = true) (rest : List Char) :
    (Piece.read c rest : Piece N × List Char) =
      (.token (c :: (readName rest).1) (.identifier (String.ofList (c :: (readName rest).1))),
        (readName rest).2) := by
  have h1 : c ≠ '#' := by rintro rfl; exact absurd h (by decide)
  have h2 : c ≠ '"' := by rintro rfl; exact absurd h (by decide)
  unfold Piece.read
  simp only [not_isSeparator_of_isNameStart h, h1, h2, h, Bool.false_eq_true, if_false, if_true]

theorem spells_identifier {name : String} (h : isIdentifier name.toList = true) :
    Spells (N := N) breaksName name.toList [.identifier name] := by
  cases hname : name.toList with
  | nil => rw [hname] at h; cases h
  | cons c cs =>
    have htext : String.ofList (c :: cs) = name := by rw [← hname, String.ofList_toList]
    rw [hname] at h
    obtain ⟨hc, hcs⟩ := Bool.and_eq_true_iff.1 h
    refine Spells.of_read fun rest hr => ?_
    rw [read_of_isNameStart hc, readName_append hcs hr, htext]

/-- A string ends at its first quote. -/
theorem read_string {inside : List Char} (h : '"' ∉ inside) (rest : List Char) :
    (Piece.read '"' (inside ++ '"' :: rest) : Piece N × List Char) =
      (.token ('"' :: inside ++ ['"']) (.string (String.ofList inside)), rest) := by
  have hall : ∀ c ∈ inside, decide (c ≠ '"') = true := by
    intro c hc
    exact decide_eq_true fun he => h (he ▸ hc)
  have ht : (inside ++ '"' :: rest).takeWhile (· ≠ '"') = inside := by
    rw [List.takeWhile_append_of_pos hall]
    simp
  have hd : (inside ++ '"' :: rest).dropWhile (· ≠ '"') = '"' :: rest := by
    rw [List.dropWhile_append_of_pos hall]
    simp
  unfold Piece.read
  simp only [show isSeparator '"' = false by decide, show ('"' : Char) ≠ '#' by decide, if_false,
    Bool.false_eq_true, if_true]
  unfold Piece.readString
  rw [ht, hd]

/-- Text in double quotes, without a quote inside, is a string. -/
theorem spells_string {text : String} (h : '"' ∉ text.toList) :
    Spells (N := N) anyText ('"' :: text.toList ++ ['"']) [.string text] := by
  change Spells anyText ('"' :: (text.toList ++ ['"'])) _
  refine Spells.of_read fun rest _ => ?_
  have hread := read_string (N := N) h rest
  rwa [String.ofList_toList, ← List.singleton_append, ← List.append_assoc] at hread

/-! ### Numbers -/

theorem not_isDigit_of_breaksNumber {rest : List Char} (h : breaksNumber rest) :
    ∀ c ∈ rest.head?, c.isDigit = false := by
  intro c hc
  rw [Bool.eq_false_iff]
  intro hd
  have hchar := (h c hc).1
  rw [isNameChar_of_isDigit hd] at hchar
  cases hchar

/-- Digits end where a text begins that does not go on with a number. -/
theorem span_isDigit_append {rest : List Char} (h : breaksNumber rest) (text : List Char) :
    (text ++ rest).takeWhile Char.isDigit = text.takeWhile Char.isDigit ∧
      (text ++ rest).dropWhile Char.isDigit = text.dropWhile Char.isDigit ++ rest := by
  induction text with
  | nil =>
    cases rest with
    | nil => exact ⟨rfl, rfl⟩
    | cons c rest => simp [not_isDigit_of_breaksNumber h c rfl]
  | cons c text ih =>
    by_cases hc : c.isDigit = true
    · simp only [List.cons_append, List.takeWhile_cons_of_pos hc, List.dropWhile_cons_of_pos hc, ih.1, ih.2,
        and_self]
    · simp only [List.cons_append, List.takeWhile_cons_of_neg hc, List.dropWhile_cons_of_neg hc, and_self]

/-- A sign is read alike in front of a text that does not begin with one. -/
theorem readSign_append_rest {text rest : List Char} (h : text ≠ [] ∨ breaksSign rest) :
    Numeral.readSign (text ++ rest) = ((Numeral.readSign text).1, (Numeral.readSign text).2 ++ rest) := by
  cases text with
  | cons c cs =>
    simp only [List.cons_append, Numeral.readSign]
    split <;> rfl
  | nil =>
    have hr := h.resolve_left (not_not.2 rfl)
    cases rest with
    | nil => rfl
    | cons c rest =>
      obtain ⟨hplus, hminus⟩ := hr c rfl
      simp [Numeral.readSign, hplus, hminus]

/-- A power of ten is read alike in front of a text that does not go on with it. Only a power of ten without
digits, which is none, can go on with a sign. -/
theorem readPower_append_rest {text p tail rest : List Char} (h : Numeral.readPower text = (p, tail))
    (hr : breaksNumber rest) (hs : tail = [] ∨ breaksSign rest) :
    Numeral.readPower (text ++ rest) = (p, tail ++ rest) := by
  cases text with
  | nil =>
    cases h
    cases rest with
    | nil => rfl
    | cons c rest =>
      have hc := (breaksNumber_cons.1 hr).1
      have he : ¬ ((c = 'e' || c = 'E') = true) := by
        simp only [Bool.or_eq_true, decide_eq_true_eq]
        rintro (rfl | rfl) <;> exact absurd hc (by decide)
      rw [List.nil_append, Numeral.readPower, if_neg he]
  | cons c cs =>
    rw [Numeral.readPower] at h
    by_cases he : (c = 'e' || c = 'E') = true
    · rw [if_pos he] at h
      rw [List.cons_append, Numeral.readPower, if_pos he]
      have hsign : cs ≠ [] ∨ breaksSign rest := by
        refine hs.imp_left ?_
        rintro rfl rfl
        simp [Numeral.readSign] at h
      dsimp only at h ⊢
      rw [readSign_append_rest hsign]
      obtain ⟨htake, hdrop⟩ := span_isDigit_append hr (Numeral.readSign cs).2
      dsimp only
      rw [htake, hdrop]
      split at h
      · cases h
        rfl
      · cases h
        rfl
    · rw [if_neg he] at h
      cases h
      rw [List.cons_append, Numeral.readPower, if_neg he]

/-- A number literal is read alike in front of a text that does not go on with it. -/
theorem read_append_rest {text tail rest : List Char} {n : Numeral} (h : Numeral.read text = (n, tail))
    (hr : breaksNumber rest) (hs : tail = [] ∨ breaksSign rest) : Numeral.read (text ++ rest) = (n, tail ++ rest) := by
  obtain ⟨htake, hdrop⟩ := span_isDigit_append hr text
  unfold Numeral.read at h ⊢
  rw [htake, hdrop]
  generalize text.takeWhile Char.isDigit = whole at *
  generalize text.dropWhile Char.isDigit = behind at *
  dsimp only at h ⊢
  split at h
  · next after =>
    obtain ⟨rfl, hp⟩ := Prod.mk.inj h
    obtain ⟨htake', hdrop'⟩ := span_isDigit_append hr after
    have hpower : Numeral.readPower (after.dropWhile Char.isDigit) = (_, tail) := Prod.ext rfl hp
    simp only [List.cons_append, htake', hdrop']
    rw [readPower_append_rest hpower hr hs]
  · next hne =>
    obtain ⟨rfl, hp⟩ := Prod.mk.inj h
    have hpower : Numeral.readPower behind = (_, tail) := Prod.ext rfl hp
    split
    · next after heq =>
      cases behind with
      | nil => rw [List.nil_append] at heq; subst heq; exact absurd rfl (breaksNumber_cons.1 hr).2
      | cons c bs => injection heq with hc hbs; subst hc; exact absurd rfl (hne bs)
    · rw [readPower_append_rest hpower hr hs]

/-- A digit, or a point with a digit behind it, begins a number. -/
theorem read_of_number {c : Char} {rest : List Char}
    (h : (c.isDigit || (c = '.' && startsWithDigit rest)) = true) :
    (Piece.read c rest : Piece N × List Char) =
      (.ofNumeral (Numeral.read (c :: rest)).1, (Numeral.read (c :: rest)).2) := by
  have hc : c.isDigit = true ∨ c = '.' := by
    rcases Bool.or_eq_true_iff.1 h with h | h
    · exact Or.inl h
    · exact Or.inr (of_decide_eq_true (Bool.and_eq_true_iff.1 h).1)
  have hs : isSeparator c = false := by
    rw [Bool.eq_false_iff]
    intro hs
    simp only [isSeparator, Bool.or_eq_true, decide_eq_true_eq] at hs
    rcases hs with ((rfl | rfl) | rfl) | rfl <;> rcases hc with hc | hc <;> exact absurd hc (by decide)
  have h1 : c ≠ '#' := by rintro rfl; rcases hc with hc | hc <;> exact absurd hc (by decide)
  have h2 : c ≠ '"' := by rintro rfl; rcases hc with hc | hc <;> exact absurd hc (by decide)
  have h3 : isNameStart c = false := by
    rcases hc with hc | rfl
    · exact not_isNameStart_of_isDigit hc
    · decide
  unfold Piece.read
  simp only [hs, h1, h2, h3, h, Bool.false_eq_true, if_false, if_true]

/-- Digits whose value fits a word read as an integer. -/
theorem read_digits {c : Char} {cs rest : List Char} (hdigit : ∀ d ∈ c :: cs, d.isDigit = true)
    (h : Numeral.digitsValue (c :: cs) < UInt64.size) (hr : breaksNumber rest) :
    (Piece.read c (cs ++ rest) : Piece N × List Char) =
      (.token (c :: cs) (.int (UInt64.ofNat (Numeral.digitsValue (c :: cs)))), rest) := by
  have hread : Numeral.read (c :: cs) = (⟨c :: cs, none, []⟩, []) := by
    have htake := List.takeWhile_eq_self_iff.2 hdigit
    have hdrop := List.dropWhile_eq_nil_iff.2 hdigit
    unfold Numeral.read
    rw [htake, hdrop]
    rfl
  have hpiece : (Piece.ofNumeral ⟨c :: cs, none, []⟩ : Piece N) =
      .token (c :: cs) (.int (UInt64.ofNat (Numeral.digitsValue (c :: cs)))) := by
    have htext : Numeral.text ⟨c :: cs, none, []⟩ = c :: cs := by simp [Numeral.text]
    have hinteger : Numeral.isInteger ⟨c :: cs, none, []⟩ = true := rfl
    simp only [Piece.ofNumeral, hinteger, if_true, htext, if_pos h]
  have hc : c.isDigit = true := hdigit c List.mem_cons_self
  rw [read_of_number (by rw [hc]; rfl), ← List.cons_append, read_append_rest hread hr (Or.inl rfl), hpiece,
    List.nil_append]

/-- Digits spell their value, also with zeros in front. -/
theorem spells_digits {digits : List Char} (hne : digits ≠ []) (hdigit : ∀ d ∈ digits, d.isDigit = true)
    (h : Numeral.digitsValue digits < UInt64.size) :
    Spells (N := N) breaksNumber digits [.int (UInt64.ofNat (Numeral.digitsValue digits))] := by
  obtain ⟨c, cs, rfl⟩ := List.exists_cons_of_ne_nil hne
  exact Spells.of_read fun rest hr => read_digits hdigit h hr

theorem isDigit_of_mem_toDigits {n : Nat} : ∀ d ∈ Nat.toDigits 10 n, d.isDigit = true := fun _ hd =>
  Nat.isDigit_of_mem_toDigits (by decide) (by decide) hd

theorem digitsValue_toDigits (n : Nat) : Numeral.digitsValue (Nat.toDigits 10 n) = n :=
  Nat.ofDigitChars_ten_toDigits

theorem spells_natural (n : UInt64) :
    Spells (N := N) breaksNumber (Nat.toDigits 10 n.toNat) [.int n] := by
  have hvalue := digitsValue_toDigits n.toNat
  have hspells := spells_digits (N := N) Nat.toDigits_ne_nil isDigit_of_mem_toDigits (hvalue ▸ n.toNat_lt)
  rwa [hvalue, UInt64.ofNat_toNat] at hspells

theorem pieces_natural {n : Nat} (h : n < UInt64.size) :
    (pieces (Nat.toDigits 10 n) : List (Piece N)) =
      [.token (Nat.toDigits 10 n) (.int (UInt64.ofNat n))] := by
  have hvalue := digitsValue_toDigits n
  have hdigit := isDigit_of_mem_toDigits (n := n)
  obtain ⟨c, cs, hcs⟩ := List.exists_cons_of_ne_nil (Nat.toDigits_ne_nil (b := 10) (n := n))
  rw [hcs] at hvalue hdigit ⊢
  have hread := read_digits (N := N) hdigit (hvalue ▸ h) breaksNumber_nil
  rw [List.append_nil, hvalue] at hread
  rw [pieces_cons, hread, pieces_nil]

end Lexer

end QuilControl
