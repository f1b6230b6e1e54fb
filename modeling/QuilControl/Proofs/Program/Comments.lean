import QuilControl.Proofs.Program.Statements
import QuilControl.Proofs.Token.Spans

/-!
# Comments behind statements

A comment ends a line for the reader of programs, and is passed over by the lexer. A text that is outside of
strings at its end is cut into the same pieces when a blank or a comment follows it (`pieces_append`), so both
find the same tokens. They differ in the blanks in front of a comment: the lexer passes over some kinds of white
space only (`exists_tokens_eq_error`), and trimming takes all of it.
-/

namespace QuilControl

/-! ## What a blank or a comment ends -/

/-- White space or a comment begins the text, if anything does. -/
def breaksToken (rest : List Char) : Prop := ∀ c ∈ rest.head?, Text.isWhiteSpace c = true ∨ c = '#'

theorem breaksToken_cons {c : Char} {rest : List Char} :
    breaksToken (c :: rest) ↔ Text.isWhiteSpace c = true ∨ c = '#' := by simp [breaksToken]

section Breaks

variable {rest : List Char}

theorem not_isTokenChar_of_breaksToken (h : breaksToken rest) : ∀ c ∈ rest.head?, isTokenChar c = false := by
  intro c hc
  rcases h c hc with hspace | rfl
  · simp [isTokenChar, hspace]
  · decide

theorem breaksToken.breaksName (h : breaksToken rest) : breaksName rest := by
  intro c hc
  have hchar := not_isTokenChar_of_breaksToken h c hc
  refine ⟨Bool.eq_false_iff.2 fun hname => ?_, ?_⟩
  · rw [isTokenChar_of_isNameChar hname] at hchar
    cases hchar
  · rintro rfl
    exact absurd hchar (by decide)

theorem breaksToken.breaksNumber (h : breaksToken rest) : breaksNumber rest := by
  intro c hc
  refine ⟨(h.breaksName c hc).1, ?_⟩
  rintro rfl
  exact absurd (not_isTokenChar_of_breaksToken h _ hc) (by decide)

theorem breaksToken.breaksSign (h : breaksToken rest) : breaksSign rest := by
  intro c hc
  have hchar := not_isTokenChar_of_breaksToken h c hc
  constructor <;> rintro rfl <;> exact absurd hchar (by decide)

theorem breaksToken.startsWithDigit_append (h : breaksToken rest) (text : List Char) :
    startsWithDigit (text ++ rest) = startsWithDigit text := by
  cases text with
  | cons c text => rfl
  | nil =>
    cases rest with
    | nil => rfl
    | cons c rest => exact not_isDigit_of_breaksNumber h.breaksNumber c rfl

theorem readName_append_rest (h : breaksName rest) (text : List Char) :
    readName (text ++ rest) = ((readName text).1, (readName text).2 ++ rest) := by
  fun_induction readName text with
  | case1 => exact readName_of_breaksName h
  | case2 c text hc ih => rw [List.cons_append, List.cons_append, readName, if_pos hc, ih]
  | case3 c text hc => rw [List.cons_append, List.cons_append, readName, if_neg hc]
  | case4 c text hne hc ih =>
    have hd : c ≠ '-' := by rintro rfl; exact absurd hc (by decide)
    rw [List.cons_append, readName_cons hd, if_pos hc, ih]
  | case5 c text hne hc =>
    by_cases hd : c = '-'
    · subst hd
      cases text with
      | cons d text => exact absurd rfl (hne d text rfl)
      | nil =>
        cases rest with
        | nil => rfl
        | cons d rest => simp [readName, (h d rfl).1]
    · rw [List.cons_append, readName_cons hd, if_neg hc]

end Breaks

/-! ## Pieces of two texts -/

section Pieces

variable {N : Type} [Scalar N] {c : Char} {rest tail : List Char} {p : Piece N}

/-- A piece other than a comment or an open string is read alike in front of a blank or a comment. -/
theorem Piece.read_append (h : Piece.read c rest = (p, tail)) (hc : c ≠ '#') (hq : c = '"' → '"' ∈ rest)
    {after : List Char} (ha : breaksToken after) : Piece.read c (rest ++ after) = (p, tail ++ after) := by
  by_cases hquote : c = '"'
  · subst hquote
    obtain ⟨inside, behind, rfl, hinside⟩ := List.eq_append_cons_of_mem (hq rfl)
    rw [read_string hinside] at h
    cases h
    rw [List.append_assoc, List.cons_append, read_string hinside]
  by_cases hname : isNameStart c = true
  · rw [read_of_isNameStart hname] at h ⊢
    cases h
    rw [readName_append_rest ha.breaksName]
  by_cases hnumber : (c.isDigit || (c = '.' && startsWithDigit rest)) = true
  · have hnumber' := hnumber
    rw [← ha.startsWithDigit_append] at hnumber'
    rw [read_of_number hnumber] at h
    obtain ⟨rfl, htail⟩ := Prod.mk.inj h
    have hnumeral : Numeral.read (c :: rest) = (_, tail) := Prod.ext rfl htail
    rw [read_of_number hnumber', ← List.cons_append,
      read_append_rest hnumeral ha.breaksNumber (Or.inr ha.breaksSign)]
  · unfold Piece.read at h ⊢
    rw [ha.startsWithDigit_append]
    simp only [if_neg hc, if_neg hquote, if_neg hname, if_neg hnumber] at h ⊢
    by_cases hs : isSeparator c = true
    · rw [if_pos hs] at h ⊢
      cases h
      rfl
    · rw [if_neg hs] at h ⊢
      split at h <;> cases h <;> rfl

/-- Behind such a piece a text is outside of strings. -/
theorem Piece.endsInString_chars (h : Piece.read c rest = (p, tail)) (hc : c ≠ '#') (hq : c = '"' → '"' ∈ rest) :
    endsInString false p.chars = false := by
  by_cases hquote : c = '"'
  · subst hquote
    obtain ⟨inside, behind, rfl, hinside⟩ := List.eq_append_cons_of_mem (hq rfl)
    rw [read_string hinside] at h
    cases h
    exact endsInString_string hinside
  have hsingle : '"' ∉ [c] := fun hm => hquote (List.mem_singleton.1 hm).symm
  have hnumeral : '"' ∉ (Numeral.read (c :: rest)).1.text := fun hm =>
    absurd (isTokenChar_numeral _ _ hm) (by decide)
  refine endsInString_eq_self ?_
  cases Piece.reads_of_eq h with
  | blank | mark | stray => exact hsingle
  | comment hcomment => exact absurd hcomment hc
  | openString hopen => exact absurd hopen hquote
  | string hopen => exact absurd hopen hquote
  | name hname =>
    intro hm
    exact absurd (isTokenChar_of_isIdentifier (readName_isIdentifier hname rest) _ hm) (by decide)
  | int | float | outOfRange => exact hnumeral

/-- **Pieces of two texts.** A text without a comment that is outside of strings at its end is cut into the same
pieces in front of a blank or a comment. -/
theorem pieces_append {a b : List Char} (ha : onlyInStrings '#' false a = true) (he : endsInString false a = false)
    (hb : breaksToken b) : (pieces (a ++ b) : List (Piece N)) = pieces a ++ pieces b := by
  fun_induction pieces (N := N) a with
  | case1 => rfl
  | case2 c rest next ih =>
    have hread : Piece.read c rest = (next.1, next.2) := rfl
    have hc : c ≠ '#' := by
      rintro rfl
      simp [onlyInStrings] at ha
    have hq : c = '"' → '"' ∈ rest := by
      rintro rfl
      by_contra hopen
      rw [endsInString, if_pos rfl, endsInString_eq_self hopen] at he
      cases he
    -- The piece is closed, so what is left of the text begins outside of strings, as the text does.
    have hclosed := Piece.endsInString_chars hread hc hq
    rw [← Piece.chars_read (N := N) c rest] at ha he
    rw [onlyInStrings_append, hclosed, Bool.and_eq_true] at ha
    rw [endsInString_append, hclosed] at he
    rw [List.cons_append, pieces_cons, Piece.read_append hread hc hq hb, ih ha.2 he]
    rfl

theorem tokenize_append {a b : List Char} (ha : onlyInStrings '#' false a = true) (he : endsInString false a = false)
    (hb : breaksToken b) :
    (tokenize (a ++ b) : List (Entry N)) = tokenize a ++ locate (Text.utf8Length a) (pieces b) := by
  rw [tokenize, pieces_append ha he hb, locate_append, flatMap_chars_pieces, Nat.zero_add]
  rfl

end Pieces

/-! ## Blanks in front of a comment -/

section Blanks

variable {N : Type} [Scalar N] {gap tail : List Char}

theorem read_separator {c : Char} (h : isSeparator c = true) (rest : List Char) :
    (Piece.read c rest : Piece N × List Char) = (.blank [c], rest) := by
  unfold Piece.read
  rw [if_pos h]

/-- White space that separates no tokens is no token either. -/
theorem read_whiteSpace {c : Char} (hc : Text.isWhiteSpace c = true) (hs : isSeparator c = false) (rest : List Char) :
    (Piece.read c rest : Piece N × List Char) = (.invalid [c], rest) := by
  have hne {d : Char} (hd : Text.isWhiteSpace d = false) : c ≠ d := by
    rintro rfl
    rw [hc] at hd
    cases hd
  have hname : isNameChar c = false := Bool.eq_false_iff.2 fun hname =>
    hne (not_isWhiteSpace_of_isNameChar hname) rfl
  have hstart : isNameStart c = false := Bool.eq_false_iff.2 fun h => by
    rw [isNameChar_of_isNameStart h] at hname
    cases hname
  have hdigit : c.isDigit = false := Bool.eq_false_iff.2 fun h => by
    rw [isNameChar_of_isDigit h] at hname
    cases hname
  have hmark : Mark.ofChar? c = none := by
    rw [← Option.not_isSome_iff_eq_none]
    intro hsome
    obtain ⟨m, hm⟩ := Option.isSome_iff_exists.1 hsome
    have hchar := isTokenChar_mark m
    rw [Mark.char_of_ofChar? hm] at hchar
    simp [isTokenChar, hc] at hchar
  unfold Piece.read
  simp only [hs, hne (d := '#') (by decide), hne (d := '"') (by decide), hne (d := '.') (by decide), hstart, hdigit,
    hmark, Bool.false_eq_true, decide_false, Bool.false_and, Bool.or_self, if_false]

/-- Separators and a comment are no entries. -/
theorem content?_eq_none_of_separators (hgap : ∀ c ∈ gap, isSeparator c = true) (htail : '\n' ∉ tail) :
    ∀ p ∈ (pieces (gap ++ '#' :: tail) : List (Piece N)), p.content? = none := by
  induction gap with
  | nil =>
    have hread : (Piece.read '#' tail : Piece N × List Char) = (.comment ('#' :: tail), []) := by
      have hall : ∀ c ∈ tail, decide (c ≠ '\n') = true := fun c hc =>
        decide_eq_true fun hnewline => htail (hnewline ▸ hc)
      unfold Piece.read
      rw [List.takeWhile_eq_self_iff.2 hall, List.dropWhile_eq_nil_iff.2 hall]
      rfl
    rw [List.nil_append, pieces_cons, hread, pieces_nil]
    simp [Piece.content?]
  | cons c gap ih =>
    obtain ⟨hc, hgap⟩ := List.forall_mem_cons.1 hgap
    rw [List.cons_append, pieces_cons, read_separator hc]
    exact List.forall_mem_cons.2 ⟨rfl, ih hgap⟩

/-- Other white space in front of a comment is an error. -/
theorem exists_tokens_eq_error (hgap : ∀ c ∈ gap, Text.isWhiteSpace c = true)
    (hother : ∃ c ∈ gap, isSeparator c = false) (offset : Nat) :
    ∃ bad, Entry.tokens (locate offset (pieces (gap ++ '#' :: tail) : List (Piece N))) = .error bad := by
  induction gap generalizing offset with
  | nil => simp at hother
  | cons c gap ih =>
    obtain ⟨hc, hgap⟩ := List.forall_mem_cons.1 hgap
    rw [List.cons_append, pieces_cons]
    by_cases hs : isSeparator c = true
    · rw [read_separator hs]
      refine ih hgap ?_ _
      obtain ⟨d, hd, hdother⟩ := hother
      rcases List.mem_cons.1 hd with rfl | hd
      · rw [hs] at hdother
        cases hdother
      · exact ⟨d, hd, hdother⟩
    · rw [read_whiteSpace hc (Bool.eq_false_iff.2 hs)]
      exact ⟨_, rfl⟩

omit [Scalar N] in
/-- The first stretch that is no token counts. -/
theorem Entry.tokens_append (es fs : List (Entry N)) :
    Entry.tokens (es ++ fs) =
      match Entry.tokens es with
      | .error bad => .error bad
      | .ok ts =>
        match Entry.tokens fs with
        | .error bad => .error bad
        | .ok us => .ok (ts ++ us) := by
  induction es with
  | nil => cases h : Entry.tokens fs <;> simp [Entry.tokens, h]
  | cons e es ih =>
    obtain ⟨content, start, stop⟩ := e
    cases content with
    | error cs => rfl
    | ok t =>
      rw [List.cons_append, Entry.tokens, Entry.tokens, ih]
      cases Entry.tokens es with
      | error bad => rfl
      | ok ts => cases Entry.tokens fs <;> rfl

end Blanks

/-! ## White space around a statement -/

section Around

variable {N : Type} [Scalar N] {gap text : List Char}

/-- White space with no stretch that is no token is blanks. -/
theorem tokens_blanks_append (hgap : ∀ c ∈ gap, Text.isWhiteSpace c = true)
    (h : ∀ cs, Piece.invalid cs ∉ (pieces (gap ++ text) : List (Piece N))) :
    tokensOf (pieces (gap ++ text) : List (Piece N)) = tokensOf (pieces text) ∧
      ∀ cs, Piece.invalid cs ∉ (pieces text : List (Piece N)) := by
  induction gap with
  | nil => exact ⟨rfl, h⟩
  | cons c gap ih =>
    obtain ⟨hc, hgap⟩ := List.forall_mem_cons.1 hgap
    rw [List.cons_append, pieces_cons] at h ⊢
    by_cases hs : isSeparator c = true
    · rw [read_separator hs] at h ⊢
      exact ih hgap fun cs hm => h cs (List.mem_cons_of_mem _ hm)
    · rw [read_whiteSpace hc (Bool.eq_false_iff.2 hs)] at h
      exact absurd List.mem_cons_self (h [c])

/-- What is left of a text and white space behind it once a first part is dropped. -/
theorem exists_dropWhile_append (p : Char → Bool) (text gap : List Char) :
    ∃ gap', gap' <:+ gap ∧ (text ++ gap).dropWhile p = text.dropWhile p ++ gap' := by
  rw [List.dropWhile_append]
  split
  · next hnil => exact ⟨gap.dropWhile p, List.dropWhile_suffix p, by rw [List.isEmpty_iff.1 hnil, List.nil_append]⟩
  · exact ⟨gap, List.suffix_refl gap, rfl⟩

theorem read_openString {rest : List Char} (h : '"' ∉ rest) :
    (Piece.read '"' rest : Piece N × List Char) = (.invalid ('"' :: rest), []) := by
  have hall : ∀ c ∈ rest, decide (c ≠ '"') = true := fun c hc => decide_eq_true fun hquote => h (hquote ▸ hc)
  have hread : (Piece.read '"' rest : Piece N × List Char) = Piece.readString rest := rfl
  rw [hread, Piece.readString, List.dropWhile_eq_nil_iff.2 hall]

/-- White space behind a text is blanks, or the end of a comment. -/
theorem tokens_append_blanks (hgap : ∀ c ∈ gap, Text.isWhiteSpace c = true)
    (h : ∀ cs, Piece.invalid cs ∉ (pieces (text ++ gap) : List (Piece N))) :
    tokensOf (pieces (text ++ gap) : List (Piece N)) = tokensOf (pieces text) ∧
      ∀ cs, Piece.invalid cs ∉ (pieces text : List (Piece N)) := by
  revert gap
  fun_induction pieces (N := N) text
  case case1 =>
    intro gap hgap h
    rw [List.nil_append] at h ⊢
    rw [← List.append_nil gap] at h ⊢
    obtain ⟨htokens, -⟩ := tokens_blanks_append hgap h
    exact ⟨by rw [htokens, pieces_nil], by simp⟩
  case case2 c rest next ih =>
    intro gap hgap h
    have hread : Piece.read c rest = (next.1, next.2) := rfl
    rw [List.cons_append, pieces_cons] at h ⊢
    by_cases hcomment : c = '#'
    · -- The comment may go on into the white space.
      subst hcomment
      obtain ⟨gap', hsuffix, hrest⟩ := exists_dropWhile_append (· ≠ '\n') rest gap
      have hlonger : (Piece.read '#' (rest ++ gap) : Piece N × List Char) =
          (.comment ('#' :: (rest ++ gap).takeWhile (· ≠ '\n')), next.2 ++ gap') := Prod.ext rfl hrest
      rw [hlonger] at h ⊢
      obtain ⟨htokens, hvalid⟩ := ih (fun c hc => hgap c (hsuffix.subset hc)) fun cs hm =>
        h cs (List.mem_cons_of_mem _ hm)
      refine ⟨htokens, fun cs hm => ?_⟩
      rcases List.mem_cons.1 hm with hfirst | hm
      · cases hfirst
      · exact hvalid cs hm
    by_cases hopen : c = '"' ∧ '"' ∉ rest
    · obtain ⟨rfl, hrest⟩ := hopen
      have hquote : '"' ∉ rest ++ gap := fun hm =>
        (List.mem_append.1 hm).elim hrest fun hm => absurd (hgap _ hm) (by decide)
      rw [read_openString hquote] at h
      exact absurd List.mem_cons_self (h _)
    · have hbreaks : breaksToken gap := fun c hc => Or.inl (hgap c (List.mem_of_head? hc))
      rw [Piece.read_append hread hcomment (fun hc => by_contra fun hm => hopen ⟨hc, hm⟩) hbreaks] at h ⊢
      obtain ⟨htokens, hvalid⟩ := ih hgap fun cs hm => h cs (List.mem_cons_of_mem _ hm)
      refine ⟨?_, fun cs hm => ?_⟩
      · rw [← List.singleton_append, tokensOf_append, htokens, ← tokensOf_append]
        rfl
      rcases List.mem_cons.1 hm with hfirst | hm
      · exact h cs (hfirst ▸ List.mem_cons_self)
      · exact hvalid cs hm

/-- A statement all of whose stretches are tokens has the same tokens without the white space around it. -/
theorem statementTokens_trim {line : Nat} {tokens : List (Token N)} (h : statementTokens line text = .ok tokens) :
    statementTokens line (Text.trim text) = .ok tokens := by
  obtain ⟨before, after, htext, hbefore, hafter⟩ := Text.exists_blanks_append text
  obtain ⟨rfl, hvalid⟩ := statementTokens_eq_ok h
  rw [htext] at hvalid
  obtain ⟨hstart, hvalid⟩ := tokens_blanks_append hbefore hvalid
  obtain ⟨hend, hvalid⟩ := tokens_append_blanks hafter hvalid
  rw [htext, hstart, hend, ← htext]
  exact statementTokens_of_valid line hvalid

end Around

/-! ## Comments -/

theorem stripComment_cases (inString : Bool) (text : List Char) :
    stripComment inString text = text ∨
      ∃ tail, text = stripComment inString text ++ '#' :: tail ∧
        endsInString inString (stripComment inString text) = false := by
  induction text generalizing inString with
  | nil => exact Or.inl rfl
  | cons c rest ih =>
    rw [stripComment]
    split
    · next hc =>
      simp only [Bool.and_eq_true, decide_eq_true_eq, Bool.not_eq_true'] at hc
      exact Or.inr ⟨rest, by rw [hc.1]; rfl, hc.2⟩
    · rcases ih (if c = '"' then !inString else inString) with h | ⟨tail, h, hstring⟩
      · exact Or.inl (congrArg (c :: ·) h)
      · exact Or.inr ⟨tail, congrArg (c :: ·) h, hstring⟩

/-- A text with a comment behind a statement: the statement, white space and the comment. -/
structure IsCommented (text statement gap comment : List Char) : Prop where
  trim_eq : Text.trim text = statement ++ (gap ++ '#' :: comment)
  uncommented : onlyInStrings '#' false statement = true
  closed : endsInString false statement = false
  gap_blank : ∀ c ∈ gap, Text.isWhiteSpace c = true

theorem exists_isCommented {text : List Char} (hb : Text.isBlank (stripComment false text) = false)
    (h : stripComment false text ≠ text) :
    ∃ gap comment, IsCommented text (Text.trim (stripComment false text)) gap comment ∧
      Text.trimEnd (stripComment false text) ++ gap = stripComment false text ∧ comment ⊆ text := by
  obtain ⟨tail, htext, hclosed⟩ := (stripComment_cases false text).resolve_left h
  have huncommented := onlyInStrings_stripComment false text
  generalize stripComment false text = bare at *
  have hsolid : Text.isBlank (Text.trim bare) = false := Text.not_isBlank_trim hb
  have hsolidStart := Text.solidStart_trim bare
  have hsolidEnd := Text.solidEnd_trim bare
  have htrim := onlyInStrings_trim huncommented
  obtain ⟨before, gap, hbare, hbefore, hgap⟩ := Text.exists_blanks_append bare
  generalize Text.trim bare = statement at *
  have hquote {blanks : List Char} (hblanks : ∀ c ∈ blanks, Text.isWhiteSpace c = true) : '"' ∉ blanks := fun hm =>
    absurd (hblanks _ hm) (by decide)
  have hstart : Text.trimStart bare = statement ++ gap := by
    have hne : statement ≠ [] := fun hnil => by rw [hnil] at hsolid; cases hsolid
    rw [hbare, Text.trimStart, List.dropWhile_append_of_pos hbefore]
    exact Text.trimStart_eq_self (Text.solidStart_append hsolidStart hne gap)
  have hend : Text.trimEnd bare = before ++ statement := by
    rw [hbare, ← List.append_assoc, Text.trimEnd_append_blanks _ hgap, Text.trimEnd_append _ hsolid,
      Text.trimEnd_eq_self hsolidEnd]
  have hcomment : Text.isBlank ('#' :: tail) = false := by
    rw [Text.isBlank, List.all_cons, show Text.isWhiteSpace '#' = false by decide, Bool.false_and]
  have htail : Text.trimEnd ('#' :: tail) = '#' :: Text.trimEnd tail := by
    rw [Text.trimEnd]
    split
    · next hnil => rw [hnil, if_neg (by decide)]
    · rfl
  refine ⟨gap, Text.trimEnd tail, ⟨?_, htrim, ?_, hgap⟩, ?_, ?_⟩
  · rw [htext, Text.trim_append hb hcomment, hstart, htail, List.append_assoc]
  · rwa [hbare, endsInString_append, endsInString_eq_self (hquote hbefore), endsInString_append,
      endsInString_eq_self (hquote hgap)] at hclosed
  · rw [hend, List.append_assoc, ← hbare]
  · rw [htext]
    exact fun c hc => List.mem_append_right _ (List.mem_cons_of_mem _ ((Text.prefix_trimEnd _).subset hc))

end QuilControl
