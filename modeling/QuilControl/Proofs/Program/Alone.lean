import QuilControl.Proofs.Instruction.Commented
import QuilControl.Proofs.Program.Comments
import QuilControl.Proofs.Program.RoundTrip

/-!
# Statements alone and in programs

A program is read from its lines without their comments, and a statement alone with its comment. The comment makes
no difference when the lexer passes over it, with the white space in front of it (`SkipsComment`). It is kept with a
statement that is kept as its text and with a region that is shared, and white space that separates no tokens is
an error in front of a comment but nothing at the end of a line. There are no other differences
(`Program.ofText_eq_add_iff`): an instruction by itself can be added to the empty program, so what is read is the
same instruction, or the same error.
-/

namespace QuilControl

variable {N : Type} [Scalar N]

/-! ## Reading a statement -/

namespace Instruction

variable {line : Nat} {text : List Char}

theorem ofChars_trim (line : Nat) (text : List Char) :
    (ofChars line (Text.trim text) : Except QuilError (Instruction N)) = ofChars line text := by
  have htrim : Text.trim (Text.trim text) = Text.trim text :=
    Text.trim_eq_self (Text.solidStart_trim text) (Text.solidEnd_trim text)
  unfold ofChars
  rw [htrim]

/-- Only a statement that is kept as its text gives such an instruction. -/
theorem ofChars_eq_other {kept : String}
    (h : (ofChars line text : Except QuilError (Instruction N)) = .ok (other kept)) :
    kept = String.ofList (Text.trim text) := by
  unfold ofChars at h
  dsimp only at h
  split at h
  · cases h
    rfl
  · split at h
    · cases h
    · split at h
      · cases h
      · next i hi =>
        cases h
        exact absurd hi ofTokens_ne_other

/-- A statement that is not kept as its text is read from its tokens. -/
theorem ofChars_eq_of_tokens {tokens : List (Token N)}
    (hword : String.ofList (firstWord (Text.trim text)) ∉ verbatimKeywords)
    (htokens : statementTokens line (Text.trim text) = .ok tokens) :
    ofChars line text =
      (ofTokens (textOfUnread (Text.trim text) ((tokenize (N := N) (Text.trim text)).map (·.start))) tokens).mapError
        (Fault.atLine line) := by
  unfold ofChars
  dsimp only
  rw [if_neg (by simpa using hword), htokens]
  dsimp only
  cases ofTokens (textOfUnread (Text.trim text) ((tokenize (N := N) (Text.trim text)).map (·.start))) tokens <;> rfl

theorem ofChars_eq_error {e : QuilError}
    (hword : String.ofList (firstWord (Text.trim text)) ∉ verbatimKeywords)
    (htokens : statementTokens (N := N) line (Text.trim text) = .error e) :
    (ofChars line text : Except QuilError (Instruction N)) = .error e := by
  unfold ofChars
  dsimp only
  rw [if_neg (by simpa using hword), htokens]

end Instruction

/-! ## A comment behind a statement -/

section Commented

variable {text statement gap comment : List Char} {line : Nat}

/-- The first word of a statement goes on into a comment directly behind it, or does not. -/
theorem firstWord_commented (h : ∀ c ∈ gap, Text.isWhiteSpace c = true) :
    firstWord (statement ++ (gap ++ '#' :: comment)) = firstWord statement ∨
      '#' ∈ firstWord (statement ++ (gap ++ '#' :: comment)) := by
  unfold firstWord
  rw [List.takeWhile_append]
  split
  · next hword =>
    cases gap with
    | nil => exact Or.inr (by simp [show Text.isWhiteSpace '#' = false by decide])
    | cons c gap =>
      have hc := h c List.mem_cons_self
      refine Or.inl ?_
      rw [(List.takeWhile_prefix _).eq_of_length hword]
      simp [hc]
  · exact Or.inl rfl

theorem hash_notMem_verbatimKeywords : ∀ word ∈ verbatimKeywords, '#' ∉ word.toList := by decide

theorem IsCommented.lexed (h : IsCommented text statement gap comment)
    (hword : String.ofList (firstWord statement) ∉ verbatimKeywords) :
    String.ofList (firstWord (Text.trim text)) ∉ verbatimKeywords := by
  rw [h.trim_eq]
  intro hm
  have hcases : firstWord (statement ++ (gap ++ '#' :: comment)) = firstWord statement ∨ _ :=
    firstWord_commented h.gap_blank
  rcases hcases with heq | hhash
  · exact hword (heq ▸ hm)
  · exact hash_notMem_verbatimKeywords _ hm (by rwa [String.toList_ofList])

theorem IsCommented.breaksToken (h : IsCommented text statement gap comment) : breaksToken (gap ++ '#' :: comment) := by
  cases gap with
  | nil => exact breaksToken_cons.2 (Or.inr rfl)
  | cons c gap => exact breaksToken_cons.2 (Or.inl (h.gap_blank c List.mem_cons_self))

/-- Separators and a comment do not change the entries. -/
theorem IsCommented.tokenize_eq (h : IsCommented text statement gap comment)
    (hgap : ∀ c ∈ gap, isSeparator c = true) (hcomment : '\n' ∉ comment) :
    (tokenize (Text.trim text) : List (Entry N)) = tokenize statement := by
  rw [h.trim_eq, tokenize_append h.uncommented h.closed h.breaksToken,
    locate_eq_nil (content?_eq_none_of_separators hgap hcomment), List.append_nil]

/-- The first stretch of a statement that is no token is the first one with the comment. -/
theorem IsCommented.statementTokens_eq_error (h : IsCommented text statement gap comment) {e : QuilError}
    (htokens : statementTokens (N := N) line statement = .error e) :
    statementTokens (N := N) line (Text.trim text) = .error e := by
  unfold statementTokens at htokens ⊢
  rw [h.trim_eq, tokenize_append h.uncommented h.closed h.breaksToken, Entry.tokens_append]
  cases hentries : Entry.tokens (tokenize (N := N) statement) with
  | error bad => rwa [hentries] at htokens
  | ok tokens =>
    rw [hentries] at htokens
    cases htokens

/-- White space that separates nothing is the first such stretch, when the statement has none. -/
theorem IsCommented.exists_lexer_error (h : IsCommented text statement gap comment) {tokens : List (Token N)}
    (htokens : statementTokens line statement = .ok tokens) (hgap : ∃ c ∈ gap, isSeparator c = false) :
    ∃ column message, statementTokens (N := N) line (Text.trim text) = .error (.lexer line column message) := by
  obtain ⟨bad, hbad⟩ : ∃ bad, Entry.tokens (locate (Text.utf8Length statement)
      (pieces (gap ++ '#' :: comment) : List (Piece N))) = .error bad := exists_tokens_eq_error h.gap_blank hgap _
  unfold statementTokens at htokens ⊢
  rw [h.trim_eq, tokenize_append h.uncommented h.closed h.breaksToken, Entry.tokens_append, hbad]
  cases hentries : Entry.tokens (tokenize (N := N) statement) with
  | error bad' =>
    rw [hentries] at htokens
    cases htokens
  | ok tokens' => exact ⟨_, _, rfl⟩

/-- The text from some token on has the comment at its end. -/
theorem IsCommented.textOfUnread_ne (h : IsCommented text statement gap comment) {tokens shared : List (Token N)}
    (hgap : ∀ c ∈ gap, isSeparator c = true) (hcomment : '\n' ∉ comment)
    (htokens : statementTokens line statement = .ok tokens) (hshared : shared <:+ tokens) (hne : shared ≠ []) :
    textOfUnread (Text.trim text) ((tokenize (N := N) statement).map (·.start)) shared.length ≠
      textOfUnread statement ((tokenize (N := N) statement).map (·.start)) shared.length := by
  obtain ⟨rfl, hvalid⟩ := statementTokens_eq_ok htokens
  obtain ⟨ps, cs, t, qs, hpieces, hlength⟩ := exists_piece_of_suffix hshared hne
  have hnone := content?_eq_none_of_separators (N := N) hgap hcomment
  have hpieces' : (pieces (Text.trim text) : List (Piece N)) =
      ps ++ .token cs t :: (qs ++ pieces (gap ++ '#' :: comment)) := by
    rw [h.trim_eq, pieces_append h.uncommented h.closed h.breaksToken, hpieces, List.append_assoc, List.cons_append]
  have hlength' : shared.length = (tokensOf (qs ++ pieces (gap ++ '#' :: comment) : List (Piece N))).length + 1 := by
    rw [tokensOf_append, tokensOf_eq_nil hnone, List.append_nil, hlength]
  have hvalid' : ∀ cs, Piece.invalid cs ∉ (pieces (Text.trim text) : List (Piece N)) := by
    intro ds hm
    rw [h.trim_eq, pieces_append h.uncommented h.closed h.breaksToken, List.mem_append] at hm
    rcases hm with hm | hm
    · exact hvalid ds hm
    · cases hnone _ hm
  intro heq
  rw [← h.tokenize_eq hgap hcomment] at heq
  conv_lhs at heq => rw [hlength', textOfUnread_eq hpieces' hvalid']
  rw [h.tokenize_eq hgap hcomment, hlength, textOfUnread_eq hpieces hvalid] at heq
  -- Trimming keeps number signs, and the comment has one more.
  have hcount := congrArg (List.count '#') heq
  rw [Text.count_trim _ (by decide), Text.count_trim _ (by decide)] at hcount
  simp only [List.flatMap_cons, List.flatMap_append, flatMap_chars_pieces, List.count_append,
    List.count_cons_self] at hcount
  omega

/-- A statement that is passed over with the comment behind it: it is not kept as its text, shares no region, and
the lexer passes over the white space in front of the comment, unless it does not get there. -/
structure SkipsComment (N : Type) [Scalar N] (bare : List Char) : Prop where
  lexed : String.ofList (firstWord (Text.trim bare)) ∉ verbatimKeywords
  unshared : ∀ d, Instruction.ofChars (N := N) 1 bare = .ok (.declaration d) → d.sharing = none
  separated : (∃ e, statementTokens (N := N) 1 (Text.trim bare) = .error e) ∨
    ∀ gap, Text.trimEnd bare ++ gap = bare → ∀ c ∈ gap, isSeparator c = true

/-- A comment behind a statement that is lexed, with separators in front of it. -/
theorem IsCommented.ofChars_eq_iff (h : IsCommented text statement gap comment) (hgap : ∀ c ∈ gap, isSeparator c = true)
    (hcomment : '\n' ∉ comment) {bare : List Char} (hbare : Text.trim bare = statement)
    (hword : String.ofList (firstWord statement) ∉ verbatimKeywords) :
    (Instruction.ofChars 1 bare : Except QuilError (Instruction N)) = Instruction.ofChars 1 text ↔
      ∀ d, Instruction.ofChars (N := N) 1 bare = .ok (.declaration d) → d.sharing = none := by
  subst hbare
  cases htokens : statementTokens (N := N) 1 (Text.trim bare) with
  | error e =>
    rw [Instruction.ofChars_eq_error hword htokens,
      Instruction.ofChars_eq_error (h.lexed hword) (h.statementTokens_eq_error htokens)]
    exact iff_of_true rfl nofun
  | ok tokens =>
    have htokens' : statementTokens (N := N) 1 (Text.trim text) = .ok tokens := by
      unfold statementTokens at htokens ⊢
      rwa [h.tokenize_eq hgap hcomment]
    rw [Instruction.ofChars_eq_of_tokens hword htokens, Instruction.ofChars_eq_of_tokens (h.lexed hword) htokens',
      h.tokenize_eq hgap hcomment]
    rcases Instruction.ofTokens_cases tokens with ⟨r, hr, hnone⟩ | ⟨d, shared, hsuffix, hne, hread⟩
    · rw [hr, hr]
      refine iff_of_true rfl fun d hd => hnone d ?_
      cases r with
      | error fault => cases hd
      | ok i => exact congrArg _ (Except.ok.inj hd)
    · rw [hread, hread]
      have hdiffers := h.textOfUnread_ne hgap hcomment htokens hsuffix hne
      refine iff_of_false (fun heq => hdiffers ?_) fun hnone => ?_
      · simp only [Except.mapError, Except.ok.injEq, Instruction.declaration.injEq, Declaration.mk.injEq,
          Option.some.injEq, String.ofList_inj, true_and] at heq
        exact heq.symm
      · cases hnone _ rfl

/-- Where white space in front of a comment separates nothing, only errors are the same. -/
theorem IsCommented.ofChars_eq_iff_error (h : IsCommented text statement gap comment)
    (hgap : ∃ c ∈ gap, isSeparator c = false) {bare : List Char} (hbare : Text.trim bare = statement)
    (hword : String.ofList (firstWord statement) ∉ verbatimKeywords) :
    (Instruction.ofChars 1 bare : Except QuilError (Instruction N)) = Instruction.ofChars 1 text ↔
      ∃ e, statementTokens (N := N) 1 statement = .error e := by
  subst hbare
  cases htokens : statementTokens (N := N) 1 (Text.trim bare) with
  | error e =>
    rw [Instruction.ofChars_eq_error hword htokens,
      Instruction.ofChars_eq_error (h.lexed hword) (h.statementTokens_eq_error htokens)]
    exact iff_of_true rfl ⟨e, rfl⟩
  | ok tokens =>
    obtain ⟨column, message, herror⟩ := h.exists_lexer_error htokens hgap
    rw [Instruction.ofChars_eq_error (h.lexed hword) herror, Instruction.ofChars_eq_of_tokens hword htokens]
    refine iff_of_false (fun heq => ?_) nofun
    cases hread : Instruction.ofTokens
        (textOfUnread (Text.trim bare) ((tokenize (N := N) (Text.trim bare)).map (·.start))) tokens with
    | error fault =>
      rw [hread] at heq
      exact fault.atLine_ne_lexer _ _ _ _ (Except.error.inj heq)
    | ok i =>
      rw [hread] at heq
      cases heq

/-- A statement without line ends is the same with the comment behind it just when the comment is passed over. -/
theorem Instruction.ofChars_stripComment_iff (hn : '\n' ∉ text) (hb : Text.isBlank (stripComment false text) = false) :
    (ofChars 1 (stripComment false text) : Except QuilError (Instruction N)) = ofChars 1 text ↔
      stripComment false text = text ∨ SkipsComment N (stripComment false text) := by
  by_cases heq : stripComment false text = text
  · rw [heq]
    exact iff_of_true rfl (Or.inl rfl)
  obtain ⟨gap, comment, h, hgap, hsub⟩ := exists_isCommented hb heq
  have hcomment : '\n' ∉ comment := fun hm => hn (hsub hm)
  have hunique (other : List Char)
      (ho : Text.trimEnd (stripComment false text) ++ other = stripComment false text) : other = gap :=
    List.append_cancel_left (ho.trans hgap.symm)
  rw [or_iff_right heq]
  generalize stripComment false text = bare at *
  by_cases hword : String.ofList (firstWord (Text.trim bare)) ∈ verbatimKeywords
  · -- Alone, the text is kept with its comment, or the comment directly behind the word makes it another word.
    refine iff_of_false (fun hsame => ?_) fun hskips => hskips.lexed hword
    have hkept : (ofChars 1 bare : Except QuilError (Instruction N)) =
        .ok (other (String.ofList (Text.trim bare))) := by
      unfold ofChars
      dsimp only
      rw [if_pos (by simpa using hword)]
    have htext := String.ofList_inj.1 (ofChars_eq_other (hsame.symm.trans hkept))
    rw [h.trim_eq] at htext
    simp at htext
  · by_cases hseparators : ∀ c ∈ gap, isSeparator c = true
    · rw [h.ofChars_eq_iff hseparators hcomment rfl hword]
      exact ⟨fun hnone => ⟨hword, hnone, Or.inr fun other ho => hunique other ho ▸ hseparators⟩,
        SkipsComment.unshared⟩
    · have hother : ∃ c ∈ gap, isSeparator c = false := by simpa using hseparators
      rw [h.ofChars_eq_iff_error hother rfl hword]
      constructor
      · rintro ⟨e, he⟩
        refine ⟨hword, fun d hd => ?_, Or.inl ⟨e, he⟩⟩
        rw [ofChars_eq_error hword he] at hd
        cases hd
      · rintro ⟨-, -, he | hall⟩
        · exact he
        · exact absurd (hall gap hgap) hseparators

end Commented

/-! ## A statement in a program -/

omit [Scalar N] in
/-- Any instruction can be added to the empty program. -/
theorem Program.add_empty (i : Instruction N) :
    ∃ p : Program N, empty.add i = .ok p ∧ p.declarations.map .declaration ++ p.body = [i] := by
  cases i with
  | declaration d => exact ⟨_, rfl, rfl⟩
  | pragma | call | gate | measurement | fence | delay | frameUpdate | other => exact ⟨_, rfl, rfl⟩

omit [Scalar N] in
theorem Program.bind_add_empty_inj {x y : Except QuilError (Instruction N)} :
    (x >>= (empty.add ·)) = (y >>= (empty.add ·)) ↔ x = y := by
  refine ⟨fun h => ?_, fun h => h ▸ rfl⟩
  cases x with
  | error e =>
    cases y with
    | error e' => exact congrArg _ (Except.error.inj h)
    | ok j =>
      obtain ⟨q, hq, -⟩ := add_empty j
      cases h.trans hq
  | ok i =>
    obtain ⟨p, hp, hi⟩ := add_empty i
    cases y with
    | error e => cases hp.symm.trans h
    | ok j =>
      obtain ⟨q, hq, hj⟩ := add_empty j
      cases hp.symm.trans (h.trans hq)
      rw [hi] at hj
      rw [List.singleton_inj.1 hj]

/-- A text that is one statement is a program with its instruction, read without the comment. -/
theorem Program.ofText_eq_bind {source : String} (hn : '\n' ∉ source.toList)
    (hs : onlyInStrings ';' false source.toList = true) (hb : Text.isBlank (stripComment false source.toList) = false)
    (hd : ¬ "DEF".toList <+: firstWord (Text.trim source.toList)) :
    (ofText source : Except QuilError (Program N)) =
      Instruction.ofChars 1 (stripComment false source.toList) >>= (empty.add ·) := by
  have hne : source.toList ≠ [] := by
    intro hnil
    rw [hnil] at hb
    cases hb
  have hbegins : Text.trim (stripComment false source.toList) <+: Text.trim source.toList := by
    by_cases heq : stripComment false source.toList = source.toList
    · exact heq.symm ▸ List.prefix_refl _
    · obtain ⟨gap, comment, h, -, -⟩ := exists_isCommented hb heq
      exact ⟨_, h.trim_eq.symm⟩
  have hsemicolon : onlyInStrings ';' false (stripComment false source.toList) = true := by
    obtain ⟨tail, htail⟩ := prefix_stripComment false source.toList
    rw [← htail] at hs
    exact onlyInStrings_of_append hs
  have hread : readLine 1 ⟨(empty : Program N), none⟩ source.toList =
      openLine 1 empty (Text.trimEnd (stripComment false source.toList)) := by
    unfold readLine
    simp only [Text.isBlank_trimEnd, hb, Bool.false_eq_true, if_false]
    split <;> rfl
  rw [ofText, ofChars, Text.lines_line hn hne, readLines, hread, openLine, Text.trim_trimEnd,
    ← Instruction.ofChars_trim]
  rw [Instruction.prefix_firstWord_iff (by decide)] at hd
  have hstatement : statements (Text.trim (stripComment false source.toList)) =
      [Text.trim (stripComment false source.toList)] := by
    rw [statements, cutStatements_eq_self (onlyInStrings_trim hsemicolon)]
    simp [Text.not_isBlank_trim hb]
  generalize Text.trim (stripComment false source.toList) = statement at *
  have hdef : ¬ "DEF".toList.isPrefixOf (firstWord statement) = true := by
    rw [List.isPrefixOf_iff_prefix, Instruction.prefix_firstWord_iff (by decide)]
    exact fun hp => hd (hp.trans hbegins)
  have hframe : firstWord statement ≠ "DEFFRAME".toList := fun heq => hdef (by rw [heq]; decide)
  simp only [if_neg hframe, if_neg hdef, hstatement, addStatements]
  cases Instruction.ofChars (N := N) 1 statement with
  | error e => rfl
  | ok i =>
    obtain ⟨p, hp, -⟩ := add_empty i
    simp only [hp, readLines, bind, Except.bind]
    rfl

/-- **Statements alone and in programs.** A text that is one statement and opens no block is the program with the
instruction that it is alone, or the same error, just when it has no comment or the comment is passed over. -/
theorem Program.ofText_eq_add_iff {source : String} (hn : '\n' ∉ source.toList)
    (hs : onlyInStrings ';' false source.toList = true) (hb : Text.isBlank (stripComment false source.toList) = false)
    (hd : ¬ "DEF".toList <+: firstWord (Text.trim source.toList)) :
    (ofText source : Except QuilError (Program N)) = Instruction.ofText 1 source >>= (empty.add ·) ↔
      stripComment false source.toList = source.toList ∨ SkipsComment N (stripComment false source.toList) := by
  rw [ofText_eq_bind hn hs hb hd, bind_add_empty_inj]
  exact Instruction.ofChars_stripComment_iff hn hb

/-- A gate with a comment behind it, over the whole numbers. -/
theorem Program.ofText_eq_add_iff_gate :
    (ofText "X 1 # flip" : Except QuilError (Program Whole)) =
      Instruction.ofText 1 "X 1 # flip" >>= (empty.add ·) := by
  have hlegible : (Instruction.gate (N := Whole) ⟨[], "X", [], [.fixed 1]⟩).IsLegible :=
    (isLegible_gate [1] (by decide) (by decide) (by simp) fun _ => ⟨by decide, by decide, by decide⟩).1
  have hread : Instruction.ofChars (N := Whole) 1 (stripComment false "X 1 # flip".toList) =
      .ok (.gate ⟨[], "X", [], [.fixed 1]⟩) := Instruction.ofChars_chars Whole.literalLaws hlegible 1
  refine (ofText_eq_add_iff (by decide) (by decide) (by decide) (by decide)).2 (Or.inr ⟨by decide, ?_, Or.inr ?_⟩)
  · rw [hread]
    nofun
  · intro gap hgap
    have hgap : "X 1".toList ++ gap = "X 1".toList ++ [' '] := hgap
    rw [List.append_cancel_left hgap]
    exact List.forall_mem_singleton.2 rfl

/-- `HALT` with a comment behind it is kept with the comment when it is read alone, and without it in a program. -/
theorem Program.ofText_ne_add_halt :
    '\n' ∉ "HALT # done".toList ∧ onlyInStrings ';' false "HALT # done".toList = true ∧
      Text.isBlank (stripComment false "HALT # done".toList) = false ∧
      ¬ "DEF".toList <+: firstWord (Text.trim "HALT # done".toList) ∧
      (ofText "HALT # done" : Except QuilError (Program Whole)) ≠
        Instruction.ofText 1 "HALT # done" >>= (empty.add ·) := by
  have hprogram : (ofText "HALT # done" : Except QuilError (Program Whole)) = .ok ⟨[], [], [], [.other "HALT"]⟩ := by
    rfl
  have halone : Instruction.ofText 1 "HALT # done" >>= (empty.add ·) =
      (.ok ⟨[], [], [], [.other "HALT # done"]⟩ : Except QuilError (Program Whole)) := by
    rfl
  refine ⟨by decide, by decide, by decide, by decide, ?_⟩
  rw [hprogram, halone]
  simp

end QuilControl
