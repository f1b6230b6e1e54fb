import QuilControl.Proofs.Program.Adding
import QuilControl.Proofs.Program.Alone
import QuilControl.Proofs.Scalar.Whole

/-!
# Where the lexer stops

An invalid stretch is reported at the column of its first byte in the text that the lexer was given, and on the
line of that text. Such a text is a statement or the header of a frame, which may stand anywhere on its line, or a
whole line, when that is an attribute of a frame (`LexedFrom`). So the column counts from the first byte of the
statement, and is that of the line only when the statement begins the line (`Program.ofText_lexer_error`).
-/

namespace QuilControl

variable {N : Type} [Scalar N]

/-! ## Where statements begin -/

/-- From byte `start` of its line on, the text is given to the lexer: a whole line, when it is indented, or a
statement without the white space around it. A statement begins its line or follows a semicolon outside of strings,
and goes on to a semicolon, a comment or the end of its line. -/
inductive LexedFrom (raw : List Char) : Nat → List Char → Prop
  | line (h : isIndented raw = true) : LexedFrom raw 0 (Text.trimEnd (stripComment false raw))
  | statement {front blanks text gap rest : List Char} (hraw : raw = front ++ (blanks ++ (text ++ (gap ++ rest))))
    (hfront : front = [] ∨ ∃ before, front = before ++ [';'] ∧ endsInString false before = false)
    (hblanks : ∀ c ∈ blanks, Text.isWhiteSpace c = true) (hstart : Text.solidStart text) (hend : Text.solidEnd text)
    (hgap : ∀ c ∈ gap, Text.isWhiteSpace c = true) (hrest : ∀ c ∈ rest.head?, c = ';' ∨ c = '#') :
    LexedFrom raw (Text.utf8Length (front ++ blanks)) text

theorem LexedFrom.isSlice {raw text : List Char} {start : Nat} (h : LexedFrom raw start text) :
    IsSlice raw start (start + Text.utf8Length text) text := by
  cases h with
  | line =>
    obtain ⟨tail, htail⟩ := (Text.prefix_trimEnd (stripComment false raw)).trans (prefix_stripComment false raw)
    exact ⟨[], tail, htail.symm, rfl, (Nat.zero_add _).symm⟩
  | @statement front blanks _ gap rest hraw =>
    exact ⟨front ++ blanks, gap ++ rest, by simp only [hraw, List.append_assoc], rfl, Text.utf8Length_append _ _⟩

/-- A stretch of a line that begins it or follows a semicolon, without the white space around it. -/
theorem LexedFrom.of_part {raw front part rest : List Char}
    (hline : Text.trim (stripComment false raw) = front ++ (part ++ rest))
    (hfront : front = [] ∨ ∃ before, front = before ++ [';'] ∧ endsInString false before = false)
    (hrest : ∀ c ∈ rest.head?, c = ';') : ∃ start, LexedFrom raw start (Text.trim part) := by
  obtain ⟨before, gap, hbare, hbefore, hgap⟩ := Text.exists_blanks_append (stripComment false raw)
  obtain ⟨blanks, behind, hpart, hblanks, hbehind⟩ := Text.exists_blanks_append part
  obtain ⟨comment, hraw, hcomment⟩ :
      ∃ comment, raw = stripComment false raw ++ comment ∧ ∀ c ∈ comment.head?, c = '#' := by
    rcases stripComment_cases false raw with h | ⟨tail, h, -⟩
    · exact ⟨[], by rw [h, List.append_nil], nofun⟩
    · exact ⟨'#' :: tail, h, by simp⟩
  -- Behind the part there are blanks, up to a semicolon, or up to the comment when it is the last part.
  obtain ⟨space, others, hafter, hspace, hothers⟩ :
      ∃ space others, behind ++ (rest ++ (gap ++ comment)) = space ++ others ∧
        (∀ c ∈ space, Text.isWhiteSpace c = true) ∧ ∀ c ∈ others.head?, c = ';' ∨ c = '#' := by
    cases rest with
    | nil =>
      refine ⟨behind ++ gap, comment, by simp, ?_, fun c hc => Or.inr (hcomment c hc)⟩
      exact fun c hc => (List.mem_append.1 hc).elim (hbehind c) (hgap c)
    | cons d rest => exact ⟨behind, d :: rest ++ (gap ++ comment), rfl, hbehind, fun c hc => Or.inl (hrest c hc)⟩
  have hsplit : raw = before ++ (front ++ (blanks ++ (Text.trim part ++ (space ++ others)))) := by
    rw [← hafter]
    generalize Text.trim part = statement at *
    generalize stripComment false raw = bare at *
    rw [hraw, hbare, hline, hpart]
    simp only [List.append_assoc]
  have hstart := Text.solidStart_trim part
  have hend := Text.solidEnd_trim part
  rcases hfront with rfl | ⟨front, rfl, hfront⟩
  · have hraw : raw = [] ++ ((before ++ blanks) ++ (Text.trim part ++ (space ++ others))) := by simpa using hsplit
    have hspaces : ∀ c ∈ before ++ blanks, Text.isWhiteSpace c = true := fun c hc =>
      (List.mem_append.1 hc).elim (hbefore c) (hblanks c)
    exact ⟨_, .statement hraw (Or.inl rfl) hspaces hstart hend hspace hothers⟩
  · have hquote : '"' ∉ before := fun hm => absurd (hbefore _ hm) (by decide)
    have hraw : raw = (before ++ front ++ [';']) ++ (blanks ++ (Text.trim part ++ (space ++ others))) := by
      simpa using hsplit
    have hclosed : endsInString false (before ++ front) = false := by
      rwa [endsInString_append, endsInString_eq_self hquote]
    exact ⟨_, .statement hraw (Or.inr ⟨_, rfl, hclosed⟩) hblanks hstart hend hspace hothers⟩

/-! ## Invalid stretches -/

omit [Scalar N] in
theorem Entry.mem_of_tokens_eq_error {es : List (Entry N)} {bad : Entry N} (h : Entry.tokens es = .error bad) :
    bad ∈ es ∧ bad.content = .error bad.invalidText := by
  induction es with
  | nil => cases h
  | cons e es ih =>
    rw [Entry.tokens] at h
    split at h
    · next cs hcontent =>
      cases h
      exact ⟨List.mem_cons_self, by rw [Entry.invalidText, hcontent]⟩
    · split at h
      · next hrest =>
        cases h
        obtain ⟨hmem, hcontent⟩ := ih hrest
        exact ⟨List.mem_cons_of_mem _ hmem, hcontent⟩
      · cases h

/-- An error of the lexer quotes the stretch at its column. -/
theorem statementTokens_eq_error {line : Nat} {text : List Char} {e : QuilError}
    (h : statementTokens (N := N) line text = .error e) :
    ∃ column token, e = .lexer line (column + 1) (invalidTokenMessage token) ∧
      IsSlice text column (column + Text.utf8Length token) token := by
  unfold statementTokens at h
  split at h
  · next bad hbad =>
    cases h
    obtain ⟨hmem, hcontent⟩ := Entry.mem_of_tokens_eq_error hbad
    obtain ⟨-, slice, hslice, hinvalid, -⟩ := span_of_mem_tokenize hmem
    refine ⟨bad.start, bad.invalidText, rfl, ?_⟩
    rwa [hinvalid _ hcontent, ← hslice.stop_eq]
  · cases h

theorem readOnLine_eq_lexer {α : Type} {line line' column : Nat} {message : String}
    {read : List (Token N) → Except (Fault N) α} {text : List Char}
    (h : readOnLine line read text = .error (.lexer line' column message)) :
    statementTokens (N := N) line text = .error (.lexer line' column message) := by
  unfold readOnLine at h
  split at h
  · next e he =>
    cases h
    exact he
  · split at h
    · next fault _ => exact absurd (Except.error.inj h) (fault.atLine_ne_lexer _ _ _ _)
    · cases h

theorem Instruction.ofChars_eq_lexer {line line' column : Nat} {message : String} {text : List Char}
    (h : (ofChars line text : Except QuilError (Instruction N)) = .error (.lexer line' column message)) :
    statementTokens (N := N) line (Text.trim text) = .error (.lexer line' column message) := by
  unfold ofChars at h
  dsimp only at h
  split at h
  · cases h
  · split at h
    · next e he =>
      cases h
      exact he
    · split at h
      · next fault _ => exact absurd (Except.error.inj h) (fault.atLine_ne_lexer _ _ _ _)
      · cases h

theorem addStatements_eq_lexer {line line' column : Nat} {message : String} {p : Program N} {parts : List (List Char)}
    (h : addStatements line p parts = .error (.lexer line' column message)) :
    ∃ part ∈ parts, statementTokens (N := N) line (Text.trim part) = .error (.lexer line' column message) := by
  induction parts generalizing p with
  | nil => cases h
  | cons part parts ih =>
    rw [addStatements] at h
    split at h
    · next e he =>
      cases h
      exact ⟨part, List.mem_cons_self, Instruction.ofChars_eq_lexer he⟩
    · split at h
      · next e he =>
        cases h
        obtain ⟨name, hname⟩ := Program.add_eq_error he
        cases hname
      · obtain ⟨other, hother, htokens⟩ := ih h
        exact ⟨other, List.mem_cons_of_mem _ hother, htokens⟩

/-! ## Lines -/

/-- A statement of the line, or all of it. -/
theorem openLine_eq_lexer {line line' column : Nat} {message : String} {p : Program N} {text : List Char}
    (h : openLine line p text = .error (.lexer line' column message)) :
    ∃ front part rest, Text.trim text = front ++ (part ++ rest) ∧
      (front = [] ∨ ∃ before, front = before ++ [';'] ∧ endsInString false before = false) ∧
      (∀ c ∈ rest.head?, c = ';') ∧
      statementTokens (N := N) line (Text.trim part) = .error (.lexer line' column message) := by
  unfold openLine at h
  dsimp only at h
  split at h
  · split at h
    · next e he =>
      cases h
      refine ⟨[], Text.trim text, [], by simp, Or.inl rfl, nofun, ?_⟩
      rw [Text.trim_eq_self (Text.solidStart_trim text) (Text.solidEnd_trim text)]
      exact readOnLine_eq_lexer he
    · cases h
  · split at h
    · cases h
    · split at h
      · next e he =>
        cases h
        obtain ⟨part, hpart, htokens⟩ := addStatements_eq_lexer he
        obtain ⟨ps, qs, hcut⟩ := List.append_of_mem (List.mem_filter.1 hpart).1
        obtain ⟨front, rest, htext, hfirst, hfront, hrest⟩ := exists_of_cutStatements hcut
        refine ⟨front, part, rest, htext, ?_, hrest, htokens⟩
        by_cases hps : ps = []
        · exact Or.inl (hfirst hps)
        · exact Or.inr (hfront hps)
      · cases h

theorem readLine_eq_lexer {line line' column : Nat} {message : String} {progress : Progress N} {raw : List Char}
    (h : readLine line progress raw = .error (.lexer line' column message)) :
    ∃ start text, LexedFrom raw start text ∧
      statementTokens (N := N) line text = .error (.lexer line' column message) := by
  have hopens {p : Program N}
      (h : openLine line p (Text.trimEnd (stripComment false raw)) = .error (.lexer line' column message)) :
      ∃ start text, LexedFrom raw start text ∧
        statementTokens (N := N) line text = .error (.lexer line' column message) := by
    obtain ⟨front, part, rest, htext, hfront, hrest, htokens⟩ := openLine_eq_lexer h
    rw [Text.trim_trimEnd] at htext
    obtain ⟨start, hlexed⟩ := LexedFrom.of_part htext hfront hrest
    exact ⟨start, _, hlexed, htokens⟩
  unfold readLine at h
  dsimp only at h
  split at h
  · cases h
  · next hblank =>
    split at h
    · next hindented =>
      split at h
      · split at h
        · next e he =>
          cases h
          rw [Text.isBlank_trimEnd] at hblank
          rw [isIndented_trimEnd_stripComment (Bool.eq_false_iff.2 hblank)] at hindented
          exact ⟨0, _, .line hindented, readOnLine_eq_lexer he⟩
        · cases h
      · cases h
      · exact hopens h
    · exact hopens h

theorem readLines_eq_error {line : Nat} {progress : Progress N} {raws : List (List Char)} {e : QuilError}
    (h : readLines line progress raws = .error e) :
    ∃ (i : Nat) (raw : List Char) (reached : Progress N), raws[i]? = some raw ∧
      readLine (line + i) reached raw = .error e := by
  induction raws generalizing line progress with
  | nil => cases h
  | cons raw raws ih =>
    rw [readLines] at h
    split at h
    · next e he =>
      cases h
      exact ⟨0, raw, progress, rfl, he⟩
    · obtain ⟨i, other, reached, hother, hread⟩ := ih h
      exact ⟨i + 1, other, reached, hother, by rwa [Nat.add_comm i, ← Nat.add_assoc]⟩

/-- A blank and a sign that is no token, over the whole numbers. -/
theorem Program.ofText_stray :
    (ofText " @" : Except QuilError (Program Whole)) = .error (.lexer 1 1 (invalidTokenMessage ['@'])) := by
  have hread : (Piece.read '@' [] : Piece Whole × List Char) = (.invalid ['@'], []) := by rfl
  have htokens : statementTokens (N := Whole) 1 (Text.trim " @".toList) =
      .error (.lexer 1 1 (invalidTokenMessage ['@'])) := by
    have htrim : Text.trim " @".toList = ['@'] := by decide
    rw [htrim, statementTokens, tokenize, pieces_cons, hread, pieces_nil]
    rfl
  have hchars : (Instruction.ofChars 1 " @".toList : Except QuilError (Instruction Whole)) = .error _ :=
    Instruction.ofChars_eq_error (by decide) htokens
  have hbare : stripComment false " @".toList = " @".toList := by decide
  rw [ofText_eq_bind (by decide) (by decide) (by decide) (by decide), hbare, hchars]
  rfl

/-- **Lexer errors** are reported on the line of a stretch that is no token, and at its column in the text that the
lexer was given. In its line that stretch begins `start` bytes further on, where this text begins, so the column is
that of the line just when the text begins the line. -/
theorem Program.ofText_lexer_error {source : String} {line column : Nat} {message : String}
    (h : (ofText source : Except QuilError (Program N)) = .error (.lexer line column message)) :
    ∃ raw start text position token, 0 < line ∧ (Text.lines source.toList)[line - 1]? = some raw ∧
      LexedFrom raw start text ∧ statementTokens (N := N) line text = .error (.lexer line column message) ∧
      message = invalidTokenMessage token ∧ IsSlice raw position (position + Text.utf8Length token) token ∧
      start ≤ position ∧ position + 1 = start + column := by
  unfold ofText ofChars at h
  split at h
  · next e he =>
    cases h
    obtain ⟨i, raw, reached, hraw, hread⟩ := readLines_eq_error he
    obtain ⟨start, text, hlexed, htokens⟩ := readLine_eq_lexer hread
    obtain ⟨inside, token, herror, hslice⟩ := statementTokens_eq_error htokens
    cases herror
    refine ⟨raw, start, text, start + inside, token, by omega, ?_, hlexed, htokens, rfl, ?_, by omega, by omega⟩
    · rwa [Nat.add_sub_cancel_left]
    · rw [Nat.add_assoc]
      exact hlexed.isSlice.trans hslice
  · cases h

/-- An indented stretch that is no token. -/
theorem Program.ofText_lexer_error_indented :
    (ofText " @" : Except QuilError (Program Whole)) = .error (.lexer 1 1 (invalidTokenMessage ['@'])) ∧
      ∃ raw start text position token, 0 < 1 ∧ (Text.lines " @".toList)[1 - 1]? = some raw ∧
        LexedFrom raw start text ∧
        statementTokens (N := Whole) 1 text = .error (.lexer 1 1 (invalidTokenMessage ['@'])) ∧
        invalidTokenMessage ['@'] = invalidTokenMessage token ∧
        IsSlice raw position (position + Text.utf8Length token) token ∧ start ≤ position ∧ position + 1 = start + 1 :=
  ⟨ofText_stray, ofText_lexer_error ofText_stray⟩

/-- It is reported at the column of the blank in front of it. -/
theorem Program.ofText_lexer_error_blank :
    (ofText " @" : Except QuilError (Program Whole)) = .error (.lexer 1 1 (invalidTokenMessage ['@'])) ∧
      (Text.lines " @".toList)[1 - 1]? = some [' ', '@'] ∧ ¬ IsSlice [' ', '@'] (1 - 1) 1 ['@'] := by
  refine ⟨ofText_stray, by decide, ?_⟩
  rintro ⟨before, after, h, hstart, -⟩
  cases before with
  | nil => cases h
  | cons c before => exact absurd hstart (Nat.ne_of_gt (utf8Length_pos (List.cons_ne_nil c before)))

end QuilControl
