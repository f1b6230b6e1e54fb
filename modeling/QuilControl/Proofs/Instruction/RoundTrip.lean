import QuilControl.Proofs.Instruction.Operands

/-!
# Instructions read back

The first word of what an instruction is written as decides how it is read: it is the word of an
instruction kept as its text, or its tokens are read. Either way the instruction reads as itself, with
what its literals read as in their places, which is an equal instruction.
-/

namespace QuilControl

variable {N : Type} [Scalar N]

/-! ## First words -/

/-- A word ends in front of the text. -/
def endsWord (tail : List Char) : Prop := ∀ c ∈ tail.head?, Text.isWhiteSpace c = true ∨ c = '('

theorem endsWord_nil : endsWord [] := by simp [endsWord]

theorem endsWord_paren (tail : List Char) : endsWord ('(' :: tail) := by simp [endsWord]

theorem endsWord_blank (tail : List Char) : endsWord (' ' :: tail) := by
  simp only [endsWord, List.head?_cons, Option.mem_def, Option.some.injEq, forall_eq']
  exact Or.inl (by decide)

theorem endsWord_spaced (texts : List (List Char)) {tail : List Char} (h : endsWord tail) :
    endsWord (spaced texts ++ tail) := by
  cases texts with
  | nil => exact h
  | cons text texts => exact endsWord_blank _

namespace Instruction

def word : Instruction N → String
  | declaration _ => "DECLARE"
  | pragma _ => "PRAGMA"
  | call _ => "CALL"
  | gate ⟨[], name, _, _⟩ => name
  | gate ⟨m :: _, _, _, _⟩ => m.keyword
  | measurement _ => "MEASURE"
  | fence _ => "FENCE"
  | delay _ => "DELAY"
  | frameUpdate update _ _ => update.keyword
  | other text => String.ofList (firstWord text.toList)

theorem isName_word {i : Instruction N} (h : i.IsLegible) (ho : ∀ text, i ≠ other text) : IsName i.word := by
  cases i with
  | gate g =>
    obtain ⟨modifiers, name, parameters, qubits⟩ := g
    cases modifiers with
    | nil => exact h.name
    | cons m ms => exact m.isName_keyword
  | frameUpdate update frame value => exact update.isName_keyword
  | other text => exact absurd rfl (ho text)
  | declaration | pragma | call | measurement | fence | delay =>
    dsimp only [word]
    decide

omit [Scalar N] in
/-- An instruction has tokens, or is kept as its text. -/
theorem eq_other_or (i : Instruction N) : (∀ text, i ≠ other text) ∨ ∃ text, i = other text := by
  cases i with
  | other text => exact Or.inr ⟨text, rfl⟩
  | _ => exact Or.inl fun _ => by simp

/-- The text of an instruction is its first word and what cannot go on with it. -/
theorem chars_eq_word {i : Instruction N} (ho : ∀ text, i ≠ other text) :
    ∃ tail, i.chars = i.word.toList ++ tail ∧ endsWord tail := by
  cases i with
  | declaration d => exact ⟨_, d.chars_eq, endsWord_blank _⟩
  | pragma p => exact ⟨_, p.chars_eq, endsWord_blank _⟩
  | call c => exact ⟨_, c.chars_eq, endsWord_blank _⟩
  | measurement m => exact ⟨_, m.chars_eq, endsWord_blank _⟩
  | gate g =>
    obtain ⟨modifiers, name, parameters, qubits⟩ := g
    cases modifiers with
    | cons m ms =>
      show ∃ tail, Gate.chars _ = m.keyword.toList ++ tail ∧ endsWord tail
      simp only [Gate.chars, List.flatMap_cons, List.append_assoc, List.singleton_append]
      exact ⟨_, rfl, endsWord_blank _⟩
    | nil =>
      show ∃ tail, Gate.chars _ = name.toList ++ tail ∧ endsWord tail
      simp only [Gate.chars, List.flatMap_nil, List.nil_append, List.append_assoc]
      refine ⟨_, rfl, ?_⟩
      have hspaced := endsWord_spaced (qubits.map (·.chars)) endsWord_nil
      rw [List.append_nil] at hspaced
      by_cases hnil : parameters.isEmpty = true
      · rw [if_pos hnil]
        exact hspaced
      · rw [if_neg hnil]
        exact endsWord_paren _
  | fence qubits =>
    refine ⟨_, rfl, ?_⟩
    have hspaced := endsWord_spaced (qubits.map (·.chars)) endsWord_nil
    rwa [List.append_nil] at hspaced
  | delay d =>
    show ∃ tail, d.chars = "DELAY".toList ++ tail ∧ endsWord tail
    unfold Delay.chars
    rw [List.append_assoc, List.append_assoc]
    exact ⟨_, rfl, endsWord_spaced _ (endsWord_spaced _ (endsWord_blank _))⟩
  | frameUpdate update frame value =>
    have hchars : (frameUpdate update frame value).chars =
      update.keyword.toList ++ ' ' :: (frame.chars ++ ' ' :: value.chars) := List.append_assoc _ _ _
    exact ⟨_, hchars, endsWord_blank _⟩
  | other text => exact absurd rfl (ho text)

/-- The first word of what an instruction is written as. -/
theorem firstWord_chars {i : Instruction N} (h : i.IsLegible) : firstWord i.chars = i.word.toList := by
  rcases i.eq_other_or with ho | ⟨text, rfl⟩
  · obtain ⟨tail, htail, hend⟩ := chars_eq_word ho
    rw [htail]
    exact firstWord_append (isName_word h ho) hend
  · simp [chars, word]

theorem solidStart_chars {i : Instruction N} (h : i.IsLegible) (ho : ∀ text, i ≠ other text) :
    Text.solidStart i.chars := by
  obtain ⟨tail, htail, -⟩ := chars_eq_word ho
  have hname := isName_word h ho
  rw [htail]
  exact solidStart_tokenText (Or.inl ⟨(Phrase.identifier (N := N) hname).ne_nil, isTokenChar_of_isIdentifier hname⟩) _

/-- What an instruction is written as is a statement. -/
theorem isStatement_chars (laws : LiteralLaws N) {i : Instruction N} (h : i.IsLegible) : IsStatement i.chars := by
  rcases i.eq_other_or with ho | ⟨text, rfl⟩
  · exact (sentence laws h ho).isStatement laws (solidStart_chars h ho)
  · exact h.1

theorem word_notMem_verbatim {i : Instruction N} (h : i.IsLegible) (ho : ∀ text, i ≠ other text) :
    i.word ∉ verbatimKeywords := by
  cases i with
  | gate g =>
    obtain ⟨modifiers, name, parameters, qubits⟩ := g
    cases modifiers with
    | nil => exact (h.word rfl).verbatim
    | cons m ms => exact (isGateWord_modifier m).verbatim
  | frameUpdate update frame value =>
    show update.keyword ∉ verbatimKeywords
    cases update <;> decide
  | other text => exact absurd rfl (ho text)
  | declaration | pragma | call | measurement | fence | delay =>
    dsimp only [word]
    decide

/-- The tokens of an instruction read as it. -/
theorem ofTokens_tokens (laws : LiteralLaws N) {textOf : Nat → List Char} {i : Instruction N}
    (h : i.IsLegible) (ho : ∀ text, i ≠ other text)
    (hs : ∀ d, i = declaration d → ∀ text ∈ d.sharing,
      (tokensOf (pieces text.toList : List (Piece N))) ≠ [] ∧
        textOf (tokensOf (pieces text.toList : List (Piece N))).length = text.toList) :
    ofTokens textOf i.tokens = .ok i.reread := by
  have of_operands {word : String} {operands : List (Token N)} {j : Instruction N}
      (hr : readOperands textOf word operands = .ok (j, [])) :
      ofTokens textOf (.identifier word :: operands) = .ok j :=
    bind_eq_ok (readIdentifier_cons _ _) (bind_eq_ok hr rfl)
  cases i with
  | declaration d => exact of_operands (bind_eq_ok (readDeclaration_tokens (hs d rfl)) rfl)
  | pragma p => exact of_operands (bind_eq_ok (readPragma_tokens p) rfl)
  | call c =>
    have harguments := readCallArguments_tokens laws h.arguments
    exact of_operands (bind_eq_ok (bind_eq_ok (readIdentifier_cons _ _) (bind_eq_ok harguments rfl)) rfl)
  | gate g =>
    obtain ⟨modifiers, name, parameters, qubits⟩ := g
    cases modifiers with
    | nil =>
      have hwords : readModifiers name (Gate.operands ⟨[], name, parameters, qubits⟩) =
          .ok (([], name), Gate.operands (N := N) ⟨[], name, parameters, qubits⟩) := by
        rw [readModifiers, h.unmodified]
      exact of_operands (readOperands_gate (h.word rfl) (readGate_operands laws h hwords))
    | cons m ms =>
      have hwords := readModifiers_words m ms h.unmodified
        (Gate.operands (N := N) ⟨m :: ms, name, parameters, qubits⟩)
      exact of_operands (readOperands_gate (isGateWord_modifier m) (readGate_operands laws h hwords))
  | measurement m => exact of_operands (bind_eq_ok (readMeasurement_tokens m) rfl)
  | fence qubits =>
    refine of_operands ?_
    show Except.ok (fence (readQubits _).1, (readQubits _).2) = _
    rw [readQubits_tokens]
    rfl
  | delay d => exact of_operands (bind_eq_ok (readDelay_tokens laws h) rfl)
  | frameUpdate update frame value =>
    refine of_operands ?_
    rw [readOperands_update]
    exact bind_eq_ok (readFrame_tokens frame) (bind_eq_ok (readExpr_tokens laws h.2) rfl)
  | other text => exact absurd rfl (ho text)

end Instruction

theorem IsShared.isTail {text : List Char} (h : IsShared N text) : IsTail N text := by
  refine ⟨invalid_notMem_of_plain h.plain, ?_, h.solidStart, h.solidEnd⟩
  obtain ⟨c, rest, rfl⟩ := List.exists_cons_of_ne_nil h.ne_nil
  have hfirst := h.plain
  rw [pieces_cons] at hfirst ⊢
  have hread := Piece.reads (N := N) c rest
  generalize (Piece.read (N := N) c rest).1 = first at *
  generalize (Piece.read (N := N) c rest).2 = tail at *
  cases hread with
  | blank hc =>
    have hwhite := h.solidStart c rfl
    rw [isWhiteSpace_of_isSeparator hc] at hwhite
    cases hwhite
  | comment | openString | outOfRange | stray => exact absurd (hfirst _ List.mem_cons_self) (by simp [Piece.isPlain])
  | string | name | int | float | mark => exact ⟨_, _, _, rfl⟩

/-- A phrase with the end of a statement behind it has the tokens of both. -/
theorem Phrase.statementTokens_append {a b : List Char} {ts : List (Token N)} (ha : Phrase a ts)
    (hb : IsTail N b) (line : Nat) :
    statementTokens line (a ++ ' ' :: b) = .ok (ts ++ tokensOf (pieces b)) := by
  obtain ⟨ps, hps, hplain, htokens⟩ := ha.pieces_append b
  rw [statementTokens_of_valid line, hps, tokensOf_append, htokens]
  intro cs hm
  rw [hps] at hm
  rcases List.mem_append.1 hm with hm | hm
  · exact invalid_notMem_of_plain hplain cs hm
  · exact hb.valid cs hm

/-- Behind a phrase, the text from the first unread token on is what follows. -/
theorem textOfUnread_append {a b : List Char} {ts : List (Token N)} (ha : Phrase a ts) (hb : IsTail N b) :
    (tokensOf (pieces b : List (Piece N))) ≠ [] ∧
      textOfUnread (a ++ ' ' :: b) ((tokenize (N := N) (a ++ ' ' :: b)).map (·.start))
        (tokensOf (pieces b : List (Piece N))).length = b := by
  obtain ⟨ps, hps, -, -⟩ := ha.pieces_append b
  have hvalid := (statementTokens_eq_ok (ha.statementTokens_append hb 1)).2
  obtain ⟨cs, t, qs, hb'⟩ := hb.begins
  rw [hb'] at hps
  have hunread := textOfUnread_eq hps hvalid
  rw [← hb', flatMap_chars_pieces, Text.trim_eq_self hb.solidStart hb.solidEnd] at hunread
  rw [hb', tokensOf_token]
  exact ⟨List.cons_ne_nil _ _, hunread⟩

namespace Instruction

/-- A statement whose first word is no instruction kept as its text is read by its tokens. -/
theorem ofChars_of_tokens {line : Nat} {text : List Char} {word : String} {tokens : List (Token N)}
    {i : Instruction N} (htrim : Text.trim text = text) (hword : firstWord text = word.toList)
    (hv : word ∉ verbatimKeywords) (ht : statementTokens line text = .ok tokens)
    (hi : ofTokens (textOfUnread text ((tokenize (N := N) text).map (·.start))) tokens = .ok i) :
    ofChars line text = .ok i := by
  have hverbatim : ¬ verbatimKeywords.contains word = true := by simpa using hv
  unfold ofChars
  dsimp only
  rw [htrim, hword, String.ofList_toList, if_neg hverbatim, ht]
  dsimp only
  rw [hi]

/-- **Written instructions read back**, with what their literals read as in their places. -/
theorem ofChars_chars (laws : LiteralLaws N) {i : Instruction N} (h : i.IsLegible) (line : Nat) :
    ofChars line i.chars = .ok i.reread := by
  have htrim := (isStatement_chars laws h).trim_eq_self
  have hword := firstWord_chars h
  rcases i.eq_other_or with ho | ⟨text, rfl⟩
  · refine ofChars_of_tokens htrim hword (word_notMem_verbatim h ho) ((sentence laws h ho).statementTokens line) ?_
    refine ofTokens_tokens laws h ho ?_
    rintro d rfl text htext
    rw [show (declaration (N := N) d).chars = d.chars from rfl, Declaration.chars_sharing htext]
    exact textOfUnread_append (Declaration.phrase_sharing h) (h.sharing text htext).isTail
  · have hverbatim : verbatimKeywords.contains (other (N := N) text).word = true := by
      simpa [word] using h.2
    unfold ofChars
    dsimp only
    rw [htrim, hword, String.ofList_toList, if_pos hverbatim]
    simp [chars, reread]

end Instruction

/-! ## Equality -/

theorem map_beq_self {α : Type} [BEq α] {f : α → α} {xs : List α} (h : ∀ x ∈ xs, (f x == x) = true) :
    (xs.map f == xs) = true := by
  induction xs with
  | nil => rfl
  | cons x xs ih =>
    have hx := h x List.mem_cons_self
    have hxs := ih fun y hy => h y (List.mem_cons_of_mem _ hy)
    simp [hx, hxs]

theorem CallArgument.reread_beq (laws : LiteralLaws N) {a : CallArgument N} (h : a.IsLegible) :
    (a.reread == a) = true := by
  cases a with
  | identifier name =>
    show (name == name) = true
    simp
  | slot s =>
    show (s == s) = true
    simp
  | immediate value => exact (laws.readsBack value h).beq

theorem Gate.reread_beq (laws : LiteralLaws N) {g : Gate N} (h : g.IsLegible) : (g.reread == g) = true := by
  have hparameters := map_beq_self fun e he => Expr.same_reread ((h.parameters e he).legible laws)
  show (g.modifiers == g.modifiers && (g.name == g.name &&
    (g.parameters.map (·.reread) == g.parameters && g.qubits == g.qubits))) = true
  rw [hparameters]
  simp

/-- What an instruction reads back as is equal to it. -/
theorem Instruction.reread_beq (laws : LiteralLaws N) {i : Instruction N} (h : i.IsLegible) :
    (i.reread == i) = true := by
  cases i with
  | call c =>
    have harguments := map_beq_self fun a ha => CallArgument.reread_beq laws (h.arguments a ha)
    show (c.name == c.name && c.arguments.map (·.reread) == c.arguments) = true
    rw [harguments]
    simp
  | gate g => exact g.reread_beq laws h
  | delay d =>
    have hseconds := (laws.readsBack _ h.finite).beq
    show (d.qubits == d.qubits && (d.frames == d.frames && QuilControl.reread d.seconds == d.seconds)) = true
    rw [hseconds]
    simp
  | frameUpdate update frame value =>
    have hvalue : (value.reread == value) = true := Expr.same_reread (h.2.legible laws)
    show (update == update && (frame == frame && value.reread == value)) = true
    simp [hvalue]
  | declaration d =>
    show (d == d) = true
    simp
  | pragma p =>
    show (p == p) = true
    simp
  | measurement m =>
    show (m == m) = true
    simp
  | fence qubits =>
    show (qubits == qubits) = true
    simp
  | other text =>
    show (text == text) = true
    simp

end QuilControl
