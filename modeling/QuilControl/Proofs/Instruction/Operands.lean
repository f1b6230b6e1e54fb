import QuilControl.Proofs.Instruction.Reading
import QuilControl.Proofs.Instruction.Writing

/-!
# Operands read back

Each reader takes the tokens its part of an instruction is written with, and leaves what stands behind
them. Literals are read as equal numbers: what an instruction reads as has these in their places
(`Instruction.reread`).
-/

namespace QuilControl

variable {N : Type} [Scalar N]

/-! ## What literals read as -/

def CallArgument.reread : CallArgument N → CallArgument N
  | immediate value => immediate (QuilControl.reread value)
  | a => a

def Gate.reread (g : Gate N) : Gate N := { g with parameters := g.parameters.map (·.reread) }

/-- An instruction with what its literals read as in their places. -/
def Instruction.reread : Instruction N → Instruction N
  | call c => call { c with arguments := c.arguments.map (·.reread) }
  | gate g => gate g.reread
  | delay d => delay { d with seconds := QuilControl.reread d.seconds }
  | frameUpdate update frame value => frameUpdate update frame value.reread
  | i => i

/-! ## Operands -/

section Marks

omit [Scalar N]

variable {rest : List (Token N)}

theorem readIdentifier_cons (name : String) (rest : List (Token N)) :
    readIdentifier (.identifier name :: rest) = .ok (name, rest) := rfl

theorem readQubits_append (qs : List Qubit) (h : readQubits rest = ([], rest)) :
    readQubits (qs.map (·.token) ++ rest) = (qs, rest) := by
  induction qs with
  | nil => exact h
  | cons q qs ih =>
    rw [List.map_cons, List.cons_append]
    cases q with
    | fixed index => rw [Qubit.token, readQubits, ih]
    | named name => rw [Qubit.token, readQubits, ih]

theorem readQubits_tokens (qs : List Qubit) : readQubits (N := N) (qs.map (·.token)) = (qs, []) := by
  have hall : readQubits (N := N) (qs.map (·.token) ++ []) = (qs, []) := readQubits_append qs rfl
  rwa [List.append_nil] at hall

theorem readPragmaArguments_append (arguments : List PragmaArgument)
    (h : readPragmaArguments rest = ([], rest)) :
    readPragmaArguments (arguments.map (·.token) ++ rest) = (arguments, rest) := by
  induction arguments with
  | nil => exact h
  | cons a as ih =>
    rw [List.map_cons, List.cons_append]
    cases a with
    | identifier name => rw [PragmaArgument.token, readPragmaArguments, ih]
    | integer value => rw [PragmaArgument.token, readPragmaArguments, ih]

theorem readFrame_tokens (f : Frame) : readFrame (f.tokens ++ rest) = .ok (f, rest) := by
  have hqubits : readQubits (f.tokens ++ rest) = (f.qubits, .string f.name :: rest) := by
    rw [Frame.tokens, List.append_assoc]
    exact readQubits_append f.qubits rfl
  unfold readFrame
  rw [hqubits]
  rfl

theorem readPragma_tokens (p : Pragma) : readPragma (N := N) p.tokens = .ok (p, []) := by
  obtain ⟨name, arguments, data⟩ := p
  rw [Pragma.tokens, List.cons_append]
  refine bind_eq_ok (readIdentifier_cons _ _) ?_
  dsimp only
  cases data with
  | none =>
    rw [readPragmaArguments_append arguments rfl]
    rfl
  | some data =>
    rw [readPragmaArguments_append arguments rfl]
    rfl

theorem readMeasurement_tokens (m : Measurement) : readMeasurement (N := N) m.tokens = .ok (m, []) := by
  obtain ⟨qubit, target⟩ := m
  cases qubit <;> cases target <;> rfl

end Marks

theorem readExpr_tokens (laws : LiteralLaws N) {e : Expr N} (h : e.IsLegible) :
    readExpr e.tokens = .ok (e.reread, []) := by
  have hread := (Expr.readsFrom (h.legible laws)).whole (Nat.zero_le _) (Expr.ends_nil (N := N)) Expr.ends_nil
  rwa [List.append_nil] at hread

/-- The text behind `SHARING` is the text of the tokens from there on. -/
theorem readDeclaration_tokens {textOf : Nat → List Char} {d : Declaration}
    (h : ∀ text ∈ d.sharing, (tokensOf (pieces text.toList : List (Piece N))) ≠ [] ∧
      textOf (tokensOf (pieces text.toList : List (Piece N))).length = text.toList) :
    readDeclaration (N := N) textOf d.tokens = .ok (d, []) := by
  obtain ⟨name, scalar, length, sharing⟩ := d
  refine bind_eq_ok rfl (bind_eq_ok rfl ?_)
  dsimp only
  rw [ScalarType.ofKeyword?_keyword]
  refine bind_eq_ok rfl ?_
  cases sharing with
  | none => rfl
  | some text =>
    obtain ⟨hne, htext⟩ := h text rfl
    have hempty : ¬ (tokensOf (pieces text.toList : List (Piece N))).isEmpty = true := by simpa using hne
    show (if "SHARING" = "SHARING" then _ else _) = _
    rw [if_pos rfl, if_neg hempty, htext, String.ofList_toList]
    rfl

/-- Arguments of a call do not begin with a bracket. -/
theorem callTokens_ne_bracket (laws : LiteralLaws N) {arguments : List (CallArgument N)}
    (h : ∀ a ∈ arguments, a.IsLegible) (rest : List (Token N)) :
    arguments.flatMap (·.tokens) ≠ .mark .leftBracket :: rest := by
  cases arguments with
  | nil => simp
  | cons a as =>
    cases a with
    | identifier name => simp [CallArgument.tokens]
    | slot s => simp [CallArgument.tokens, MemoryReference.tokens]
    | immediate value =>
      have hback := laws.readsBack value (h _ List.mem_cons_self)
      intro heq
      rcases literalTokens_cases hback with ⟨t, ht, hn⟩ | ⟨t, x, ht, -, -⟩
      · simp only [List.flatMap_cons, CallArgument.tokens, ht, List.singleton_append, List.cons.injEq] at heq
        rw [heq.1] at hn
        cases hn
      · simp [CallArgument.tokens, ht] at heq

theorem readCallArguments_literal {value : N} (h : ReadsBack value) {tokens : List (Token N)}
    {as : List (CallArgument N)} (hrest : readCallArguments tokens = .ok as) :
    readCallArguments (literalTokens value ++ tokens) = .ok (.immediate (QuilControl.reread value) :: as) := by
  rcases literalTokens_cases h with ⟨t, ht, hn⟩ | ⟨t, x, ht, hn, hx⟩
  · rw [ht]
    cases t with
    | int w =>
      have hw : Expr.ofInt w = QuilControl.reread value := Option.some.inj hn
      rw [List.singleton_append, readCallArguments, hrest, ← hw]
      rfl
    | float w =>
      have hw : w = QuilControl.reread value := Option.some.inj hn
      rw [List.singleton_append, readCallArguments, hrest, ← hw]
      rfl
    | string | identifier | mark => cases hn
  · rw [ht, hx]
    cases t with
    | int w => cases hn; simp only [List.cons_append, List.nil_append, readCallArguments, hrest]; rfl
    | float w => cases hn; simp only [List.cons_append, List.nil_append, readCallArguments, hrest]; rfl
    | string | identifier | mark => cases hn

theorem readCallArguments_tokens (laws : LiteralLaws N) {arguments : List (CallArgument N)}
    (h : ∀ a ∈ arguments, a.IsLegible) :
    readCallArguments (arguments.flatMap (·.tokens)) = .ok (arguments.map (·.reread)) := by
  induction arguments with
  | nil => rfl
  | cons a as ih =>
    have has : ∀ b ∈ as, b.IsLegible := fun b hb => h b (List.mem_cons_of_mem _ hb)
    have hrest := ih has
    have hbracket := callTokens_ne_bracket laws has
    rw [List.flatMap_cons, List.map_cons]
    generalize as.flatMap (·.tokens) = tokens at *
    cases a with
    | identifier name =>
      rw [CallArgument.tokens, List.singleton_append, readCallArguments, hrest]
      · rfl
      · exact fun _ _ heq => hbracket _ heq
      · exact fun _ _ heq => hbracket _ heq
      · exact fun _ heq => hbracket _ heq
    | slot s =>
      rw [CallArgument.tokens, MemoryReference.tokens]
      simp only [List.cons_append, List.nil_append, readCallArguments, hrest]
      rfl
    | immediate value => exact readCallArguments_literal (laws.readsBack value (h _ List.mem_cons_self)) hrest

/-- Frames and the duration of a delay. -/
theorem readDelay_frames {t : Token N} {x : N} (h : t.number? = some x) (qubits : List Qubit)
    (frames names : List String) :
    readDelay qubits frames (names.map .string ++ [t]) = .ok ⟨qubits, frames ++ names, x⟩ := by
  induction names generalizing frames with
  | nil =>
    rw [List.append_nil]
    cases t with
    | int w => cases h; simp [readDelay]
    | float w => cases h; simp [readDelay]
    | string | identifier | mark => cases h
  | cons name names ih =>
    rw [List.map_cons, List.cons_append, readDelay, ih, List.append_assoc]
    rfl

theorem readDelay_qubits (qubits qs : List Qubit) {rest : List (Token N)} (h : rest ≠ []) :
    readDelay qubits [] (qs.map (·.token) ++ rest) = readDelay (qubits ++ qs) [] rest := by
  induction qs generalizing qubits with
  | nil => simp
  | cons q qs ih =>
    have hassoc : qubits ++ q :: qs = (qubits ++ [q]) ++ qs := by simp
    rw [List.map_cons, List.cons_append, hassoc, ← ih]
    cases q with
    | fixed index => rw [Qubit.token, readDelay] <;> simp [h]
    | named name => rw [Qubit.token, readDelay]; simp

theorem readDelay_tokens (laws : LiteralLaws N) {d : Delay N} (h : d.IsLegible) :
    readDelay [] [] d.tokens = .ok { d with seconds := QuilControl.reread d.seconds } := by
  obtain ⟨t, ht, hn⟩ := laws.literalTokens_of_nonnegative h.finite h.nonnegative
  rw [Delay.tokens, ht, List.append_assoc, readDelay_qubits _ _ (by simp), readDelay_frames hn]
  simp

/-! ## Gates -/

omit [Scalar N] in
/-- The words of a gate: its modifiers, then its name. -/
theorem readModifiers_words (m : GateModifier) (ms : List GateModifier) {name : String}
    (h : GateModifier.ofKeyword? name = none) (rest : List (Token N)) :
    readModifiers m.keyword (ms.map (.identifier ·.keyword) ++ .identifier name :: rest) =
      .ok ((m :: ms, name), rest) := by
  have hm (m : GateModifier) : GateModifier.ofKeyword? m.keyword = some m := by cases m <;> decide
  induction ms generalizing m with
  | nil =>
    rw [List.map_nil, List.nil_append, readModifiers, hm]
    refine bind_eq_ok (a := (([], name), rest)) ?_ rfl
    rw [readModifiers, h]
  | cons m' ms ih =>
    rw [List.map_cons, List.cons_append, readModifiers, hm]
    exact bind_eq_ok (ih m') rfl

theorem readExprs_commaTokens (laws : LiteralLaws N) {es : List (Expr N)} (h : ∀ e ∈ es, e.IsLegible)
    (hne : es ≠ []) (rest : List (Token N)) :
    readExprs (commaTokens es ++ .mark .rightParen :: rest) =
      .ok (es.map (·.reread), .mark .rightParen :: rest) := by
  fun_induction commaTokens es with
  | case1 => exact absurd rfl hne
  | case2 e =>
    have hread := (Expr.readsFrom ((h e List.mem_cons_self).legible laws)).whole (Nat.zero_le _)
      (Expr.ends_rightParen rest) (Expr.ends_rightParen rest)
    obtain ⟨shorter, hr⟩ := eq_of_given hread
    rw [readExprs, hr]
    rfl
  | case3 e es hes ih =>
    have hothers := ih (fun d hd => h d (List.mem_cons_of_mem _ hd)) hes
    have hread := (Expr.readsFrom ((h e List.mem_cons_self).legible laws)).whole (Nat.zero_le _)
      (Expr.ends_comma (commaTokens es ++ .mark .rightParen :: rest)) (Expr.ends_comma _)
    obtain ⟨shorter, hr⟩ := eq_of_given hread
    rw [List.append_assoc, List.cons_append, readExprs, hr]
    simp only [hothers]
    rfl

theorem readParameters_operands (laws : LiteralLaws N) {g : Gate N} (h : g.IsLegible) :
    readParameters g.operands = .ok (g.parameters.map (·.reread), g.qubits.map (·.token)) := by
  by_cases hnil : g.parameters.isEmpty = true
  · obtain ⟨q, qs, hqs⟩ := List.exists_cons_of_ne_nil h.qubits_ne_nil
    rw [Gate.operands, if_pos hnil, List.isEmpty_iff.1 hnil, hqs, List.nil_append]
    cases q <;> rfl
  · have hne : g.parameters ≠ [] := fun heq => hnil (by rw [heq]; rfl)
    have hread := readExprs_commaTokens laws h.parameters hne (g.qubits.map (·.token))
    rw [Gate.operands, if_neg hnil, List.append_assoc, List.cons_append]
    exact bind_eq_ok hread rfl

theorem readGate_operands (laws : LiteralLaws N) {g : Gate N} (h : g.IsLegible) {word : String}
    {tokens : List (Token N)} (hwords : readModifiers word tokens = .ok ((g.modifiers, g.name), g.operands)) :
    readGate word tokens = .ok (g.reread, []) := by
  obtain ⟨q, qs, hqs⟩ := List.exists_cons_of_ne_nil h.qubits_ne_nil
  refine bind_eq_ok hwords (bind_eq_ok (readParameters_operands laws h) ?_)
  dsimp only
  rw [readQubits_tokens, hqs]
  dsimp only [Gate.reread]
  rw [hqs]
  rfl

theorem isGateWord_modifier (m : GateModifier) : IsGateWord m.keyword :=
  ⟨by cases m <;> decide, by cases m <;> decide, by cases m <;> decide⟩

theorem readOperands_gate {textOf : Nat → List Char} {word : String} (hw : IsGateWord word)
    {tokens rest : List (Token N)} {g : Gate N} (h : readGate word tokens = .ok (g, rest)) :
    readOperands textOf word tokens = .ok (.gate g, rest) := by
  have hword := hw.operands
  unfold readOperands
  split
  · exact absurd (by decide) hword
  · exact absurd (by decide) hword
  · exact absurd (by decide) hword
  · exact absurd (by decide) hword
  · exact absurd (by decide) hword
  · exact absurd (by decide) hword
  · rw [hw.update]
    exact bind_eq_ok h rfl

theorem readOperands_update {textOf : Nat → List Char} (update : FrameUpdate) {tokens : List (Token N)} :
    readOperands textOf update.keyword tokens = readFrameUpdate update tokens := by
  cases update <;> rfl

end QuilControl
