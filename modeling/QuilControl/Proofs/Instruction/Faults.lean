import QuilControl.Proofs.Expr.Faults
import QuilControl.Proofs.Instruction.Commented
import QuilControl.Proofs.Program.Comments

/-!
# Faults of statements

All readers of instructions keep their place but one: `MEASURE` in front of a token that is no qubit is a
statement that ends too early, with that token unread. So an error says where reading stopped
(`Instruction.ofText_stops`). An unexpected token is quoted from the statement, and all tokens before it have
been read. A statement that ends too early has been read to its end, except for such a `MEASURE`.
-/

namespace QuilControl

variable {N : Type}

section Readers

variable {tokens : List (Token N)}

/-! ## Single tokens -/

theorem readIdentifier_keepsPlace (tokens : List (Token N)) :
    KeepsPlace Prod.snd tokens (readIdentifier tokens) := by
  unfold readIdentifier
  split
  · exact List.suffix_cons _ _
  · exact .expecting "identifier" (List.suffix_refl _)

theorem readString_keepsPlace (tokens : List (Token N)) : KeepsPlace Prod.snd tokens (readString tokens) := by
  unfold readString
  split
  · exact List.suffix_cons _ _
  · exact .expecting "string" (List.suffix_refl _)

theorem readMark_keepsPlace (m : Mark) (tokens : List (Token N)) : KeepsPlace id tokens (readMark m tokens) := by
  unfold readMark
  split
  · split
    · exact List.suffix_cons _ _
    · exact List.suffix_refl _
  · exact .expecting _ (List.suffix_refl _)

theorem readEnd_keepsPlace (tokens : List (Token N)) : KeepsPlace (fun _ => []) tokens (readEnd tokens) := by
  unfold readEnd
  split
  · exact List.suffix_refl _
  · exact .expecting "end of instruction" (List.suffix_refl _)

theorem readQubits_suffix (tokens : List (Token N)) : (readQubits tokens).2 <:+ tokens := by
  fun_induction readQubits tokens with
  | case1 index rest ih | case2 name rest ih => exact ih.trans (List.suffix_cons _ _)
  | case3 => exact List.suffix_refl _

theorem readPragmaArguments_suffix (tokens : List (Token N)) : (readPragmaArguments tokens).2 <:+ tokens := by
  fun_induction readPragmaArguments tokens with
  | case1 name rest ih | case2 value rest ih => exact ih.trans (List.suffix_cons _ _)
  | case3 => exact List.suffix_refl _

/-! ## Slots, declarations and pragmas -/

theorem readIndex_keepsPlace (tokens : List (Token N)) : KeepsPlace Prod.snd tokens (readIndex tokens) :=
  (Expr.readIndex_keepsPlace tokens).map fun _ => rfl

theorem readSlot_keepsPlace (tokens : List (Token N)) : KeepsPlace Prod.snd tokens (readSlot tokens) := by
  refine (readIdentifier_keepsPlace tokens).bind fun named _ => ?_
  obtain ⟨name, rest⟩ := named
  dsimp only
  split
  · next after _ =>
    refine KeepsPlace.mono ?_ (List.suffix_cons (.mark .leftBracket) after)
    exact (readIndex_keepsPlace after).bind fun _ _ => List.suffix_refl _
  · exact List.suffix_refl _

theorem readLength_keepsPlace (tokens : List (Token N)) : KeepsPlace Prod.snd tokens (readLength tokens) := by
  unfold readLength
  split
  · next after => exact (readIndex_keepsPlace after).mono (List.suffix_cons _ _)
  · exact List.suffix_refl _

theorem readDeclaration_keepsPlace (textOf : Nat → List Char) (tokens : List (Token N)) :
    KeepsPlace Prod.snd tokens (readDeclaration textOf tokens) := by
  refine (readIdentifier_keepsPlace tokens).bind fun named _ => ?_
  obtain ⟨name, behind⟩ := named
  refine (readIdentifier_keepsPlace behind).bind fun typed _ => ?_
  obtain ⟨keyword, rest⟩ := typed
  dsimp only
  split
  · trivial
  · refine (readLength_keepsPlace rest).bind fun measured _ => ?_
    obtain ⟨length, rest⟩ := measured
    dsimp only
    split
    · split
      · split
        · rfl
        · exact List.nil_suffix
      · exact List.suffix_refl _
    · exact List.suffix_refl _

theorem readPragma_keepsPlace (tokens : List (Token N)) : KeepsPlace Prod.snd tokens (readPragma tokens) := by
  refine (readIdentifier_keepsPlace tokens).bind fun named _ => ?_
  obtain ⟨name, rest⟩ := named
  have harguments := readPragmaArguments_suffix rest
  dsimp only
  split
  · next h =>
    rw [h] at harguments
    exact (List.suffix_cons _ _).trans harguments
  · next h =>
    rw [h] at harguments
    exact harguments

/-! ## Frames, modifiers and measurements -/

theorem readModifiers_keepsPlace (word : String) (tokens : List (Token N)) :
    KeepsPlace Prod.snd tokens (readModifiers word tokens) := by
  fun_induction readModifiers word tokens with
  | case1 => exact List.suffix_refl _
  | case2 word modifier h next rest ih =>
    refine KeepsPlace.mono ?_ (List.suffix_cons (.identifier next) rest)
    exact ih.bind fun _ _ => List.suffix_refl _
  | case3 => exact .expecting "identifier" (List.suffix_refl _)

theorem readFrame_keepsPlace (tokens : List (Token N)) : KeepsPlace Prod.snd tokens (readFrame tokens) := by
  refine .mono ?_ (readQubits_suffix tokens)
  exact (readString_keepsPlace _).bind fun _ _ => List.suffix_refl _

def Token.IsQubit : Token N → Prop
  | int _ | identifier _ => True
  | float _ | string _ | mark _ => False

/-- A measurement keeps its place unless something else stands where its qubit should. -/
theorem readMeasurement_keepsPlace (h : ∀ t ∈ tokens.head?, t.IsQubit) :
    KeepsPlace Prod.snd tokens (readMeasurement tokens) := by
  cases tokens with
  | nil => rfl
  | cons t after =>
    have ht := h t rfl
    have htarget (qubit : Qubit) : KeepsPlace Prod.snd (t :: after)
        ((readSlot after).map fun target => ((⟨qubit, some target.1⟩ : Measurement), target.2)) := by
      refine KeepsPlace.mono ?_ (List.suffix_cons t after)
      exact KeepsPlace.map (readSlot_keepsPlace after) fun _ => rfl
    cases t with
    | int index =>
      cases after with
      | nil => exact List.nil_suffix
      | cons => exact htarget (.fixed index)
    | identifier name =>
      cases after with
      | nil => exact List.nil_suffix
      | cons => exact htarget (.named name)
    | float | string | mark => exact ht.elim

end Readers

variable [Scalar N]

/-! ## Expressions -/

theorem readExpr_keepsPlace (tokens : List (Token N)) : KeepsPlace Prod.snd tokens (readExpr tokens) :=
  (Expr.readBinary_keepsPlace 0 tokens).map fun _ => rfl

theorem readExprs_keepsPlace (tokens : List (Token N)) : KeepsPlace Prod.snd tokens (readExprs tokens) := by
  have hfirst := Expr.readBinary_keepsPlace 0 tokens
  fun_induction readExprs tokens with
  | case1 tokens fault h => exact hfirst.of_eq_error h
  | case2 tokens first h after hcomma fault hothers ih =>
    have hrest := hfirst.of_eq_ok h
    rw [hcomma] at hrest
    exact ((ih (Expr.readBinary_keepsPlace 0 after)).of_eq_error hothers).mono ((List.suffix_cons _ _).trans hrest)
  | case3 tokens first h after hcomma others rest hothers ih =>
    have hrest := hfirst.of_eq_ok h
    rw [hcomma] at hrest
    exact ((ih (Expr.readBinary_keepsPlace 0 after)).of_eq_ok hothers).trans ((List.suffix_cons _ _).trans hrest)
  | case4 tokens first h => exact hfirst.of_eq_ok h

theorem readParameters_keepsPlace (tokens : List (Token N)) : KeepsPlace Prod.snd tokens (readParameters tokens) := by
  unfold readParameters
  split
  · next inside =>
    refine .mono ?_ (List.suffix_cons _ inside)
    refine (readExprs_keepsPlace inside).bind fun parameters _ => ?_
    exact (readMark_keepsPlace .rightParen parameters.2).bind fun _ _ => List.suffix_refl _
  · exact List.suffix_refl _

theorem readGate_keepsPlace (word : String) (tokens : List (Token N)) :
    KeepsPlace Prod.snd tokens (readGate word tokens) := by
  refine (readModifiers_keepsPlace word tokens).bind fun named _ => ?_
  refine (readParameters_keepsPlace named.2).bind fun parameters _ => ?_
  obtain ⟨parameters, rest⟩ := parameters
  have hqubits := readQubits_suffix rest
  dsimp only
  split
  · next h =>
    rw [h] at hqubits
    exact .expecting "qubit" hqubits
  · next h =>
    rw [h] at hqubits
    exact hqubits

theorem readFrameUpdate_keepsPlace (update : FrameUpdate) (tokens : List (Token N)) :
    KeepsPlace Prod.snd tokens (readFrameUpdate update tokens) := by
  refine (readFrame_keepsPlace tokens).bind fun frame _ => ?_
  exact (readExpr_keepsPlace frame.2).bind fun _ _ => List.suffix_refl _

theorem readCallArguments_keepsPlace (tokens : List (Token N)) :
    KeepsPlace (fun _ => []) tokens (readCallArguments tokens) := by
  have hargument {tokens rest : List (Token N)} (argument : CallArgument N) (hs : rest <:+ tokens)
      (ih : KeepsPlace (fun _ => []) rest (readCallArguments rest)) :
      KeepsPlace (fun _ => []) tokens (do return argument :: (← readCallArguments rest)) := by
    refine KeepsPlace.mono ?_ hs
    exact ih.bind fun _ _ => List.suffix_refl _
  fun_induction readCallArguments tokens with
  | case1 => exact List.suffix_refl _
  | case2 name index rest ih => exact hargument _ ⟨[_, _, _, _], rfl⟩ ih
  | case3 name value rest => exact .expecting "]" ⟨[_, _, _], rfl⟩
  | case4 name rest => exact .expecting "integer" ⟨[_, _], rfl⟩
  | case5 name rest _ _ _ ih => exact hargument _ (List.suffix_cons _ _) ih
  | case6 value rest ih | case7 value rest ih => exact hargument _ (List.suffix_cons _ _) ih
  | case8 value rest ih | case9 value rest ih => exact hargument _ ⟨[_, _], rfl⟩ ih
  | case10 rest => exact .expecting "number" (List.suffix_cons _ _)
  | case11 tokens => exact .expecting "call argument" (List.suffix_refl _)

theorem readCall_keepsPlace (tokens : List (Token N)) : KeepsPlace Prod.snd tokens (readCall tokens) := by
  refine (readIdentifier_keepsPlace tokens).bind fun name _ => ?_
  exact (readCallArguments_keepsPlace name.2).bind fun _ _ => List.suffix_refl _

theorem readDelay_keepsPlace (qubits : List Qubit) (frames : List String) (tokens : List (Token N)) :
    KeepsPlace (fun _ => []) tokens (readDelay qubits frames tokens) := by
  fun_induction readDelay qubits frames tokens with
  | case1 => rfl
  | case2 | case8 => exact List.nil_suffix
  | case3 qubits frames index rest _ _ ih => exact ih.mono (List.suffix_cons _ _)
  | case5 qubits frames name rest _ ih => exact ih.mono (List.suffix_cons _ _)
  | case7 qubits frames name rest ih => exact ih.mono (List.suffix_cons _ _)
  | case4 | case6 => exact List.suffix_refl _
  | case9 => exact .expecting "end of instruction" (List.suffix_cons _ _)
  | case10 => exact .expecting "delay duration" (List.suffix_refl _)

/-! ## Statements -/

instance decidableEqError {ε α : Type} [DecidableEq ε] (r : Except ε α) (e : ε) : Decidable (r = .error e) :=
  match r with
  | .ok _ => isFalse nofun
  | .error e' => decidable_of_iff (e' = e) ⟨congrArg _, Except.error.inj⟩

/-- The statement is a measurement with something else where its qubit should be. -/
def MeasuresNoQubit (tokens : List (Token N)) : Prop :=
  ∃ t after, tokens = .identifier "MEASURE" :: t :: after ∧ ¬ t.IsQubit

theorem readOperands_keepsPlace (textOf : Nat → List Char) {keyword : String} {tokens : List (Token N)}
    (h : keyword = "MEASURE" → ∀ t ∈ tokens.head?, t.IsQubit) :
    KeepsPlace Prod.snd tokens (readOperands textOf keyword tokens) := by
  unfold readOperands
  split
  · exact (readDeclaration_keepsPlace textOf tokens).bind fun _ _ => List.suffix_refl _
  · exact (readPragma_keepsPlace tokens).bind fun _ _ => List.suffix_refl _
  · exact (readCall_keepsPlace tokens).bind fun _ _ => List.suffix_refl _
  · exact (readMeasurement_keepsPlace (h rfl)).bind fun _ _ => List.suffix_refl _
  · exact readQubits_suffix tokens
  · exact (readDelay_keepsPlace [] [] tokens).bind fun _ _ => List.suffix_refl _
  · split
    · exact readFrameUpdate_keepsPlace _ tokens
    · exact (readGate_keepsPlace _ tokens).bind fun _ _ => List.suffix_refl _

namespace Instruction

/-- Reading a statement keeps its place, except in a measurement of something that is no qubit. -/
theorem ofTokens_keepsPlace (textOf : Nat → List Char) {tokens : List (Token N)} (h : ¬ MeasuresNoQubit tokens) :
    KeepsPlace (fun _ => []) tokens (ofTokens textOf tokens) := by
  refine (readIdentifier_keepsPlace tokens).bind fun word hkeyword => ?_
  obtain ⟨keyword, rest⟩ := word
  have hoperands : KeepsPlace Prod.snd rest (readOperands textOf keyword rest) := by
    refine readOperands_keepsPlace textOf ?_
    rintro rfl t ht
    obtain ⟨after, rfl⟩ := List.head?_eq_some_iff.1 ht
    by_contra hno
    exact h ⟨t, after, readIdentifier_eq_ok hkeyword, hno⟩
  refine hoperands.bind fun instruction _ => ?_
  exact (readEnd_keepsPlace instruction.2).bind fun _ _ => List.suffix_refl _

/-- Such a measurement is a statement that ends too early, whatever follows. -/
theorem ofTokens_of_not_isQubit (textOf : Nat → List Char) {t : Token N} (h : ¬ t.IsQubit) (after : List (Token N)) :
    ofTokens textOf (.identifier "MEASURE" :: t :: after) = .error (.unexpectedEnd "qubit" (t :: after)) := by
  cases t with
  | int | identifier => exact absurd trivial h
  | float | string | mark => rfl

/-- A fault is about the tokens at the place where reading stopped, or that of a measurement of no qubit. -/
theorem standsIn_of_ofTokens {textOf : Nat → List Char} {tokens : List (Token N)} {fault : Fault N}
    (h : ofTokens textOf tokens = .error fault) :
    ¬ MeasuresNoQubit tokens ∧ fault.StandsIn tokens ∨
      ∃ t after, tokens = .identifier "MEASURE" :: t :: after ∧ ¬ t.IsQubit ∧
        fault = .unexpectedEnd "qubit" (t :: after) := by
  by_cases hmeasure : MeasuresNoQubit tokens
  · obtain ⟨t, after, rfl, hno⟩ := hmeasure
    rw [ofTokens_of_not_isQubit textOf hno] at h
    cases h
    exact Or.inr ⟨t, after, rfl, hno, rfl⟩
  · have hkeeps := ofTokens_keepsPlace textOf hmeasure
    rw [h] at hkeeps
    exact Or.inl ⟨hmeasure, hkeeps⟩

/-- A fault does not depend on the text of the tokens. -/
theorem ofTokens_eq_error {textOf : Nat → List Char} (textOf' : Nat → List Char) {tokens : List (Token N)}
    {fault : Fault N} (h : ofTokens textOf tokens = .error fault) : ofTokens textOf' tokens = .error fault := by
  rcases ofTokens_cases tokens with ⟨r, hr, -⟩ | ⟨d, shared, -, -, hread⟩
  · rw [hr, ← hr textOf, h]
  · rw [hread] at h
    cases h

/-- A statement whose stretches are all tokens fails with a fault of its tokens. -/
theorem exists_fault_of_ofText {line : Nat} {source : String} {tokens : List (Token N)} {e : QuilError}
    (valid : statementTokens line source.toList = .ok tokens)
    (h : (ofText line source : Except _ (Instruction N)) = .error e) :
    ∃ fault, (∀ textOf, ofTokens textOf tokens = .error fault) ∧ fault.atLine line = e := by
  unfold ofText ofChars at h
  dsimp only at h
  split at h
  · cases h
  · rw [statementTokens_trim valid] at h
    dsimp only at h
    split at h
    · next fault hfault =>
      cases h
      exact ⟨fault, fun textOf => ofTokens_eq_error textOf hfault, rfl⟩
    · cases h

/-- **Errors say where reading stopped.** A statement whose stretches are all tokens may fail because of an
unexpected token. Then the error has its line and quotes the token, and reading stopped at it: all tokens before
it were read. Or the statement may end too early. Then all of its tokens were read, unless it is a measurement
with something else where its qubit should be: there what follows `MEASURE` is unread. -/
theorem ofText_stops {line : Nat} {source : String} {tokens : List (Token N)}
    (valid : statementTokens line source.toList = .ok tokens) :
    (∀ line' expected found,
      (ofText line source : Except _ (Instruction N)) = .error (.unexpectedToken line' expected found) →
        line' = line ∧ ∃ read t after, tokens = read ++ t :: after ∧ found = t.text ∧
          ∀ textOf, ofTokens textOf tokens = .error (.unexpected expected t after)) ∧
      ∀ line' expected, (ofText line source : Except _ (Instruction N)) = .error (.unexpectedEnd line' expected) →
        line' = line ∧ ∃ read unread, tokens = read ++ unread ∧
          (∀ textOf, ofTokens textOf tokens = .error (.unexpectedEnd expected unread)) ∧
          (unread = [] ↔ ¬ MeasuresNoQubit tokens) := by
  constructor
  · intro line' expected found h
    obtain ⟨fault, hfault, he⟩ := exists_fault_of_ofText valid h
    cases fault with
    | unexpectedEnd | unknownScalarType => cases he
    | unexpected expected t after =>
      cases he
      rcases standsIn_of_ofTokens (hfault fun _ => []) with ⟨-, read, hread⟩ | ⟨_, _, -, -, hend⟩
      · exact ⟨rfl, read, t, after, hread.symm, rfl, hfault⟩
      · cases hend
  · intro line' expected h
    obtain ⟨fault, hfault, he⟩ := exists_fault_of_ofText valid h
    cases fault with
    | unexpected | unknownScalarType => cases he
    | unexpectedEnd expected unread =>
      cases he
      rcases standsIn_of_ofTokens (hfault fun _ => []) with ⟨hmeasure, hstands⟩ | ⟨t, after, rfl, hno, hend⟩
      · obtain rfl : unread = [] := hstands
        exact ⟨rfl, tokens, [], (List.append_nil _).symm, hfault, by simpa using hmeasure⟩
      · cases hend
        exact ⟨rfl, [.identifier "MEASURE"], t :: after, rfl, hfault, by simpa using ⟨t, after, rfl, hno⟩⟩

/-- A parenthesis that is not closed, and a bracket behind which nothing follows. -/
theorem ofText_stops_open :
    (∃ read t after, (ofText 7 "RX(2*a[0] 1" : Except _ (Instruction Whole)) = .error (.unexpectedToken 7 ")" "1") ∧
        statementTokens (N := Whole) 7 "RX(2*a[0] 1".toList = .ok (read ++ t :: after) ∧ "1" = t.text ∧
        ∀ textOf, ofTokens textOf (read ++ t :: after) = .error (.unexpected ")" t after)) ∧
      ∃ read unread, (ofText 7 "CALL f x[" : Except _ (Instruction Whole)) = .error (.unexpectedEnd 7 "integer") ∧
        statementTokens (N := Whole) 7 "CALL f x[".toList = .ok (read ++ unread) ∧
        (∀ textOf, ofTokens textOf (read ++ unread) = .error (.unexpectedEnd "integer" unread)) ∧
        (unread = [] ↔ ¬ MeasuresNoQubit (read ++ unread)) := by
  have exists_tokens (source : String) (h : (statementTokens (N := Whole) 7 source.toList).isOk = true) :
      ∃ tokens, statementTokens (N := Whole) 7 source.toList = .ok tokens := by
    cases htokens : statementTokens (N := Whole) 7 source.toList with
    | error e =>
      rw [htokens] at h
      cases h
    | ok tokens => exact ⟨tokens, rfl⟩
  constructor
  · obtain ⟨tokens, valid⟩ := exists_tokens "RX(2*a[0] 1" (by decide +kernel)
    have hfails : (ofText 7 "RX(2*a[0] 1" : Except _ (Instruction Whole)) = .error (.unexpectedToken 7 ")" "1") := by
      decide +kernel
    obtain ⟨-, read, t, after, rfl, hquoted, hfault⟩ := (ofText_stops valid).1 _ _ _ hfails
    exact ⟨read, t, after, hfails, valid, hquoted, hfault⟩
  · obtain ⟨tokens, valid⟩ := exists_tokens "CALL f x[" (by decide +kernel)
    have hfails : (ofText 7 "CALL f x[" : Except _ (Instruction Whole)) = .error (.unexpectedEnd 7 "integer") := by
      decide +kernel
    obtain ⟨-, read, unread, rfl, hfault, hread⟩ := (ofText_stops valid).2 _ _ hfails
    exact ⟨read, unread, hfails, valid, hfault, hread⟩

/-- In front of a mark a measurement ends too early, though the mark is left. -/
theorem ofText_measure_mark :
    (ofText 1 "MEASURE +" : Except _ (Instruction Whole)) = .error (.unexpectedEnd 1 "qubit") ∧
      ∃ tokens, statementTokens (N := Whole) 1 "MEASURE +".toList = .ok tokens ∧
        ∀ textOf, ofTokens textOf tokens = .error (.unexpectedEnd "qubit" [.mark .plus]) := by
  have hname : (Piece.read 'M' "EASURE +".toList : Piece Whole × List Char) =
      (.token "MEASURE".toList (.identifier "MEASURE"), [' ', '+']) := by rfl
  have hblank : (Piece.read ' ' ['+'] : Piece Whole × List Char) = (.blank [' '], ['+']) := by rfl
  have hmark : (Piece.read '+' [] : Piece Whole × List Char) = (.token ['+'] (.mark .plus), []) := by rfl
  have hpieces : (pieces "MEASURE +".toList : List (Piece Whole)) =
      [.token "MEASURE".toList (.identifier "MEASURE"), .blank [' '], .token ['+'] (.mark .plus)] := by
    have htext : "MEASURE +".toList = 'M' :: "EASURE +".toList := by decide
    rw [htext, pieces_cons, hname, pieces_cons, hblank, pieces_cons, hmark, pieces_nil]
  refine ⟨by decide +kernel, _, statementTokens_of_valid 1 (by rw [hpieces]; simp), fun _ => ?_⟩
  rw [hpieces]
  rfl

end Instruction

end QuilControl
