import QuilControl.Proofs.Instruction.Phrase

/-!
# Instructions as tokens

What each instruction is written with. An instruction that can be written is a sentence of its tokens
(`Instruction.sentence`), and its text begins with its first token.
-/

namespace QuilControl

variable {N : Type} [Scalar N]

/-! ## Tokens -/

def Qubit.token : Qubit → Token N
  | fixed index => .int index
  | named name => .identifier name

def PragmaArgument.token : PragmaArgument → Token N
  | identifier name => .identifier name
  | integer value => .int value

def CallArgument.tokens : CallArgument N → List (Token N)
  | identifier name => [.identifier name]
  | .slot s => s.tokens
  | immediate value => literalTokens value

/-- Tokens of expressions with commas between them. -/
def commaTokens : List (Expr N) → List (Token N)
  | [] => []
  | [e] => e.tokens
  | e :: rest => e.tokens ++ .mark .comma :: commaTokens rest

/-- The tokens behind `DECLARE`. -/
def Declaration.tokens (d : Declaration) : List (Token N) :=
  .identifier d.name :: (⟨d.scalar.keyword, d.length⟩ : MemoryReference).tokens ++
    match d.sharing with
    | none => []
    | some text => .identifier "SHARING" :: tokensOf (pieces text.toList)

/-- The tokens behind `PRAGMA`. -/
def Pragma.tokens (p : Pragma) : List (Token N) :=
  .identifier p.name :: p.arguments.map (·.token) ++
    match p.data with
    | none => []
    | some data => [.string data]

/-- The tokens behind `CALL`. -/
def Call.tokens (c : Call N) : List (Token N) := .identifier c.name :: c.arguments.flatMap (·.tokens)

/-- The tokens behind the words of a gate. -/
def Gate.operands (g : Gate N) : List (Token N) :=
  (if g.parameters.isEmpty then []
    else .mark .leftParen :: commaTokens g.parameters ++ [.mark .rightParen]) ++
      g.qubits.map (·.token)

/-- The tokens behind `MEASURE`. -/
def Measurement.tokens (m : Measurement) : List (Token N) :=
  m.qubit.token ::
    match m.target with
    | none => []
    | some target => target.tokens

/-- The tokens behind `DELAY`. -/
def Delay.tokens (d : Delay N) : List (Token N) :=
  d.qubits.map (·.token) ++ d.frames.map .string ++ literalTokens d.seconds

def Frame.tokens (f : Frame) : List (Token N) := f.qubits.map (·.token) ++ [.string f.name]

namespace Instruction

/-- The tokens of an instruction that is not kept as its text. -/
def tokens : Instruction N → List (Token N)
  | declaration d => .identifier "DECLARE" :: d.tokens
  | pragma p => .identifier "PRAGMA" :: p.tokens
  | call c => .identifier "CALL" :: c.tokens
  | gate g => g.modifiers.map (.identifier ·.keyword) ++ .identifier g.name :: g.operands
  | measurement m => .identifier "MEASURE" :: m.tokens
  | fence qubits => .identifier "FENCE" :: qubits.map (·.token)
  | delay d => .identifier "DELAY" :: d.tokens
  | frameUpdate update frame value => .identifier update.keyword :: (frame.tokens ++ value.tokens)
  | other _ => []

end Instruction

/-! ## Phrases -/

theorem GateModifier.isName_keyword (m : GateModifier) : IsName m.keyword := by cases m <;> decide

theorem FrameUpdate.isName_keyword (update : FrameUpdate) : IsName update.keyword := by cases update <;> decide

theorem Qubit.phrase {q : Qubit} (h : q.IsLegible) : Phrase (N := N) q.chars [q.token] := by
  cases q with
  | fixed index => exact Phrase.natural index
  | named name => exact Phrase.identifier h

theorem PragmaArgument.phrase {a : PragmaArgument} (h : a.IsLegible) : Phrase (N := N) a.chars [a.token] := by
  cases a with
  | identifier name => exact Phrase.identifier h
  | integer value => exact Phrase.natural value

theorem CallArgument.phrase (laws : LiteralLaws N) {a : CallArgument N} (h : a.IsLegible) :
    Phrase a.chars a.tokens := by
  cases a with
  | identifier name => exact Phrase.identifier h
  | slot s => exact Phrase.slot h
  | immediate value => exact Phrase.literal laws h

theorem Pragma.chars_eq (p : Pragma) :
    p.chars = "PRAGMA".toList ++ ' ' :: (p.name.toList ++ spaced (p.arguments.map (·.chars)) ++
      p.data.elim [] fun data => ' ' :: quoted data) := by
  have hkeyword : "PRAGMA ".toList = "PRAGMA".toList ++ [' '] := by decide
  unfold Pragma.chars
  rw [hkeyword]
  cases p.data <;> simp

theorem Pragma.phrase {p : Pragma} (h : p.IsLegible) :
    Phrase (N := N) p.chars (.identifier "PRAGMA" :: p.tokens) := by
  have hname := (Phrase.keyword (N := N) "PRAGMA" (by decide)).append (Phrase.identifier h.name)
  have harguments := hname.words fun a ha => PragmaArgument.phrase (h.arguments a ha)
  have hdata := h.data
  rw [p.chars_eq]
  unfold Pragma.tokens
  cases hp : p.data with
  | none => simpa using harguments
  | some data =>
    rw [hp] at hdata
    simpa using harguments.append (Phrase.quoted (hdata data rfl))

theorem Call.chars_eq (c : Call N) :
    c.chars = "CALL".toList ++ ' ' :: (c.name.toList ++ spaced (c.arguments.map (·.chars))) := by
  have hkeyword : "CALL ".toList = "CALL".toList ++ [' '] := by decide
  unfold Call.chars
  rw [hkeyword]
  simp

theorem Call.phrase (laws : LiteralLaws N) {c : Call N} (h : c.IsLegible) :
    Phrase c.chars (.identifier "CALL" :: c.tokens) := by
  have hname := (Phrase.keyword (N := N) "CALL" (by decide)).append (Phrase.identifier h.name)
  have harguments := hname.spaced fun a ha => CallArgument.phrase laws (h.arguments a ha)
  rw [c.chars_eq]
  unfold Call.tokens
  simpa using harguments

theorem Measurement.chars_eq (m : Measurement) :
    m.chars = "MEASURE".toList ++ ' ' :: (m.qubit.chars ++
      m.target.elim [] fun target => ' ' :: target.chars) := by
  have hkeyword : "MEASURE ".toList = "MEASURE".toList ++ [' '] := by decide
  unfold Measurement.chars
  rw [hkeyword]
  cases m.target <;> simp

theorem Measurement.phrase {m : Measurement} (h : m.IsLegible) :
    Phrase (N := N) m.chars (.identifier "MEASURE" :: m.tokens) := by
  have hqubit := (Phrase.keyword (N := N) "MEASURE" (by decide)).append (Qubit.phrase h.qubit)
  have htarget := h.target
  rw [m.chars_eq]
  unfold Measurement.tokens
  cases hm : m.target with
  | none => simpa using hqubit
  | some target =>
    rw [hm] at htarget
    simpa using hqubit.append (Phrase.slot (htarget target rfl))

theorem Delay.phrase (laws : LiteralLaws N) {d : Delay N} (h : d.IsLegible) :
    Phrase d.chars (.identifier "DELAY" :: d.tokens) := by
  have hqubits := (Phrase.keyword (N := N) "DELAY" (by decide)).words fun q hq => Qubit.phrase (h.qubits q hq)
  have hframes := hqubits.words (f := quoted) (g := .string) fun f hf => Phrase.quoted (h.frames f hf)
  have hall := hframes.append (Phrase.literal laws h.finite)
  unfold Delay.chars Delay.tokens
  simpa using hall

theorem Frame.phrase {f : Frame} (h : f.IsLegible) : Phrase (N := N) f.chars f.tokens :=
  Phrase.leading (fun q hq => Qubit.phrase (h.qubits q hq)) (Phrase.quoted h.name)

/-! ## Gates -/

/-- Expressions with commas between them, up to a closing parenthesis. -/
theorem spells_commaSeparated (laws : LiteralLaws N) {es : List (Expr N)} (h : ∀ e ∈ es, e.IsLegible) :
    Spells (N := N) anyText (commaSeparated (es.map (·.chars)) ++ [')']) (commaTokens es ++ [.mark .rightParen]) ∧
      '\n' ∉ commaSeparated (es.map (·.chars)) := by
  have hclose := spells_mark (N := N) .rightParen
  have hsolid {e : Expr N} (he : e ∈ es) := Phrase.expr_solid laws ((h e he).legible laws)
  have hspells {e : Expr N} (he : e ∈ es) := e.spells ((h e he).legible laws)
  fun_induction commaTokens es with
  | case1 => exact ⟨hclose, by simp [commaSeparated]⟩
  | case2 e =>
    have he := List.mem_cons_self (a := e) (l := [])
    exact ⟨(hspells he).append hclose fun _ _ => Expr.breaks_cons (by decide) (by decide), (hsolid he).2⟩
  | case3 e rest hne ih =>
    obtain ⟨hrest, hline⟩ := ih (fun d hd => h d (List.mem_cons_of_mem _ hd))
      (fun hd => hsolid (List.mem_cons_of_mem _ hd)) fun hd => hspells (List.mem_cons_of_mem _ hd)
    have hcomma := (spells_mark (N := N) .comma).append ((spells_blank (N := N)).append hrest fun _ _ => trivial)
      fun _ _ => trivial
    have hall := (hspells List.mem_cons_self).append hcomma fun _ _ =>
      Expr.breaks_cons (by decide) (by decide)
    obtain ⟨d, ds, rfl⟩ := List.exists_cons_of_ne_nil hne
    refine ⟨?_, ?_⟩
    · simpa [commaSeparated, Mark.char] using hall
    · simpa [commaSeparated, (hsolid List.mem_cons_self).2] using hline

/-- The name of a gate with its parameters. -/
theorem Gate.phrase_name (laws : LiteralLaws N) {g : Gate N} (h : g.IsLegible) :
    Phrase (g.name.toList ++ (if g.parameters.isEmpty then []
        else '(' :: commaSeparated (g.parameters.map (·.chars)) ++ [')']))
      (.identifier g.name :: (if g.parameters.isEmpty then []
        else .mark .leftParen :: commaTokens g.parameters ++ [.mark .rightParen])) := by
  have hname := Phrase.identifier (N := N) h.name
  by_cases hnil : g.parameters.isEmpty = true
  · rw [if_pos hnil, if_pos hnil, List.append_nil]
    exact hname
  · rw [if_neg hnil, if_neg hnil]
    obtain ⟨hinside, hline⟩ := spells_commaSeparated laws h.parameters
    have hopen := (spells_mark (N := N) .leftParen).append hinside fun _ _ => trivial
    have hall := (spells_identifier (N := N) h.name).append hopen fun rest _ => breaksName_cons.2 (by decide)
    refine ⟨hall.mono fun _ _ => trivial, ?_, by simp, ?_⟩
    · exact Text.solidEnd_append (Text.solidEnd_concat _ (by decide)) (by simp) _
    · simp [hname.oneLine, hline]

theorem Gate.phrase (laws : LiteralLaws N) {g : Gate N} (h : g.IsLegible) :
    Phrase g.chars (g.modifiers.map (.identifier ·.keyword) ++ .identifier g.name :: g.operands) := by
  have hword : ∀ m ∈ g.modifiers, Phrase (N := N) m.keyword.toList [.identifier m.keyword] := fun m _ =>
    Phrase.keyword m.keyword m.isName_keyword
  have hall := (Phrase.leading hword (g.phrase_name laws h)).words fun q hq => Qubit.phrase (h.qubits q hq)
  unfold Gate.chars Gate.operands
  simpa using hall

/-! ## Sentences -/

theorem Declaration.chars_eq (d : Declaration) :
    d.chars = "DECLARE".toList ++ ' ' :: (d.name.toList ++
      ' ' :: (⟨d.scalar.keyword, d.length⟩ : MemoryReference).chars ++
        d.sharing.elim [] fun text => " SHARING ".toList ++ text.toList) := by
  have hkeyword : "DECLARE ".toList = "DECLARE".toList ++ [' '] := by decide
  unfold Declaration.chars MemoryReference.chars
  rw [hkeyword]
  cases d.sharing <;> simp

/-- A declaration up to its type. -/
theorem Declaration.phrase {d : Declaration} (h : d.IsLegible N) :
    Phrase (N := N) { d with sharing := none }.chars (.identifier "DECLARE" :: { d with sharing := none }.tokens) := by
  have htype : (⟨d.scalar.keyword, d.length⟩ : MemoryReference).IsLegible := by
    show IsName d.scalar.keyword
    cases d.scalar <;> decide
  have hname := (Phrase.keyword (N := N) "DECLARE" (by decide)).append (Phrase.identifier h.name)
  rw [Declaration.chars_eq]
  unfold Declaration.tokens
  simpa using hname.append (Phrase.slot htype)

theorem Declaration.chars_sharing {d : Declaration} {text : String} (h : d.sharing = some text) :
    d.chars = ({ d with sharing := none }.chars ++ ' ' :: "SHARING".toList) ++ ' ' :: text.toList := by
  have hchars : " SHARING ".toList = ' ' :: "SHARING".toList ++ [' '] := by decide
  unfold Declaration.chars
  rw [h, hchars]
  simp

/-- A declaration up to the word `SHARING`. -/
theorem Declaration.phrase_sharing {d : Declaration} (h : d.IsLegible N) :
    Phrase (N := N) ({ d with sharing := none }.chars ++ ' ' :: "SHARING".toList)
      (.identifier "DECLARE" :: { d with sharing := none }.tokens ++ [.identifier "SHARING"]) :=
  (Declaration.phrase h).append (Phrase.keyword "SHARING" (by decide))

theorem Declaration.sentence {d : Declaration} (h : d.IsLegible N) :
    Sentence (N := N) d.chars (.identifier "DECLARE" :: d.tokens) := by
  cases hd : d.sharing with
  | none =>
    have hnone : { d with sharing := none } = d := by rw [← hd]
    have hall := Sentence.of_phrase (Declaration.phrase h)
    rwa [hnone] at hall
  | some text =>
    have hall := Sentence.append (Declaration.phrase_sharing h) (Sentence.of_shared (h.sharing text hd))
    rw [Declaration.chars_sharing hd]
    unfold Declaration.tokens at hall ⊢
    rw [hd]
    simpa using hall

namespace Instruction

/-- An instruction that can be written is a sentence. -/
theorem sentence (laws : LiteralLaws N) {i : Instruction N} (h : i.IsLegible) (ho : ∀ text, i ≠ other text) :
    Sentence i.chars i.tokens := by
  cases i with
  | declaration d => exact Declaration.sentence h
  | pragma p => exact .of_phrase (Pragma.phrase h)
  | call c => exact .of_phrase (Call.phrase laws h)
  | gate g => exact .of_phrase (Gate.phrase laws h)
  | measurement m => exact .of_phrase (Measurement.phrase h)
  | fence qubits =>
    exact .of_phrase ((Phrase.keyword (N := N) "FENCE" (by decide)).words fun q hq => Qubit.phrase (h q hq))
  | delay d => exact .of_phrase (Delay.phrase laws h)
  | frameUpdate update frame value =>
    have hword := Phrase.keyword (N := N) update.keyword update.isName_keyword
    exact .of_phrase ((hword.append (Frame.phrase h.1)).append (Phrase.expr laws h.2))
  | other text => exact absurd rfl (ho text)

end Instruction

end QuilControl
