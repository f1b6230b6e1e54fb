import QuilControl.Instruction.Printer
import QuilControl.Proofs.Expr.Reading
import QuilControl.Proofs.Program.Statements

/-!
# Instructions that are read can be written

Each part of an instruction comes from tokens, so its names are identifiers, its strings hold no
quote and its numbers are finite. On top of that, a gate has a qubit and a name that is no modifier;
a gate without modifiers has a name that opens no other instruction; the text behind `SHARING` is the
end of its statement; and an instruction kept as its text is a statement with the word of one. These
are the properties that writing it again needs.
-/

namespace QuilControl

variable {N : Type} [Scalar N]

/-! ## The end of a statement as its text -/

section Unread

omit [Scalar N] in
theorem length_locate (offset : Nat) {ps : List (Piece N)} (h : ∀ cs, Piece.invalid cs ∉ ps) :
    (locate offset ps).length = (tokensOf ps).length := by
  induction ps generalizing offset with
  | nil => rfl
  | cons p ps ih =>
    have hps := ih (offset + Text.utf8Length p.chars) fun cs hm => h cs (List.mem_cons_of_mem _ hm)
    cases p with
    | blank | comment | token => simpa [locate] using hps
    | invalid cs => exact absurd List.mem_cons_self (h cs)

theorem dropBytes_append (a b : List Char) : Text.dropBytes (Text.utf8Length a) (a ++ b) = b := by
  induction a with
  | nil => cases b <;> rfl
  | cons c a ih =>
    have hc := Char.utf8Size_pos c
    rw [Text.utf8Length_cons, List.cons_append]
    obtain ⟨n, hn⟩ : ∃ n, c.utf8Size + Text.utf8Length a = n + 1 := ⟨_, (Nat.succ_pred (by omega)).symm⟩
    rw [hn, Text.dropBytes, ← hn, Nat.add_sub_cancel_left, ih]

/-- Where its last tokens begin, a text goes on with them. -/
theorem textOfUnread_eq {text cs : List Char} {t : Token N} {ps qs : List (Piece N)}
    (h : pieces text = ps ++ .token cs t :: qs)
    (hvalid : ∀ cs, Piece.invalid cs ∉ (pieces text : List (Piece N))) :
    textOfUnread text ((tokenize (N := N) text).map (·.start)) ((tokensOf qs).length + 1) =
      Text.trim ((Piece.token cs t :: qs).flatMap Piece.chars) := by
  have hqs : ∀ ds, Piece.invalid ds ∉ Piece.token cs t :: qs := fun ds hm =>
    hvalid ds (h ▸ List.mem_append_right _ hm)
  have hstarts : (tokenize (N := N) text).map (·.start) =
      (locate 0 ps).map (·.start) ++
        (locate (Text.utf8Length (ps.flatMap Piece.chars)) (.token cs t :: qs)).map (·.start) := by
    rw [tokenize, h, locate_append, List.map_append, Nat.zero_add]
  have hlen : ((locate (Text.utf8Length (ps.flatMap Piece.chars)) (.token cs t :: qs)).map (·.start)).length =
      (tokensOf qs).length + 1 := by
    rw [List.length_map, length_locate _ hqs, tokensOf_token, List.length_cons]
  unfold textOfUnread
  rw [hstarts, List.length_append, hlen, Nat.add_sub_cancel, List.drop_left]
  simp only [locate, List.map_cons]
  rw [(pieces_of_append h).1, dropBytes_append]

/-- The tokens at the end of a text begin at one of its pieces. -/
theorem exists_piece_of_suffix {text : List Char} {shared : List (Token N)}
    (h : shared <:+ tokensOf (pieces text)) (hne : shared ≠ []) :
    ∃ ps cs t qs, (pieces text : List (Piece N)) = ps ++ .token cs t :: qs ∧
      shared.length = (tokensOf qs).length + 1 := by
  obtain ⟨front, hfront⟩ := h
  obtain ⟨t, ts, rfl⟩ := List.exists_cons_of_ne_nil hne
  obtain ⟨ps, rs, hsplit, -, hshared⟩ := List.filterMap_eq_append_iff.1 hfront.symm
  obtain ⟨ps', piece, qs, rfl, -, hpiece, hqs⟩ := List.filterMap_eq_cons_iff.1 hshared
  cases piece with
  | token cs u =>
    cases hpiece
    refine ⟨ps ++ ps', cs, t, qs, by rw [hsplit, List.append_assoc], ?_⟩
    rw [← hqs]
    rfl
  | blank | comment | invalid => cases hpiece

end Unread

/-- The text behind `SHARING`: tokens, with nothing to trim. -/
structure IsShared (N : Type) [Scalar N] (text : List Char) : Prop where
  plain : ∀ p ∈ (pieces text : List (Piece N)), p.isPlain = true
  solidStart : Text.solidStart text
  solidEnd : Text.solidEnd text
  oneLine : '\n' ∉ text
  ne_nil : text ≠ []

theorem solidStart_tokenText {cs : List Char} (h : IsTokenText cs) (rest : List Char) :
    Text.solidStart (cs ++ rest) := by
  rcases h with ⟨hne, hcs⟩ | ⟨inside, rfl, -⟩
  · refine Text.solidStart_append (fun c hc => ?_) hne rest
    have := hcs c (List.mem_of_mem_head? hc)
    simp only [isTokenChar, Bool.and_eq_true, Bool.not_eq_true'] at this
    exact this.1.1.1
  · intro c hc
    cases hc
    decide

/-- The end of a statement from one of its tokens on. A comment may follow its tokens. -/
structure IsTail (N : Type) [Scalar N] (text : List Char) : Prop where
  valid : ∀ cs, Piece.invalid cs ∉ (pieces text : List (Piece N))
  begins : ∃ cs t qs, (pieces text : List (Piece N)) = .token cs t :: qs
  solidStart : Text.solidStart text
  solidEnd : Text.solidEnd text

theorem IsTail.ne_nil {text : List Char} (h : IsTail N text) : text ≠ [] := by
  obtain ⟨cs, t, qs, hpieces⟩ := h.begins
  rintro rfl
  rw [pieces_nil] at hpieces
  cases hpieces

/-- From one of its tokens on, a text is cut as before. -/
theorem isTail_textOfUnread (laws : LiteralLaws N) {text cs : List Char} {t : Token N} {ps qs : List (Piece N)}
    (he : Text.solidEnd text) (hvalid : ∀ cs, Piece.invalid cs ∉ (pieces text : List (Piece N)))
    (h : pieces text = ps ++ .token cs t :: qs) :
    ∃ u, textOfUnread text ((tokenize (N := N) text).map (·.start)) ((tokensOf qs).length + 1) = u ∧
      IsTail N u ∧ pieces u = .token cs t :: qs ∧ u ⊆ text := by
  obtain ⟨happend, hpieces⟩ := pieces_of_append h
  have hmem : Piece.token cs t ∈ (pieces text : List (Piece N)) := by
    rw [h]
    exact List.mem_append_right _ List.mem_cons_self
  have hcs := (isLegible_of_mem_pieces laws hmem).1
  rw [textOfUnread_eq h hvalid]
  generalize hu : (Piece.token cs t :: qs).flatMap Piece.chars = u at *
  have hstart : Text.solidStart u := by
    rw [← hu]
    exact solidStart_tokenText hcs _
  have hend : Text.solidEnd u := by
    intro c hc
    refine he c ?_
    rw [happend, List.getLast?_append, hc]
    rfl
  refine ⟨u, Text.trim_eq_self hstart hend, ⟨fun ds hm => hvalid ds ?_, ⟨_, _, _, hpieces⟩, hstart, hend⟩,
    hpieces, ?_⟩
  · rw [h]
    exact List.mem_append_right _ (hpieces ▸ hm)
  · rw [happend]
    exact List.subset_append_right _ _

/-- The end of a statement without a comment. -/
theorem isShared_textOfUnread (laws : LiteralLaws N) {text cs : List Char} {t : Token N}
    {ps qs : List (Piece N)} (hs : IsStatement text) (h : pieces text = ps ++ .token cs t :: qs)
    (hp : ∀ p ∈ (pieces text : List (Piece N)), p.isPlain = true) :
    IsShared N (textOfUnread text ((tokenize (N := N) text).map (·.start)) ((tokensOf qs).length + 1)) := by
  obtain ⟨u, hu, htail, hpieces, hsub⟩ := isTail_textOfUnread laws hs.solidEnd (invalid_notMem_of_plain hp) h
  rw [hu]
  refine ⟨?_, htail.solidStart, htail.solidEnd, fun hm => hs.oneLine (hsub hm), htail.ne_nil⟩
  rw [hpieces]
  intro p hm
  exact hp p (by rw [h]; exact List.mem_append_right _ hm)

/-! ## Legible instructions -/

/-- A named qubit has the name of an identifier. -/
def Qubit.IsLegible : Qubit → Prop
  | fixed _ => True
  | named name => IsName name

structure Frame.IsLegible (f : Frame) : Prop where
  qubits : ∀ q ∈ f.qubits, q.IsLegible
  name : IsQuotable f.name

structure Declaration.IsLegible (N : Type) [Scalar N] (d : Declaration) : Prop where
  name : IsName d.name
  sharing : ∀ text ∈ d.sharing, IsShared N text.toList

def PragmaArgument.IsLegible : PragmaArgument → Prop
  | identifier name => IsName name
  | integer _ => True

structure Pragma.IsLegible (p : Pragma) : Prop where
  name : IsName p.name
  arguments : ∀ a ∈ p.arguments, a.IsLegible
  data : ∀ text ∈ p.data, IsQuotable text

def CallArgument.IsLegible : CallArgument N → Prop
  | identifier name => IsName name
  | .slot s => s.IsLegible
  | immediate value => Scalar.isFinite value = true

structure Call.IsLegible (c : Call N) : Prop where
  name : IsName c.name
  arguments : ∀ a ∈ c.arguments, a.IsLegible

/-- The words that open an instruction with operands of its own. -/
def operandKeywords : List String := ["DECLARE", "PRAGMA", "CALL", "MEASURE", "FENCE", "DELAY"]

structure IsGateWord (word : String) : Prop where
  operands : word ∉ operandKeywords
  update : FrameUpdate.ofKeyword? word = none
  verbatim : word ∉ verbatimKeywords

structure Gate.IsLegible (g : Gate N) : Prop where
  name : IsName g.name
  unmodified : GateModifier.ofKeyword? g.name = none
  parameters : ∀ e ∈ g.parameters, e.IsLegible
  qubits : ∀ q ∈ g.qubits, q.IsLegible
  qubits_ne_nil : g.qubits ≠ []
  word : g.modifiers = [] → IsGateWord g.name

structure Measurement.IsLegible (m : Measurement) : Prop where
  qubit : m.qubit.IsLegible
  target : ∀ t ∈ m.target, t.IsLegible

structure Delay.IsLegible (d : Delay N) : Prop where
  qubits : ∀ q ∈ d.qubits, q.IsLegible
  frames : ∀ f ∈ d.frames, IsQuotable f
  finite : Scalar.isFinite d.seconds = true
  nonnegative : Scalar.isNegative d.seconds = false

/-- An instruction that can be written again. -/
def Instruction.IsLegible : Instruction N → Prop
  | declaration d => d.IsLegible N
  | pragma p => p.IsLegible
  | call c => c.IsLegible
  | gate g => g.IsLegible
  | measurement m => m.IsLegible
  | fence qubits => ∀ q ∈ qubits, q.IsLegible
  | delay d => d.IsLegible
  | frameUpdate _ frame value => frame.IsLegible ∧ value.IsLegible
  | other text => IsStatement text.toList ∧ String.ofList (firstWord text.toList) ∈ verbatimKeywords

end QuilControl
