import QuilControl.Program.Printer
import QuilControl.Proofs.Instruction.RoundTrip
import QuilControl.Proofs.Text.Lines

/-!
# Blocks read back

A block is a line that begins with `DEF` and the indented lines behind it. Frame definitions are read
token by token, and written with one line for their header and one for each attribute; any other block
is kept as its lines. Each of these lines reads as the part of the block it was written for.
-/

namespace QuilControl

variable {N : Type} [Scalar N]

/-! ## Single lines -/

section Single

variable {raw : List Char} (line : Nat)

theorem readLine_blank (progress : Progress N) : readLine line progress [] = .ok progress := rfl

theorem isIndented_eq_false (h : Text.solidStart raw) : isIndented raw = false := by
  cases raw with
  | nil => rfl
  | cons c rest =>
    have hc : Text.isWhiteSpace c = false := h c rfl
    have hblank : c ≠ ' ' := by rintro rfl; exact absurd hc (by decide)
    have htab : c ≠ '\t' := by rintro rfl; exact absurd hc (by decide)
    simp [isIndented, hblank, htab]

theorem trimEnd_stripComment (h : IsLine raw) : Text.trimEnd (stripComment false raw) = raw := by
  rw [stripComment_eq_self h.uncommented, Text.trimEnd_eq_self h.solidEnd]

/-- A line that is not indented closes the block that is open. -/
theorem readLine_open (h : IsLine raw) (hs : Text.solidStart raw) (progress : Progress N) :
    readLine line progress raw = openLine line progress.close raw := by
  unfold readLine
  simp only [trimEnd_stripComment h, h.notBlank, isIndented_eq_false hs, Bool.false_eq_true, if_false]

theorem readLine_verbatim (h : IsLine raw) (hi : isIndented raw = true) (p : Program N) (kept : List Char) :
    readLine line ⟨p, some (.verbatim kept)⟩ raw = .ok ⟨p, some (.verbatim (kept ++ '\n' :: raw))⟩ := by
  unfold readLine
  simp only [trimEnd_stripComment h, h.notBlank, hi, Bool.false_eq_true, if_false, if_true]

theorem readOnLine_eq_ok {α : Type} {line : Nat} {read : List (Token N) → Except (Fault N) α} {a : α}
    (h : readOnLine line read raw = .ok a) :
    ∃ tokens, statementTokens line raw = .ok tokens ∧ read tokens = .ok a := by
  unfold readOnLine at h
  split at h
  · cases h
  · next tokens htokens =>
    split at h
    · cases h
    · next b hb =>
      cases h
      exact ⟨tokens, htokens, hb⟩

theorem readOnLine_of_tokens {α : Type} {read : List (Token N) → Except (Fault N) α} {tokens : List (Token N)}
    {a : α} (ht : statementTokens line raw = .ok tokens) (ha : read tokens = .ok a) :
    readOnLine line read raw = .ok a := by
  unfold readOnLine
  simp only [ht, ha]

theorem readLine_attribute (h : IsLine raw) (hi : isIndented raw = true) (p : Program N) (d : FrameDefinition N)
    {a : String × Attribute N} (ha : readOnLine line Attribute.ofTokens raw = .ok a) :
    readLine line ⟨p, some (.frame d)⟩ raw =
      .ok ⟨p, some (.frame { d with attributes := d.attributes ++ [a] })⟩ := by
  unfold readLine
  simp only [trimEnd_stripComment h, h.notBlank, hi, Bool.false_eq_true, if_false, if_true, ha]

/-- The tokens of a statement do not depend on its line. -/
theorem statementTokens_line {line : Nat} {tokens : List (Token N)} (h : statementTokens line raw = .ok tokens)
    (line' : Nat) : statementTokens line' raw = .ok tokens := by
  obtain ⟨rfl, hvalid⟩ := statementTokens_eq_ok h
  exact statementTokens_of_valid line' hvalid

theorem readOnLine_line {α : Type} {line : Nat} {read : List (Token N) → Except (Fault N) α} {a : α}
    (h : readOnLine line read raw = .ok a) (line' : Nat) : readOnLine line' read raw = .ok a := by
  obtain ⟨tokens, htokens, ha⟩ := readOnLine_eq_ok h
  exact readOnLine_of_tokens line' (statementTokens_line htokens line') ha

/-- A blank in front of a text is no token. -/
theorem statementTokens_blank {line : Nat} {tokens : List (Token N)} (h : statementTokens line raw = .ok tokens) :
    statementTokens line (' ' :: raw) = .ok tokens := by
  obtain ⟨rfl, hvalid⟩ := statementTokens_eq_ok h
  have hread : (Piece.read ' ' raw : Piece N × List Char) = (.blank [' '], raw) := rfl
  have hpieces : pieces (' ' :: raw) = .blank [' '] :: pieces (N := N) raw := by rw [pieces_cons, hread]
  rw [statementTokens_of_valid line, hpieces, tokensOf_blank]
  intro cs hm
  rw [hpieces] at hm
  exact hvalid cs (by simpa using hm)

end Single

/-! ## Blocks that are kept as their lines -/

/-- The text of a block that is kept. -/
structure IsVerbatim (head : List Char) (others : List (List Char)) : Prop where
  head_isLine : IsLine head
  head_solid : Text.solidStart head
  head_def : "DEF".toList <+: firstWord head
  head_ne : firstWord head ≠ "DEFFRAME".toList
  others_isLine : ∀ l ∈ others, IsLine l
  others_indented : ∀ l ∈ others, isIndented l = true

/-- Lines with line ends between them. -/
def joinLines (head : List Char) (others : List (List Char)) : List Char := head ++ others.flatMap ('\n' :: ·)

theorem joinLines_concat (head : List Char) (others : List (List Char)) (l : List Char) :
    joinLines head (others ++ [l]) = joinLines head others ++ '\n' :: l := by
  simp [joinLines]

/-! ## Frame definitions -/

def Attribute.IsLegible : Attribute N → Prop
  | string text => IsQuotable text
  | expression value => value.IsLegible

structure FrameDefinition.IsLegible (d : FrameDefinition N) : Prop where
  frame : d.frame.IsLegible
  keys : ∀ a ∈ d.attributes, IsName a.1
  values : ∀ a ∈ d.attributes, a.2.IsLegible

def Attribute.reread : Attribute N → Attribute N
  | expression value => expression value.reread
  | a => a

/-- A frame definition with what its literals read as in their places. -/
def FrameDefinition.reread (d : FrameDefinition N) : FrameDefinition N :=
  { d with attributes := d.attributes.map fun a => (a.1, a.2.reread) }

theorem Frame.ofHeaderTokens_legible {tokens : List (Token N)} {frame : Frame} (ht : LegibleTokens tokens)
    (h : Frame.ofHeaderTokens tokens = .ok frame) : frame.IsLegible := by
  obtain ⟨⟨keyword, rest⟩, hkeyword, hnext⟩ := exists_of_bind_eq_ok h
  rw [readIdentifier_eq_ok hkeyword] at ht
  by_cases hframe : keyword ≠ "DEFFRAME"
  · simp only [hframe, ne_eq, not_false_eq_true, if_true] at hnext
    cases hnext
  · simp only [hframe, if_false] at hnext
    obtain ⟨⟨read, behind⟩, hread, hend⟩ := exists_of_bind_eq_ok hnext
    obtain ⟨_, -, hlast⟩ := exists_of_bind_eq_ok hend
    obtain ⟨_, -, hdone⟩ := exists_of_bind_eq_ok hlast
    cases hdone
    exact (readFrame_legible (legibleTokens_cons.1 ht).2 hread).1

theorem Attribute.ofTokens_legible (laws : LiteralLaws N) {tokens : List (Token N)} {a : String × Attribute N}
    (ht : LegibleTokens tokens) (h : Attribute.ofTokens tokens = .ok a) : IsName a.1 ∧ a.2.IsLegible := by
  obtain ⟨⟨key, rest⟩, hkey, hnext⟩ := exists_of_bind_eq_ok h
  rw [readIdentifier_eq_ok hkey] at ht
  obtain ⟨hname, hrest⟩ := legibleTokens_cons.1 ht
  obtain ⟨behind, hmark, hvalue⟩ := exists_of_bind_eq_ok hnext
  rw [readMark_eq_ok hmark] at hrest
  have hbehind := (legibleTokens_cons.1 hrest).2
  dsimp only at hvalue
  split at hvalue
  · obtain ⟨_, -, hdone⟩ := exists_of_bind_eq_ok hvalue
    cases hdone
    exact ⟨hname, (legibleTokens_cons.1 hbehind).1⟩
  · obtain ⟨⟨value, after⟩, hread, hend⟩ := exists_of_bind_eq_ok hvalue
    obtain ⟨_, -, hdone⟩ := exists_of_bind_eq_ok hend
    cases hdone
    exact ⟨hname, (readExpr_legible laws hbehind hread).1⟩

/-! ## Written frame definitions -/

def Frame.header (f : Frame) : List Char := "DEFFRAME ".toList ++ f.chars ++ [':']

def Attribute.line (a : String × Attribute N) : List Char :=
  "    ".toList ++ (a.1.toList ++ ':' :: ' ' :: a.2.chars)

/-- The text of an attribute, without the blanks in front of it. -/
def Attribute.entry (a : String × Attribute N) : List Char := a.1.toList ++ ':' :: ' ' :: a.2.chars

theorem FrameDefinition.chars_eq (d : FrameDefinition N) :
    d.chars = joinLines d.frame.header (d.attributes.map Attribute.line) := by
  have hindent : "\n    ".toList = '\n' :: "    ".toList := by decide
  unfold FrameDefinition.chars joinLines Frame.header Attribute.line
  rw [hindent]
  simp [List.flatMap_map]

theorem Frame.header_eq (f : Frame) : f.header = "DEFFRAME".toList ++ ' ' :: (f.chars ++ [':']) := by
  have hkeyword : "DEFFRAME ".toList = "DEFFRAME".toList ++ [' '] := by decide
  unfold Frame.header
  rw [hkeyword]
  simp

/-- The header of a frame definition is a sentence. -/
theorem Frame.sentence_header {f : Frame} (h : f.IsLegible) :
    Sentence (N := N) f.header (.identifier "DEFFRAME" :: (f.tokens ++ [.mark .colon])) := by
  have hname := Phrase.concat_colon (spells_string (N := N) h.name.1) (fun _ => trivial) (by simp [h.name.2])
  have hframe := Phrase.leading (fun q hq => Qubit.phrase (N := N) (h.qubits q hq)) hname
  have hall := (Phrase.keyword (N := N) "DEFFRAME" (by decide)).append hframe
  rw [f.header_eq]
  unfold Frame.chars Frame.tokens quoted
  simpa using Sentence.of_phrase hall

theorem Frame.firstWord_header (f : Frame) : firstWord f.header = "DEFFRAME".toList := by
  rw [f.header_eq]
  exact firstWord_append (by decide) (endsWord_blank _)

theorem Frame.isStatement_header (laws : LiteralLaws N) {f : Frame} (h : f.IsLegible) : IsStatement f.header := by
  refine (Frame.sentence_header (N := N) h).isStatement laws ?_
  rw [f.header_eq]
  intro c hc
  cases hc
  decide

omit [Scalar N] in
theorem Frame.ofHeaderTokens_tokens (f : Frame) :
    Frame.ofHeaderTokens (N := N) (.identifier "DEFFRAME" :: (f.tokens ++ [.mark .colon])) = .ok f := by
  refine bind_eq_ok (readIdentifier_cons _ _) ?_
  simp only [ne_eq, not_true_eq_false, if_false]
  exact bind_eq_ok (readFrame_tokens f) rfl

def Attribute.tokens (a : String × Attribute N) : List (Token N) :=
  .identifier a.1 :: .mark .colon ::
    match a.2 with
    | string text => [.string text]
    | expression value => value.tokens

theorem Attribute.phrase (laws : LiteralLaws N) {a : String × Attribute N} (hk : IsName a.1)
    (hv : a.2.IsLegible) : Phrase (a.1.toList ++ ':' :: ' ' :: a.2.chars) (Attribute.tokens a) := by
  obtain ⟨key, value⟩ := a
  have hkey := Phrase.concat_colon (spells_identifier (N := N) hk) (fun _ => breaksName_cons.2 (by decide))
    (Phrase.identifier (N := N) hk).oneLine
  unfold Attribute.tokens
  cases value with
  | string text => simpa [Attribute.chars] using hkey.append (Phrase.quoted hv)
  | expression e => simpa [Attribute.chars] using hkey.append (Phrase.expr laws hv)

/-- A blank in front of a line. -/
theorem IsLine.blank {text : List Char} (h : IsLine text) : IsLine (' ' :: text) where
  uncommented := by simpa [onlyInStrings] using h.uncommented
  solidEnd := by
    have hne : text ≠ [] := by
      rintro rfl
      exact absurd h.notBlank (by decide)
    exact Text.solidEnd_append h.solidEnd hne [' ']
  notBlank := by
    have hblank : Text.isWhiteSpace ' ' = true := by decide
    simpa [Text.isBlank, hblank] using h.notBlank
  oneLine := by simpa using h.oneLine

theorem Attribute.line_eq (a : String × Attribute N) : Attribute.line a = ' ' :: ' ' :: ' ' :: ' ' :: Attribute.entry a :=
  rfl

/-- The line of an attribute is indented. -/
theorem Attribute.isLine_line {a : String × Attribute N} (h : IsLine (Attribute.entry a)) :
    IsLine (Attribute.line a) ∧ isIndented (Attribute.line a) = true := by
  rw [Attribute.line_eq]
  exact ⟨h.blank.blank.blank.blank, rfl⟩

/-- The line of an attribute reads as its text. -/
theorem Attribute.readOnLine_line {line : Nat} {a b : String × Attribute N}
    (h : readOnLine line Attribute.ofTokens (Attribute.entry a) = .ok b) (line' : Nat) :
    readOnLine line' Attribute.ofTokens (Attribute.line a) = .ok b := by
  obtain ⟨tokens, htokens, hb⟩ := readOnLine_eq_ok h
  have hentry := statementTokens_line htokens line'
  refine readOnLine_of_tokens line' ?_ hb
  rw [Attribute.line_eq]
  exact statementTokens_blank (statementTokens_blank (statementTokens_blank (statementTokens_blank hentry)))

/-- The text of an attribute that can be written is a line with its tokens. -/
theorem Attribute.sentence_entry (laws : LiteralLaws N) {a : String × Attribute N} (hk : IsName a.1)
    (hv : a.2.IsLegible) :
    Sentence (Attribute.entry a) (Attribute.tokens a) ∧ IsLine (Attribute.entry a) := by
  have hsentence := Sentence.of_phrase (Attribute.phrase laws hk hv)
  have hsolid : Text.solidStart (Attribute.entry a) :=
    solidStart_tokenText (Or.inl ⟨(Phrase.identifier (N := N) hk).ne_nil, isTokenChar_of_isIdentifier hk⟩) _
  exact ⟨hsentence, (hsentence.isStatement laws hsolid).toIsLine⟩

theorem Attribute.ofTokens_tokens (laws : LiteralLaws N) {a : String × Attribute N} (hv : a.2.IsLegible) :
    Attribute.ofTokens (Attribute.tokens a) = .ok (a.1, a.2.reread) := by
  obtain ⟨key, value⟩ := a
  refine bind_eq_ok (readIdentifier_cons _ _) (bind_eq_ok rfl ?_)
  cases value with
  | string text => rfl
  | expression e =>
    have hread := readExpr_tokens laws hv
    have hstring (text : String) (rest : List (Token N)) : e.tokens ≠ .string text :: rest := by
      intro heq
      rw [heq, readExpr, Expr.readBinary, Expr.readUnary, Expr.readPrimary] at hread
      · cases hread
      all_goals simp
    dsimp only
    split
    · exact absurd ‹_› (hstring _ _)
    · exact bind_eq_ok hread rfl

theorem Attribute.reread_beq (laws : LiteralLaws N) {a : Attribute N} (h : a.IsLegible) :
    (a.reread == a) = true := by
  cases a with
  | string text =>
    show (text == text) = true
    simp
  | expression e =>
    have he : (e.reread == e) = true := Expr.same_reread (h.legible laws)
    exact he

/-- What a frame definition reads back as is equal to it. -/
theorem FrameDefinition.reread_beq (laws : LiteralLaws N) {d : FrameDefinition N} (h : d.IsLegible) :
    (d.reread == d) = true := by
  have hattributes := map_beq_self (f := fun a : String × Attribute N => (a.1, a.2.reread)) fun a ha => by
    show (a.1 == a.1 && a.2.reread == a.2) = true
    rw [Attribute.reread_beq laws (h.values a ha)]
    simp
  show (d.frame == d.frame && d.attributes.map _ == d.attributes) = true
  rw [hattributes]
  simp

end QuilControl
