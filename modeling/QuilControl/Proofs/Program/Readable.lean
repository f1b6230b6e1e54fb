import QuilControl.Proofs.Program.Adding
import QuilControl.Proofs.Program.Lines
import QuilControl.Proofs.Program.RoundTrip

/-!
# Readable programs

A program is readable when it is legible and none of its lines opens a block: then it reads back from its
text. Instructions that are legible and open no block can be added (`Program.IsReadable.addAll?`).

A program that is read is readable when no statement behind a semicolon on its line begins with `DEF`
(`Program.ofText_readable`). Only the name of a gate can begin so, the statement of that gate begins with
the name, and in front of the first semicolon the whole line would begin with it and open a block.
-/

namespace QuilControl

variable {N : Type} [Scalar N]

/-! ## Readable programs -/

/-- An instruction that reads back from a line of its own. -/
structure Instruction.IsReadable (i : Instruction N) : Prop where
  legible : i.IsLegible
  noBlock : ¬ i.OpensBlock

/-- Only the name of a gate can open a block. -/
theorem Instruction.IsLegible.isReadable {i : Instruction N} (h : i.IsLegible) (hg : ∀ g, i ≠ .gate g) :
    i.IsReadable := by
  refine ⟨h, fun hopens => ?_⟩
  obtain ⟨g, hi, -⟩ := (Instruction.opensBlock_iff h).1 hopens
  exact hg g hi

namespace Program

/-- A program that reads back from its text. -/
structure IsReadable (p : Program N) : Prop extends p.IsLegible where
  noBlock : ∀ i ∈ p.body, ¬ i.OpensBlock

variable {p q : Program N}

theorem IsReadable.exists_reading (laws : LiteralLaws N) (h : p.IsReadable) :
    ∃ q, ofText p.text = .ok q ∧ (q == p) = true :=
  ⟨p.reread, ofText_text_eq_reread laws h.toIsLegible h.noBlock, reread_beq laws h.toIsLegible⟩

theorem IsReadable.readable_of_mem (h : p.IsReadable) {i : Instruction N} (hi : i ∈ p.body) : i.IsReadable :=
  ⟨(h.body i hi).1, h.noBlock i hi⟩

theorem IsReadable.header (h : p.IsReadable) : p.header.IsReadable :=
  { definitions := h.definitions, frames := h.frames, declarations := h.declarations, distinct := h.distinct
    body := by simp [Program.header], noBlock := by simp [Program.header] }

theorem IsReadable.add {i : Instruction N} (h : p.IsReadable) (hi : i.IsReadable) (hq : p.add i = .ok q) :
    q.IsReadable := by
  refine { h.toIsLegible.add hi.legible hq with noBlock := fun j hj => ?_ }
  rcases mem_body_of_add hq hj with hj | rfl
  · exact h.noBlock j hj
  · exact hi.noBlock

theorem IsReadable.addAll? {is : List (Instruction N)} (h : p.IsReadable) (his : ∀ i ∈ is, i.IsReadable)
    (hq : p.addAll? is = .ok q) : q.IsReadable := by
  induction is generalizing p with
  | nil =>
    cases hq
    exact h
  | cons i is ih =>
    rw [addAll?_cons] at hq
    split at hq
    · cases hq
    · next r hr =>
      have hreadable := h.add (his i List.mem_cons_self) hr
      exact ih hreadable (fun j hj => his j (List.mem_cons_of_mem _ hj)) hq

end Program

/-! ## Gates that open blocks -/

/-- What is read as a gate is read by the reader of gates. -/
theorem readOperands_eq_gate {textOf : Nat → List Char} {keyword : String} {tokens rest : List (Token N)}
    {g : Gate N} (h : readOperands textOf keyword tokens = .ok (.gate g, rest)) :
    readGate keyword tokens = .ok (g, rest) := by
  unfold readOperands at h
  split at h
  · obtain ⟨_, -, hend⟩ := exists_of_bind_eq_ok h
    cases hend
  · obtain ⟨_, -, hend⟩ := exists_of_bind_eq_ok h
    cases hend
  · obtain ⟨_, -, hend⟩ := exists_of_bind_eq_ok h
    cases hend
  · obtain ⟨_, -, hend⟩ := exists_of_bind_eq_ok h
    cases hend
  · cases h
  · obtain ⟨_, -, hend⟩ := exists_of_bind_eq_ok h
    cases hend
  · split at h
    · obtain ⟨_, -, hframe⟩ := exists_of_bind_eq_ok h
      obtain ⟨_, -, hend⟩ := exists_of_bind_eq_ok hframe
      cases hend
    · obtain ⟨_, hgate, hend⟩ := exists_of_bind_eq_ok h
      cases hend
      exact hgate

/-- The statement of an instruction that would open a block begins with `DEF`. -/
theorem Instruction.prefix_of_opensBlock (laws : LiteralLaws N) {line : Nat} {text : List Char}
    {i : Instruction N} (hs : IsStatement (Text.trim text)) (h : Instruction.ofChars line text = .ok i)
    (ho : i.OpensBlock) : "DEF".toList <+: Text.trim text := by
  obtain ⟨g, rfl, hmodifiers, hname⟩ := (opensBlock_iff (ofChars_legible laws hs h)).1 ho
  unfold Instruction.ofChars at h
  dsimp only at h
  split at h
  · cases h
  split at h
  · cases h
  next tokens htokens =>
  split at h
  · cases h
  next instruction hof =>
  cases h
  obtain ⟨⟨keyword, behind⟩, hkeyword, hnext⟩ := exists_of_bind_eq_ok hof
  obtain ⟨⟨read, after⟩, hoperands, hlast⟩ := exists_of_bind_eq_ok hnext
  obtain ⟨_, -, hend⟩ := exists_of_bind_eq_ok hlast
  cases hend
  have hlegible := legibleTokens_of_oneLine laws hs.oneLine htokens
  obtain ⟨hpieces, hvalid⟩ := statementTokens_eq_ok htokens
  rw [readIdentifier_eq_ok hkeyword] at hlegible hpieces
  obtain ⟨hk, hbehind⟩ := legibleTokens_cons.1 hlegible
  obtain ⟨-, hword, -⟩ := readGate_legible laws hk hbehind (readOperands_eq_gate hoperands)
  obtain ⟨rfl, hopens⟩ := hword hmodifiers
  rw [← prefix_firstWord_iff (by decide), firstWord_eq hs.solidStart hs.oneLine hvalid hpieces.symm hopens]
  exact hname

/-! ## Statements of a text -/

/-- The first part of a line is what it begins with. -/
theorem prefix_of_cutStatements (inString : Bool) (text : List Char) :
    ∃ part parts, cutStatements inString text = part :: parts ∧ part <+: text := by
  obtain ⟨part, parts, hcut⟩ := List.exists_cons_of_ne_nil (cutStatements_ne_nil inString text)
  have hsplit : cutStatements inString text = [] ++ part :: parts := hcut
  obtain ⟨front, rest, htext, hfront, -, -⟩ := exists_of_cutStatements hsplit
  rw [hfront rfl] at htext
  exact ⟨part, parts, hcut, rest, htext.symm⟩

theorem prefix_trim {text : List Char} (h : Text.solidStart text) : Text.trim text <+: text := by
  rw [Text.trim, Text.trimStart_eq_self h]
  exact Text.prefix_trimEnd text

/-- The lines that hold statements are lines, and do not begin with `DEF`. -/
theorem of_mem_statementLines {inBlock : Bool} {raws : List (List Char)} (hn : ∀ raw ∈ raws, '\n' ∉ raw)
    {text : List Char} (h : text ∈ statementLines inBlock raws) :
    IsLine text ∧ Text.solidStart text ∧ ¬ "DEF".toList <+: text := by
  induction raws generalizing inBlock with
  | nil => cases h
  | cons raw raws ih =>
    have hrest {inBlock : Bool} (h : text ∈ statementLines inBlock raws) :=
      ih (fun raw hraw => hn raw (List.mem_cons_of_mem _ hraw)) h
    rw [statementLines] at h
    split at h
    · exact hrest h
    · next hopens =>
      split at h
      · exact hrest h
      · next hdef =>
        rcases List.mem_cons.1 h with rfl | h
        · have hblank : Text.isBlank (Text.trimEnd (stripComment false raw)) = false := by
            rw [Bool.or_eq_true, not_or] at hopens
            exact Bool.eq_false_iff.2 hopens.1
          refine ⟨(isLine_of_stripComment (hn raw List.mem_cons_self) hblank).trim, Text.solidStart_trim _, ?_⟩
          rw [← Instruction.prefix_firstWord_iff (by decide)]
          exact fun hbegins => hdef (List.isPrefixOf_iff_prefix.2 hbegins)
        · exact hrest h

/-- No statement that follows a semicolon on its line begins with `DEF`. -/
def NoDefBehindSemicolon (source : String) : Prop :=
  ∀ text ∈ statementLines false (Text.lines source.toList),
    ∀ part ∈ (cutStatements false text).tail, ¬ "DEF".toList <+: Text.trim part

instance (source : String) : Decidable (NoDefBehindSemicolon source) :=
  inferInstanceAs (Decidable (∀ text ∈ statementLines false (Text.lines source.toList),
    ∀ part ∈ (cutStatements false text).tail, ¬ "DEF".toList <+: Text.trim part))

theorem NoDefBehindSemicolon.not_prefix {source : String} (h : NoDefBehindSemicolon source)
    {text part : List Char} (ht : text ∈ statementLines false (Text.lines source.toList))
    (hpart : part ∈ statements text) : ¬ "DEF".toList <+: Text.trim part := by
  obtain ⟨-, hstart, hdef⟩ := of_mem_statementLines (fun _ hr => Text.newline_notMem_lines hr) ht
  obtain ⟨first, others, hcut, hfirst⟩ := prefix_of_cutStatements false text
  have hbehind := h text ht
  rw [hcut] at hbehind
  rw [statements, hcut] at hpart
  rcases List.mem_cons.1 (List.mem_filter.1 hpart).1 with rfl | hpart
  · exact fun hbegins => hdef (hbegins.trans ((prefix_trim (Text.solidStart_mono hstart hfirst)).trans hfirst))
  · exact hbehind part hpart

/-- **Programs that are read are readable**, if no statement behind a semicolon begins with `DEF`. -/
theorem Program.ofText_readable (laws : LiteralLaws N) {source : String} {p : Program N}
    (hsource : NoDefBehindSemicolon source) (h : ofText source = .ok p) : p.IsReadable := by
  have hnoBlock : ∀ i ∈ p.body, ¬ i.OpensBlock := by
    refine ofText_induction (P := fun p => ∀ i ∈ p.body, ¬ i.OpensBlock) (fun _ _ _ hp => hp) ?_ (by simp [empty]) h
    intro text ht part hpart line i p q hi hp hadd j hj
    rcases mem_body_of_add hadd hj with hj | rfl
    · exact hp j hj
    · have hline := (of_mem_statementLines (fun _ hr => Text.newline_notMem_lines hr) ht).1
      exact fun hopens => hsource.not_prefix ht hpart
        (Instruction.prefix_of_opensBlock laws (hline.isStatement hpart) hi hopens)
  exact { ofText_legible laws h with noBlock := hnoBlock }

end QuilControl
