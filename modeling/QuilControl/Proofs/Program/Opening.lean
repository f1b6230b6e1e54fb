import QuilControl.Proofs.Program.Extension
import QuilControl.Proofs.Program.Lines

/-!
# Lines that open blocks

What can be written again reads as itself, with what its literals read as in their places, unless its line
begins with `DEF`. Only gates without modifiers have such a line (`opensBlock_iff`). As reading never takes
a definition back, a line like that leaves the program with one definition more.
-/

namespace QuilControl

variable {N : Type} [Scalar N]

/-! ## Definitions only grow -/

omit [Scalar N] in
theorem definitions_of_add {p q : Program N} {i : Instruction N} (h : p.add i = .ok q) :
    q.definitions = p.definitions := by
  cases i with
  | declaration d =>
    simp only [Program.add, Program.declare] at h
    cases hd : p.declaration? d.name with
    | some other => rw [hd] at h; cases h
    | none => rw [hd] at h; cases h; rfl
  | pragma | call | gate | measurement | fence | delay | frameUpdate | other => cases h; rfl

theorem definitions_of_addStatements {line : Nat} {p q : Program N} {parts : List (List Char)}
    (h : addStatements line p parts = .ok q) : q.definitions = p.definitions :=
  addStatements_induction (P := fun r => r.definitions = p.definitions)
    (fun _ _ _ _ _ _ hr ha => (definitions_of_add ha).trans hr) rfl h

omit [Scalar N] in
theorem definitions_le_close (progress : Progress N) :
    progress.program.definitions.length ≤ progress.close.definitions.length := by
  obtain ⟨p, block⟩ := progress
  cases block with
  | none => exact Nat.le_refl _
  | some b => cases b <;> simp [Progress.close]

theorem definitions_le_of_openLine {line : Nat} {p : Program N} {text : List Char} {next : Progress N}
    (h : openLine line p text = .ok next) : p.definitions.length ≤ next.close.definitions.length := by
  rcases openLine_cases h with ⟨-, rfl, -⟩ | ⟨-, -, hadded⟩
  · exact definitions_le_close next
  · rw [← definitions_of_addStatements hadded]
    exact definitions_le_close next

theorem definitions_le_of_readLine {line : Nat} {progress next : Progress N} {raw : List Char}
    (h : readLine line progress raw = .ok next) :
    progress.close.definitions.length ≤ next.close.definitions.length := by
  obtain ⟨p, block⟩ := progress
  unfold readLine at h
  dsimp only at h
  split at h
  · cases h
    exact Nat.le_refl _
  · split at h
    · cases block with
      | none => exact definitions_le_of_openLine h
      | some b =>
        cases b with
        | verbatim kept =>
          cases h
          simp [Progress.close]
        | frame d =>
          dsimp only at h
          split at h
          · cases h
          · cases h
            simp [Progress.close]
    · exact definitions_le_of_openLine h

theorem definitions_le_of_readLines {line : Nat} {progress next : Progress N} {raws : List (List Char)}
    (h : readLines line progress raws = .ok next) :
    progress.close.definitions.length ≤ next.close.definitions.length := by
  induction raws generalizing line progress with
  | nil =>
    cases h
    exact Nat.le_refl _
  | cons raw raws ih =>
    rw [readLines] at h
    split at h
    · cases h
    · next mid hmid => exact Nat.le_trans (definitions_le_of_readLine hmid) (ih h)

/-! ## Instructions -/

namespace Instruction

/-- The line of the instruction would open a block. -/
def OpensBlock (i : Instruction N) : Prop := "DEF".toList <+: i.word.toList

instance (i : Instruction N) : Decidable i.OpensBlock := inferInstanceAs (Decidable (_ <+: _))

/-- Only gates without modifiers have a first word that can begin with `DEF`. -/
theorem opensBlock_iff {i : Instruction N} (h : i.IsLegible) :
    i.OpensBlock ↔ ∃ g, i = gate g ∧ g.modifiers = [] ∧ "DEF".toList <+: g.name.toList := by
  have keyword (word : String) (hw : i.word = word) (hd : ¬ "DEF".toList <+: word.toList)
      (hi : ∀ g, i = gate g → g.modifiers ≠ []) :
      i.OpensBlock ↔ ∃ g, i = gate g ∧ g.modifiers = [] ∧ "DEF".toList <+: g.name.toList := by
    unfold OpensBlock
    rw [hw]
    exact ⟨fun hp => absurd hp hd, fun ⟨g, hg, hm, _⟩ => absurd hm (hi g hg)⟩
  cases i with
  | gate g =>
    obtain ⟨modifiers, name, parameters, qubits⟩ := g
    cases modifiers with
    | nil => simp [OpensBlock, word]
    | cons m ms => exact keyword m.keyword rfl (by cases m <;> decide) (by rintro g ⟨⟩; simp)
  | other text =>
    have hall : ∀ word ∈ verbatimKeywords, ¬ "DEF".toList <+: word.toList := by decide
    exact keyword _ rfl (hall _ h.2) (by simp)
  | frameUpdate update frame value => exact keyword update.keyword rfl (by cases update <;> decide) (by simp)
  | declaration d => exact keyword "DECLARE" rfl (by decide) (by simp)
  | pragma p => exact keyword "PRAGMA" rfl (by decide) (by simp)
  | call c => exact keyword "CALL" rfl (by decide) (by simp)
  | measurement m => exact keyword "MEASURE" rfl (by decide) (by simp)
  | fence qubits => exact keyword "FENCE" rfl (by decide) (by simp)
  | delay d => exact keyword "DELAY" rfl (by decide) (by simp)

theorem prefix_firstWord_iff {pre : List Char} (h : pre.all (fun c => !(Text.isWhiteSpace c || c = '(')) = true)
    (text : List Char) : pre <+: firstWord text ↔ pre <+: text := by
  constructor
  · exact fun hp => hp.trans (List.takeWhile_prefix _)
  · rintro ⟨tail, rfl⟩
    rw [firstWord, List.takeWhile_append_of_pos (List.all_eq_true.1 h)]
    exact List.prefix_append _ _

theorem readsAs_reread (laws : LiteralLaws N) {i : Instruction N} (h : i.IsLegible) (hd : ¬ i.OpensBlock) :
    i.ReadsAs i.reread where
  isStatement := isStatement_chars laws h
  noBlock := by
    rw [← prefix_firstWord_iff (by decide) i.chars, firstWord_chars h]
    exact hd
  reads := ⟨1, ofChars_chars laws h 1⟩

/-- The operands of a gate hold no string, as the header of a frame definition does. -/
theorem ofHeaderTokens_operands (g : Gate N) (frame : Frame) :
    Frame.ofHeaderTokens (.identifier "DEFFRAME" :: g.operands) ≠ .ok frame := by
  intro h
  obtain ⟨⟨keyword, rest⟩, hkeyword, hnext⟩ := exists_of_bind_eq_ok h
  cases hkeyword
  simp only [ne_eq, not_true_eq_false, if_false] at hnext
  obtain ⟨⟨read, behind⟩, hread, -⟩ := exists_of_bind_eq_ok hnext
  obtain ⟨⟨name, after⟩, hname, -⟩ := exists_of_bind_eq_ok hread
  have hstring := readString_eq_ok hname
  by_cases hnil : g.parameters.isEmpty = true
  · rw [Gate.operands, if_pos hnil, List.nil_append, readQubits_tokens] at hstring
    cases hstring
  · rw [Gate.operands, if_neg hnil] at hstring
    cases hstring

/-- On a line of its own, a gate whose name begins with `DEF` opens a block. -/
theorem definitions_lt_of_opensBlock (laws : LiteralLaws N) {i : Instruction N} (h : i.IsLegible)
    (hd : i.OpensBlock) {line : Nat} {p : Program N} {next : Progress N}
    (hn : openLine line p i.chars = .ok next) : p.definitions.length < next.close.definitions.length := by
  obtain ⟨⟨modifiers, name, parameters, qubits⟩, rfl, rfl, hname⟩ := (opensBlock_iff h).1 hd
  have htokens := (sentence laws h (by simp)).statementTokens line
  have hword : firstWord (gate (N := N) ⟨[], name, parameters, qubits⟩).chars = name.toList := firstWord_chars h
  unfold openLine at hn
  simp only [(isStatement_chars laws h).trim_eq_self, hword] at hn
  by_cases hframe : name.toList = "DEFFRAME".toList
  · obtain rfl := String.toList_injective hframe
    rw [if_pos rfl] at hn
    split at hn
    · cases hn
    · next frame hread =>
      obtain ⟨read, hread, hf⟩ := readOnLine_eq_ok hread
      rw [htokens] at hread
      cases hread
      exact absurd hf (ofHeaderTokens_operands _ _)
  · rw [if_neg hframe, if_pos (List.isPrefixOf_iff_prefix.2 hname)] at hn
    cases hn
    simp [Progress.close]

end Instruction

/-! ## Frame definitions -/

theorem Attribute.readsAs_reread (laws : LiteralLaws N) {a : String × Attribute N} (hk : IsName a.1)
    (hv : a.2.IsLegible) : Attribute.ReadsAs a (a.1, a.2.reread) := by
  obtain ⟨hsentence, hline⟩ := Attribute.sentence_entry laws hk hv
  exact ⟨hline, 1, readOnLine_of_tokens 1 (hsentence.statementTokens 1) (Attribute.ofTokens_tokens laws hv)⟩

theorem FrameDefinition.readsAs_reread (laws : LiteralLaws N) {d : FrameDefinition N} (h : d.IsLegible) :
    d.ReadsAs d.reread where
  isStatement := d.frame.isStatement_header laws h.frame
  header := ⟨1, readOnLine_of_tokens 1 ((Frame.sentence_header h.frame).statementTokens 1)
    (Frame.ofHeaderTokens_tokens d.frame)⟩
  attributes := List.forall₂_map_right_iff.2
    (List.forall₂_same.2 fun a ha => Attribute.readsAs_reread laws (h.keys a ha) (h.values a ha))

/-! ## Statements on one line -/

theorem Instruction.isDeclaration_reread (i : Instruction N) : i.reread.isDeclaration = i.isDeclaration := by
  cases i <;> rfl

/-- Statements on one line add their instructions, whatever their words. -/
theorem addStatements_chars (laws : LiteralLaws N) (line : Nat) {body : List (Instruction N)}
    (h : ∀ i ∈ body, i.IsLegible ∧ i.isDeclaration = false) (p : Program N) :
    addStatements line p (body.map (·.chars)) = .ok { p with body := p.body ++ body.map (·.reread) } := by
  induction body generalizing p with
  | nil => simp [addStatements]
  | cons i body ih =>
    obtain ⟨hi, hdeclaration⟩ := h i List.mem_cons_self
    rw [List.map_cons, addStatements, Instruction.ofChars_chars laws hi line]
    dsimp only
    rw [Program.add_of_isDeclaration (i.isDeclaration_reread.trans hdeclaration)]
    dsimp only
    rw [ih fun j hj => h j (List.mem_cons_of_mem _ hj)]
    simp

end QuilControl
