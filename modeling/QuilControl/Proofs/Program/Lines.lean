import QuilControl.Program.Parser

/-!
# What reading a program adds

Some lines of a text hold statements: those that are neither blank nor part of a block
(`statementLines`). Reading adds the instructions of their statements, one by one, and the other lines
change definitions and frames only. So a property that does not depend on these, and that each addition
keeps, holds of every program that is read (`Program.ofText_induction`).
-/

namespace QuilControl

/-- The lines that hold statements, without their comments and the white space around them. A block is
open in front of the first line or not. -/
def statementLines (inBlock : Bool) : List (List Char) → List (List Char)
  | [] => []
  | raw :: rest =>
    let text := Text.trimEnd (stripComment false raw)
    if Text.isBlank text || (isIndented text && inBlock) then statementLines inBlock rest
    else if "DEF".toList.isPrefixOf (firstWord (Text.trim text)) then statementLines true rest
    else Text.trim text :: statementLines false rest

variable {N : Type} [Scalar N]

/-! ## Cases of a line -/

/-- A line that continues no block opens one, or its statements are added. -/
theorem openLine_cases {line : Nat} {p : Program N} {text : List Char} {next : Progress N}
    (h : openLine line p text = .ok next) :
    ("DEF".toList.isPrefixOf (firstWord (Text.trim text)) = true ∧ next.program = p ∧
        next.block.isSome = true) ∨
      ("DEF".toList.isPrefixOf (firstWord (Text.trim text)) = false ∧ next.block = none ∧
        addStatements line p (statements (Text.trim text)) = .ok next.program) := by
  unfold openLine at h
  dsimp only at h
  split at h
  · next hword =>
    split at h
    · cases h
    · cases h
      exact Or.inl ⟨by rw [hword]; decide, rfl, rfl⟩
  · split at h
    · next hdef =>
      cases h
      exact Or.inl ⟨hdef, rfl, rfl⟩
    · next hdef =>
      split at h
      · cases h
      · next q hq =>
        cases h
        exact Or.inr ⟨Bool.eq_false_iff.2 hdef, rfl, hq⟩

/-- A line is passed over or taken into the open block, or it continues none. -/
theorem readLine_cases {line : Nat} {progress next : Progress N} {raw : List Char}
    (h : readLine line progress raw = .ok next) :
    let text := Text.trimEnd (stripComment false raw)
    ((Text.isBlank text || (isIndented text && progress.block.isSome)) = true ∧
        next.program = progress.program ∧ next.block.isSome = progress.block.isSome) ∨
      ((Text.isBlank text || (isIndented text && progress.block.isSome)) = false ∧
        ∃ p, (p = progress.program ∨ p = progress.close) ∧ openLine line p text = .ok next) := by
  obtain ⟨program, block⟩ := progress
  unfold readLine at h
  dsimp only at h ⊢
  generalize Text.trimEnd (stripComment false raw) = text at *
  split at h
  · next hblank =>
    cases h
    exact Or.inl ⟨by rw [hblank, Bool.true_or], rfl, rfl⟩
  · next hblank =>
    split at h
    · next hindent =>
      cases block with
      | none => exact Or.inr ⟨by simp [hblank], program, Or.inl rfl, h⟩
      | some b =>
        refine Or.inl ⟨by rw [hindent]; simp, ?_⟩
        cases b with
        | verbatim kept => cases h; exact ⟨rfl, rfl⟩
        | frame d =>
          dsimp only at h
          split at h
          · cases h
          · cases h; exact ⟨rfl, rfl⟩
    · next hindent => exact Or.inr ⟨by simp [hblank, hindent], _, Or.inr rfl, h⟩

/-! ## Induction -/

section Induction

variable {P : Program N → Prop}

/-- What holds in front of statements holds behind them, when adding each keeps it. -/
theorem addStatements_induction {line : Nat} {p q : Program N} {parts : List (List Char)}
    (add : ∀ part ∈ parts, ∀ i p q, Instruction.ofChars line part = .ok i → P p → p.add i = .ok q → P q)
    (hp : P p) (h : addStatements line p parts = .ok q) : P q := by
  induction parts generalizing p with
  | nil =>
    cases h
    exact hp
  | cons part parts ih =>
    rw [addStatements] at h
    split at h
    · cases h
    · next i hi =>
      split at h
      · cases h
      · next r hr =>
        have hr := add part List.mem_cons_self i p r hi hp hr
        exact ih (fun part hpart => add part (List.mem_cons_of_mem _ hpart)) hr h

omit [Scalar N] in
theorem close_of_sections (sections : ∀ p definitions frames, P p → P { p with definitions, frames })
    {progress : Progress N} (h : P progress.program) : P progress.close := by
  obtain ⟨p, block⟩ := progress
  cases block with
  | none => exact h
  | some b => cases b <;> exact sections p _ _ h

/-- What holds in front of lines holds behind them. The induction carries whether a block is open, which
is what `statementLines` knows of the progress. -/
theorem readLines_induction (sections : ∀ p definitions frames, P p → P { p with definitions, frames })
    {line : Nat} {progress next : Progress N} {raws : List (List Char)}
    (add : ∀ text ∈ statementLines progress.block.isSome raws, ∀ part ∈ statements text,
      ∀ line i p q, Instruction.ofChars line part = .ok i → P p → p.add i = .ok q → P q)
    (hp : P progress.program) (h : readLines line progress raws = .ok next) : P next.program := by
  induction raws generalizing line progress with
  | nil =>
    cases h
    exact hp
  | cons raw raws ih =>
    rw [readLines] at h
    split at h
    · cases h
    · next mid hmid =>
      rw [statementLines] at add
      rcases readLine_cases hmid with ⟨hpassed, hprogram, hblock⟩ | ⟨hopens, p, hstart, hopen⟩
      · rw [if_pos hpassed, ← hblock] at add
        exact ih add (hprogram ▸ hp) h
      · rw [if_neg (Bool.eq_false_iff.1 hopens)] at add
        have hpstart : P p := by
          rcases hstart with rfl | rfl
          · exact hp
          · exact close_of_sections sections hp
        rcases openLine_cases hopen with ⟨hdef, rfl, hsome⟩ | ⟨hdef, hnone, hadded⟩
        · rw [if_pos hdef, ← hsome] at add
          exact ih add hpstart h
        · rw [if_neg (Bool.eq_false_iff.1 hdef)] at add
          have hmidp : P mid.program :=
            addStatements_induction (fun part hpart => add _ List.mem_cons_self part hpart line) hpstart hadded
          refine ih (fun text htext => add text (List.mem_cons_of_mem _ ?_)) hmidp h
          rwa [hnone] at htext

/-- **What reading keeps.** A property that does not depend on definitions and frames holds of a program
that is read, when it holds of the empty program and is kept by adding any instruction that a statement
of the text is. -/
theorem Program.ofText_induction (sections : ∀ p definitions frames, P p → P { p with definitions, frames })
    {source : String} {p : Program N}
    (add : ∀ text ∈ statementLines false (Text.lines source.toList), ∀ part ∈ statements text,
      ∀ line i p q, Instruction.ofChars line part = .ok i → P p → p.add i = .ok q → P q)
    (hempty : P Program.empty) (h : Program.ofText source = .ok p) : P p := by
  unfold Program.ofText Program.ofChars at h
  split at h
  · cases h
  · next progress hprogress =>
    cases h
    refine close_of_sections sections (readLines_induction sections ?_ ?_ hprogress)
    · exact add
    · exact hempty

end Induction

end QuilControl
