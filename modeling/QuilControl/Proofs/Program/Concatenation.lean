import QuilControl.Proofs.Program.Adding
import QuilControl.Proofs.Program.Extension
import QuilControl.Proofs.Program.Lines
import QuilControl.Proofs.Program.RoundTrip

/-!
# One text behind another

Two texts are read as one when a line end stands between them. The lines of the first are read as they are alone,
and leave a program with a block that may be open. The lines of the second are read behind that: whatever they add
goes behind the sections of the first program, which only matter when a region is declared again
(`readLines_behind`). An indented line would go on with the open block of the first text. So the second has to start
afresh, with a line that closes the block (`readLines_startsAfresh`).
-/

namespace QuilControl

variable {N : Type} [Scalar N]

/-! ## A line end between texts -/

theorem readLine_dropCarriageReturn (line : Nat) (progress : Progress N) (raw : List Char) :
    readLine line progress (Text.dropCarriageReturn raw) = readLine line progress raw := by
  rcases Text.dropCarriageReturn_cases raw with h | h
  · rw [h]
  · have htext : Text.trimEnd (stripComment false raw) =
        Text.trimEnd (stripComment false (Text.dropCarriageReturn raw)) := by
      conv_lhs => rw [h]
      rcases stripComment_concat false (Text.dropCarriageReturn raw) (show '\r' ≠ '#' by decide) with h | h
      · rw [h]
      · rw [h, Text.trimEnd_append_blanks _ (List.forall_mem_singleton.2 rfl)]
    unfold readLine
    rw [htext]

theorem readLines_append (line : Nat) (progress : Progress N) (raws others : List (List Char)) :
    readLines line progress (raws ++ others) =
      match readLines line progress raws with
      | .error e => .error e
      | .ok next => readLines (line + raws.length) next others := by
  induction raws generalizing line progress with
  | nil => rfl
  | cons raw raws ih =>
    rw [List.cons_append, readLines, readLines]
    cases readLine line progress raw with
    | error e => rfl
    | ok next =>
      dsimp only
      rw [ih, List.length_cons, Nat.add_assoc, Nat.add_comm 1]

/-- A line end behind a text changes nothing. -/
theorem readLines_concat_newline (line : Nat) (progress : Progress N) (a : List Char) :
    readLines line progress (Text.lines (a ++ ['\n'])) = readLines line progress (Text.lines a) := by
  obtain ⟨front, last, hwith, hwithout⟩ := Text.exists_lines_concat_newline a
  rw [hwith, hwithout, readLines_append, readLines_append]
  cases readLines line progress front with
  | error e => rfl
  | ok next =>
    dsimp only
    cases last with
    | nil => rfl
    | cons c last => simp [readLines, readLine_dropCarriageReturn]

/-! ## Reading on -/

/-- Both programs, section by section. -/
instance Program.instAppend : Append (Program N) :=
  ⟨fun p q =>
    ⟨p.definitions ++ q.definitions, p.frames ++ q.frames, p.declarations ++ q.declarations, p.body ++ q.body⟩⟩

omit [Scalar N] in
theorem Program.append_eq (p q : Program N) :
    p ++ q =
      ⟨p.definitions ++ q.definitions, p.frames ++ q.frames, p.declarations ++ q.declarations, p.body ++ q.body⟩ :=
  rfl

omit [Scalar N] in
theorem Program.append_empty (p : Program N) : p ++ Program.empty = p := by
  simp [Program.append_eq, Program.empty]

def Progress.behind (p : Program N) (progress : Progress N) : Progress N := ⟨p ++ progress.program, progress.block⟩

omit [Scalar N] in
theorem Progress.close_behind (p : Program N) (progress : Progress N) :
    (progress.behind p).close = p ++ progress.close := by
  obtain ⟨q, block⟩ := progress
  cases block with
  | none => rfl
  | some b => cases b <;> simp [Progress.behind, Progress.close, Program.append_eq]

omit [Scalar N] in
theorem Progress.names_close (progress : Progress N) : progress.close.names = progress.program.names := by
  obtain ⟨q, block⟩ := progress
  cases block with
  | none => rfl
  | some b => cases b <;> rfl

theorem names_subset_of_addStatements {line : Nat} {p q : Program N} {parts : List (List Char)}
    (h : addStatements line p parts = .ok q) : p.names ⊆ q.names :=
  addStatements_induction (P := fun r => p.names ⊆ r.names)
    (fun _ _ _ _ _ _ hr hadd => List.Subset.trans hr (Program.names_subset_of_add hadd)) (List.Subset.refl _) h

theorem names_subset_of_readLines {line : Nat} {progress next : Progress N} {raws : List (List Char)}
    (h : readLines line progress raws = .ok next) : progress.program.names ⊆ next.program.names :=
  readLines_induction (P := fun r => progress.program.names ⊆ r.names) (fun _ _ _ hr => hr)
    (fun _ _ _ _ _ _ _ _ _ hr hadd => List.Subset.trans hr (Program.names_subset_of_add hadd)) (List.Subset.refl _) h

section Behind

variable {p : Program N} {line line' : Nat}

omit [Scalar N] in
theorem add_behind {q r : Program N} {i : Instruction N} (h : q.add i = .ok r) (hfree : r.names.Disjoint p.names) :
    (p ++ q).add i = .ok (p ++ r) := by
  cases i with
  | declaration d =>
    rw [Program.add, Program.declare_eq] at h ⊢
    split at h
    · cases h
    · next hd =>
      cases h
      have hp : d.name ∉ p.names := hfree (by simp [Program.names])
      rw [if_neg]
      · simp [Program.append_eq]
      · simp only [Program.names, Program.append_eq, List.map_append, List.mem_append, not_or] at hp hd ⊢
        exact ⟨hp, hd⟩
  | pragma | call | gate | measurement | fence | delay | frameUpdate | other =>
    cases h
    simp [Program.add, Program.append_eq]

theorem addStatements_behind {q r : Program N} {parts : List (List Char)} (h : addStatements line q parts = .ok r)
    (hfree : r.names.Disjoint p.names) : addStatements line' (p ++ q) parts = .ok (p ++ r) := by
  induction parts generalizing q with
  | nil =>
    cases h
    rfl
  | cons part parts ih =>
    rw [addStatements] at h ⊢
    split at h
    · cases h
    · next i hi =>
      split at h
      · cases h
      · next mid hmid =>
        rw [Instruction.ofChars_line hi line']
        dsimp only
        rw [add_behind hmid (List.disjoint_of_subset_left (names_subset_of_addStatements h) hfree)]
        exact ih h

theorem openLine_behind {q : Program N} {text : List Char} {next : Progress N} (h : openLine line q text = .ok next)
    (hfree : next.program.names.Disjoint p.names) : openLine line' (p ++ q) text = .ok (next.behind p) := by
  unfold openLine at h ⊢
  dsimp only at h ⊢
  split at h
  · rw [if_pos ‹_›]
    split at h
    · cases h
    · next frame hframe =>
      cases h
      rw [readOnLine_line hframe line']
      rfl
  · rw [if_neg ‹_›]
    split at h
    · cases h
      rw [if_pos ‹_›]
      rfl
    · rw [if_neg ‹_›]
      split at h
      · cases h
      · next r hr =>
        cases h
        rw [addStatements_behind hr hfree]
        rfl

/-- A line that is read is read behind any program whose names it leaves alone. -/
theorem readLine_behind {progress next : Progress N} {raw : List Char} (h : readLine line progress raw = .ok next)
    (hfree : next.program.names.Disjoint p.names) : readLine line' (progress.behind p) raw = .ok (next.behind p) := by
  obtain ⟨q, block⟩ := progress
  unfold readLine at h ⊢
  dsimp only at h ⊢
  split at h
  · cases h
    rw [if_pos ‹_›]
  · rw [if_neg ‹_›]
    split at h
    · rw [if_pos ‹_›]
      cases block with
      | none => exact openLine_behind h hfree
      | some b =>
        cases b with
        | frame d =>
          dsimp only [Progress.behind] at h ⊢
          split at h
          · cases h
          · next a ha =>
            cases h
            rw [readOnLine_line ha line']
        | verbatim kept =>
          cases h
          rfl
    · rw [if_neg ‹_›, Progress.close_behind]
      exact openLine_behind h hfree

theorem readLines_behind {progress next : Progress N} {raws : List (List Char)}
    (h : readLines line progress raws = .ok next) (hfree : next.program.names.Disjoint p.names) :
    readLines line' (progress.behind p) raws = .ok (next.behind p) := by
  induction raws generalizing line line' progress with
  | nil =>
    cases h
    rfl
  | cons raw raws ih =>
    rw [readLines] at h ⊢
    split at h
    · cases h
    · next mid hmid =>
      rw [readLine_behind hmid (List.disjoint_of_subset_left (names_subset_of_readLines h) hfree)]
      exact ih h

end Behind

/-! ## Starting afresh -/

/-- The first line that is not blank, apart from a comment, is not indented. -/
def StartsAfresh (raws : List (List Char)) : Prop :=
  ∀ raw ∈ raws.find? fun raw => !Text.isBlank (stripComment false raw), isIndented raw = false

instance (raws : List (List Char)) : Decidable (StartsAfresh raws) := Option.decidableForallMem _

/-- What is read from a text that starts afresh goes behind what has been read. The block that is open then is
closed by the first line that counts, or by the end. -/
theorem readLines_startsAfresh {raws : List (List Char)} (h : StartsAfresh raws) (line : Nat) (progress : Progress N) :
    (readLines line progress raws).map Progress.close =
      (readLines line ⟨progress.close, none⟩ raws).map Progress.close := by
  induction raws generalizing line with
  | nil => rfl
  | cons raw raws ih =>
    rw [readLines, readLines]
    cases hblank : Text.isBlank (stripComment false raw) with
    | true =>
      have hread (progress : Progress N) : readLine line progress raw = .ok progress := by
        unfold readLine
        simp only [Text.isBlank_trimEnd, hblank, if_true]
      rw [hread, hread]
      refine ih (fun other hother => h other ?_) (line + 1)
      rwa [List.find?_cons_of_neg (by simp [hblank])]
    | false =>
      -- This line closes the open block, and then nothing is left of it but its section.
      have hindent : isIndented raw = false := h raw (List.find?_cons_of_pos (by simp [hblank]))
      have hread : readLine line progress raw = readLine line ⟨progress.close, none⟩ raw := by
        unfold readLine
        simp only [Text.isBlank_trimEnd, hblank, isIndented_trimEnd_stripComment hblank, hindent, Bool.false_eq_true,
          if_false]
        rfl
      rw [hread]

theorem Program.ofChars_eq_map (source : List Char) :
    (ofChars source : Except QuilError (Program N)) =
      (readLines 1 ⟨empty, none⟩ (Text.lines source)).map Progress.close := by
  unfold ofChars
  cases readLines 1 ⟨(empty : Program N), none⟩ (Text.lines source) <;> rfl

/-- **Reading is compositional.** Two texts that are read, the second of which starts afresh, read as one text
with both programs, section by section, unless a region is declared by both. -/
theorem Program.ofText_append_newline {a b : String} {p q : Program N} (ha : ofText a = .ok p) (hb : ofText b = .ok q)
    (hfree : p.names.Disjoint q.names) (hstart : StartsAfresh (Text.lines b.toList)) :
    ofText (a ++ "\n" ++ b) =
      .ok ⟨p.definitions ++ q.definitions, p.frames ++ q.frames, p.declarations ++ q.declarations,
        p.body ++ q.body⟩ := by
  have htext : (a ++ "\n" ++ b).toList = a.toList ++ '\n' :: b.toList := by simp
  rw [ofText, ofChars_eq_map] at ha hb
  obtain ⟨first, hfirst, rfl⟩ := exists_of_map_eq_ok ha
  obtain ⟨second, hsecond, rfl⟩ := exists_of_map_eq_ok hb
  rw [Progress.names_close second] at hfree
  have hfree' : second.program.names.Disjoint first.close.names := fun _ hsecond hfirst => hfree hfirst hsecond
  have hbehind : readLines (1 + (Text.lines (a.toList ++ ['\n'])).length) (Progress.behind first.close ⟨empty, none⟩)
      (Text.lines b.toList) = .ok (second.behind first.close) := readLines_behind hsecond hfree'
  rw [Progress.behind, append_empty] at hbehind
  rw [ofText, htext, ofChars_eq_map, Text.lines_append_newline, readLines_append, readLines_concat_newline, hfirst]
  dsimp only
  rw [readLines_startsAfresh hstart, hbehind, ← append_eq, ← Progress.close_behind]
  rfl

/-- A block that the first text leaves open, with regions declared in front of it and behind it, over the whole
numbers. -/
theorem Program.ofText_append_newline_openBlock :
    ofText (N := Whole) ("DECLARE a BIT[2]" ++ "\n" ++ "DEFGATE G:\n\t1, 0" ++ "\n" ++ "DECLARE b BIT[2]") =
      .ok ⟨["DEFGATE G:\n\t1, 0"], [], [⟨"a", .bit, 2, none⟩, ⟨"b", .bit, 2, none⟩], []⟩ := by
  have region (source : String) (d : Declaration) (hl : Text.lines source.toList = [source.toList])
      (hline : IsLine source.toList) (hd : ¬ "DEF".toList <+: firstWord source.toList)
      (hsolid : Text.solidStart source.toList) (hs : statements source.toList = [d.chars])
      (hlegible : (Instruction.declaration (N := Whole) d).IsLegible) :
      ofText source = .ok (⟨[], [], [d], []⟩ : Program Whole) := by
    refine ofText_line source hl hline hsolid hd ?_
    have hread : Instruction.ofChars 1 d.chars = .ok (Instruction.declaration (N := Whole) d) :=
      Instruction.ofChars_chars Whole.literalLaws hlegible 1
    rw [hs, addStatements, hread]
    rfl
  have ha := region "DECLARE a BIT[2]" ⟨"a", .bit, 2, none⟩ (by decide) ⟨by decide, by decide, by decide, by decide⟩
    (by decide) (by decide) (by decide) ⟨by decide, by simp⟩
  have hb := region "DECLARE b BIT[2]" ⟨"b", .bit, 2, none⟩ (by decide) ⟨by decide, by decide, by decide, by decide⟩
    (by decide) (by decide) (by decide) ⟨by decide, by simp⟩
  have hblock : ofText (N := Whole) "DEFGATE G:\n\t1, 0" = .ok ⟨["DEFGATE G:\n\t1, 0"], [], [], []⟩ := by rfl
  have hfront := ofText_append_newline ha hblock (by simp [names]) (by decide)
  exact ofText_append_newline hfront hb (by simp [names]) (by decide)

end QuilControl
