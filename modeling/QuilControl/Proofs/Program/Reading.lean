import QuilControl.Proofs.Program.Blocks
import QuilControl.Proofs.Program.Lines

/-!
# Programs that are read can be written

Reading starts with the empty program, and each line adds something that can be written again: part of
a block, or statements. Declared names stay distinct, and declarations stay out of the body. So a
program that is read is legible, section by section.
-/

namespace QuilControl

variable {N : Type} [Scalar N]

/-- A program that can be written again. -/
structure Program.IsLegible (p : Program N) : Prop where
  definitions : ∀ text ∈ p.definitions, ∃ head others, IsVerbatim head others ∧ text.toList = joinLines head others
  frames : ∀ d ∈ p.frames, d.IsLegible
  declarations : ∀ d ∈ p.declarations, d.IsLegible N
  distinct : (p.declarations.map (·.name)).Nodup
  body : ∀ i ∈ p.body, i.IsLegible ∧ i.isDeclaration = false

def Block.IsLegible : Block N → Prop
  | frame d => d.IsLegible
  | verbatim text => ∃ head others, IsVerbatim head others ∧ text = joinLines head others

structure Progress.IsLegible (progress : Progress N) : Prop where
  program : progress.program.IsLegible
  block : ∀ b ∈ progress.block, b.IsLegible

theorem Program.isLegible_empty : (Program.empty : Program N).IsLegible := by
  constructor <;> simp [Program.empty]

theorem Program.IsLegible.add {p q : Program N} {i : Instruction N} (h : p.IsLegible) (hi : i.IsLegible)
    (ha : p.add i = .ok q) : q.IsLegible := by
  cases i with
  | declaration d =>
    simp only [Program.add, Program.declare] at ha
    cases hd : p.declaration? d.name with
    | some other => rw [hd] at ha; cases ha
    | none =>
      rw [hd] at ha
      cases ha
      rw [Program.declaration?, List.find?_eq_none] at hd
      refine { h with declarations := forall_mem_concat h.declarations hi, distinct := ?_ }
      rw [List.map_append, List.nodup_append]
      refine ⟨h.distinct, by simp, ?_⟩
      intro name hname other hother heq
      obtain ⟨d', hd', rfl⟩ := List.mem_map.1 hname
      simp only [List.map_cons, List.map_nil, List.mem_singleton] at hother
      exact hd d' hd' (by simp [heq, hother])
  | pragma | call | gate | measurement | fence | delay | frameUpdate | other =>
    cases ha
    exact { h with body := forall_mem_concat h.body ⟨hi, rfl⟩ }

theorem Progress.IsLegible.close {progress : Progress N} (h : progress.IsLegible) : progress.close.IsLegible := by
  obtain ⟨p, block⟩ := progress
  obtain ⟨hp, hblock⟩ := h
  cases block with
  | none => exact hp
  | some b =>
    have hb := hblock b rfl
    cases b with
    | frame d => exact { hp with frames := forall_mem_concat hp.frames hb }
    | verbatim text =>
      obtain ⟨head, others, hv, rfl⟩ := hb
      refine { hp with definitions := forall_mem_concat hp.definitions ⟨head, others, hv, ?_⟩ }
      rw [String.toList_ofList]

theorem addStatements_legible (laws : LiteralLaws N) {line : Nat} {p q : Program N} {parts : List (List Char)}
    (hs : ∀ part ∈ parts, IsStatement (Text.trim part)) (hp : p.IsLegible)
    (h : addStatements line p parts = .ok q) : q.IsLegible := by
  refine addStatements_induction (fun part hpart i p q hi hp hadd => ?_) hp h
  exact hp.add (Instruction.ofChars_legible laws (hs part hpart) hi) hadd

theorem openLine_legible (laws : LiteralLaws N) {line : Nat} {p : Program N} {text : List Char}
    {next : Progress N} (hl : IsLine text) (hp : p.IsLegible) (h : openLine line p text = .ok next) :
    next.IsLegible := by
  have hline := hl.trim
  unfold openLine at h
  dsimp only at h
  split at h
  · split at h
    · cases h
    · next frame hframe =>
      cases h
      obtain ⟨tokens, htokens, hread⟩ := readOnLine_eq_ok hframe
      have hlegible := Frame.ofHeaderTokens_legible (legibleTokens_of_oneLine laws hline.oneLine htokens) hread
      refine ⟨hp, ?_⟩
      rintro b ⟨⟩
      exact ⟨hlegible, by simp, by simp⟩
  · next hne =>
    split at h
    · next hdef =>
      cases h
      refine ⟨hp, ?_⟩
      rintro b ⟨⟩
      exact ⟨Text.trim text, [], ⟨hline, Text.solidStart_trim text, List.isPrefixOf_iff_prefix.1 hdef, hne, by simp,
        by simp⟩, by simp [joinLines]⟩
    · split at h
      · cases h
      · next q hq =>
        cases h
        exact ⟨addStatements_legible laws (fun part hpart => hline.isStatement hpart) hp hq, by simp⟩

theorem readLine_legible (laws : LiteralLaws N) {line : Nat} {progress next : Progress N} {raw : List Char}
    (hn : '\n' ∉ raw) (hp : progress.IsLegible) (h : readLine line progress raw = .ok next) : next.IsLegible := by
  unfold readLine at h
  dsimp only at h
  split at h
  · cases h
    exact hp
  · next hblank =>
    have hline := isLine_of_stripComment hn (Bool.eq_false_iff.2 hblank)
    generalize Text.trimEnd (stripComment false raw) = text at *
    split at h
    · next hindent =>
      split at h
      · next d hd =>
        have hdef : d.IsLegible := hp.block (.frame d) hd
        split at h
        · cases h
        · next a ha =>
          cases h
          obtain ⟨tokens, htokens, hread⟩ := readOnLine_eq_ok ha
          have hlegible := legibleTokens_of_oneLine laws hline.oneLine htokens
          obtain ⟨hkey, hvalue⟩ := Attribute.ofTokens_legible laws hlegible hread
          refine ⟨hp.program, ?_⟩
          rintro c ⟨⟩
          exact { hdef with
            keys := forall_mem_concat (P := fun a : String × Attribute N => IsName a.1) hdef.keys hkey
            values := forall_mem_concat (P := fun a : String × Attribute N => a.2.IsLegible) hdef.values hvalue }
      · next kept hkept =>
        cases h
        obtain ⟨head, others, hv, rfl⟩ : Block.IsLegible (N := N) (.verbatim kept) := hp.block _ hkept
        refine ⟨hp.program, ?_⟩
        rintro c ⟨⟩
        refine ⟨head, others ++ [text], ?_, (joinLines_concat head others text).symm⟩
        exact { hv with
          others_isLine := forall_mem_concat hv.others_isLine hline
          others_indented := forall_mem_concat (P := fun l => isIndented l = true) hv.others_indented hindent }
      · exact openLine_legible laws hline hp.program h
    · exact openLine_legible laws hline hp.close h

/-- A run of lines keeps what has been read legible. -/
theorem readLines_legible (laws : LiteralLaws N) {line : Nat} {progress next : Progress N}
    {raws : List (List Char)} (hn : ∀ raw ∈ raws, '\n' ∉ raw) (hp : progress.IsLegible)
    (h : readLines line progress raws = .ok next) : next.IsLegible := by
  induction raws generalizing line progress with
  | nil =>
    cases h
    exact hp
  | cons raw raws ih =>
    rw [readLines] at h
    split at h
    · cases h
    · next mid hmid =>
      have hlegible := readLine_legible laws (hn raw List.mem_cons_self) hp hmid
      exact ih (fun r hr => hn r (List.mem_cons_of_mem _ hr)) hlegible h

/-- **Programs that are read can be written again.** -/
theorem Program.ofText_legible (laws : LiteralLaws N) {source : String} {p : Program N}
    (h : Program.ofText source = .ok p) : p.IsLegible := by
  unfold Program.ofText Program.ofChars at h
  split at h
  · cases h
  · next progress hprogress =>
    cases h
    have hempty : Progress.IsLegible (N := N) ⟨Program.empty, none⟩ := ⟨Program.isLegible_empty, by simp⟩
    exact (readLines_legible laws (fun _ hr => Text.newline_notMem_lines hr) hempty hprogress).close

end QuilControl
