import QuilControl.Proofs.Program.Layout
import QuilControl.Proofs.Program.Reading

/-!
# Programs read back

A program that is read is written section by section, with each instruction on a line of its own. These
lines add the same items again, unless one of them opens a block: on a line with others a gate may have
a name that begins with `DEF`, and on a line of its own it would be taken for a definition. So a program
that is read reads back exactly when it has no such gate.
-/

namespace QuilControl

variable {N : Type} [Scalar N]

namespace Program

def reread (p : Program N) : Program N :=
  { p with frames := p.frames.map (·.reread), body := p.body.map (·.reread) }

/-- A legible program but for its body. -/
theorem headerReadsAs_reread (laws : LiteralLaws N) {p : Program N} (h : p.IsLegible) :
    p.HeaderReadsAs p.reread where
  verbatim := h.definitions
  definitions := rfl
  frames := List.forall₂_map_right_iff.2
    (List.forall₂_same.2 fun d hd => FrameDefinition.readsAs_reread laws (h.frames d hd))
  declared := fun d hd => by
    have hlegible : (Instruction.declaration (N := N) d).IsLegible := h.declarations d hd
    exact Instruction.readsAs_reread laws hlegible (by rw [Instruction.opensBlock_iff hlegible]; simp)
  declarations := rfl
  distinct := h.distinct

/-- Legible instructions of a body, none of whose lines opens a block. -/
theorem bodyReadsAs_reread (laws : LiteralLaws N) {body : List (Instruction N)}
    (h : ∀ i ∈ body, i.IsLegible ∧ i.isDeclaration = false ∧ ¬ i.OpensBlock) :
    List.Forall₂ (fun i j : Instruction N => i.ReadsAs j ∧ j.isDeclaration = false) body (body.map (·.reread)) :=
  List.forall₂_map_right_iff.2 (List.forall₂_same.2 fun i hi =>
    ⟨Instruction.readsAs_reread laws (h i hi).1 (h i hi).2.2, i.isDeclaration_reread.trans (h i hi).2.1⟩)

/-- A legible program none of whose lines opens a block reads back. -/
theorem ofText_text_eq_reread (laws : LiteralLaws N) {p : Program N} (h : p.IsLegible)
    (hb : ∀ i ∈ p.body, ¬ i.OpensBlock) : ofText p.text = .ok p.reread := by
  have hbody := bodyReadsAs_reread laws fun i hi => ⟨(h.body i hi).1, (h.body i hi).2, hb i hi⟩
  exact ofText_text_of_readsAs { headerReadsAs_reread laws h with body := hbody }

/-- The sections of a program in front of its body, each with an empty line behind it. -/
def headerChars (p : Program N) : List Char :=
  ([p.definitions.map String.toList, p.frames.map (·.chars), p.declarations.map (·.chars)].filter
    (!·.isEmpty)).flatMap fun part => terminated part ++ ['\n']

theorem chars_eq_append {p : Program N} (h : p.body ≠ []) :
    p.chars = p.headerChars ++ terminated (p.body.map (·.chars)) := by
  have hbody : [p.body.map (·.chars)].filter (!·.isEmpty) = [p.body.map (·.chars)] := by simpa using h
  have hsections : p.sections.filter (!·.isEmpty) =
      [p.definitions.map String.toList, p.frames.map (·.chars), p.declarations.map (·.chars)].filter (!·.isEmpty) ++
        [p.body.map (·.chars)] := by
    rw [← hbody, ← List.filter_append]
    rfl
  unfold chars headerChars
  rw [hsections, joinSections_concat]

/-- A legible program with a line that opens a block gets one definition more, if it reads back at all. -/
theorem definitions_lt_of_ofText_text (laws : LiteralLaws N) {p q : Program N} (h : p.IsLegible)
    (ho : ∃ i ∈ p.body, i.OpensBlock) (hq : ofText p.text = .ok q) : p.definitions.length < q.definitions.length := by
  obtain ⟨first, hfirst⟩ : ∃ i, p.body.find? (·.OpensBlock) = some i := by
    rw [← Option.isSome_iff_exists, List.find?_isSome]
    simpa using ho
  obtain ⟨hopens, before, after, hbody, hbefore⟩ := List.find?_eq_some_iff_append.1 hfirst
  -- Up to the first such line, reading gives the header and the instructions in front of it.
  have hreads : ∀ j ∈ before, j.IsLegible ∧ j.isDeclaration = false ∧ ¬ j.OpensBlock := fun j hj =>
    ⟨(h.body j (by simp [hbody, hj])).1, (h.body j (by simp [hbody, hj])).2, by simpa using hbefore j hj⟩
  have hheader : Extends p.headerChars empty _ :=
    ((headerReadsAs_reread laws h).chain (Chain.nil _)).filter.extends_flatMap
  have hfront := hheader.append (extends_body (bodyReadsAs_reread laws hreads) _)
  generalize hmore : terminated (after.map (·.chars)) = more
  have hchars : p.chars = p.headerChars ++ terminated (before.map (·.chars)) ++ (first.chars ++ '\n' :: more) := by
    rw [chars_eq_append (by simp [hbody]), hbody, ← hmore]
    simp [terminated]
  have hlegible : first.IsLegible := (h.body first (by simp [hbody])).1
  have hline := Instruction.isStatement_chars laws hlegible
  obtain ⟨line, next, hnext, hread⟩ := hfront 1 ⟨empty, none⟩ (first.chars ++ '\n' :: more) rfl
  rw [← hchars, Text.lines_append hline.oneLine hline.solidEnd] at hread
  unfold ofText text ofChars at hq
  rw [String.toList_ofList, hread, readLines, readLine_open line hline.toIsLine hline.solidStart] at hq
  cases hmid : openLine line next.close first.chars with
  | error e => rw [hmid] at hq; cases hq
  | ok mid =>
    rw [hmid] at hq
    dsimp only at hq
    cases hlast : readLines (line + 1) mid (Text.lines more) with
    | error e => rw [hlast] at hq; cases hq
    | ok last =>
      rw [hlast] at hq
      cases hq
      have hstart : next.close.definitions = p.definitions := by rw [hnext]; rfl
      have hone := Instruction.definitions_lt_of_opensBlock laws hlegible (by simpa using hopens) hmid
      have hrest := definitions_le_of_readLines hlast
      rw [hstart] at hone
      omega

theorem reread_beq (laws : LiteralLaws N) {p : Program N} (h : p.IsLegible) : (p.reread == p) = true := by
  have hframes := map_beq_self fun d hd => FrameDefinition.reread_beq laws (h.frames d hd)
  have hbody := map_beq_self fun i hi => Instruction.reread_beq laws (h.body i hi).1
  show (p.definitions == p.definitions && (p.frames.map (·.reread) == p.frames &&
    (p.declarations == p.declarations && p.body.map (·.reread) == p.body))) = true
  rw [hframes, hbody]
  simp

theorem definitions_of_beq {p q : Program N} (h : (q == p) = true) : q.definitions = p.definitions := by
  have hfirst := (Bool.and_eq_true_iff.1 (show (q.definitions == p.definitions && _) = true from h)).1
  simpa using hfirst

/-- Reading a single line of statements. -/
theorem ofText_line (source : String) {p : Program N} (hl : Text.lines source.toList = [source.toList])
    (h : IsLine source.toList) (hs : Text.solidStart source.toList)
    (hd : ¬ "DEF".toList <+: firstWord source.toList)
    (ha : addStatements 1 empty (statements source.toList) = .ok p) : ofText source = .ok p := by
  have hne : firstWord source.toList ≠ "DEFFRAME".toList := fun heq => hd ⟨"FRAME".toList, heq.symm⟩
  have hprefix : ¬ "DEF".toList.isPrefixOf (firstWord source.toList) = true := fun hp =>
    hd (List.isPrefixOf_iff_prefix.1 hp)
  have hopen : openLine 1 empty source.toList = .ok ⟨p, none⟩ := by
    unfold openLine
    simp only [Text.trim_eq_self hs h.solidEnd, if_neg hne, if_neg hprefix, ha]
  have hread : readLine 1 ⟨empty, none⟩ source.toList = .ok ⟨p, none⟩ := by
    rw [readLine_open 1 h hs, ← hopen]
    rfl
  unfold ofText ofChars
  rw [hl, readLines_cons hread]
  rfl

/-- A gate without parameters on fixed qubits. -/
theorem isLegible_gate (indices : List UInt64) {modifiers : List GateModifier} {name : String}
    (hn : IsName name) (hm : GateModifier.ofKeyword? name = none) (hi : indices ≠ [])
    (hw : modifiers = [] → IsGateWord name) :
    (Instruction.gate (N := N) ⟨modifiers, name, [], indices.map .fixed⟩).IsLegible ∧
      (Instruction.gate (N := N) ⟨modifiers, name, [], indices.map .fixed⟩).isDeclaration = false :=
  ⟨⟨hn, hm, by simp, by simp [Qubit.IsLegible], by simpa using hi, hw⟩, rfl⟩

/-- **Programs that are read read back**, unless they have a gate without modifiers whose name begins
with `DEF`. -/
theorem ofText_text_iff (laws : LiteralLaws N) {source : String} {p : Program N} (h : ofText source = .ok p) :
    (∃ q, ofText p.text = .ok q ∧ (q == p) = true) ↔
      ∀ g, .gate g ∈ p.body → g.modifiers = [] → ¬ "DEF".toList <+: g.name.toList := by
  have hlegible := ofText_legible laws h
  constructor
  · rintro ⟨q, hq, heq⟩ g hg hm hd
    have hopens : (Instruction.gate g).OpensBlock :=
      (Instruction.opensBlock_iff (hlegible.body _ hg).1).2 ⟨g, rfl, hm, hd⟩
    have hlt := definitions_lt_of_ofText_text laws hlegible ⟨_, hg, hopens⟩ hq
    rw [definitions_of_beq heq] at hlt
    exact Nat.lt_irrefl _ hlt
  · intro hgates
    refine ⟨p.reread, ofText_text_eq_reread laws hlegible fun i hi ho => ?_, reread_beq laws hlegible⟩
    obtain ⟨g, rfl, hm, hd⟩ := (Instruction.opensBlock_iff (hlegible.body i hi).1).1 ho
    exact hgates g hi hm hd

/-- Behind a modifier the name may begin with `DEF`, over the whole numbers. -/
theorem ofText_text_iff_controlled :
    ∃ p : Program Whole, ofText "X 0;CONTROLLED DEFX 0 1" = .ok p ∧
      ∃ q, ofText p.text = .ok q ∧ (q == p) = true := by
  have hbody : ∀ i ∈ [Instruction.gate (N := Whole) ⟨[], "X", [], [.fixed 0]⟩,
      .gate ⟨[.controlled], "DEFX", [], [.fixed 0, .fixed 1]⟩], i.IsLegible ∧ i.isDeclaration = false := by
    simp only [List.mem_cons, List.not_mem_nil, or_false, forall_eq_or_imp, forall_eq]
    exact ⟨isLegible_gate [0] (by decide) (by decide) (by simp) fun _ => ⟨by decide, by decide, by decide⟩,
      isLegible_gate [0, 1] (by decide) (by decide) (by simp) (by simp)⟩
  have hread := ofText_line "X 0;CONTROLLED DEFX 0 1" (by decide) ⟨by decide, by decide, by decide, by decide⟩
    (by decide) (by decide) (addStatements_chars Whole.literalLaws 1 hbody empty)
  refine ⟨_, hread, (ofText_text_iff Whole.literalLaws hread).2 ?_⟩
  intro g hg hm
  simp only [empty, List.nil_append, List.map_cons, List.map_nil, Instruction.reread, Gate.reread, List.mem_cons,
    Instruction.gate.injEq, List.not_mem_nil, or_false] at hg
  rcases hg with rfl | rfl
  · decide
  · cases hm

/-- The text `X 0;DEFGATE 1` is a program with two gates, and what it is written as is no such program. -/
theorem not_ofText_text_semicolon :
    ∃ p : Program Whole, ofText "X 0;DEFGATE 1" = .ok p ∧ ¬ ∃ q, ofText p.text = .ok q ∧ (q == p) = true := by
  have hbody : ∀ i ∈ [Instruction.gate (N := Whole) ⟨[], "X", [], [.fixed 0]⟩,
      .gate ⟨[], "DEFGATE", [], [.fixed 1]⟩], i.IsLegible ∧ i.isDeclaration = false := by
    simp only [List.mem_cons, List.not_mem_nil, or_false, forall_eq_or_imp, forall_eq]
    exact ⟨isLegible_gate [0] (by decide) (by decide) (by simp) fun _ => ⟨by decide, by decide, by decide⟩,
      isLegible_gate [1] (by decide) (by decide) (by simp) fun _ => ⟨by decide, by decide, by decide⟩⟩
  have hread := ofText_line "X 0;DEFGATE 1" (by decide) ⟨by decide, by decide, by decide, by decide⟩
    (by decide) (by decide) (addStatements_chars Whole.literalLaws 1 hbody empty)
  have hlegible := ofText_legible Whole.literalLaws hread
  refine ⟨_, hread, ?_⟩
  rintro ⟨q, hq, heq⟩
  have hlt := definitions_lt_of_ofText_text Whole.literalLaws hlegible
    ⟨.gate ⟨[], "DEFGATE", [], [.fixed 1]⟩, by simp [Instruction.reread, Gate.reread], by decide⟩ hq
  rw [definitions_of_beq heq] at hlt
  exact Nat.lt_irrefl _ hlt

end Program

end QuilControl
