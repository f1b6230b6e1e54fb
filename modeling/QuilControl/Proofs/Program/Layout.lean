import QuilControl.Proofs.Program.Opening
import QuilControl.Proofs.Scalar.Whole

/-!
# The layout of a program

A program is written section by section, with an empty line between those that are not empty. When each
item reads as some item, in the place where it is written, the text reads as the program with these items
(`Program.ofText_text_of_readsAs`): no line goes to another block or section. So a program whose items read
back reads back.
-/

namespace QuilControl

variable {N : Type} [Scalar N]

namespace Program

/-- The sections in front of the body read as those of the second program. -/
structure HeaderReadsAs (p q : Program N) : Prop where
  verbatim : ∀ text ∈ p.definitions, ∃ head others, IsVerbatim head others ∧ text.toList = joinLines head others
  definitions : q.definitions = p.definitions
  frames : List.Forall₂ FrameDefinition.ReadsAs p.frames q.frames
  declared : ∀ d ∈ p.declarations, (Instruction.declaration (N := N) d).ReadsAs (.declaration d)
  declarations : q.declarations = p.declarations
  distinct : (p.declarations.map (·.name)).Nodup

/-- The sections of a program read as those of the second one. -/
structure ReadsAs (p q : Program N) : Prop extends HeaderReadsAs p q where
  body : List.Forall₂ (fun i j => i.ReadsAs j ∧ j.isDeclaration = false) p.body q.body

theorem HeaderReadsAs.chain {p q r : Program N} (h : p.HeaderReadsAs q) {parts : List (List (List Char))}
    (hr : Chain parts { q with body := [] } r) :
    Chain (p.definitions.map String.toList :: p.frames.map (·.chars) :: p.declarations.map (·.chars) :: parts)
      empty r := by
  obtain ⟨definitions, frames, declarations, body⟩ := q
  obtain rfl : definitions = p.definitions := h.definitions
  obtain rfl : declarations = p.declarations := h.declarations
  have hdefinitions := extends_definitions h.verbatim (empty : Program N)
  have hframes := extends_frames h.frames { (empty : Program N) with definitions := p.definitions }
  have hdeclarations := extends_declarations h.declared ⟨p.definitions, frames, [], []⟩ h.distinct
  refine Chain.section_cons ?_ hdefinitions (Chain.section_cons ?_ hframes (Chain.section_cons ?_ hdeclarations hr))
  · simp +contextual [empty]
  · intro hnil
    have hframes := h.frames
    rw [List.map_eq_nil_iff.1 hnil, List.forall₂_nil_left_iff] at hframes
    obtain rfl : frames = [] := hframes
    rfl
  · simp +contextual [empty]

/-- **A program reads as the program its items read as**, whatever sections it has. -/
theorem ofText_text_of_readsAs {p q : Program N} (h : p.ReadsAs q) : ofText p.text = .ok q := by
  have hbody := extends_body h.body { q with body := [] }
  have hlast : Chain [p.body.map (·.chars)] { q with body := [] } q := by
    refine Chain.section_cons ?_ hbody (Chain.nil _)
    intro hnil
    have hnone := h.body
    rw [List.map_eq_nil_iff.1 hnil, List.forall₂_nil_left_iff] at hnone
    simp [← hnone]
  have hall := (h.toHeaderReadsAs.chain hlast).filter.extends_joinSections
  unfold ofText text
  rw [String.toList_ofList]
  exact ofChars_of_extends hall

end Program

/-! ## Items that read as equal ones -/

theorem Instruction.isDeclaration_of_beq {i j : Instruction N} (h : (j == i) = true) :
    j.isDeclaration = i.isDeclaration := by
  cases i <;> cases j <;> first | rfl | cases h

theorem Instruction.eq_declaration_of_beq {j : Instruction N} {d : Declaration}
    (h : (j == declaration d) = true) : j = declaration d := by
  cases j with
  | declaration d' => exact congrArg declaration (eq_of_beq (show (d' == d) = true from h))
  | pragma | call | gate | measurement | fence | delay | frameUpdate | other => cases h

theorem exists_forall₂_beq {α : Type} [BEq α] {R : α → α → Prop} {xs : List α}
    (h : ∀ x ∈ xs, ∃ y, R x y ∧ (y == x) = true) : ∃ ys, List.Forall₂ R xs ys ∧ (ys == xs) = true := by
  induction xs with
  | nil => exact ⟨[], .nil, rfl⟩
  | cons x xs ih =>
    obtain ⟨y, hxy, hy⟩ := h x List.mem_cons_self
    obtain ⟨ys, hxys, hys⟩ := ih fun z hz => h z (List.mem_cons_of_mem _ hz)
    exact ⟨y :: ys, .cons hxy hxys, by simp [hy, hys]⟩

namespace Program

/-- Each item of a program is written as text that reads as an equal item where it stands. -/
structure ItemsReadBack (p : Program N) : Prop where
  definitions : ∀ text ∈ p.definitions, ∃ head others, IsVerbatim head others ∧ text.toList = joinLines head others
  frames : ∀ d ∈ p.frames, ∃ e, d.ReadsAs e ∧ (e == d) = true
  declarations : ∀ d ∈ p.declarations, ∃ j, (Instruction.declaration (N := N) d).ReadsAs j ∧
    (j == .declaration d) = true
  distinct : (p.declarations.map (·.name)).Nodup
  body : ∀ i ∈ p.body, i.isDeclaration = false ∧ ∃ j, i.ReadsAs j ∧ (j == i) = true

/-- **A program whose items read back reads back.** -/
theorem ofText_text_of_itemsReadBack {p : Program N} (h : p.ItemsReadBack) :
    ∃ q, ofText p.text = .ok q ∧ (q == p) = true := by
  obtain ⟨frames, hframes, hframes_beq⟩ := exists_forall₂_beq h.frames
  obtain ⟨body, hbody, hbody_beq⟩ := exists_forall₂_beq
    (R := fun i j : Instruction N => i.ReadsAs j ∧ j.isDeclaration = false) fun i hi => by
      obtain ⟨hdeclaration, j, hj, hbeq⟩ := h.body i hi
      exact ⟨j, ⟨hj, (Instruction.isDeclaration_of_beq hbeq).trans hdeclaration⟩, hbeq⟩
  have hreads : p.ReadsAs { p with frames := frames, body := body } :=
    { verbatim := h.definitions
      definitions := rfl
      frames := hframes
      declared := fun d hd => by
        obtain ⟨j, hj, hbeq⟩ := h.declarations d hd
        rwa [Instruction.eq_declaration_of_beq hbeq] at hj
      declarations := rfl
      distinct := h.distinct
      body := hbody }
  refine ⟨_, ofText_text_of_readsAs hreads, ?_⟩
  show (p.definitions == p.definitions && (frames == p.frames &&
    (p.declarations == p.declarations && body == p.body))) = true
  rw [hframes_beq, hbody_beq]
  simp

/-- A program with all four sections, over the whole numbers. -/
theorem ofText_text_of_itemsReadBack_sections :
    let p : Program Whole :=
      ⟨["DEFGATE G:\n\t1, 0\n\t0, 1"], [⟨⟨"rf", [.fixed 0]⟩, [("DIRECTION", .string "tx; #1")]⟩],
        [⟨"ro", .bit, 2, none⟩], [.gate ⟨[], "G", [], [.fixed 0]⟩, .measurement ⟨.fixed 0, some ⟨"ro", 1⟩⟩]⟩
    ∃ q, ofText p.text = .ok q ∧ (q == p) = true := by
  have laws := Whole.literalLaws
  have back {i : Instruction Whole} (hi : i.IsLegible) (ho : ¬ i.OpensBlock) :
      ∃ j, i.ReadsAs j ∧ (j == i) = true :=
    ⟨i.reread, Instruction.readsAs_reread laws hi ho, Instruction.reread_beq laws hi⟩
  refine ofText_text_of_itemsReadBack ⟨?_, ?_, ?_, by decide, ?_⟩
  · simp only [List.mem_singleton, forall_eq]
    refine ⟨"DEFGATE G:".toList, ["\t1, 0".toList, "\t0, 1".toList],
      ⟨?_, by decide, by decide, by decide, ?_, by decide⟩, by decide⟩
    · exact ⟨by decide, by decide, by decide, by decide⟩
    · simp only [List.mem_cons, List.not_mem_nil, or_false, forall_eq_or_imp, forall_eq]
      exact ⟨⟨by decide, by decide, by decide, by decide⟩, by decide, by decide, by decide, by decide⟩
  · simp only [List.mem_singleton, forall_eq]
    have hlegible : FrameDefinition.IsLegible (N := Whole)
        ⟨⟨"rf", [.fixed 0]⟩, [("DIRECTION", .string "tx; #1")]⟩ := by
      refine ⟨⟨by simp [Qubit.IsLegible], by decide, by decide⟩, ?_, by simp [Attribute.IsLegible, IsQuotable]⟩
      simp only [List.mem_singleton, forall_eq]
      decide
    exact ⟨_, FrameDefinition.readsAs_reread laws hlegible, FrameDefinition.reread_beq laws hlegible⟩
  · simp only [List.mem_singleton, forall_eq]
    exact back ⟨by decide, by simp⟩ (by decide)
  · simp only [List.mem_cons, List.not_mem_nil, or_false, forall_eq_or_imp, forall_eq]
    refine ⟨⟨rfl, back ?_ (by decide)⟩, rfl, back ?_ (by decide)⟩
    · exact ⟨by decide, by decide, by simp, by simp [Qubit.IsLegible], by simp,
        fun _ => ⟨by decide, by decide, by decide⟩⟩
    · have hname : IsName "ro" := by decide
      exact ⟨trivial, by rintro _ ⟨⟩; exact hname⟩

end Program

end QuilControl
