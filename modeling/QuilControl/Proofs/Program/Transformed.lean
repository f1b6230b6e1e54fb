import QuilControl.Proofs.Program.History
import QuilControl.Proofs.Program.Readable
import QuilControl.Randomized.Zxzxz

/-!
# Transformed programs read back

Moving the arithmetic out of a readable program leaves a readable one: what stands at its sites is a
literal, which simplification keeps finite, or a slot of the new region. Appending randomized measurements
adds readable instructions, if the set gives such: the generated names are identifiers, and the delay is
not negative. So what becomes of a program that is read reads back (`Program.ofText_text_transformed`).
-/

namespace QuilControl

variable {N : Type} [Scalar N]

/-- What writing transformed programs needs of numbers besides: π is finite, and a span of time in seconds
is finite and not negative. -/
structure TransformationLaws (N : Type) [Scalar N] : Prop extends LiteralLaws N where
  finite_pi : Scalar.isFinite (Scalar.pi : N) = true
  finite_inSeconds : ∀ d : Duration, Scalar.isFinite (d.inSeconds : N) = true
  nonnegative_inSeconds : ∀ d : Duration, Scalar.isNegative (d.inSeconds : N) = false

/-- The whole numbers can be written in transformed programs. A span of time is its whole seconds. -/
theorem Whole.transformationLaws : TransformationLaws Whole := by
  have hseconds (d : Duration) : (d.inSeconds : Whole) = ⟨d.seconds.toNat⟩ := by
    have hwhole : (d.nanoseconds : Int) / 1000000000 = 0 := by
      have hlt := d.nanoseconds_lt
      omega
    show Whole.mk (d.seconds.toNat + (d.nanoseconds : Int) / 1000000000) = _
    rw [hwhole, Int.add_zero]
  refine { Whole.literalLaws with finite_pi := rfl, finite_inSeconds := fun d => ?_, nonnegative_inSeconds := ?_ }
  · rw [hseconds]
    exact Whole.literalLaws.finite_ofNat _ d.seconds.toNat_lt
  · intro d
    rw [hseconds]
    exact Whole.literalLaws.nonnegative_ofNat _

theorem Declaration.IsLegible.unshared {d : Declaration} (hname : IsName d.name) (h : d.sharing = none) :
    d.IsLegible N :=
  ⟨hname, by simp [h]⟩

/-! ## Programs without arithmetic -/

section Substitution

variable {p : Program N} {table table' : RecalculationTable}

theorem Expr.IsLegible.simplify (laws : TransformationLaws N) {e : Expr N} (h : e.IsLegible) :
    e.simplify.IsLegible :=
  MadeOf.simplify laws.finite_pi laws.finite_neg h

omit [Scalar N] in
theorem isName_substitutionName : IsName substitutionName := by decide

theorem isLegible_substituteAngle (laws : TransformationLaws N) {e : Expr N} (h : e.IsLegible) :
    (substituteAngle table e).1.IsLegible := by
  cases hn : e.simplify.isNumber with
  | true =>
    rw [substituteAngle_of_isNumber hn]
    exact h.simplify laws
  | false =>
    rw [substituteAngle_of_not_isNumber hn]
    exact isName_substitutionName

theorem isLegible_substituteAngles (laws : TransformationLaws N) {es : List (Expr N)}
    (h : ∀ e ∈ es, e.IsLegible) : ∀ e ∈ (substituteAngles table es).1, e.IsLegible := by
  induction es generalizing table with
  | nil => simp [substituteAngles]
  | cons e es ih =>
    obtain ⟨he, hes⟩ := List.forall_mem_cons.1 h
    exact List.forall_mem_cons.2 ⟨isLegible_substituteAngle laws he, ih hes⟩

omit [Scalar N] in
theorem Instruction.word_outline (i : Instruction N) : i.outline.word = i.word := by
  cases i with
  | gate g =>
    obtain ⟨modifiers, name, parameters, qubits⟩ := g
    cases modifiers <;> rfl
  | declaration | pragma | call | measurement | fence | delay | frameUpdate | other => rfl

/-- A step keeps the first word, and what it puts in is legible. -/
theorem isReadable_substituteInstruction (laws : TransformationLaws N) {i i' : Instruction N}
    (hi : i.IsReadable) (h : substituteInstruction p table i = .ok (i', table')) : i'.IsReadable := by
  have hword : i'.word = i.word := by
    rw [← i'.word_outline, outline_substituteInstruction h, i.word_outline]
  have hnoBlock : ¬ i'.OpensBlock := by
    unfold Instruction.OpensBlock
    rw [hword]
    exact hi.noBlock
  refine ⟨?_, hnoBlock⟩
  cases i with
  | gate g =>
    have hg : g.IsLegible := hi.legible
    cases h
    exact { hg with parameters := isLegible_substituteAngles laws hg.parameters }
  | frameUpdate update frame value =>
    obtain ⟨hframe, hvalue⟩ : frame.IsLegible ∧ value.IsLegible := hi.legible
    rcases substituteInstruction_frameUpdate h with ⟨-, rfl, -⟩ | ⟨c, -, -, rfl, -⟩
    · exact ⟨hframe, hvalue.simplify laws⟩
    · exact ⟨hframe, isName_substitutionName⟩
  | declaration | pragma | call | measurement | fence | delay | other =>
    cases h
    exact hi.legible

theorem isReadable_substituteBody (laws : TransformationLaws N) {is is' : List (Instruction N)}
    (his : ∀ i ∈ is, i.IsReadable) (h : substituteBody p table is = .ok (is', table')) :
    ∀ i ∈ is', i.IsReadable := by
  induction is generalizing table is' with
  | nil =>
    cases h
    simp
  | cons i is ih =>
    obtain ⟨hi, hothers⟩ := List.forall_mem_cons.1 his
    obtain ⟨first, next, others, hfirst, hrest, rfl⟩ := substituteBody_cons h
    exact List.forall_mem_cons.2 ⟨isReadable_substituteInstruction laws hi hfirst, ih hothers hrest⟩

theorem Program.IsReadable.substituteArithmetic (laws : TransformationLaws N) {q : Substituted N}
    (h : p.IsReadable) (hq : p.substituteArithmetic = .ok q) : q.program.IsReadable := by
  have hwellFormed : p.IsWellFormed := ⟨h.distinct, fun i hi => (h.body i hi).2⟩
  obtain ⟨hdistinct, hbody⟩ := hwellFormed.substituteArithmetic hq
  obtain ⟨hrun, hdefinitions, hframes, hdeclarations⟩ := of_substituteArithmetic_eq_ok hq
  have hreadable := isReadable_substituteBody laws (fun i hi => h.readable_of_mem hi) hrun
  exact
    { definitions := hdefinitions ▸ h.definitions
      frames := hframes ▸ h.frames
      declarations := by
        rw [hdeclarations]
        split
        · exact h.declarations
        · exact List.forall_mem_cons.2 ⟨.unshared isName_substitutionName rfl, h.declarations⟩
      distinct := hdistinct
      body := fun i hi => ⟨(hreadable i hi).legible, hbody i hi⟩
      noBlock := fun i hi => (hreadable i hi).noBlock }

end Substitution

/-! ## Generated names -/

section Names

omit [Scalar N]

theorem isNameTail_append {name more : List Char} (h : isNameTail name = true)
    (hmore : ∀ c ∈ more, isNameChar c = true) : isNameTail (name ++ more) = true := by
  fun_induction isNameTail name with
  | case1 =>
    induction more with
    | nil => rfl
    | cons c more ih =>
      obtain ⟨hc, hrest⟩ := List.forall_mem_cons.1 hmore
      rw [List.nil_append, isNameTail, hc, Bool.true_and]
      · exact ih hrest
      · rintro d more rfl
        exact absurd hc (by decide)
  | case2 c rest ih =>
    obtain ⟨hc, hrest⟩ := Bool.and_eq_true_iff.1 h
    rw [List.cons_append, List.cons_append, isNameTail, hc, ih hrest, Bool.and_self]
  | case3 c rest hne ih =>
    obtain ⟨hc, hrest⟩ := Bool.and_eq_true_iff.1 h
    rw [List.cons_append, isNameTail, hc, ih hrest, Bool.and_self]
    rintro d more rfl
    exact absurd hc (by decide)

/-- The name of a region of a qubit is an identifier, if the stem is. -/
theorem isName_regionName {stem : String} (h : IsName stem) (q : UInt64) :
    IsName (RandomizedQubit.regionName stem q) := by
  have hmore : ∀ c ∈ '_' :: 'q' :: Nat.toDigits 10 q.toNat, isNameChar c = true := by
    refine List.forall_mem_cons.2 ⟨by decide, List.forall_mem_cons.2 ⟨by decide, fun c hc => ?_⟩⟩
    exact isNameChar_of_isDigit (isDigit_of_mem_toDigits c hc)
  have hname : (RandomizedQubit.regionName stem q).toList =
      stem.toList ++ '_' :: 'q' :: Nat.toDigits 10 q.toNat := by
    simp [RandomizedQubit.regionName]
  unfold IsName at h ⊢
  rw [hname]
  cases hstem : stem.toList with
  | nil =>
    rw [hstem] at h
    cases h
  | cons c rest =>
    rw [hstem] at h
    obtain ⟨hc, hrest⟩ := Bool.and_eq_true_iff.1 h
    exact Bool.and_eq_true_iff.2 ⟨hc, isNameTail_append hrest hmore⟩

theorem isName_destination (q : RandomizedQubit) : IsName q.destination.name := isName_regionName (by decide) _

theorem isName_seed (q : RandomizedQubit) : IsName q.seed.name := isName_regionName (by decide) _

theorem isName_sourceName : IsName RandomizedMeasurements.sourceName := by decide

end Names

/-! ## Randomized programs -/

theorem Instruction.isReadable_fence : (Instruction.fence (N := N) []).IsReadable :=
  Instruction.IsLegible.isReadable (by simp [Instruction.IsLegible]) (by simp)

theorem SubRegionDraw.isLegible_externPragma : externPragma.IsLegible where
  name := by decide
  arguments := by
    intro a ha
    rw [List.mem_singleton.1 ha]
    show IsName _
    decide
  data := by
    rintro text ⟨⟩
    exact ⟨by decide, by decide⟩

namespace RandomizedMeasurements

variable {ε : Type}

theorem isLegible_declarations (r : RandomizedMeasurements N ε) : ∀ d ∈ r.declarations, d.IsLegible N := by
  refine List.forall_mem_cons.2 ⟨.unshared isName_sourceName rfl, fun d hd => ?_⟩
  obtain ⟨q, -, hd⟩ := List.mem_flatMap.1 hd
  rcases List.mem_cons.1 hd with rfl | hd
  · exact .unshared (isName_destination q) rfl
  · obtain rfl := List.mem_singleton.1 hd
    exact .unshared (isName_seed q) rfl

/-- The arguments of a draw are generated names and a word. -/
theorem isReadable_drawOfSize (laws : LiteralLaws N) (size : UInt64) (q : RandomizedQubit) :
    (drawOfSize (N := N) size q).IsReadable := by
  have hsize : Scalar.isFinite (Scalar.ofNat size.toNat : N) = true := laws.finite_ofNat _ size.toNat_lt
  have hcall : (SubRegionDraw.call (N := N) ⟨q.destination.name, sourceName, size, q.seed.name⟩).IsLegible :=
    { name := by
        show IsName SubRegionDraw.functionName
        decide
      arguments := by
        simp only [SubRegionDraw.call, List.forall_mem_cons]
        exact ⟨isName_destination q, isName_sourceName, hsize, isName_seed q, by simp⟩ }
  exact Instruction.IsLegible.isReadable hcall (by simp [drawOfSize])

/-- The waiting time is finite and not negative, as the duration of a delay has to be. -/
theorem isReadable_prologue (laws : TransformationLaws N) (r : RandomizedMeasurements N ε) (size : UInt64) :
    ∀ i ∈ r.prologue (r.qubits.map (drawOfSize size)), i.IsReadable := by
  have hdelay : (Delay.mk (r.qubits.map (·.qubit)) [] r.delay.inSeconds : Delay N).IsLegible :=
    { qubits := by simp [RandomizedQubit.qubit, Qubit.IsLegible]
      frames := by simp
      finite := laws.finite_inSeconds r.delay
      nonnegative := laws.nonnegative_inSeconds r.delay }
  refine List.forall_mem_cons.2 ⟨?_, List.forall_mem_cons.2 ⟨?_, fun i hi => ?_⟩⟩
  · exact Instruction.IsLegible.isReadable hdelay (by simp)
  · exact Instruction.IsLegible.isReadable SubRegionDraw.isLegible_externPragma (by simp)
  · obtain ⟨q, -, rfl⟩ := List.mem_map.1 hi
    exact isReadable_drawOfSize laws.toLiteralLaws size q

theorem isReadable_epilogue (r : RandomizedMeasurements N ε)
    (htargets : ∀ m ∈ r.measurements, IsName m.target.name) : ∀ i ∈ r.epilogue (N := N), i.IsReadable := by
  refine List.forall_mem_cons.2 ⟨Instruction.isReadable_fence, fun i hi => ?_⟩
  obtain ⟨m, hm, rfl⟩ := List.mem_map.1 hi
  have hmeasurement : m.toMeasurement.IsLegible :=
    { qubit := trivial
      target := by
        rintro t ⟨⟩
        exact htargets m hm }
  exact Instruction.IsLegible.isReadable (i := .measurement m.toMeasurement) hmeasurement (by simp)

/-- Appending keeps a program readable, if the set gives readable instructions. -/
theorem isReadable_appended (laws : TransformationLaws N) {r : RandomizedMeasurements N ε}
    (htargets : ∀ m ∈ r.measurements, IsName m.target.name) {answers : UnitarySet N ε}
    (hset : ∀ unitaries, answers.instructions r.qubits = .ok unitaries → ∀ i ∈ unitaries, i.IsReadable)
    {p q : Program N} (h : p.IsReadable) (hq : r.appendAnswered answers p = .ok q) : q.IsReadable := by
  obtain ⟨-, unitaries, hunitaries, hadded⟩ := appendAnswered_eq_ok hq
  refine h.header.addAll? (fun i hi => ?_) hadded
  simp only [added, List.mem_append] at hi
  rcases hi with (hi | hi | hi) | hi | hi
  · obtain ⟨d, hd, rfl⟩ := List.mem_map.1 hi
    exact Instruction.IsLegible.isReadable (i := .declaration d) (r.isLegible_declarations d hd) (by simp)
  · exact r.isReadable_prologue laws answers.parameterCount i hi
  · exact h.readable_of_mem hi
  · exact hset unitaries hunitaries i hi
  · exact r.isReadable_epilogue htargets i hi

end RandomizedMeasurements

namespace ZxzxzSet

/-- The turns of the set are readable gates. -/
theorem isReadable_rotation {name : String} (hname : name ∈ ["RX", "RZ"]) {angle : Expr N}
    (hangle : angle.IsLegible) (q : RandomizedQubit) : (rotation name angle q.qubit).IsReadable := by
  have hword : IsName name ∧ GateModifier.ofKeyword? name = none ∧ name ∉ operandKeywords ∧
      FrameUpdate.ofKeyword? name = none ∧ name ∉ verbatimKeywords ∧ ¬ "DEF".toList <+: name.toList := by
    revert name
    decide
  obtain ⟨hidentifier, hmodifier, hoperands, hupdate, hverbatim, hdef⟩ := hword
  have hgate : (Gate.mk [] name [angle] [q.qubit]).IsLegible :=
    { name := hidentifier
      unmodified := hmodifier
      parameters := by simpa using hangle
      qubits := by simp [RandomizedQubit.qubit, Qubit.IsLegible]
      qubits_ne_nil := by simp
      word := fun _ => ⟨hoperands, hupdate, hverbatim⟩ }
  exact ⟨hgate, hdef⟩

theorem isReadable_quarterTurn (laws : LiteralLaws N) (q : RandomizedQubit) :
    (quarterTurn (N := N) q).IsReadable := by
  refine isReadable_rotation (by decide) ?_ q
  exact ⟨trivial, laws.finite_ofNat 2 (by decide)⟩

theorem isReadable_drawnTurn (laws : LiteralLaws N) (index : UInt64) (q : RandomizedQubit) :
    (drawnTurn (N := N) index q).IsReadable := by
  refine isReadable_rotation (by decide) ?_ q
  exact ⟨⟨laws.finite_ofNat 2 (by decide), trivial⟩, isName_destination q⟩

theorem isReadable_instructions (laws : LiteralLaws N) (qubits : List RandomizedQubit) :
    ∀ i ∈ instructions (N := N) qubits, i.IsReadable := by
  intro i hi
  simp only [instructions, List.cons_append, List.mem_cons, List.mem_append, List.mem_flatMap,
    List.not_mem_nil, or_false] at hi
  rcases hi with rfl | ⟨q, -, rfl | rfl | rfl⟩ | rfl | ⟨q, -, rfl | rfl⟩
  · exact Instruction.isReadable_fence
  · exact isReadable_drawnTurn laws 0 q
  · exact isReadable_quarterTurn laws q
  · exact isReadable_drawnTurn laws 1 q
  · exact Instruction.isReadable_fence
  · exact isReadable_quarterTurn laws q
  · exact isReadable_drawnTurn laws 2 q

end ZxzxzSet

/-! ## Both transformations -/

namespace Program

/-- **Transformed programs read back.** Let a program be read from a text in which no statement behind a
semicolon begins with `DEF`. What is left when its arithmetic is moved out reads back from its own text,
and so does the program with randomized measurements over turns, if the targets are identifiers. -/
theorem ofText_text_transformed (laws : TransformationLaws N) {source : String} {p : Program N}
    (hsource : NoDefBehindSemicolon source) (h : ofText source = .ok p) :
    (∀ s, p.substituteArithmetic = .ok s → ∃ q, ofText s.program.text = .ok q ∧ (q == s.program) = true) ∧
      ∀ (r : RandomizedMeasurements N Empty) (set : ZxzxzSet N), r.unitaries = set.toUnitarySet →
        (∀ m ∈ r.measurements, IsName m.target.name) → ∀ s, r.appendTo p = .ok s →
          ∃ q, ofText s.text = .ok q ∧ (q == s) = true := by
  have hreadable := ofText_readable laws.toLiteralLaws hsource h
  refine ⟨fun s hs => ?_, fun r set hset htargets s hs => ?_⟩
  · exact (hreadable.substituteArithmetic laws hs).exists_reading laws.toLiteralLaws
  · rw [RandomizedMeasurements.appendTo, hset] at hs
    refine (r.isReadable_appended laws htargets ?_ hreadable hs).exists_reading laws.toLiteralLaws
    rintro unitaries ⟨⟩
    exact ZxzxzSet.isReadable_instructions laws.toLiteralLaws r.qubits

/-- A text with a definition, and a computed angle behind a semicolon. -/
theorem ofText_text_transformed_semicolon :
    let source := "DEFGATE FLIP:\n    0, 1\n    1, 0\nDECLARE a REAL[2]\nFLIP 0; RX(3*a[1]) 0 # turn"
    let set : ZxzxzSet Whole := ⟨⟨1, 3, [⟨1⟩, ⟨2⟩, ⟨3⟩], rfl⟩, rfl⟩
    let r : RandomizedMeasurements Whole Empty :=
      ⟨[⟨4, ⟨"ro", 1⟩⟩], set.toUnitarySet, ⟨2, 500, by decide⟩, 3, by decide, by decide, by decide, by decide,
        by decide, by decide⟩
    NoDefBehindSemicolon source ∧ ∃ p s t, ofText source = .ok p ∧ p.substituteArithmetic = .ok s ∧
      s.table.length = 1 ∧ (∃ q, ofText s.program.text = .ok q ∧ (q == s.program) = true) ∧
      r.appendTo p = .ok t ∧ ∃ q, ofText t.text = .ok q ∧ (q == t) = true := by
  intro source set r
  have hsource : NoDefBehindSemicolon source := by decide +kernel
  have hevaluated : (match ofText (N := Whole) source with
      | .error _ => (0, false)
      | .ok p => (match p.substituteArithmetic with
        | .error _ => 0
        | .ok s => s.table.length, (r.appendTo p).isOk)) = (1, true) := by decide +kernel
  cases hp : ofText (N := Whole) source with
  | error e => rw [hp] at hevaluated; cases hevaluated
  | ok p =>
    rw [hp] at hevaluated
    obtain ⟨htable, hok⟩ := Prod.mk.inj hevaluated
    cases hs : p.substituteArithmetic with
    | error e => rw [hs] at htable; cases htable
    | ok s =>
      rw [hs] at htable
      cases ht : r.appendTo p with
      | error e => rw [ht] at hok; cases hok
      | ok t =>
        obtain ⟨hsubstituted, happended⟩ := ofText_text_transformed Whole.transformationLaws hsource hp
        refine ⟨hsource, p, s, t, rfl, hs, htable, hsubstituted s hs, ht, ?_⟩
        exact happended r set rfl (by decide) t ht

end Program

end QuilControl
