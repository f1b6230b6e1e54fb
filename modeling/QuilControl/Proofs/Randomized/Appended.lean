import QuilControl.Proofs.Randomized.Appending

/-!
# Programs with randomized measurements appended

Appending randomized measurements adds instructions to the header of a program: the generated
declarations, the prologue with the draws, the body, the instructions of the set and the epilogue
(`appendAnswered_eq_ok`). Whatever the set answers, the source is declared afterwards, and the body
measures the randomized qubits. So no program is randomized twice (`appended_once`): a second
configuration declares the source again, and it is refused even before that if it randomizes one of the
qubits that are measured now.
-/

namespace QuilControl

namespace Program

variable {N : Type} {p q : Program N} {is : List (Instruction N)}

theorem mem_declarations_of_addAll? (h : p.addAll? is = .ok q) {d : Declaration}
    (hd : .declaration d ∈ is) : d ∈ q.declarations := by
  obtain ⟨-, -, rfl⟩ := addAll?_eq_ok h
  exact List.mem_append_right _ (List.mem_filterMap.2 ⟨_, hd, rfl⟩)

theorem mem_body_of_addAll? (h : p.addAll? is = .ok q) {i : Instruction N} (hi : i ∈ is)
    (hs : i.isDeclaration = false) : i ∈ q.body := by
  obtain ⟨-, -, rfl⟩ := addAll?_eq_ok h
  exact List.mem_append_right _ (List.mem_filter.2 ⟨hi, by rw [hs]; rfl⟩)

end Program

namespace RandomizedMeasurements

variable {N ε ε' : Type}

open RandomizedQubit

theorem addOr_eq_ok {p q : Program N} {is : List (Instruction N)} :
    (addOr p is : Except (AppendError ε) (Program N)) = .ok q ↔ p.addAll? is = .ok q := by
  unfold addOr
  cases p.addAll? is <;> simp

variable [Scalar N]

/-- The call that draws a unitary of `size` parameters for a qubit. -/
def drawOfSize (size : UInt64) (q : RandomizedQubit) : Instruction N :=
  .call (SubRegionDraw.call ⟨q.destination.name, sourceName, size, q.seed.name⟩)

/-- Draws that are valid calls are those of the qubits. -/
theorem drawsOfSize_eq_ok {r : RandomizedMeasurements N ε} {size : UInt64} {qubits : List RandomizedQubit}
    {draws : List (Instruction N)} (h : r.drawsOfSize size qubits = .ok draws) :
    draws = qubits.map (drawOfSize size) := by
  induction qubits generalizing draws with
  | nil => cases h; rfl
  | cons q rest ih =>
    rw [drawsOfSize] at h
    split at h
    · cases h
    · next draw hdraw =>
      have hdraw : draw = ⟨q.destination.name, sourceName, size, q.seed.name⟩ := by
        simp only [SubRegionDraw.ofRegions] at hdraw
        split_ifs at hdraw
        cases hdraw
        rfl
      split at h
      · cases h
      · next others hothers =>
        cases h
        rw [ih hothers, hdraw]
        rfl

/-- What appending adds to the header of a program, given its body and the instructions of the set. -/
def added (r : RandomizedMeasurements N ε) (size : UInt64) (body unitaries : List (Instruction N)) :
    List (Instruction N) :=
  r.declarations.map .declaration ++ (r.prologue (r.qubits.map (drawOfSize size)) ++ body) ++
    (unitaries ++ r.epilogue)

/-- **Appending adds to the header.** When it succeeds, no randomized qubit has been measured before. -/
theorem appendAnswered_eq_ok {r : RandomizedMeasurements N ε} {answers : UnitarySet N ε} {p q : Program N}
    (h : r.appendAnswered answers p = .ok q) :
    r.measuredIn p = [] ∧ ∃ unitaries, answers.instructions r.qubits = .ok unitaries ∧
      p.header.addAll? (r.added answers.parameterCount p.body unitaries) = .ok q := by
  unfold appendAnswered at h
  split at h
  · cases h
  next hmeasured =>
  split at h
  · cases h
  next declared hdeclared =>
  split at h
  · cases h
  next draws hdraws =>
  split at h
  · cases h
  next prepared hprepared =>
  split at h
  · cases h
  next unitaries hunitaries =>
  obtain rfl := drawsOfSize_eq_ok hdraws
  refine ⟨Decidable.of_not_not hmeasured, unitaries, hunitaries, ?_⟩
  rw [added, Program.addAll?_append, Program.addAll?_append, addOr_eq_ok.1 hdeclared]
  dsimp only
  rw [addOr_eq_ok.1 hprepared]
  exact addOr_eq_ok.1 h

/-! ## Once only -/

section Appended

variable {a : RandomizedMeasurements N ε} {answers : UnitarySet N ε} {p q : Program N}

/-- The generated regions are declared behind those of the program. -/
theorem mem_declarations_appended (h : a.appendAnswered answers p = .ok q) {d : Declaration}
    (hd : d ∈ a.declarations) : d ∈ q.declarations := by
  obtain ⟨-, unitaries, -, hadded⟩ := appendAnswered_eq_ok h
  refine Program.mem_declarations_of_addAll? hadded ?_
  exact List.mem_append_left _ (List.mem_append_left _ (List.mem_map_of_mem hd))

/-- The randomized qubits are measured. -/
theorem measures_appended (h : a.appendAnswered answers p = .ok q) {m : RandomizedMeasurement}
    (hm : m ∈ a.measurements) : .measurement m.toMeasurement ∈ q.body := by
  obtain ⟨-, unitaries, -, hadded⟩ := appendAnswered_eq_ok h
  refine Program.mem_body_of_addAll? hadded ?_ rfl
  have hepilogue : .measurement m.toMeasurement ∈ a.epilogue (N := N) :=
    List.mem_cons_of_mem _ (List.mem_map_of_mem hm)
  exact List.mem_append_right _ (List.mem_append_right _ hepilogue)

/-- A program that declares the source is refused. -/
theorem appendAnswered_of_source (b : RandomizedMeasurements N ε') (answers' : UnitarySet N ε')
    (h : sourceName ∈ q.names) :
    b.appendAnswered answers' q =
      .error (if b.measuredIn q ≠ [] then .alreadyMeasured (b.measuredIn q)
        else .quil (.duplicateDeclaration sourceName)) := by
  unfold appendAnswered
  by_cases hm : b.measuredIn q = []
  · have hfind : b.generatedNames.find? (· ∈ q.names) = some sourceName := by
      rw [b.generatedNames_eq, List.find?_cons_of_pos (by simpa using h)]
    rw [if_neg (not_not.2 hm), if_neg (not_not.2 hm), addOr_declarations, hfind]
  · rw [if_pos hm, if_pos hm]

/-- **No program is randomized twice.** Whatever sets two configurations have, and whatever these answer:
a program that the first has been appended to is refused by the second. If the first randomizes all its
qubits, it is refused for just these qubits, which are measured now. -/
theorem appended_once (b : RandomizedMeasurements N ε') (answers' : UnitarySet N ε')
    (h : a.appendAnswered answers p = .ok q) :
    (∃ e, b.appendAnswered answers' q = .error e) ∧
      ((∀ m ∈ b.measurements, ∃ m' ∈ a.measurements, m'.qubit = m.qubit) →
        ∃ qubits, b.appendAnswered answers' q = .error (.alreadyMeasured qubits) ∧
          qubits.Pairwise (· < ·) ∧ ∀ qubit, qubit ∈ qubits ↔ ∃ m ∈ b.measurements, m.qubit = qubit) := by
  have hsource : sourceName ∈ q.names :=
    List.mem_map_of_mem (mem_declarations_appended h (d := a.source) List.mem_cons_self)
  rw [appendAnswered_of_source b answers' hsource]
  refine ⟨⟨_, rfl⟩, fun hcovers => ⟨b.measuredIn q, ?_, b.pairwise_measuredIn q, fun qubit => ?_⟩⟩
  · obtain ⟨m, hm⟩ := List.exists_mem_of_ne_nil _ b.measurements_ne_nil
    obtain ⟨m', hm', heq⟩ := hcovers m hm
    have hmem : m.qubit ∈ b.measuredIn q :=
      mem_measuredIn_iff.2 ⟨⟨m, hm, rfl⟩, _, measures_appended h hm', congrArg Qubit.fixed heq⟩
    rw [if_pos (List.ne_nil_of_mem hmem)]
  · rw [mem_measuredIn_iff]
    refine and_iff_left_of_imp ?_
    rintro ⟨m, hm, rfl⟩
    obtain ⟨m', hm', heq⟩ := hcovers m hm
    exact ⟨_, measures_appended h hm', congrArg Qubit.fixed heq⟩

end Appended

/-- Two qubits, one of which a second configuration with another set and another delay randomizes too. -/
theorem appended_once_overlapping :
    let turns : UnitarySet (Exact rational) Empty :=
      { count := 2
        parameterCount := 1
        parameters := .ok []
        instructions := fun qubits => .ok (.declaration ⟨"angle", .real, 1, none⟩ ::
          qubits.map fun q => .gate ⟨[], "RX", [.address ⟨q.destination.name, 0⟩], [q.qubit]⟩) }
    let failing : UnitarySet (Exact rational) String :=
      { count := 255
        parameterCount := 4
        parameters := .error "none"
        instructions := fun _ => .error "none" }
    let a : RandomizedMeasurements (Exact rational) Empty :=
      ⟨[⟨1, ⟨"ro", 1⟩⟩, ⟨0, ⟨"ro", 0⟩⟩], turns, ⟨0, 500, by decide⟩, 2, by decide, by decide, by decide, by decide,
        by decide, by decide⟩
    let b : RandomizedMeasurements (Exact rational) String :=
      ⟨[⟨1, ⟨"ro", 0⟩⟩], failing, ⟨1, 0, by decide⟩, 1020, by decide, by decide, by decide, by decide, by decide,
        by decide⟩
    let p : Program (Exact rational) :=
      ⟨[], [], [⟨"ro", .bit, 2, none⟩], [.gate ⟨[], "H", [], [.fixed 0]⟩, .measurement ⟨.fixed 7, none⟩]⟩
    ∃ q, a.appendAnswered turns p = .ok q ∧ (∃ e, b.appendAnswered failing q = .error e) ∧
      ∃ qubits, b.appendAnswered failing q = .error (.alreadyMeasured qubits) ∧
        ∀ qubit, qubit ∈ qubits ↔ qubit = 1 := by
  intro turns failing a b p
  have hok : (a.appendAnswered turns p).isOk = true := by decide +kernel
  cases hq : a.appendAnswered turns p with
  | error e => rw [hq] at hok; cases hok
  | ok q =>
    obtain ⟨hrefused, hmeasured⟩ := appended_once b failing hq
    obtain ⟨qubits, herror, -, hmem⟩ := hmeasured (by decide)
    refine ⟨q, rfl, hrefused, qubits, herror, fun qubit => ?_⟩
    rw [hmem]
    simp [b, eq_comm]

end RandomizedMeasurements

end QuilControl
