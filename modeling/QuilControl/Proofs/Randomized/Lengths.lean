import QuilControl.Proofs.Randomized.Contents

/-!
# The lengths of generated regions

At most 255 unitaries are randomized, but nothing bounds the number of parameters of one. Their product is
computed twice: for the length of the source region, and for the number of parameters that the set has to
give. Both products are checked, so every length that there is, is exact. But no error says that a set has too
many parameters: the computation stops without one, and that happens to measurements with which nothing else
is wrong (`lengths_exact_or_overflow`).
-/

namespace QuilControl

namespace RandomizedMeasurements

variable {N ε : Type} {measurements : List RandomizedMeasurement} {unitaries : UnitarySet N ε} {delay : Duration}

/-! ## Configurations -/

/-- No error is reported for measurements that are to be randomized. -/
structure Admissible (measurements : List RandomizedMeasurement) (unitaries : UnitarySet N ε) : Prop where
  measurements_ne_nil : measurements ≠ []
  count_ne_zero : unitaries.count ≠ 0
  count_le : unitaries.count ≤ 255
  parameterCount_ne_zero : unitaries.parameterCount ≠ 0
  nodup : (measurements.map (·.qubit)).Nodup

theorem firstRepeated_eq_none_iff {seen qubits : List UInt64} :
    firstRepeated seen qubits = none ↔ qubits.Nodup ∧ ∀ q ∈ qubits, q ∉ seen := by
  refine ⟨nodup_of_firstRepeated, ?_⟩
  rintro ⟨hn, hs⟩
  induction qubits generalizing seen with
  | nil => rfl
  | cons q rest ih =>
    obtain ⟨hq, hn⟩ := List.nodup_cons.1 hn
    rw [firstRepeated, if_neg (hs q List.mem_cons_self)]
    refine ih hn fun q' hq' hmem => ?_
    rcases List.mem_cons.1 hmem with rfl | hmem
    · exact hq hq'
    · exact hs q' (List.mem_cons_of_mem _ hq') hmem

/-- Measurements are refused with an error, or the number of parameters stops it all, or they are randomized. -/
theorem ofMeasurements_cases (measurements : List RandomizedMeasurement) (unitaries : UnitarySet N ε)
    (delay : Duration) :
    (¬ Admissible measurements unitaries ∧ ∃ e, ofMeasurements measurements unitaries delay = .error (.reported e)) ∨
      Admissible measurements unitaries ∧
        (product? unitaries.parameterCount unitaries.count = none ∧
            ofMeasurements measurements unitaries delay = .error .overflow ∨
          ∃ r, ofMeasurements measurements unitaries delay = .ok r ∧ r.unitaries = unitaries) := by
  unfold ofMeasurements
  split
  · next hm => exact Or.inl ⟨fun h => h.measurements_ne_nil hm, _, rfl⟩
  next hm =>
  split
  · next hc => exact Or.inl ⟨fun h => hc.elim h.count_ne_zero fun hle => hle h.count_le, _, rfl⟩
  next hc =>
  split
  · next hp => exact Or.inl ⟨fun h => h.parameterCount_ne_zero hp, _, rfl⟩
  next hp =>
  split
  · next q hd =>
    refine Or.inl ⟨fun h => ?_, _, rfl⟩
    rw [firstRepeated_eq_none_iff.2 ⟨h.nodup, by simp⟩] at hd
    cases hd
  next hd =>
  have hadmissible : Admissible measurements unitaries :=
    ⟨hm, fun h => hc (.inl h), Decidable.of_not_not fun h => hc (.inr h), hp, (firstRepeated_eq_none_iff.1 hd).1⟩
  refine Or.inr ⟨hadmissible, ?_⟩
  split
  · next hl => exact Or.inl ⟨hl, rfl⟩
  · exact Or.inr ⟨_, rfl, rfl⟩

theorem unitaries_of_ofMeasurements {r : RandomizedMeasurements N ε}
    (h : ofMeasurements measurements unitaries delay = .ok r) : r.unitaries = unitaries := by
  rcases ofMeasurements_cases measurements unitaries delay with ⟨-, e, he⟩ | ⟨-, ⟨-, he⟩ | ⟨r', hr, hset⟩⟩
  · cases he.symm.trans h
  · cases he.symm.trans h
  · cases hr.symm.trans h
    exact hset

/-- The number of parameters stops it all just when no error is reported and no word is this number. -/
theorem ofMeasurements_eq_overflow_iff :
    ofMeasurements measurements unitaries delay = .error .overflow ↔
      Admissible measurements unitaries ∧ UInt64.size ≤ unitaries.count.toNat * unitaries.parameterCount.toNat := by
  rw [Nat.mul_comm, ← product?_eq_none_iff]
  rcases ofMeasurements_cases measurements unitaries delay with ⟨hno, e, he⟩ | ⟨ha, ⟨hl, he⟩ | ⟨r, hr, rfl⟩⟩
  · simp [he, hno]
  · simp [he, ha, hl]
  · simp [hr, r.sourceLength_eq]

theorem exists_ofMeasurements_iff :
    (∃ r, ofMeasurements measurements unitaries delay = .ok r) ↔
      Admissible measurements unitaries ∧ unitaries.count.toNat * unitaries.parameterCount.toNat < UInt64.size := by
  rw [Nat.mul_comm, ← Nat.not_le, ← product?_eq_none_iff]
  rcases ofMeasurements_cases measurements unitaries delay with ⟨hno, e, he⟩ | ⟨ha, ⟨hl, he⟩ | ⟨r, hr, rfl⟩⟩
  · simp [he, hno]
  · simp [he, hl]
  · simp [hr, ha, r.sourceLength_eq]

variable {r : RandomizedMeasurements N ε}

theorem destination_length (r : RandomizedMeasurements N ε) {q : RandomizedQubit} (hq : q ∈ r.qubits) :
    q.destination.length = r.unitaries.parameterCount :=
  parameterCount_of_mem_qubits hq

/-! ## Memory contents -/

section Parameters

variable [Scalar N] {answers : UnitarySet N ε} {seeds : SortedMap UInt64 Seed}

/-- The number of parameters that a refusal asks for. -/
theorem expected_of_parametersAnswered {expected found : Nat}
    (h : r.parametersAnswered answers seeds = .error (.reported (.sourceLength expected found))) :
    expected = r.unitaries.count.toNat * answers.parameterCount.toNat := by
  have hcontents (qubits : List RandomizedQubit) :
      qubitContents (N := N) seeds qubits ≠ .error (.sourceLength (ε := ε) expected found) := by
    rw [qubitContents_eq]
    cases (qubits.map (·.measurement.qubit)).find? fun q => (seeds.get? q).isNone <;> simp
  unfold parametersAnswered at h
  split at h
  · cases h
  split at h
  · cases h
  next hexpected =>
  split at h
  · cases h
    rw [Nat.mul_comm]
    exact product?_eq_some_iff.1 hexpected
  split at h
  · next hfault =>
    cases h
    exact absurd hfault (hcontents _)
  · cases h

/-- The number of parameters stops it all just when the set gives some and no word is this number. -/
theorem parametersAnswered_eq_overflow_iff :
    r.parametersAnswered answers seeds = .error .overflow ↔
      (∃ source, answers.parameters = .ok source) ∧
        UInt64.size ≤ r.unitaries.count.toNat * answers.parameterCount.toNat := by
  rw [Nat.mul_comm, ← product?_eq_none_iff, ← expectedCount?]
  unfold parametersAnswered
  cases answers.parameters with
  | error e => simp
  | ok source =>
    dsimp only
    cases r.expectedCount? answers with
    | none => simp
    | some expected =>
      dsimp only
      split
      · simp
      · split <;> simp

end Parameters

/-- **Lengths are exact, or there are none.** For any measurements and any set: if they are randomized, every
destination has room for the parameters of one unitary and the source for those of all unitaries. If no word
is the number of the latter, they are not, and no error says so. A run forms this number again, from what the
set says by then, and asks for as many values. So a set that says something else by then may stop the run in
the same way; one that keeps to its answers never does. -/
theorem lengths_exact_or_overflow [Scalar N] (measurements : List RandomizedMeasurement) (unitaries : UnitarySet N ε)
    (delay : Duration) :
    ((∃ r, ofMeasurements measurements unitaries delay = .ok r) ↔
      Admissible measurements unitaries ∧
        unitaries.count.toNat * unitaries.parameterCount.toNat < UInt64.size) ∧
    (ofMeasurements measurements unitaries delay = .error .overflow ↔
      Admissible measurements unitaries ∧
        UInt64.size ≤ unitaries.count.toNat * unitaries.parameterCount.toNat) ∧
    ∀ r, ofMeasurements measurements unitaries delay = .ok r →
      (∀ q ∈ r.qubits, q.destination.length = unitaries.parameterCount) ∧
      r.source.length.toNat = unitaries.count.toNat * unitaries.parameterCount.toNat ∧
      ∀ seeds, r.parameters seeds ≠ .error .overflow ∧
        ∀ answers,
          (r.parametersAnswered answers seeds = .error .overflow ↔
            (∃ source, answers.parameters = .ok source) ∧
              UInt64.size ≤ unitaries.count.toNat * answers.parameterCount.toNat) ∧
          ∀ expected found,
            r.parametersAnswered answers seeds = .error (.reported (.sourceLength expected found)) →
              expected = unitaries.count.toNat * answers.parameterCount.toNat := by
  refine ⟨exists_ofMeasurements_iff, ofMeasurements_eq_overflow_iff, fun r h => ?_⟩
  obtain rfl := unitaries_of_ofMeasurements h
  have hlength := r.source_length_toNat
  refine ⟨fun q => r.destination_length, hlength, fun seeds => ⟨fun hstop => ?_, fun answers => ?_⟩⟩
  · obtain ⟨-, hsize⟩ := parametersAnswered_eq_overflow_iff.1 hstop
    have hword : r.source.length.toNat < UInt64.size := r.source.length.toNat_lt
    omega
  · exact ⟨parametersAnswered_eq_overflow_iff, fun _ _ => expected_of_parametersAnswered⟩

/-- The greatest word is the length of the source of 255 unitaries. One parameter more for each is too many,
when the set finds out about it by then. -/
theorem lengths_exact_or_overflow_greatest :
    let set : UnitarySet (Exact rational) Empty :=
      { count := 255
        parameterCount := 72340172838076673
        parameters := .ok []
        instructions := fun _ => .ok [] }
    ∃ r, ofMeasurements [⟨1, ⟨"ro", 1⟩⟩, ⟨0, ⟨"ro", 0⟩⟩] set ⟨0, 500, by decide⟩ = .ok r ∧
      r.source.length.toNat = 255 * 72340172838076673 ∧
      (∀ q ∈ r.qubits, q.destination.length = 72340172838076673) ∧
      r.parametersAnswered { set with parameterCount := 72340172838076674 } .empty = .error .overflow := by
  intro set
  obtain ⟨hrandomized, -, hlengths⟩ :=
    lengths_exact_or_overflow [⟨1, ⟨"ro", 1⟩⟩, ⟨0, ⟨"ro", 0⟩⟩] set ⟨0, 500, by decide⟩
  obtain ⟨r, hr⟩ := hrandomized.2 ⟨⟨by decide, by decide, by decide, by decide, by decide⟩, by decide⟩
  obtain ⟨hdestinations, hsource, hparameters⟩ := hlengths r hr
  exact ⟨r, hr, hsource, hdestinations, ((hparameters .empty).2 _).1.2 ⟨⟨[], rfl⟩, by decide⟩⟩

/-- Two unitaries with 2 ^ 63 parameters each, with which nothing else is wrong. -/
theorem ofMeasurements_eq_overflow :
    let set : UnitarySet (Exact rational) Empty :=
      { count := 2
        parameterCount := 9223372036854775808
        parameters := .ok []
        instructions := fun _ => .ok [] }
    Admissible [⟨0, ⟨"ro", 0⟩⟩] set ∧ ofMeasurements [⟨0, ⟨"ro", 0⟩⟩] set ⟨0, 500, by decide⟩ = .error .overflow := by
  intro set
  have hadmissible : Admissible [⟨0, ⟨"ro", 0⟩⟩] set :=
    ⟨by decide, by decide, by decide, by decide, by decide⟩
  exact ⟨hadmissible, ofMeasurements_eq_overflow_iff.2 ⟨hadmissible, by decide⟩⟩

end RandomizedMeasurements

end QuilControl
