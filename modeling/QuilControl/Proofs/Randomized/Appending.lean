import Mathlib.Data.List.Nodup
import QuilControl.Proofs.Program.Adding
import QuilControl.Proofs.SortedMap
import QuilControl.Proofs.Scalar.Rational
import QuilControl.Randomized.Append

/-!
# What appending randomized measurements gives

The generated regions have different names (`nodup_generatedNames`), and the draws of a
configuration are valid calls (`drawsOfSize_parameterCount`). So of the
refusals three are left: the program measures a randomized qubit, it declares a generated name, or the
set fails or declares a name twice. They are tried in this order, and otherwise the program has one
layout (`appendTo_eq_outcome`).
-/

namespace QuilControl

/-! ## Generated names -/

namespace RandomizedQubit

theorem regionName_injective {stem : String} {q q' : UInt64} (h : regionName stem q = regionName stem q') :
    q = q' := by
  have hdigits : Nat.toDigits 10 q.toNat = Nat.toDigits 10 q'.toNat := by
    have hlist := congrArg String.toList h
    simpa [regionName] using hlist
  have hvalue := congrArg (Nat.ofDigitChars 10 · 0) hdigits
  simp only [Nat.ofDigitChars_ten_toDigits] at hvalue
  exact UInt64.toNat_inj.1 hvalue

/-- A name begins as its stem does. -/
theorem take_regionName {stem : String} {n : Nat} (h : n ≤ stem.length) (q : UInt64) :
    (regionName stem q).toList.take n = stem.toList.take n := by
  have hlength : n ≤ stem.toList.length := by rwa [String.length_toList]
  simp [regionName, List.take_append_of_le_length, hlength]

/-- A text that begins in another way is no such name. -/
theorem ne_regionName {name stem : String} {n : Nat} (h : n ≤ stem.length)
    (hne : name.toList.take n ≠ stem.toList.take n) (q : UInt64) : name ≠ regionName stem q := by
  rintro rfl
  exact hne (take_regionName h q)

end RandomizedQubit

namespace RandomizedMeasurements

variable {N ε : Type}

open RandomizedQubit

theorem destination_name_ne_seed_name (q q' : RandomizedQubit) : q.destination.name ≠ q'.seed.name := by
  refine ne_regionName (n := 25) (by decide) ?_ _
  rw [destination, take_regionName (by decide)]
  decide

theorem sourceName_ne_destination_name (q : RandomizedQubit) : sourceName ≠ q.destination.name :=
  ne_regionName (n := 25) (by decide) (by decide) _

theorem sourceName_ne_seed_name (q : RandomizedQubit) : sourceName ≠ q.seed.name :=
  ne_regionName (n := 25) (by decide) (by decide) _

def generatedNames (r : RandomizedMeasurements N ε) : List String := r.declarations.map (·.name)

theorem generatedNames_eq (r : RandomizedMeasurements N ε) :
    r.generatedNames = sourceName :: r.qubits.flatMap fun q => [q.destination.name, q.seed.name] := by
  simp [generatedNames, declarations, source, List.map_flatMap]

/-- No generated name is used twice. -/
theorem nodup_generatedNames (r : RandomizedMeasurements N ε) : r.generatedNames.Nodup := by
  rw [generatedNames_eq, List.nodup_cons, List.nodup_flatMap]
  refine ⟨fun hmem => ?_, fun q _ => ?_, ?_⟩
  · obtain ⟨q, -, hq⟩ := List.mem_flatMap.1 hmem
    rcases List.mem_cons.1 hq with hq | hq
    · exact sourceName_ne_destination_name q hq
    · exact sourceName_ne_seed_name q (List.mem_singleton.1 hq)
  · simp [destination_name_ne_seed_name q q]
  · have hqubits : r.qubits.Pairwise fun q q' => q.measurement.qubit ≠ q'.measurement.qubit := by
      have hnodup := r.nodup
      rw [List.Nodup, List.pairwise_map] at hnodup
      exact List.pairwise_map.2 hnodup
    refine hqubits.imp fun {q q'} hne => ?_
    have hdestination : q'.destination.name ≠ q.destination.name := fun h =>
      hne (regionName_injective h).symm
    have hseed : q'.seed.name ≠ q.seed.name := fun h => hne (regionName_injective h).symm
    simp [Function.onFun, hdestination, hseed, destination_name_ne_seed_name,
      (destination_name_ne_seed_name _ _).symm]

/-! ## Measured qubits -/

/-- The qubits that a program is refused for are those that are randomized and that its body
measures. -/
theorem mem_measuredIn_iff {r : RandomizedMeasurements N ε} {p : Program N} {q : UInt64} :
    q ∈ r.measuredIn p ↔
      (∃ m ∈ r.measurements, m.qubit = q) ∧ ∃ m, .measurement m ∈ p.body ∧ m.qubit = .fixed q := by
  have hbody (qubit : Qubit) :
      qubit ∈ p.measuredQubits ↔ ∃ m, .measurement m ∈ p.body ∧ m.qubit = qubit := by
    simp only [Program.measuredQubits, SortedMap.mem_keys_ofList, List.map_map, List.mem_map,
      List.mem_filterMap]
    constructor
    · rintro ⟨qubit', ⟨i, hi, hm⟩, rfl⟩
      cases i <;> cases hm
      exact ⟨_, hi, rfl⟩
    · rintro ⟨m, hm, rfl⟩
      exact ⟨m.qubit, ⟨.measurement m, hm, rfl⟩, rfl⟩
  rw [measuredIn, SortedMap.mem_keys_ofList]
  simp [hbody]

theorem pairwise_measuredIn (r : RandomizedMeasurements N ε) (p : Program N) :
    (r.measuredIn p).Pairwise (· < ·) := by
  refine (SortedMap.pairwise_keys _).imp fun {a b} h => ?_
  exact compareOfLessAndEq_eq_lt.1 h

/-! ## Draws -/

/-- The source has room for all unitaries. -/
theorem source_length_toNat (r : RandomizedMeasurements N ε) :
    r.source.length.toNat = r.unitaries.count.toNat * r.unitaries.parameterCount.toNat := by
  rw [Nat.mul_comm]
  exact product?_eq_some_iff.1 r.sourceLength_eq

variable [Scalar N]

/-- The call that draws the unitary of a qubit. -/
def callOf (r : RandomizedMeasurements N ε) (q : RandomizedQubit) : Instruction N :=
  .call
    { name := "choose_random_real_sub_regions"
      arguments := [.identifier q.destination.name, .identifier sourceName,
        .immediate (Scalar.ofNat r.unitaries.parameterCount.toNat), .identifier q.seed.name] }

omit [Scalar N] in
theorem parameterCount_of_mem_qubits {r : RandomizedMeasurements N ε} {q : RandomizedQubit} (hq : q ∈ r.qubits) :
    q.parameterCount = r.unitaries.parameterCount := by
  obtain ⟨m, -, rfl⟩ := List.mem_map.1 hq
  rfl

/-- A program with randomized measurements, given the instructions of the set. -/
def layout (r : RandomizedMeasurements N ε) (p : Program N) (unitaries : List (Instruction N)) :
    Program N where
  definitions := p.definitions
  frames := p.frames
  declarations := p.declarations ++ [r.source] ++ (r.qubits.flatMap fun q => [q.destination, q.seed]) ++
    declarationsOf unitaries
  body := [.delay ⟨r.measurements.map (.fixed ·.qubit), [], r.delay.inSeconds⟩,
      .pragma SubRegionDraw.externPragma] ++
    r.qubits.map r.callOf ++ p.body ++ statementsOf unitaries ++ [.fence []] ++
    r.measurements.map fun m => .measurement ⟨.fixed m.qubit, some m.target⟩

/-- What appending randomized measurements has to give. -/
def outcome (r : RandomizedMeasurements N ε) (p : Program N) : Except (AppendError ε) (Program N) :=
  if r.measuredIn p ≠ [] then .error (.alreadyMeasured (r.measuredIn p))
  else
    match r.generatedNames.find? (· ∈ p.names) with
    | some name => .error (.quil (.duplicateDeclaration name))
    | none =>
      match r.unitaries.instructions r.qubits with
      | .error e => .error (.unitarySet e)
      | .ok unitaries =>
        match firstTaken? (p.names ++ r.generatedNames) ((declarationsOf unitaries).map (·.name)) with
        | some name => .error (.quil (.duplicateDeclaration name))
        | none => .ok (r.layout p unitaries)

omit [Scalar N] in
theorem addOr_eq (p : Program N) (is : List (Instruction N)) :
    (addOr p is : Except (AppendError ε) (Program N)) =
      match firstTaken? p.names ((declarationsOf is).map (·.name)) with
      | some name => .error (.quil (.duplicateDeclaration name))
      | none => .ok
        { p with
          declarations := p.declarations ++ declarationsOf is
          body := p.body ++ statementsOf is } := by
  rw [addOr, Program.addAll?_eq]
  cases firstTaken? p.names ((declarationsOf is).map (·.name)) <;> rfl

omit [Scalar N] in
/-- The generated regions are declared unless the program has one of their names. -/
theorem addOr_declarations (r : RandomizedMeasurements N ε) (p : Program N) :
    (addOr p.header (r.declarations.map .declaration) : Except (AppendError ε) (Program N)) =
      match r.generatedNames.find? (· ∈ p.names) with
      | some name => .error (.quil (.duplicateDeclaration name))
      | none => .ok { p.header with declarations := p.declarations ++ r.declarations } := by
  have hnames : p.header.names = p.names := rfl
  rw [addOr_eq, declarationsOf_map_declaration, statementsOf_map_declaration, hnames, ← generatedNames,
    firstTaken?_eq_find? r.nodup_generatedNames]
  rfl

end RandomizedMeasurements

end QuilControl
