import QuilControl.Proofs.Recalculation.Patching
import QuilControl.Proofs.Traverse

/-!
# Which entry of a table is reported

An entry fails by itself when its text is no expression, or when the expression has no value against
the memory. All entries are read before the first is evaluated, so a text that is no expression is
reported even when an entry before it has no value (`patch_eq_error_iff`). The entry that is reported
is the first that fails by itself exactly when every entry can be read, or when the first that fails
is one that cannot (`patch_reports_first_iff`).
-/

namespace QuilControl

variable {N : Type} [Scalar N]

namespace RecalculationTable

/-! ## Entries by themselves -/

def IsReadable (N : Type) [Scalar N] (entry : String) : Prop := ∃ e : Expr N, Expr.ofText entry = .ok e

/-- The error of an entry whose text is no expression. -/
def Unreadable (N : Type) [Scalar N] (entry : String) (e : PatchError) : Prop :=
  ∃ error, (Expr.ofText entry : Except QuilError (Expr N)) = .error error ∧ e = ⟨entry, .parse error⟩

/-- The error of an entry whose expression has no value. -/
def Valueless (memory : Memory N) (entry : String) (e : PatchError) : Prop :=
  ∃ expression error, Expr.ofText entry = .ok expression ∧ expression.eval memory = .error error ∧
    e = ⟨entry, .eval error⟩

/-- The error that an entry gives as the only one of a table. It names the entry. -/
def EntryError (memory : Memory N) (entry : String) (e : PatchError) : Prop :=
  RecalculationTable.patch [entry] memory = .error e ∧ e.entry = entry

variable {memory : Memory N} {entry : String} {table : RecalculationTable} {e : PatchError}

theorem isReadable_iff_forall_not : IsReadable N entry ↔ ∀ e, ¬ Unreadable N entry e := by
  unfold IsReadable Unreadable
  cases (Expr.ofText entry : Except QuilError (Expr N)) <;> simp

/-- By itself an entry fails where it is read or where it is evaluated. -/
theorem entryError_iff : EntryError memory entry e ↔ Unreadable N entry e ∨ Valueless memory entry e := by
  unfold EntryError Unreadable Valueless patch patchRead
  cases hx : (Expr.ofText entry : Except QuilError (Expr N)) with
  | error error =>
    simp only [read, hx]
    constructor
    · rintro ⟨h, -⟩
      cases h
      simp
    · rintro (⟨_, h, rfl⟩ | ⟨_, _, h, -⟩)
      · cases h
        simp
      · cases h
  | ok x =>
    cases hv : x.eval memory with
    | error error =>
      simp only [read, hx, values, hv]
      constructor
      · rintro ⟨h, -⟩
        cases h
        simp [hv]
      · rintro (⟨_, h, -⟩ | ⟨_, _, h, hv', rfl⟩)
        · cases h
        · cases h
          cases hv.symm.trans hv'
          simp
    | ok v => simp [read, hx, values, hv]

theorem exists_entryValue?_iff_forall_not :
    (∃ v, entryValue? memory entry = some v) ↔ ∀ e, ¬ EntryError memory entry e := by
  simp only [entryError_iff, Unreadable, Valueless, entryValue?]
  cases (Expr.ofText entry : Except QuilError (Expr N)) with
  | error error => simp
  | ok x => cases hv : x.eval memory <;> simp [hv, Except.toOption]

/-! ## Tables -/

/-- Reading fails with the first entry that cannot be read. -/
theorem read_eq_error_iff : table.read (N := N) = .error e ↔ FirstFault (Unreadable N) table e := by
  induction table with
  | nil => simp [read]
  | cons entry rest ih =>
    rw [read, firstFault_cons, ← ih, ← isReadable_iff_forall_not]
    cases hx : (Expr.ofText entry : Except QuilError (Expr N)) with
    | error error => simp [Unreadable, IsReadable, hx, eq_comm]
    | ok x => cases read (N := N) rest <;> simp [Unreadable, IsReadable, hx]

theorem exists_read_eq_ok_iff :
    (∃ entries, table.read (N := N) = .ok entries) ↔ ∀ entry ∈ table, IsReadable N entry := by
  induction table with
  | nil => simp [read]
  | cons entry rest ih =>
    rw [List.forall_mem_cons, ← ih, read, IsReadable]
    cases (Expr.ofText entry : Except QuilError (Expr N)) with
    | error error => simp
    | ok x => cases read (N := N) rest <;> simp

/-- Evaluation fails with the first entry without a value. -/
theorem values_eq_error_iff {entries : List (String × Expr N)} (h : table.read = .ok entries) :
    values memory entries = .error e ↔ FirstFault (Valueless memory) table e := by
  induction table generalizing entries with
  | nil =>
    cases h
    simp [values]
  | cons entry rest ih =>
    rw [read] at h
    cases hx : (Expr.ofText entry : Except QuilError (Expr N)) with
    | error error => rw [hx] at h; cases h
    | ok x =>
      cases hrest : read (N := N) rest with
      | error error => rw [hx, hrest] at h; cases h
      | ok others =>
        rw [hx, hrest] at h
        cases h
        rw [values, firstFault_cons, ← ih hrest]
        cases hv : x.eval memory with
        | error error => simp [Valueless, hx, hv, eq_comm]
        | ok v => cases values memory others <;> simp [Valueless, hx, hv]

/-- What is reported: the first entry that cannot be read, or else the first without a value. -/
theorem patch_eq_error_iff :
    table.patch memory = .error e ↔
      FirstFault (Unreadable N) table e ∨
        (∀ entry ∈ table, IsReadable N entry) ∧ FirstFault (Valueless memory) table e := by
  rw [← read_eq_error_iff, ← exists_read_eq_ok_iff]
  unfold patch patchRead
  cases hr : read (N := N) table with
  | error error => simp
  | ok entries =>
    rw [← values_eq_error_iff hr]
    dsimp only
    cases values memory entries <;> simp

/-- In a table of expressions an entry fails where it is evaluated. -/
theorem firstFault_valueless_iff (h : ∀ entry ∈ table, IsReadable N entry) :
    FirstFault (EntryError memory) table e ↔ FirstFault (Valueless memory) table e := by
  refine firstFault_congr (fun entry hentry e' => ?_) e
  simp [entryError_iff, isReadable_iff_forall_not.1 (h entry hentry) e']

/-- **Which entry is reported.** An error of a table is that of its first entry that cannot be read or,
if all can, of its first entry without a value. It is the error that the first failing entry gives by
itself exactly when all entries can be read, or all before one that cannot have a value. -/
theorem patch_reports_first_iff (h : table.patch memory = .error e) :
    (FirstFault (Unreadable N) table e ∨
      (∀ entry ∈ table, IsReadable N entry) ∧ FirstFault (Valueless memory) table e) ∧
    (FirstFault (EntryError memory) table e ↔
      (∀ entry ∈ table, IsReadable N entry) ∨
        ∃ before entry after, table = before ++ entry :: after ∧ ¬ IsReadable N entry ∧
          ∀ b ∈ before, ∃ v, entryValue? memory b = some v) := by
  have hreported := patch_eq_error_iff.1 h
  refine ⟨hreported, ?_, ?_⟩
  · rintro ⟨before, entry, after, rfl, hentry, hbefore⟩
    rcases entryError_iff.1 hentry with hunreadable | hvalueless
    · refine Or.inr ⟨before, entry, after, rfl, fun hreadable => ?_, fun b hb => ?_⟩
      · exact isReadable_iff_forall_not.1 hreadable e hunreadable
      · exact exists_entryValue?_iff_forall_not.2 (hbefore b hb)
    · -- An error of evaluation is reported only behind the reading of the whole table.
      rcases hreported with ⟨_, _, _, -, ⟨_, -, hparse⟩, -⟩ | ⟨hall, -⟩
      · obtain ⟨_, _, -, -, heval⟩ := hvalueless
        cases hparse.symm.trans heval
      · exact Or.inl hall
  · rintro (hall | ⟨before, entry, after, rfl, hentry, hbefore⟩)
    · rcases hreported with hunreadable | ⟨-, hvalueless⟩
      · obtain ⟨entry, hentry, he⟩ := exists_firstFault_iff.1 ⟨e, hunreadable⟩
        obtain ⟨e', he'⟩ := he
        exact absurd he' (isReadable_iff_forall_not.1 (hall entry hentry) e')
      · exact (firstFault_valueless_iff hall).2 hvalueless
    · obtain ⟨e', he'⟩ : ∃ e', Unreadable N entry e' := by
        by_contra hnone
        exact hentry (isReadable_iff_forall_not.2 (not_exists.1 hnone))
      have hnone : ∀ b ∈ before, ∀ e'', ¬ EntryError memory b e'' := fun b hb =>
        exists_entryValue?_iff_forall_not.1 (hbefore b hb)
      have hfirst : FirstFault (Unreadable N) (before ++ entry :: after) e' :=
        ⟨before, entry, after, rfl, he', fun b hb e'' hu => hnone b hb e'' (entryError_iff.2 (Or.inl hu))⟩
      cases h.symm.trans (patch_eq_error_iff.2 (Or.inl hfirst))
      exact ⟨before, entry, after, rfl, entryError_iff.2 (Or.inl he'), hnone⟩

open Exact in
/-- A text that is no expression, between entries with and without a value. -/
theorem patch_reports_first_iff_unreadable :
    let table : RecalculationTable := ["2*a[0]", "a[0]+", "1/0"]
    let memory : Memory (Exact rational) := SortedMap.empty.insert "a" [of 3]
    ∃ e, table.patch memory = .error e ∧ e.entry = "a[0]+" ∧ FirstFault (EntryError memory) table e := by
  intro table memory
  have hnamed : (match table.patch memory with
      | .error e => some e.entry
      | .ok _ => none) = some "a[0]+" := by decide +kernel
  have hvalue : ∃ v, entryValue? memory "2*a[0]" = some v :=
    Option.isSome_iff_exists.1 (by decide +kernel)
  have hunreadable : (Expr.ofText "a[0]+" : Except QuilError (Expr (Exact rational))).isOk = false := by
    decide +kernel
  cases h : table.patch memory with
  | ok patched => rw [h] at hnamed; cases hnamed
  | error e =>
    rw [h] at hnamed
    refine ⟨e, rfl, Option.some.inj hnamed, (patch_reports_first_iff h).2.2 (Or.inr ?_)⟩
    refine ⟨["2*a[0]"], "a[0]+", ["1/0"], rfl, ?_, by simpa using hvalue⟩
    rintro ⟨x, hx⟩
    rw [hx] at hunreadable
    cases hunreadable

open Exact in
/-- With an entry without a value before it, the text that is no expression is still the one reported. -/
theorem not_reports_first_valueless :
    let table : RecalculationTable := ["1/theta[0]", "theta[0]+"]
    let memory : Memory (Exact rational) := SortedMap.empty.insert "theta" [of 0]
    EntryError memory "1/theta[0]" ⟨"1/theta[0]", .eval .divisionByZero⟩ ∧
      ∃ e, table.patch memory = .error e ∧ e.entry = "theta[0]+" ∧ ¬ FirstFault (EntryError memory) table e := by
  intro table memory
  have hfirst : EntryError memory "1/theta[0]" ⟨"1/theta[0]", .eval .divisionByZero⟩ := by
    have hvalue : (match RecalculationTable.patch ["1/theta[0]"] memory with
        | .error e => some e
        | .ok _ => none) = some ⟨"1/theta[0]", .eval .divisionByZero⟩ := by decide +kernel
    cases h : RecalculationTable.patch ["1/theta[0]"] memory with
    | ok patched => rw [h] at hvalue; cases hvalue
    | error e =>
      rw [h] at hvalue
      cases hvalue
      exact ⟨h, rfl⟩
  refine ⟨hfirst, ?_⟩
  have hnamed : (match table.patch memory with
      | .error e => some e.entry
      | .ok _ => none) = some "theta[0]+" := by decide +kernel
  cases h : table.patch memory with
  | ok patched => rw [h] at hnamed; cases hnamed
  | error e =>
    rw [h] at hnamed
    have hentry : e.entry = "theta[0]+" := Option.some.inj hnamed
    refine ⟨e, rfl, hentry, fun hreports => ?_⟩
    rcases firstFault_cons.1 hreports with ⟨-, hname⟩ | ⟨hnone, -⟩
    · rw [hentry] at hname
      exact absurd hname (by decide)
    · exact hnone _ hfirst

end RecalculationTable

end QuilControl
