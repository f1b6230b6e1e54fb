import QuilControl.Proofs.Recalculation.Entries

/-!
# What patching depends on

An expression looks up the slots it mentions and no others, so memory contents that agree in these give
one value or one error (`Expr.eval_congr`), and when all of them have contents no look-up fails
(`Expr.not_isLookup_of_eval`). A table reads the slots of its entries. Whatever else memory holds, the
computed values are the same (`RecalculationTable.patch_agrees_on_reads`).
-/

namespace QuilControl

variable {N : Type} [Scalar N] {memory memory' : Memory N}

/-! ## Slots -/

omit [Scalar N] in
def MemoryReference.content? (slot : MemoryReference) (memory : Memory N) : Option N :=
  (memory.get? slot.name).bind (·[slot.index.toNat]?)

/-- A slot with contents is looked up without an error. -/
theorem MemoryReference.eval_of_content? {slot : MemoryReference} {v : N} (h : slot.content? memory = some v) :
    slot.eval memory = finite v := by
  obtain ⟨values, hvalues, hv⟩ := Option.bind_eq_some_iff.1 h
  simp only [eval, hvalues, hv]

def EvalError.IsLookup : EvalError → Prop
  | undefinedMemory _ | indexOutOfRange .. => True
  | divisionByZero | nonFinite => False

theorem not_isLookup_of_finite {v : N} {error : EvalError} (h : finite v = .error error) : ¬ error.IsLookup := by
  unfold finite at h
  split at h
  · cases h
  · cases h
    exact id

/-! ## Expressions -/

namespace Expr

/-- Slots that are looked up alike give the expression one value or one error. -/
theorem eval_congr {e : Expr N} (h : ∀ slot ∈ e.references, slot.eval memory = slot.eval memory') :
    e.eval memory = e.eval memory' := by
  induction e with
  | number | pi => rfl
  | address slot => exact h slot List.mem_cons_self
  | call f argument ih => rw [eval, eval, ih h]
  | signed sign operand ih => rw [eval, eval, ih h]
  | binary op left right ihl ihr =>
    rw [eval, eval, ihl fun slot hslot => h slot (List.mem_append_left _ hslot),
      ihr fun slot hslot => h slot (List.mem_append_right _ hslot)]

/-- Where every slot has contents, what may fail is the arithmetic. -/
theorem not_isLookup_of_eval {e : Expr N} {error : EvalError}
    (h : ∀ slot ∈ e.references, ∃ v, slot.content? memory = some v) (he : e.eval memory = .error error) :
    ¬ error.IsLookup := by
  induction e generalizing error with
  | number | pi => exact not_isLookup_of_finite he
  | address slot =>
    obtain ⟨v, hv⟩ := h slot List.mem_cons_self
    rw [eval, MemoryReference.eval_of_content? hv] at he
    exact not_isLookup_of_finite he
  | call f argument ih =>
    rcases eq_error_of_bind_eq_error he with ha | ⟨v, -, hv⟩
    · exact ih h ha
    · exact not_isLookup_of_finite hv
  | signed sign operand ih =>
    rcases eq_error_of_bind_eq_error he with ha | ⟨v, -, hv⟩
    · exact ih h ha
    · exact not_isLookup_of_finite hv
  | binary op left right ihl ihr =>
    rcases eq_error_of_bind_eq_error he with hl | ⟨l, -, hrest⟩
    · exact ihl (fun slot hslot => h slot (List.mem_append_left _ hslot)) hl
    rcases eq_error_of_bind_eq_error hrest with hr | ⟨r, -, hv⟩
    · exact ihr (fun slot hslot => h slot (List.mem_append_right _ hslot)) hr
    · unfold Operator.eval at hv
      split at hv
      · cases hv
        exact id
      · exact not_isLookup_of_finite hv

end Expr

/-! ## Tables -/

namespace RecalculationTable

/-- The slots that a table reads: those of its entries that are expressions. -/
def Reads (N : Type) [Scalar N] (table : RecalculationTable) (slot : MemoryReference) : Prop :=
  ∃ entry ∈ table, ∃ e : Expr N, Expr.ofText entry = .ok e ∧ slot ∈ e.references

variable {table : RecalculationTable}

/-- Entries have one value or one error where the slots of the table are looked up alike. -/
theorem eval_congr_of_reads (h : ∀ slot, table.Reads N slot → slot.eval memory = slot.eval memory')
    {entry : String} (hentry : entry ∈ table) {e : Expr N} (he : Expr.ofText entry = .ok e) :
    e.eval memory = e.eval memory' :=
  Expr.eval_congr fun slot hslot => h slot ⟨entry, hentry, e, he, hslot⟩

theorem patch_eq_error_congr (h : ∀ slot, table.Reads N slot → slot.eval memory = slot.eval memory')
    {e : PatchError} : table.patch memory = .error e ↔ table.patch memory' = .error e := by
  have hvalueless : ∀ entry ∈ table, ∀ e', Valueless memory entry e' ↔ Valueless memory' entry e' := by
    intro entry hentry e'
    constructor
    · rintro ⟨x, error, hx, herror, rfl⟩
      exact ⟨x, error, hx, eval_congr_of_reads h hentry hx ▸ herror, rfl⟩
    · rintro ⟨x, error, hx, herror, rfl⟩
      exact ⟨x, error, hx, (eval_congr_of_reads h hentry hx).symm ▸ herror, rfl⟩
  rw [patch_eq_error_iff, patch_eq_error_iff, firstFault_congr hvalueless]

/-- The values of a patched memory are those that patch any memory in which the slots are looked up alike. -/
theorem patch_eq_ok_congr (h : ∀ slot, table.Reads N slot → slot.eval memory = slot.eval memory')
    {patched : Memory N} (hpatch : table.patch memory = .ok patched) :
    ∃ values, patched = memory.insert "__SUBST" values ∧
      table.patch memory' = .ok (memory'.insert "__SUBST" values) := by
  obtain ⟨values, hvalues, rfl⟩ := patch_eq_ok.1 hpatch
  refine ⟨values, rfl, patch_eq_ok.2 ⟨values, ?_, rfl⟩⟩
  refine List.forall₂_iff_get.2 ⟨hvalues.length_eq, fun i hi hi' => ?_⟩
  obtain ⟨x, hx, hv⟩ := entryValue?_eq_some.1 (hvalues.get hi hi')
  exact entryValue?_eq_some.2 ⟨x, hx, eval_congr_of_reads h (List.get_mem table ⟨i, hi⟩) hx ▸ hv⟩

/-- Where every slot that a table reads has contents, no error is that of a look-up. -/
theorem not_isLookup_of_patch (h : ∀ slot, table.Reads N slot → ∃ v, slot.content? memory = some v)
    {e : PatchError} (hpatch : table.patch memory = .error e) {error : EvalError} (hcause : e.cause = .eval error) :
    ¬ error.IsLookup := by
  rcases patch_eq_error_iff.1 hpatch with hunreadable | ⟨-, hvalueless⟩
  · obtain ⟨-, entry, -, -, ⟨_, -, rfl⟩, -⟩ := hunreadable
    cases hcause
  · obtain ⟨before, entry, after, rfl, ⟨x, _, hx, hx', rfl⟩, -⟩ := hvalueless
    cases hcause
    exact Expr.not_isLookup_of_eval
      (fun slot hslot => h slot ⟨entry, by simp, x, hx, hslot⟩) hx'

/-- **Patching depends on the slots that the table reads.** Two memory contents in which each of these has
one and the same value are refused with one error, which is never that of a look-up, or get the same
computed values. Nothing is asked of any other slot, so other regions, what follows in the regions read
and a region of computed values from before make no difference unless an entry reads them. -/
theorem patch_agrees_on_reads (table : RecalculationTable) (memory memory' : Memory N)
    (h : ∀ slot, table.Reads N slot → ∃ v, slot.content? memory = some v ∧ slot.content? memory' = some v) :
    (∃ values, table.patch memory = .ok (memory.insert "__SUBST" values) ∧
        table.patch memory' = .ok (memory'.insert "__SUBST" values)) ∨
      ∃ e, table.patch memory = .error e ∧ table.patch memory' = .error e ∧
        ∀ error, e.cause = .eval error → ¬ error.IsLookup := by
  have halike : ∀ slot, table.Reads N slot → slot.eval memory = slot.eval memory' := by
    intro slot hslot
    obtain ⟨v, hv, hv'⟩ := h slot hslot
    rw [MemoryReference.eval_of_content? hv, MemoryReference.eval_of_content? hv']
  cases hpatch : table.patch memory with
  | ok patched =>
    obtain ⟨values, rfl, hpatch'⟩ := patch_eq_ok_congr halike hpatch
    exact Or.inl ⟨values, rfl, hpatch'⟩
  | error e =>
    refine Or.inr ⟨e, rfl, (patch_eq_error_congr halike).1 hpatch, fun error hcause => ?_⟩
    refine not_isLookup_of_patch (fun slot hslot => ?_) hpatch hcause
    obtain ⟨v, hv, -⟩ := h slot hslot
    exact ⟨v, hv⟩

open Exact in
/-- One slot of each region is read. What stands around it differs, and so does a region that is not read. -/
theorem patch_agrees_on_reads_shared :
    let table : RecalculationTable := ["theta[1]/2", "__SUBST[0]+1"]
    let memory : Memory (Exact rational) := (SortedMap.empty.insert "theta" [of 0, of 3]).insert "__SUBST" [of 7]
    let memory' : Memory (Exact rational) :=
      ((SortedMap.empty.insert "theta" [of 4, of 3, of 5]).insert "__SUBST" [of 7, of 8]).insert "phi" [of 1]
    ∃ values, table.patch memory = .ok (memory.insert "__SUBST" values) ∧
      table.patch memory' = .ok (memory'.insert "__SUBST" values) := by
  intro table memory memory'
  have hread : (table.all fun entry =>
      match (Expr.ofText entry : Except QuilError (Expr (Exact rational))) with
      | .ok e => e.references.all fun slot => slot = ⟨"theta", 1⟩ ∨ slot = ⟨"__SUBST", 0⟩
      | .error _ => true) = true := by decide +kernel
  have hshared : ∀ slot, table.Reads (Exact rational) slot →
      ∃ v, slot.content? memory = some v ∧ slot.content? memory' = some v := by
    rintro slot ⟨entry, hentry, e, he, hslot⟩
    have hslots := List.all_eq_true.1 hread entry hentry
    rw [he] at hslots
    rcases of_decide_eq_true (List.all_eq_true.1 hslots slot hslot) with rfl | rfl
    · exact ⟨of 3, rfl, rfl⟩
    · exact ⟨of 7, rfl, rfl⟩
  have hpatched : (table.patch memory).isOk = true := by decide +kernel
  rcases patch_agrees_on_reads table memory memory' hshared with hvalues | ⟨e, herror, -⟩
  · exact hvalues
  · rw [herror] at hpatched
    cases hpatched

end RecalculationTable

end QuilControl
