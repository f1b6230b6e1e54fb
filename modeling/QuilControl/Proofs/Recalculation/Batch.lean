import QuilControl.Proofs.Recalculation.Entries
import QuilControl.Proofs.SortedMap

/-!
# Patching several memory contents

A table is read once for all memory contents. For one or more of them that makes no difference: what
comes out is what patching each by itself gives, in order, or the error of the first that cannot be
patched (`patchAll_eq_mapM`). Without any, the table is read all the same. Patched memory differs from
the old one in the region of the computed values only (`patch_eq_ok_iff_isPatched`).
-/

namespace QuilControl

variable {N : Type} [Scalar N]

namespace RecalculationTable

variable {table : RecalculationTable} {memory patched : Memory N} {memories : List (Memory N)}

theorem patchEach_eq_mapM (entries : List (String × Expr N)) (memories : List (Memory N)) :
    patchEach entries memories = memories.mapM (patchRead entries) := by
  induction memories with
  | nil => rfl
  | cons memory rest ih =>
    rw [patchEach, mapM_cons_eq, ih]
    cases patchRead entries memory with
    | error e => rfl
    | ok patched => cases rest.mapM (patchRead entries) <;> rfl

theorem patch_of_read {entries : List (String × Expr N)} (h : table.read = .ok entries) :
    table.patch (N := N) = patchRead entries := by
  funext memory
  rw [patch, h]

/-- One or more memory contents are patched as each is by itself. -/
theorem patchAll_eq_mapM (h : memories ≠ []) : table.patchAll memories = memories.mapM table.patch := by
  unfold patchAll
  cases hr : read (N := N) table with
  | error e =>
    -- No entry is evaluated, so the first memory fails already.
    obtain ⟨memory, rest, rfl⟩ := List.exists_cons_of_ne_nil h
    rw [mapM_cons_eq, patch, hr]
  | ok entries => rw [patch_of_read hr, ← patchEach_eq_mapM]

theorem patchAll_nil_eq_ok_iff :
    table.patchAll (N := N) [] = .ok [] ↔ ∀ entry ∈ table, IsReadable N entry := by
  rw [← exists_read_eq_ok_iff, patchAll]
  cases read (N := N) table <;> simp [patchEach]

theorem patchAll_nil_eq_error_iff {e : PatchError} :
    table.patchAll (N := N) [] = .error e ↔ FirstFault (Unreadable N) table e := by
  rw [← read_eq_error_iff, patchAll]
  cases read (N := N) table <;> simp [patchEach]

/-- Memory with the computed values of a table, and otherwise as before. -/
structure IsPatched (table : RecalculationTable) (memory patched : Memory N) : Prop where
  /-- One value for each entry, in order. -/
  computed : ∃ vs, patched.get? "__SUBST" = some vs ∧
    List.Forall₂ (fun entry v => entryValue? memory entry = some v) table vs
  others : ∀ name, name ≠ "__SUBST" → patched.get? name = memory.get? name

theorem patch_eq_ok_iff_isPatched : table.patch memory = .ok patched ↔ table.IsPatched memory patched := by
  rw [patch_eq_ok]
  constructor
  · rintro ⟨vs, hvs, hpatched⟩
    obtain ⟨hregion, hothers⟩ := SortedMap.eq_insert_iff.1 hpatched
    exact ⟨⟨vs, hregion, hvs⟩, hothers⟩
  · rintro ⟨⟨vs, hregion, hvs⟩, hothers⟩
    exact ⟨vs, hvs, SortedMap.eq_insert_iff.2 ⟨hregion, hothers⟩⟩

/-- **Patching several memory contents is patching each.** Of one or more, all are patched as each is by
itself, or the error is that of the first that cannot be. Of none, the table alone decides. A memory
that is patched has the computed values in their region and is otherwise as before. -/
theorem patchAll_agrees (table : RecalculationTable) :
    (∀ memories : List (Memory N), memories ≠ [] →
      (∀ patches, table.patchAll memories = .ok patches ↔
        List.Forall₂ (fun memory patched => table.patch memory = .ok patched) memories patches) ∧
      ∀ e, table.patchAll memories = .error e ↔
        FirstFault (fun memory e => table.patch memory = .error e) memories e) ∧
    (table.patchAll (N := N) [] = .ok [] ↔ ∀ entry ∈ table, IsReadable N entry) ∧
    (∀ e, table.patchAll (N := N) [] = .error e ↔ FirstFault (Unreadable N) table e) ∧
    ∀ memory patched : Memory N, table.patch memory = .ok patched ↔ table.IsPatched memory patched := by
  refine ⟨fun memories h => ?_, patchAll_nil_eq_ok_iff, fun e => patchAll_nil_eq_error_iff,
    fun memory patched => patch_eq_ok_iff_isPatched⟩
  rw [patchAll_eq_mapM h]
  exact ⟨fun patches => mapM_eq_ok_iff, fun e => mapM_eq_error_iff⟩

open Exact in
/-- The second of three memories has a zero where the table divides. The first has a region of computed
values already. -/
theorem patchAll_agrees_zero :
    let table : RecalculationTable := ["1/theta[0]"]
    let two : Memory (Exact rational) := (SortedMap.empty.insert "theta" [of 2]).insert "__SUBST" [of 7, of 8]
    let zero : Memory (Exact rational) := SortedMap.empty.insert "theta" [of 0]
    (∃ patched, table.patchAll [two] = .ok [patched] ∧ table.IsPatched two patched) ∧
      ∃ e, table.patchAll [two, zero, two] = .error e ∧ table.patch zero = .error e := by
  intro table two zero
  have hagrees := patchAll_agrees (N := Exact rational) table
  have htwo : (table.patch two).isOk = true := by decide +kernel
  have hzero : (table.patch zero).isOk = false := by decide +kernel
  cases h : table.patch two with
  | error e => rw [h] at htwo; cases htwo
  | ok patched =>
    cases he : table.patch zero with
    | ok patched => rw [he] at hzero; cases hzero
    | error e =>
      refine ⟨⟨patched, ?_, (hagrees.2.2.2 two patched).1 h⟩, e, ?_, rfl⟩
      · exact ((hagrees.1 [two] (by simp)).1 [patched]).2 (.cons h .nil)
      · refine ((hagrees.1 [two, zero, two] (by simp)).2 e).2 ⟨[two], zero, [two], rfl, he, ?_⟩
        simp [h]

end RecalculationTable

end QuilControl
