import Mathlib.Order.WellFounded
import QuilControl.Proofs.SortedMap
import QuilControl.Readout.RegisterMap

/-!
# Collecting mapped columns

The mappings are taken one after the other. A mapping fails if its key names no slot, if its handle
has no values, or if a mapping before it is for the same slot (`mappingFault?`), so the first fault
decides (`Collects.addMappings_eq_error`). Without a fault every slot ends up with the values of its
handle, and nothing else does (`Collects.addMappings_eq_ok`).
-/

namespace QuilControl

/-- `e` is the fault of the first thing that has one. -/
def IsFirst {ι ε : Type} [LT ι] (fault? : ι → Option ε) (e : ε) : Prop :=
  ∃ i, fault? i = some e ∧ ∀ j, j < i → fault? j = none

theorem exists_isFirst_or_forall_none {ε : Type} (fault? : Nat → Option ε) :
    (∃ e, IsFirst fault? e) ∨ ∀ i, fault? i = none := by
  by_cases h : ∃ i, (fault? i).isSome
  · obtain ⟨i, hi, hfirst⟩ := WellFounded.has_min Nat.lt_wfRel.wf {i | (fault? i).isSome} h
    obtain ⟨e, he⟩ := Option.isSome_iff_exists.1 hi
    refine Or.inl ⟨e, i, he, fun j hj => ?_⟩
    cases hf : fault? j with
    | none => rfl
    | some e' => exact absurd hj (hfirst j (Option.isSome_iff_exists.2 ⟨e', hf⟩))
  · refine Or.inr fun i => ?_
    cases hf : fault? i with
    | none => rfl
    | some e => exact absurd ⟨i, Option.isSome_iff_exists.2 ⟨e, hf⟩⟩ h

theorem not_isFirst {ι ε : Type} [LT ι] {fault? : ι → Option ε} (h : ∀ i, fault? i = none) (e : ε) :
    ¬ IsFirst fault? e := by
  rintro ⟨i, hi, -⟩
  cases (h i).symm.trans hi

/-! ## Faults of mappings -/

def slotOf? (e : String × String) : Option MemoryReference := MemoryReference.ofChars? e.1.toList

/-- What is wrong with a mapping that comes after others: its key names no slot, its handle has no
values, or one before it is for the same slot. -/
def mappingFault? (readout : SortedMap String ReadoutValues) (earlier : List (String × String))
    (e : String × String) : Option AssemblyError :=
  match slotOf? e with
  | none => some (.invalidReference e.1)
  | some r =>
    if (readout.get? e.2).isNone then some (.unmappedHandle e.1 e.2)
    else if ∃ e' ∈ earlier, slotOf? e' = some r then some (.duplicateIndex r.name r.index)
    else none

/-- The fault of the mapping at a place. -/
def faultAt? (readout : SortedMap String ReadoutValues) (entries : List (String × String)) (i : Nat) :
    Option AssemblyError :=
  entries[i]?.bind (mappingFault? readout (entries.take i))

variable {readout : SortedMap String ReadoutValues} {earlier entries : List (String × String)}
  {columns next : RegisterColumns}

theorem mappingFault?_eq_none_iff {e : String × String} :
    mappingFault? readout earlier e = none ↔
      ∃ r values, slotOf? e = some r ∧ readout.get? e.2 = some values ∧
        ∀ e' ∈ earlier, slotOf? e' ≠ some r := by
  unfold mappingFault?
  cases hr : slotOf? e with
  | none => simp
  | some r =>
    cases hv : readout.get? e.2 with
    | none => simp
    | some values => simp

/-- The place behind some mappings has the fault of the next one. -/
theorem faultAt?_length (e : String × String) (rest : List (String × String)) :
    faultAt? readout (earlier ++ e :: rest) earlier.length = mappingFault? readout earlier e := by
  rw [faultAt?, List.getElem?_append_right (Nat.le_refl _), Nat.sub_self, List.take_left]
  rfl

theorem faultAt?_of_lt {i : Nat} (h : i < entries.length) :
    faultAt? readout entries i = mappingFault? readout (entries.take i) entries[i] := by
  rw [faultAt?, List.getElem?_eq_getElem h]
  rfl

theorem faultAt?_eq_none_of_length_le {i : Nat} (h : entries.length ≤ i) : faultAt? readout entries i = none := by
  rw [faultAt?, List.getElem?_eq_none h]
  rfl

/-! ## Taking mappings -/

def column? (columns : RegisterColumns) (r : MemoryReference) : Option ReadoutValues :=
  (columns.get? r.name).bind (·.get? r.index)

/-- The columns are those of the slots of the mappings: each has the values of its handle, and every
register has a column. -/
structure Collects (readout : SortedMap String ReadoutValues) (entries : List (String × String))
    (columns : RegisterColumns) : Prop where
  mapped : ∀ e ∈ entries, ∃ r values, slotOf? e = some r ∧ readout.get? e.2 = some values
  column?_iff : ∀ {r values}, column? columns r = some values ↔
    ∃ e ∈ entries, slotOf? e = some r ∧ readout.get? e.2 = some values
  inhabited : ∀ {name register}, columns.get? name = some register →
    ∃ index values, register.get? index = some values

theorem collects_empty : Collects readout [] .empty where
  mapped e he := absurd he List.not_mem_nil
  column?_iff := by simp [column?]
  inhabited h := by simp at h

/-- The columns with one more: the register of the slot gets it, whether or not it had columns. -/
def withColumn (columns : RegisterColumns) (r : MemoryReference) (values : ReadoutValues) : RegisterColumns :=
  columns.insert r.name (((columns.get? r.name).getD .empty).insert r.index values)

theorem get?_getD (columns : RegisterColumns) (r : MemoryReference) :
    ((columns.get? r.name).getD .empty).get? r.index = column? columns r := by
  rw [column?]
  cases columns.get? r.name <;> rfl

theorem column?_withColumn (columns : RegisterColumns) (r r' : MemoryReference) (values : ReadoutValues) :
    column? (withColumn columns r values) r' = if r' = r then some values else column? columns r' := by
  obtain ⟨name, index⟩ := r
  obtain ⟨name', index'⟩ := r'
  by_cases hname : name' = name
  · subst hname
    have hregister := get?_getD columns ⟨name', index'⟩
    by_cases hindex : index' = index
    · simp [column?, withColumn, SortedMap.get?_insert_self, hindex]
    · simp only [column?, withColumn, SortedMap.get?_insert_self, Option.bind_some,
        SortedMap.get?_insert_of_ne _ hindex, MemoryReference.mk.injEq, hindex, and_false, if_false]
      exact hregister
  · simp [column?, withColumn, SortedMap.get?_insert_of_ne _ hname, hname]

/-- What taking a mapping comes to. -/
theorem addMapping_eq (columns : RegisterColumns) (slot handle : String) :
    RegisterMap.addMapping readout columns slot handle =
      match slotOf? (slot, handle) with
      | none => .error (.invalidReference slot)
      | some r =>
        match readout.get? handle with
        | none => .error (.unmappedHandle slot handle)
        | some values =>
          if (column? columns r).isSome then .error (.duplicateIndex r.name r.index)
          else .ok (withColumn columns r values) := by
  unfold RegisterMap.addMapping slotOf?
  cases MemoryReference.ofChars? slot.toList with
  | none => rfl
  | some r =>
    cases readout.get? handle with
    | none => rfl
    | some values =>
      simp only [SortedMap.contains, get?_getD]
      rfl

namespace Collects

/-- A slot has a column just if a mapping is for it. -/
theorem isSome_column?_iff (h : Collects readout earlier columns) (r : MemoryReference) :
    (column? columns r).isSome ↔ ∃ e ∈ earlier, slotOf? e = some r := by
  rw [Option.isSome_iff_exists]
  constructor
  · rintro ⟨values, hvalues⟩
    obtain ⟨e, he, hr, -⟩ := h.column?_iff.1 hvalues
    exact ⟨e, he, hr⟩
  · rintro ⟨e, he, hr⟩
    obtain ⟨r', values, hr', hvalues⟩ := h.mapped e he
    exact ⟨values, h.column?_iff.2 ⟨e, he, hr, hvalues⟩⟩

/-- A slot that no mapping was for gets a column. -/
theorem withColumn (h : Collects readout earlier columns) {e : String × String} {r : MemoryReference}
    {values : ReadoutValues} (hr : slotOf? e = some r) (hv : readout.get? e.2 = some values)
    (hnew : ∀ e' ∈ earlier, slotOf? e' ≠ some r) :
    Collects readout (earlier ++ [e]) (withColumn columns r values) where
  mapped e' he' := by
    rcases List.mem_append.1 he' with he' | he'
    · exact h.mapped e' he'
    · rw [List.mem_singleton.1 he']
      exact ⟨r, values, hr, hv⟩
  column?_iff := by
    intro r' values'
    rw [column?_withColumn]
    by_cases hr' : r' = r
    · subst hr'
      rw [if_pos rfl]
      constructor
      · rintro ⟨⟩
        exact ⟨e, List.mem_append_right _ List.mem_cons_self, hr, hv⟩
      · rintro ⟨e', he', hr', hv'⟩
        rcases List.mem_append.1 he' with he' | he'
        · exact absurd hr' (hnew e' he')
        · rw [List.mem_singleton.1 he', hv] at hv'
          exact hv'
    · rw [if_neg hr', h.column?_iff]
      constructor
      · rintro ⟨e', he', hmap⟩
        exact ⟨e', List.mem_append_left _ he', hmap⟩
      · rintro ⟨e', he', hslot, hv'⟩
        rcases List.mem_append.1 he' with he' | he'
        · exact ⟨e', he', hslot, hv'⟩
        · rw [List.mem_singleton.1 he', hr] at hslot
          exact absurd (Option.some.inj hslot).symm hr'
  inhabited := by
    intro name register hregister
    by_cases hname : name = r.name
    · subst hname
      rw [QuilControl.withColumn, SortedMap.get?_insert_self] at hregister
      cases hregister
      exact ⟨r.index, values, SortedMap.get?_insert_self ..⟩
    · rw [QuilControl.withColumn, SortedMap.get?_insert_of_ne _ hname] at hregister
      exact h.inhabited hregister

/-- A mapping with a fault fails with it. -/
theorem addMapping_eq_error (h : Collects readout earlier columns) {e : String × String} {fault : AssemblyError}
    (hfault : mappingFault? readout earlier e = some fault) :
    RegisterMap.addMapping readout columns e.1 e.2 = .error fault := by
  rw [addMapping_eq]
  unfold mappingFault? at hfault
  cases hr : slotOf? e with
  | none =>
    rw [hr] at hfault
    exact congrArg _ (Option.some.inj hfault)
  | some r =>
    cases hv : readout.get? e.2 with
    | none => simpa [hr, hv] using hfault
    | some values =>
      have hcolumn := h.isSome_column?_iff r
      by_cases hdup : ∃ e ∈ earlier, slotOf? e = some r
      · simpa [hr, hv, hdup, hcolumn.2 hdup] using hfault
      · simp [hr, hv, hdup] at hfault

/-- A mapping without a fault is taken: its slot gets the values of its handle. -/
theorem addMapping_eq_ok (h : Collects readout earlier columns) {e : String × String}
    (hnone : mappingFault? readout earlier e = none) :
    ∃ next, RegisterMap.addMapping readout columns e.1 e.2 = .ok next ∧
      Collects readout (earlier ++ [e]) next := by
  obtain ⟨r, values, hr, hv, hnew⟩ := mappingFault?_eq_none_iff.1 hnone
  have hempty : ¬ (column? columns r).isSome := by
    rw [h.isSome_column?_iff]
    rintro ⟨e', he', hr'⟩
    exact hnew e' he' hr'
  refine ⟨QuilControl.withColumn columns r values, ?_, h.withColumn hr hv hnew⟩
  rw [addMapping_eq, hr, hv]
  exact if_neg hempty

/-- Mappings without a fault are all taken. The induction moves one mapping at a time from those ahead to
those behind. -/
theorem addMappings_eq_ok (h : Collects readout earlier columns) {rest : List (String × String)}
    (hnone : ∀ i, earlier.length ≤ i → faultAt? readout (earlier ++ rest) i = none) :
    ∃ next, RegisterMap.addMappings readout columns rest = .ok next ∧
      Collects readout (earlier ++ rest) next := by
  induction rest generalizing earlier columns with
  | nil => exact ⟨columns, rfl, (List.append_nil earlier).symm ▸ h⟩
  | cons e rest ih =>
    have hfault := hnone earlier.length (Nat.le_refl _)
    rw [faultAt?_length] at hfault
    obtain ⟨next, hadd, hcollects⟩ := h.addMapping_eq_ok hfault
    have hahead : ∀ i, (earlier ++ [e]).length ≤ i → faultAt? readout (earlier ++ [e] ++ rest) i = none := by
      intro i hi
      rw [List.length_append] at hi
      rw [← List.append_cons]
      exact hnone i (Nat.le_of_add_right_le hi)
    rw [RegisterMap.addMappings, hadd, List.append_cons]
    exact ih hcollects hahead

/-- The first fault among mappings is their error. -/
theorem addMappings_eq_error (h : Collects readout earlier columns) {rest : List (String × String)} {i : Nat}
    {fault : AssemblyError} (hi : earlier.length ≤ i)
    (hfault : faultAt? readout (earlier ++ rest) i = some fault)
    (hfirst : ∀ j, earlier.length ≤ j → j < i → faultAt? readout (earlier ++ rest) j = none) :
    RegisterMap.addMappings readout columns rest = .error fault := by
  induction rest generalizing earlier columns with
  | nil =>
    rw [List.append_nil, faultAt?_eq_none_of_length_le hi] at hfault
    cases hfault
  | cons e rest ih =>
    rcases Nat.eq_or_lt_of_le hi with hi | hi
    · rw [← hi, faultAt?_length] at hfault
      rw [RegisterMap.addMappings, h.addMapping_eq_error hfault]
    · have hnone := hfirst earlier.length (Nat.le_refl _) hi
      rw [faultAt?_length] at hnone
      obtain ⟨next, hadd, hcollects⟩ := h.addMapping_eq_ok hnone
      have hlength : (earlier ++ [e]).length = earlier.length + 1 := List.length_append
      rw [List.append_cons] at hfault hfirst
      rw [RegisterMap.addMappings, hadd]
      refine ih hcollects (by omega) hfault fun j hj hji => ?_
      exact hfirst j (by omega) hji

end Collects

/-- Taking all mappings fails just with the first fault. -/
theorem addMappings_empty_eq_error_iff {e : AssemblyError} :
    RegisterMap.addMappings readout .empty entries = .error e ↔ IsFirst (faultAt? readout entries) e := by
  have hfirst : ∀ e, IsFirst (faultAt? readout entries) e →
      RegisterMap.addMappings readout .empty entries = .error e := by
    rintro e ⟨i, hi, hbefore⟩
    exact collects_empty.addMappings_eq_error (Nat.zero_le i) hi fun j _ hj => hbefore j hj
  refine ⟨fun herror => ?_, hfirst e⟩
  rcases exists_isFirst_or_forall_none (faultAt? readout entries) with ⟨e', he'⟩ | hnone
  · cases (hfirst e' he').symm.trans herror
    exact he'
  · obtain ⟨next, hok, -⟩ := collects_empty.addMappings_eq_ok fun i _ => hnone i
    cases hok.symm.trans herror

/-- When all mappings are taken, none has a fault, and the columns are those of their slots. -/
theorem of_addMappings_empty_eq_ok (h : RegisterMap.addMappings readout .empty entries = .ok next) :
    (∀ i, faultAt? readout entries i = none) ∧ Collects readout entries next := by
  rcases exists_isFirst_or_forall_none (faultAt? readout entries) with ⟨e, he⟩ | hnone
  · cases h.symm.trans (addMappings_empty_eq_error_iff.2 he)
  · obtain ⟨next', hok, hcollects⟩ := collects_empty.addMappings_eq_ok fun i _ => hnone i
    cases h.symm.trans hok
    exact ⟨hnone, hcollects⟩

/-- No mapping has a fault just if all keys name different slots and all handles have values. -/
theorem forall_faultAt?_eq_none_iff :
    (∀ i, faultAt? readout entries i = none) ↔
      (∀ e ∈ entries, ∃ r, slotOf? e = some r) ∧ (∀ e ∈ entries, ∃ values, readout.get? e.2 = some values) ∧
        (entries.filterMap slotOf?).Nodup := by
  rw [List.Nodup, List.pairwise_filterMap, List.pairwise_iff_getElem]
  constructor
  · intro hnone
    have hmapped (i : Nat) (hi : i < entries.length) :=
      mappingFault?_eq_none_iff.1 ((faultAt?_of_lt hi).symm.trans (hnone i))
    refine ⟨fun e he => ?_, fun e he => ?_, fun i j hi hj hij r hr r' hr' => ?_⟩
    · obtain ⟨i, hi, rfl⟩ := List.getElem_of_mem he
      obtain ⟨r, -, hr, -, -⟩ := hmapped i hi
      exact ⟨r, hr⟩
    · obtain ⟨i, hi, rfl⟩ := List.getElem_of_mem he
      obtain ⟨-, values, -, hv, -⟩ := hmapped i hi
      exact ⟨values, hv⟩
    · obtain ⟨r'', values, hr'', hv, hnew⟩ := hmapped j hj
      have hmem : entries[i] ∈ entries.take j := List.mem_take_iff_getElem.2 ⟨i, by omega, rfl⟩
      rintro rfl
      exact hnew entries[i] hmem (hr.trans (hr'.symm.trans hr''))
  · rintro ⟨hreadable, hmapped, hdistinct⟩ i
    by_cases hi : i < entries.length
    · rw [faultAt?_of_lt hi, mappingFault?_eq_none_iff]
      obtain ⟨r, hr⟩ := hreadable _ (List.getElem_mem hi)
      obtain ⟨values, hv⟩ := hmapped _ (List.getElem_mem hi)
      refine ⟨r, values, hr, hv, fun e he hr' => ?_⟩
      obtain ⟨j, hj, rfl⟩ := List.mem_take_iff_getElem.1 he
      exact hdistinct j i (by omega) hi (by omega) r hr' r hr rfl
    · exact faultAt?_eq_none_of_length_le (Nat.le_of_not_lt hi)

end QuilControl
