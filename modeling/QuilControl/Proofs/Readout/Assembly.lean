import Mathlib.Data.List.Sort
import QuilControl.Proofs.Readout.Collecting
import QuilControl.Proofs.Readout.Stacking
import QuilControl.Proofs.Traverse

/-!
# The registers of hardware readout

What registers hardware readout forms is said here without groups of columns or an order of work: data
form registers if all mappings are in order and the columns of a register have one length and one kind
(`QpuData.IsAssemblable`), and column `i` of a register has the values of its `i`-th lowest mapped index
(`QpuData.IsAssembly`). Assembly succeeds just for such data and gives just these registers, which do not
depend on the order of the mappings; otherwise its error is that of the first mapping with a fault, or
else of the first register with one (`ResultData.toRegisterMap_qpu`).
-/

namespace QuilControl

/-! ## Named things in order -/

namespace RegisterMap

variable {α : Type} {matrix : String → α → Except AssemblyError RegisterMatrix}

/-- Assembling gives the matrices of all things, in order. -/
theorem map_of_assemble_eq_ok {named : List (String × α)} {results : List (String × RegisterMatrix)}
    (h : assemble matrix named = .ok results) :
    named.map (fun a => (a.1, matrix a.1 a.2)) = results.map (fun b => (b.1, .ok b.2)) := by
  induction named generalizing results with
  | nil => cases h; rfl
  | cons a rest ih =>
    unfold assemble at h
    cases hm : matrix a.1 a.2 with
    | error e => rw [hm] at h; cases h
    | ok M =>
      rw [hm] at h
      cases hrest : assemble matrix rest with
      | error e => rw [hrest] at h; cases h
      | ok others =>
        rw [hrest] at h
        cases h
        rw [List.map_cons, List.map_cons, hm, ih hrest]

/-- The error is that of the first failure. -/
theorem assemble_eq_error_iff {named : List (String × α)} {e : AssemblyError} :
    assemble matrix named = .error e ↔ FirstFault (fun a e => matrix a.1 a.2 = .error e) named e := by
  induction named with
  | nil => simp [assemble]
  | cons a rest ih =>
    rw [assemble, firstFault_cons, ← ih]
    cases matrix a.1 a.2 with
    | error e' => simp
    | ok M =>
      dsimp only
      cases assemble matrix rest <;> simp

/-- Over the entries of a map, the error is that of the smallest name with a fault. -/
theorem assemble_entries_eq_error_iff (m : SortedMap String α) {fault? : String → α → Option AssemblyError}
    (h : ∀ name a e, matrix name a = .error e ↔ fault? name a = some e) {e : AssemblyError} :
    assemble matrix m.entries = .error e ↔ IsFirst (fun name => (m.get? name).bind (fault? name)) e := by
  have hok : ∀ name a, (∀ e, ¬ matrix name a = .error e) ↔ fault? name a = none := by
    intro name a
    simp only [h]
    cases fault? name a <;> simp
  rw [assemble_eq_error_iff]
  constructor
  · rintro ⟨before, a, after, hsplit, ha, hbefore⟩
    have hmem : (a.1, a.2) ∈ m.entries := hsplit ▸ List.mem_append_right _ List.mem_cons_self
    refine ⟨a.1, ?_, fun name hlt => ?_⟩
    · show (m.get? a.1).bind (fault? a.1) = some e
      rw [SortedMap.get?_eq_some_iff.2 hmem]
      exact (h _ _ _).1 ha
    · -- A smaller name of the map stands before, where nothing fails.
      show (m.get? name).bind (fault? name) = none
      cases hget : m.get? name with
      | none => rfl
      | some b =>
        have hb : (name, b) ∈ before := (SortedMap.mem_before_iff hsplit).2 ⟨hget, compareOfLessAndEq_eq_lt.2 hlt⟩
        exact (hok name b).1 (hbefore _ hb)
  · rintro ⟨name, hfault, hfirst⟩
    obtain ⟨a, hget, ha⟩ := Option.bind_eq_some_iff.1 hfault
    obtain ⟨before, after, hsplit⟩ := List.append_of_mem (SortedMap.get?_eq_some_iff.1 hget)
    refine ⟨before, (name, a), after, hsplit, (h _ _ _).2 ha, fun b hb => ?_⟩
    obtain ⟨hget', hlt⟩ := (SortedMap.mem_before_iff hsplit).1 hb
    have hnone : (m.get? b.1).bind (fault? b.1) = none := hfirst b.1 (compareOfLessAndEq_eq_lt.1 hlt)
    rw [hget'] at hnone
    exact (hok _ _).2 hnone

/-- The results under different names are those of the named things, and all of them exist. -/
theorem get?_of_assemble {named : List (String × α)} {results : List (String × RegisterMatrix)}
    (hnodup : (named.map (·.1)).Nodup) (h : assemble matrix named = .ok results) (name : String) :
    (∀ a, (name, a) ∈ named → ∃ M, matrix name a = .ok M) ∧
      ∀ M, (SortedMap.ofList results).get? name = some M ↔ ∃ a, (name, a) ∈ named ∧ matrix name a = .ok M := by
  have hmap := map_of_assemble_eq_ok h
  have hkeys : (results.map (·.1)).Nodup := by
    have hfirst := congrArg (List.map (·.1)) hmap
    rw [List.map_map, List.map_map] at hfirst
    exact hfirst ▸ hnodup
  constructor
  · intro a ha
    have hmem := List.mem_map_of_mem (f := fun a => (a.1, matrix a.1 a.2)) ha
    rw [hmap] at hmem
    obtain ⟨b, -, hb⟩ := List.mem_map.1 hmem
    exact ⟨b.2, (Prod.mk.inj hb).2.symm⟩
  · intro M
    have hresults : (name, M) ∈ results ↔
        (name, Except.ok M) ∈ results.map fun b => (b.1, (.ok b.2 : Except AssemblyError RegisterMatrix)) := by
      simp
    rw [SortedMap.get?_ofList_eq_some_iff hkeys, hresults, ← hmap]
    simp

/-- The results under the names of a map are those of its values, and all of them exist. -/
theorem get?_of_assemble_entries {m : SortedMap String α} {results : List (String × RegisterMatrix)}
    (h : assemble matrix m.entries = .ok results) (name : String) :
    (∀ a, m.get? name = some a → ∃ M, matrix name a = .ok M) ∧
      ∀ M, (SortedMap.ofList results).get? name = some M ↔ ∃ a, m.get? name = some a ∧ matrix name a = .ok M := by
  have hentry (a : α) : m.get? name = some a ↔ (name, a) ∈ m.entries := SortedMap.get?_eq_some_iff
  simp only [hentry]
  exact get?_of_assemble m.nodup_keys h name

end RegisterMap

/-! ## What the data form -/

/-- The index that a mapping has in a register, if it is for a slot of it. -/
def indexIn? (name : String) (e : String × String) : Option UInt64 :=
  (slotOf? e).bind fun r => if r.name = name then some r.index else none

theorem indexIn?_eq_some_iff {name : String} {e : String × String} {index : UInt64} :
    indexIn? name e = some index ↔ slotOf? e = some ⟨name, index⟩ := by
  rw [indexIn?, Option.bind_eq_some_iff]
  constructor
  · rintro ⟨r, hr, hindex⟩
    split at hindex
    · next hname =>
      cases hindex
      rw [hr, ← hname]
    · cases hindex
  · intro hr
    exact ⟨⟨name, index⟩, hr, if_pos rfl⟩

/-- Different slots of one register have different indices. -/
theorem nodup_filterMap_indexIn? {entries : List (String × String)} (h : (entries.filterMap slotOf?).Nodup)
    (name : String) : (entries.filterMap (indexIn? name)).Nodup := by
  have hindices := h.filterMap (f := fun r => if r.name = name then some r.index else none) <| by
    rintro ⟨n, i⟩ ⟨n', i'⟩ index hr hr'
    simp only [Option.mem_def, Option.ite_none_right_eq_some, Option.some.injEq] at hr hr'
    rw [MemoryReference.mk.injEq, hr.1, hr'.1, hr.2, hr'.2]
    exact ⟨rfl, rfl⟩
  rwa [List.filterMap_filterMap] at hindices

theorem pairwise_mergeSort (xs : List UInt64) : xs.mergeSort.Pairwise (· ≤ ·) := by
  have htrans : ∀ a b c : UInt64, decide (a ≤ b) = true → decide (b ≤ c) = true → decide (a ≤ c) = true := by
    intro a b c hab hbc
    exact decide_eq_true (UInt64.le_trans (of_decide_eq_true hab) (of_decide_eq_true hbc))
  have htotal : ∀ a b : UInt64, (decide (a ≤ b) || decide (b ≤ a)) = true := by
    intro a b
    simpa using UInt64.le_total a b
  exact (List.pairwise_mergeSort htrans htotal xs).imp of_decide_eq_true

/-- Sorting indices gives the one list of them that is in order. -/
theorem mergeSort_eq_of_perm {xs ys : List UInt64} (h : xs.Perm ys) (hsorted : ys.Pairwise (· ≤ ·)) :
    xs.mergeSort = ys :=
  ((List.mergeSort_perm xs _).trans h).eq_of_pairwise (fun _ _ _ _ => UInt64.le_antisymm)
    (pairwise_mergeSort xs) hsorted

/-- A mapping is found under its key. -/
theorem ReadoutMappings.get?_of_mem (m : ReadoutMappings) {e : String × String} (he : e ∈ m.entries) :
    m.get? e.1 = some e.2 := by
  obtain ⟨entries, hnodup⟩ := m
  have hfind : entries.find? (·.1 = e.1) = some e := by
    induction entries with
    | nil => cases he
    | cons first rest ih =>
      obtain ⟨hfirst, hrest⟩ := List.nodup_cons.1 hnodup
      rcases List.mem_cons.1 he with rfl | he
      · simp
      · have hne : first.1 ≠ e.1 := fun heq => hfirst (List.mem_map.2 ⟨e, he, heq.symm⟩)
        rw [List.find?_cons_of_neg (by simpa using hne), ih hrest he]
  rw [get?, hfind]
  rfl

namespace QpuData

def indicesOf (d : QpuData) (name : String) : List UInt64 :=
  (d.mappings.entries.filterMap (indexIn? name)).mergeSort

/-- The columns of a register, in the order of the mappings. -/
def columnsOf (d : QpuData) (name : String) : List ReadoutValues :=
  (d.mappings.entries.filter fun e => (indexIn? name e).isSome).filterMap fun e => d.readout.get? e.2

/-- What keeps the columns of a register from forming a matrix. -/
def registerFault? (d : QpuData) (name : String) : Option AssemblyError := columnFault? name (d.columnsOf name)

/-- The data form registers. -/
structure IsAssemblable (d : QpuData) : Prop where
  readable : ∀ e ∈ d.mappings.entries, ∃ r, slotOf? e = some r
  mapped : ∀ e ∈ d.mappings.entries, ∃ values, d.readout.get? e.2 = some values
  distinct : (d.mappings.entries.filterMap slotOf?).Nodup
  sameLength : ∀ name, Agree ReadoutValues.length (d.columnsOf name)
  sameKind : ∀ name, Agree ReadoutValues.kind (d.columnsOf name)

/-- The registers that the data form: those that mappings name, each with one column for a mapped index,
and in the column of the `i`-th lowest index the values that are mapped to it. -/
structure IsAssembly (d : QpuData) (m : RegisterMap) : Prop where
  mem_keys_iff : ∀ name, name ∈ m.keys ↔ ∃ e ∈ d.mappings.entries, ∃ index, slotOf? e = some ⟨name, index⟩
  slots : ∀ name M, m.get? name = some M → M.slots = (d.indicesOf name).length
  hasColumn : ∀ name M, m.get? name = some M → ∀ e ∈ d.mappings.entries, ∀ i index,
    slotOf? e = some ⟨name, index⟩ → (d.indicesOf name)[i]? = some index →
      ∃ values, d.readout.get? e.2 = some values ∧ d.values? e.1 = some values ∧ M.HasColumn i values

theorem mem_indicesOf {d : QpuData} {name : String} {index : UInt64} :
    index ∈ d.indicesOf name ↔ ∃ e ∈ d.mappings.entries, slotOf? e = some ⟨name, index⟩ := by
  simp [indicesOf, indexIn?_eq_some_iff]

theorem mem_columnsOf {d : QpuData} {name : String} {values : ReadoutValues} :
    values ∈ d.columnsOf name ↔
      ∃ e ∈ d.mappings.entries, ∃ index, slotOf? e = some ⟨name, index⟩ ∧ d.readout.get? e.2 = some values := by
  simp [columnsOf, Option.isSome_iff_exists, indexIn?_eq_some_iff, and_assoc]

/-- Looking a mapped slot up gives the values of its handle. -/
theorem values?_of_mem {d : QpuData} {e : String × String} (he : e ∈ d.mappings.entries) :
    d.values? e.1 = d.readout.get? e.2 := by
  rw [values?, d.mappings.get?_of_mem he]
  rfl

variable {d d' : QpuData} {m m' : RegisterMap}

/-- Registers that the data form are determined by the data. -/
theorem IsAssembly.unique (h : d.IsAssembly m) (h' : d.IsAssembly m') : m = m' := by
  refine SortedMap.ext_get? fun name => ?_
  have hkeys : name ∈ m.keys ↔ name ∈ m'.keys := by rw [h.mem_keys_iff, h'.mem_keys_iff]
  rw [SortedMap.mem_keys_iff, SortedMap.mem_keys_iff] at hkeys
  cases hM : m.get? name with
  | none =>
    cases hM' : m'.get? name with
    | none => rfl
    | some M' =>
      obtain ⟨M, hsome⟩ := hkeys.2 ⟨M', hM'⟩
      cases hM.symm.trans hsome
  | some M =>
    obtain ⟨M', hM'⟩ := hkeys.1 ⟨M, hM⟩
    have hslots := h.slots name M hM
    have hslots' := h'.slots name M' hM'
    -- A register has a mapping, so its matrix has a column.
    have hpos : 0 < M.slots := by
      obtain ⟨e, he, index, hr⟩ := (h.mem_keys_iff name).1 (SortedMap.mem_keys_iff.2 ⟨M, hM⟩)
      rw [hslots]
      exact List.length_pos_of_mem (mem_indicesOf.2 ⟨e, he, hr⟩)
    rw [hM']
    refine congrArg some (RegisterMatrix.ext_columns (hslots.trans hslots'.symm) hpos fun i hi => ?_)
    have hindex := List.getElem?_eq_getElem (hslots ▸ hi)
    obtain ⟨e, he, hr⟩ := mem_indicesOf.1 (List.mem_of_getElem? hindex)
    obtain ⟨values, hvalues, -, hcolumn⟩ := h.hasColumn name M hM e he i _ hr hindex
    obtain ⟨values', hvalues', -, hcolumn'⟩ := h'.hasColumn name M' hM' e he i _ hr hindex
    cases hvalues.symm.trans hvalues'
    exact ⟨values, hcolumn, hcolumn'⟩

/-! ## The order of the mappings -/

theorem indicesOf_congr (hperm : d'.mappings.entries.Perm d.mappings.entries) (name : String) :
    d'.indicesOf name = d.indicesOf name :=
  mergeSort_eq_of_perm ((hperm.filterMap _).trans (List.mergeSort_perm _ _).symm) (pairwise_mergeSort _)

theorem IsAssemblable.of_perm (h : d.IsAssemblable) (hperm : d'.mappings.entries.Perm d.mappings.entries)
    (hreadout : d'.readout = d.readout) : d'.IsAssemblable := by
  have hcolumns : ∀ name values, values ∈ d'.columnsOf name ↔ values ∈ d.columnsOf name := by
    intro name values
    simp only [mem_columnsOf, hperm.mem_iff, hreadout]
  constructor
  · intro e he
    exact h.readable e (hperm.mem_iff.1 he)
  · intro e he
    rw [hreadout]
    exact h.mapped e (hperm.mem_iff.1 he)
  · exact (hperm.filterMap slotOf?).nodup_iff.2 h.distinct
  · intro name
    exact (Agree.congr (hcolumns name)).2 (h.sameLength name)
  · intro name
    exact (Agree.congr (hcolumns name)).2 (h.sameKind name)

theorem IsAssembly.of_perm (h : d.IsAssembly m) (hperm : d'.mappings.entries.Perm d.mappings.entries)
    (hreadout : d'.readout = d.readout) : d'.IsAssembly m := by
  constructor
  · intro name
    rw [h.mem_keys_iff]
    simp only [hperm.mem_iff]
  · intro name M hM
    rw [h.slots name M hM, indicesOf_congr hperm]
  · intro name M hM e he i index hr hindex
    rw [indicesOf_congr hperm] at hindex
    obtain ⟨values, hvalues, -, hcolumn⟩ := h.hasColumn name M hM e (hperm.mem_iff.1 he) i index hr hindex
    rw [values?_of_mem he, hreadout]
    exact ⟨values, hvalues, hvalues, hcolumn⟩

/-! ## Assembling -/

theorem isAssemblable_iff (d : QpuData) :
    d.IsAssemblable ↔
      (∀ i, faultAt? d.readout d.mappings.entries i = none) ∧ ∀ name, d.registerFault? name = none := by
  constructor
  · intro h
    refine ⟨forall_faultAt?_eq_none_iff.2 ⟨h.readable, h.mapped, h.distinct⟩, fun name => ?_⟩
    exact columnFault?_eq_none_iff.2 ⟨h.sameLength name, h.sameKind name⟩
  · rintro ⟨hmappings, hregisters⟩
    obtain ⟨hreadable, hmapped, hdistinct⟩ := forall_faultAt?_eq_none_iff.1 hmappings
    have hagree (name : String) := columnFault?_eq_none_iff.1 (hregisters name)
    exact ⟨hreadable, hmapped, hdistinct, fun name => (hagree name).1, fun name => (hagree name).2⟩

end QpuData

namespace Collects

variable {d : QpuData} {columns : RegisterColumns}

/-- A register has columns just if a mapping is for it. -/
theorem exists_register_iff (h : Collects d.readout d.mappings.entries columns) (name : String) :
    (∃ register, columns.get? name = some register) ↔
      ∃ e ∈ d.mappings.entries, ∃ index, slotOf? e = some ⟨name, index⟩ := by
  constructor
  · rintro ⟨register, hregister⟩
    obtain ⟨index, values, hvalues⟩ := h.inhabited hregister
    have hcolumn : column? columns ⟨name, index⟩ = some values := by
      rw [column?, hregister]
      exact hvalues
    obtain ⟨e, he, hr, -⟩ := h.column?_iff.1 hcolumn
    exact ⟨e, he, index, hr⟩
  · rintro ⟨e, he, index, hr⟩
    obtain ⟨values, hvalues⟩ := Option.isSome_iff_exists.1 ((h.isSome_column?_iff _).2 ⟨e, he, hr⟩)
    obtain ⟨register, hregister, -⟩ := Option.bind_eq_some_iff.1 hvalues
    exact ⟨register, hregister⟩

/-- A register has the values of a handle at an index just if a mapping says so. -/
theorem get?_iff (h : Collects d.readout d.mappings.entries columns) {name : String}
    {register : SortedMap UInt64 ReadoutValues} (hregister : columns.get? name = some register)
    {index : UInt64} {values : ReadoutValues} :
    register.get? index = some values ↔
      ∃ e ∈ d.mappings.entries, slotOf? e = some ⟨name, index⟩ ∧ d.readout.get? e.2 = some values := by
  rw [← h.column?_iff, column?, hregister]
  rfl

/-- The fault of a register is that of its collected columns. -/
theorem registerFault?_eq (h : Collects d.readout d.mappings.entries columns) (name : String) :
    d.registerFault? name = (columns.get? name).bind fun register => columnFault? name register.values := by
  cases hregister : columns.get? name with
  | none =>
    have hnone : ∀ values, values ∉ d.columnsOf name := by
      intro values hvalues
      obtain ⟨e, he, index, hr, -⟩ := QpuData.mem_columnsOf.1 hvalues
      obtain ⟨register, hsome⟩ := (h.exists_register_iff name).2 ⟨e, he, index, hr⟩
      cases hregister.symm.trans hsome
    rw [QpuData.registerFault?, List.eq_nil_iff_forall_not_mem.2 hnone]
    rfl
  | some register =>
    refine columnFault?_congr fun values => ?_
    rw [QpuData.mem_columnsOf, SortedMap.mem_values_iff]
    constructor
    · rintro ⟨e, he, index, hmap⟩
      exact ⟨index, (h.get?_iff hregister).2 ⟨e, he, hmap⟩⟩
    · rintro ⟨index, hvalues⟩
      obtain ⟨e, he, hmap⟩ := (h.get?_iff hregister).1 hvalues
      exact ⟨e, he, index, hmap⟩

/-- The collected indices of a register are its mapped indices in order. -/
theorem indicesOf_eq (h : Collects d.readout d.mappings.entries columns)
    (hdistinct : (d.mappings.entries.filterMap slotOf?).Nodup) {name : String}
    {register : SortedMap UInt64 ReadoutValues} (hregister : columns.get? name = some register) :
    d.indicesOf name = register.keys := by
  have hlt : register.keys.Pairwise (· < ·) := register.pairwise_keys.imp Std.compare_eq_lt.1
  have hnodup := nodup_filterMap_indexIn? hdistinct name
  refine mergeSort_eq_of_perm ?_ (hlt.imp UInt64.le_of_lt)
  rw [List.perm_ext_iff_of_nodup hnodup (hlt.imp UInt64.ne_of_lt)]
  intro index
  simp only [List.mem_filterMap, indexIn?_eq_some_iff, SortedMap.mem_keys_iff]
  constructor
  · rintro ⟨e, he, hr⟩
    obtain ⟨-, values, -, hvalues⟩ := h.mapped e he
    exact ⟨values, (h.get?_iff hregister).2 ⟨e, he, hr, hvalues⟩⟩
  · rintro ⟨values, hvalues⟩
    obtain ⟨e, he, hr, -⟩ := (h.get?_iff hregister).1 hvalues
    exact ⟨e, he, hr⟩

/-- Stacking collected registers fails with the fault of the first register with one. -/
theorem assemble_eq_error_iff (h : Collects d.readout d.mappings.entries columns) {e : AssemblyError} :
    RegisterMap.assemble (fun name register => stackColumns name register.values) columns.entries = .error e ↔
      IsFirst d.registerFault? e := by
  have hregisters : d.registerFault? =
      fun name => (columns.get? name).bind fun register => columnFault? name register.values :=
    funext h.registerFault?_eq
  have hstack : ∀ name (register : SortedMap UInt64 ReadoutValues) e,
      stackColumns name register.values = .error e ↔ columnFault? name register.values = some e :=
    fun _ _ _ => stackColumns_eq_error_iff
  rw [hregisters]
  exact RegisterMap.assemble_entries_eq_error_iff columns hstack

/-- The matrices of collected registers are the registers that the data form. -/
theorem isAssembly (h : Collects d.readout d.mappings.entries columns)
    (hdistinct : (d.mappings.entries.filterMap slotOf?).Nodup) {results : List (String × RegisterMatrix)}
    (hresults : RegisterMap.assemble (fun name register => stackColumns name register.values) columns.entries =
      .ok results) :
    d.IsAssembly (SortedMap.ofList results) := by
  have hmatrices := RegisterMap.get?_of_assemble_entries hresults
  -- Each matrix of the result is that of a collected register, so its columns are in index order.
  have hstacked : ∀ name M, (SortedMap.ofList results).get? name = some M →
      ∃ register, columns.get? name = some register ∧ M.slots = register.values.length ∧
        ∀ i c, register.values[i]? = some c → M.HasColumn i c := by
    intro name M hM
    obtain ⟨register, hregister, hstack⟩ := ((hmatrices name).2 M).1 hM
    exact ⟨register, hregister, (of_stackColumns_eq_ok hstack).2⟩
  constructor
  · intro name
    rw [SortedMap.mem_keys_iff, ← h.exists_register_iff]
    constructor
    · rintro ⟨M, hM⟩
      obtain ⟨register, hregister, -⟩ := hstacked name M hM
      exact ⟨register, hregister⟩
    · rintro ⟨register, hregister⟩
      obtain ⟨M, hM⟩ := (hmatrices name).1 register hregister
      exact ⟨M, ((hmatrices name).2 M).2 ⟨register, hregister, hM⟩⟩
  · intro name M hM
    obtain ⟨register, hregister, hslots, -⟩ := hstacked name M hM
    rw [hslots, h.indicesOf_eq hdistinct hregister, SortedMap.length_values]
  · intro name M hM e he i index hr hindex
    obtain ⟨register, hregister, -, hcolumns⟩ := hstacked name M hM
    obtain ⟨-, values, -, hvalues⟩ := h.mapped e he
    rw [h.indicesOf_eq hdistinct hregister] at hindex
    have hcolumn : register.values[i]? = some values := by
      rw [SortedMap.values_getElem? hindex]
      exact (h.get?_iff hregister).2 ⟨e, he, hr, hvalues⟩
    exact ⟨values, hvalues, (QpuData.values?_of_mem he).trans hvalues, hcolumns i values hcolumn⟩

end Collects

namespace QpuData

variable {d : QpuData}

/-- Assembly fails with the first fault of a mapping, or else with that of the first register with one. -/
theorem ofQpu_eq_error_iff {e : AssemblyError} :
    RegisterMap.ofQpu d = .error e ↔
      IsFirst (faultAt? d.readout d.mappings.entries) e ∨
        (∀ i, faultAt? d.readout d.mappings.entries i = none) ∧ IsFirst d.registerFault? e := by
  unfold RegisterMap.ofQpu
  cases hadd : RegisterMap.addMappings d.readout .empty d.mappings.entries with
  | error e' =>
    have hfirst := addMappings_empty_eq_error_iff.1 hadd
    rw [← addMappings_empty_eq_error_iff, hadd]
    constructor
    · rintro ⟨⟩
      exact Or.inl rfl
    · rintro (⟨⟨⟩⟩ | ⟨hnone, -⟩)
      · rfl
      · exact absurd hfirst (not_isFirst hnone e')
  | ok columns =>
    obtain ⟨hnone, hcollects⟩ := of_addMappings_empty_eq_ok hadd
    rw [← hcollects.assemble_eq_error_iff]
    simp only [not_isFirst hnone, hnone, false_or, implies_true, true_and]
    cases RegisterMap.assemble (fun name register => stackColumns name register.values) columns.entries with
    | error e' => simp [Except.map]
    | ok results => simp [Except.map]

/-- When assembly succeeds, the data form registers, and these are the result. -/
theorem of_ofQpu_eq_ok {m : RegisterMap} (h : RegisterMap.ofQpu d = .ok m) : d.IsAssemblable ∧ d.IsAssembly m := by
  unfold RegisterMap.ofQpu at h
  cases hadd : RegisterMap.addMappings d.readout .empty d.mappings.entries with
  | error e =>
    rw [hadd] at h
    cases h
  | ok columns =>
    obtain ⟨hmappings, hcollects⟩ := of_addMappings_empty_eq_ok hadd
    rw [hadd] at h
    cases hresults : RegisterMap.assemble (fun name register => stackColumns name register.values)
        columns.entries with
    | error e =>
      simp only [hresults] at h
      cases h
    | ok results =>
      simp only [hresults] at h
      cases h
      have hregisters : ∀ name, d.registerFault? name = none := by
        intro name
        rw [hcollects.registerFault?_eq]
        cases hregister : columns.get? name with
        | none => rfl
        | some register =>
          obtain ⟨M, hM⟩ := (RegisterMap.get?_of_assemble_entries hresults name).1 register hregister
          exact (of_stackColumns_eq_ok hM).1
      have hassemblable := (isAssemblable_iff d).2 ⟨hmappings, hregisters⟩
      exact ⟨hassemblable, hcollects.isAssembly hassemblable.distinct hresults⟩

/-- Assembly succeeds for data that form registers. -/
theorem IsAssemblable.exists_ofQpu_eq_ok (h : d.IsAssemblable) : ∃ m, RegisterMap.ofQpu d = .ok m := by
  obtain ⟨hmappings, hregisters⟩ := (isAssemblable_iff d).1 h
  cases hm : RegisterMap.ofQpu d with
  | ok m => exact ⟨m, rfl⟩
  | error e =>
    rcases ofQpu_eq_error_iff.1 hm with he | ⟨-, he⟩
    · exact absurd he (not_isFirst hmappings e)
    · exact absurd he (not_isFirst hregisters e)

/-- Assembly gives registers just if the data form them. -/
theorem ofQpu_eq_ok_iff {m : RegisterMap} : RegisterMap.ofQpu d = .ok m ↔ d.IsAssemblable ∧ d.IsAssembly m := by
  constructor
  · exact of_ofQpu_eq_ok
  · rintro ⟨hassemblable, hassembly⟩
    obtain ⟨m', hm'⟩ := hassemblable.exists_ofQpu_eq_ok
    rw [hm', hassembly.unique (of_ofQpu_eq_ok hm').2]

end QpuData

/-- The registers of hardware readout. Assembly succeeds just if the data form registers, and then gives
these; mappings in another order give the same. Otherwise the error is the first fault of a mapping, in
the order of the mappings, or, if no mapping has one, the first fault of a register, in the order of
names. -/
theorem ResultData.toRegisterMap_qpu (d : QpuData) :
    ((∃ m, (ResultData.qpu d).toRegisterMap = .ok m) ↔ d.IsAssemblable) ∧
    (∀ m, (ResultData.qpu d).toRegisterMap = .ok m ↔ d.IsAssemblable ∧ d.IsAssembly m) ∧
    (∀ d' : QpuData, d'.mappings.entries.Perm d.mappings.entries → d'.readout = d.readout →
      ∀ m, (ResultData.qpu d').toRegisterMap = .ok m ↔ (ResultData.qpu d).toRegisterMap = .ok m) ∧
    ∀ e, (ResultData.qpu d).toRegisterMap = .error e ↔
      IsFirst (faultAt? d.readout d.mappings.entries) e ∨
        (∀ i, faultAt? d.readout d.mappings.entries i = none) ∧ IsFirst d.registerFault? e := by
  refine ⟨⟨?_, ?_⟩, fun m => QpuData.ofQpu_eq_ok_iff, ?_, fun e => QpuData.ofQpu_eq_error_iff⟩
  · rintro ⟨m, hm⟩
    exact (QpuData.ofQpu_eq_ok_iff.1 hm).1
  · exact QpuData.IsAssemblable.exists_ofQpu_eq_ok
  · intro d' hperm hreadout m
    rw [toRegisterMap, toRegisterMap, QpuData.ofQpu_eq_ok_iff, QpuData.ofQpu_eq_ok_iff]
    constructor
    · rintro ⟨hassemblable, hassembly⟩
      exact ⟨hassemblable.of_perm hperm.symm hreadout.symm, hassembly.of_perm hperm.symm hreadout.symm⟩
    · rintro ⟨hassemblable, hassembly⟩
      exact ⟨hassemblable.of_perm hperm hreadout, hassembly.of_perm hperm hreadout⟩

/-- Two slots of one register, the higher index mapped first. As texts the keys are in order. -/
def QpuData.tenAndTwo : QpuData where
  mappings := ⟨[("ro[10]", "b"), ("ro[2]", "a")], by decide⟩
  readout := ⟨[("a", .integer [1, 0]), ("b", .integer [0, 1])], by unfold Increasing; decide⟩
  memory := .empty

/-- The same slots, the lower index mapped first. -/
def QpuData.twoAndTen : QpuData :=
  { tenAndTwo with mappings := ⟨[("ro[2]", "a"), ("ro[10]", "b")], by decide⟩ }

theorem QpuData.isAssemblable_tenAndTwo : tenAndTwo.IsAssemblable := by
  have hcolumns : ∀ name, ∀ values ∈ tenAndTwo.columnsOf name, values.length = 2 ∧ values.kind = .integer := by
    intro name values hvalues
    obtain ⟨e, he, index, -, hvalues⟩ := mem_columnsOf.1 hvalues
    rcases List.mem_pair.1 he with rfl | rfl
    · cases hvalues
      exact ⟨rfl, rfl⟩
    · cases hvalues
      exact ⟨rfl, rfl⟩
  constructor
  · intro e he
    rcases List.mem_pair.1 he with rfl | rfl
    · exact ⟨⟨"ro", 10⟩, by decide⟩
    · exact ⟨⟨"ro", 2⟩, by decide⟩
  · intro e he
    rcases List.mem_pair.1 he with rfl | rfl
    · exact ⟨_, rfl⟩
    · exact ⟨_, rfl⟩
  · decide
  · intro name x hx y hy
    rw [(hcolumns name x hx).1, (hcolumns name y hy).1]
  · intro name x hx y hy
    rw [(hcolumns name x hx).2, (hcolumns name y hy).2]

theorem ResultData.toRegisterMap_qpu_tenAndTwo :
    ∃ m M, (ResultData.qpu .tenAndTwo).toRegisterMap = .ok m ∧ (ResultData.qpu .twoAndTen).toRegisterMap = .ok m ∧
      m.get? "ro" = some M ∧ M.slots = 2 ∧
      M.HasColumn 0 (.integer [1, 0]) ∧ M.HasColumn 1 (.integer [0, 1]) := by
  obtain ⟨hsuccess, hregisters, horder, -⟩ := toRegisterMap_qpu .tenAndTwo
  obtain ⟨m, hm⟩ := hsuccess.2 QpuData.isAssemblable_tenAndTwo
  have hswapped := (horder .twoAndTen (List.Perm.swap ..) rfl m).2 hm
  obtain ⟨-, hassembly⟩ := (hregisters m).1 hm
  have hindices : QpuData.tenAndTwo.indicesOf "ro" = [2, 10] :=
    mergeSort_eq_of_perm (List.Perm.swap ..) (by decide)
  have hkey : "ro" ∈ m.keys := by
    rw [hassembly.mem_keys_iff]
    exact ⟨("ro[2]", "a"), by decide, 2, by decide⟩
  obtain ⟨M, hM⟩ := SortedMap.mem_keys_iff.1 hkey
  have hslots := hassembly.slots "ro" M hM
  obtain ⟨values, hvalues, -, hfirst⟩ :=
    hassembly.hasColumn "ro" M hM ("ro[2]", "a") (by decide) 0 2 (by decide) (by rw [hindices]; rfl)
  obtain ⟨values', hvalues', -, hsecond⟩ :=
    hassembly.hasColumn "ro" M hM ("ro[10]", "b") (by decide) 1 10 (by decide) (by rw [hindices]; rfl)
  cases hvalues
  cases hvalues'
  rw [hindices] at hslots
  exact ⟨m, M, hm, hswapped, hM, hslots, hfirst, hsecond⟩

end QuilControl
