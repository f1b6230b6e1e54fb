import QuilControl.Proofs.Expr.Slot
import QuilControl.Proofs.Readout.Assembly

/-!
# The two forms of a run

A simulator gives the rows of a register, in narrow number types; hardware gives a column for each slot, in
wide types, under handles that slots are mapped to. A `Recording` holds both forms of the same shots: any
indices in increasing order for the slots of a register, and a handle of its own for each slot. Rows stack to
the matrix that has their columns (`RegisterData.exists_toMatrix`), so the rows form the registers that the
readout forms (`Recording.isAssembly`), in whatever order registers are converted and slots are mapped
(`ResultData.toRegisterMap_recording`).
-/

namespace QuilControl

variable {α β : Type}

/-! ## Rows and columns -/

/-- A column of rows, converted. -/
def columnOf (convert : α → β) (rows : List (List α)) (slot : Nat) : List β :=
  rows.filterMap fun row => row[slot]?.map convert

/-- In rows that are long enough, the column has the entry of every row. -/
theorem getElem?_columnOf {convert : α → β} {rows : List (List α)} {slot : Nat}
    (h : ∀ row ∈ rows, slot < row.length) (shot : Nat) :
    (columnOf convert rows slot)[shot]? = rows[shot]?.bind fun row => row[slot]?.map convert :=
  Grid.getElem?_filterMap_of_isSome (fun row hrow => by simp [h row hrow]) shot

theorem length_columnOf {convert : α → β} {rows : List (List α)} {slot : Nat}
    (h : ∀ row ∈ rows, slot < row.length) : (columnOf convert rows slot).length = rows.length := by
  rw [columnOf, List.length_filterMap_eq_countP, List.countP_eq_length]
  intro row hrow
  simp [h row hrow]

/-- A grid of rows: its shape is the number of rows by their common length, and the entry in row `s` and
column `i` is entry `i` of row `s`. -/
theorem Grid.ofRows?_eq_some {n : Nat} {lists : List (List α)} (hne : lists ≠ []) (h : ∀ l ∈ lists, l.length = n) :
    ∃ g, ofRows? lists = some g ∧ g.rows = lists.length ∧ g.columns = n ∧
      ∀ s i, g.get? s i = lists[s]?.bind (·[i]?) := by
  have hwidth : width lists = n := by
    obtain ⟨first, rest, rfl⟩ := List.exists_cons_of_ne_nil hne
    exact h first List.mem_cons_self
  subst hwidth
  refine ⟨_, dif_pos h, rfl, rfl, fun s i => ?_⟩
  rw [get?, Grid.lists, pieces_flatten h]

namespace Picks

variable {pick : ReadoutValues → Option (List α)} {form : List α → ReadoutValues} {make : Grid α → RegisterMatrix}
  {wrap : α → ReadoutValue} {kind : ValueKind}

theorem kind_form (p : Picks pick form make wrap kind) (values : List α) : (form values).kind = kind := by
  by_contra hne
  cases (p.pick_form values).symm.trans (p.pick_eq_none _ hne)

/-- Rows of one length stack to a matrix with their columns. -/
theorem exists_stackRows (p : Picks pick form make wrap kind) (register : String) (convert : β → α) {n : Nat}
    {rows : List (List β)} (hne : rows ≠ []) (h : ∀ row ∈ rows, row.length = n) :
    ∃ M, (stackRows register convert rows).map make = .ok M ∧ M.slots = n ∧
      ∀ i < n, M.HasColumn i (form (columnOf convert rows i)) := by
  have hconverted : ∀ l ∈ rows.map (·.map convert), l.length = n := by
    intro l hl
    obtain ⟨row, hrow, rfl⟩ := List.mem_map.1 hl
    rw [List.length_map, h row hrow]
  obtain ⟨g, hg, hrows, hcolumns, hentries⟩ := Grid.ofRows?_eq_some (by simpa using hne) hconverted
  refine ⟨make g, ?_, by rw [p.slots_make, hcolumns], fun i hi => ?_⟩
  · rw [stackRows, hg]
    rfl
  · have hlong : ∀ row ∈ rows, i < row.length := fun row hrow => (h row hrow).symm ▸ hi
    constructor
    · rw [p.shots_make, hrows, p.length_form, length_columnOf hlong, List.length_map]
    · rw [p.kind_make, p.kind_form]
    · intro shot
      rw [p.get?_make, hentries, p.get?_form, getElem?_columnOf hlong, List.getElem?_map]
      cases rows[shot]? <;> simp

end Picks

namespace RegisterData

def HasWidth (n : Nat) : RegisterData → Prop
  | bytes rows => ∀ row ∈ rows, row.length = n
  | words rows => ∀ row ∈ rows, row.length = n
  | reals rows => ∀ row ∈ rows, row.length = n
  | complexes rows => ∀ row ∈ rows, row.length = n

/-- The values of a slot, shot by shot, in the wide types of readout. -/
def column (slot : Nat) : RegisterData → ReadoutValues
  | bytes rows => .integer (columnOf Int8.toInt64 rows slot)
  | words rows => .integer (columnOf Int16.toInt64 rows slot)
  | reals rows => .real (columnOf id rows slot)
  | complexes rows => .complex (columnOf ComplexNumber.widen rows slot)

/-- Rectangular rows, at least one, form a matrix with their columns. -/
theorem exists_toMatrix {data : RegisterData} {n : Nat} (hshots : 0 < data.shots) (h : data.HasWidth n)
    (register : String) :
    ∃ M, data.toMatrix register = .ok M ∧ M.slots = n ∧ ∀ i < n, M.HasColumn i (data.column i) := by
  cases data with
  | bytes rows =>
    exact picks_asInteger?.exists_stackRows register Int8.toInt64 (List.ne_nil_of_length_pos hshots) h
  | words rows =>
    exact picks_asInteger?.exists_stackRows register Int16.toInt64 (List.ne_nil_of_length_pos hshots) h
  | reals rows => exact picks_asReal?.exists_stackRows register id (List.ne_nil_of_length_pos hshots) h
  | complexes rows =>
    exact picks_asComplex?.exists_stackRows register ComplexNumber.widen (List.ne_nil_of_length_pos hshots) h

end RegisterData

/-! ## Simulators -/

/-- Registers of different names, all of which form matrices, give these whatever the order. -/
theorem RegisterMap.exists_ofRegisters {named : List (String × RegisterData)} (hnodup : (named.map (·.1)).Nodup)
    (h : ∀ a ∈ named, ∃ M, a.2.toMatrix a.1 = .ok M) :
    ∃ m, ofRegisters named = .ok m ∧
      ∀ name M, m.get? name = some M ↔ ∃ data, (name, data) ∈ named ∧ data.toMatrix name = .ok M := by
  cases hresults : assemble (fun name (data : RegisterData) => data.toMatrix name) named with
  | error e =>
    obtain ⟨before, a, after, rfl, ha, -⟩ := assemble_eq_error_iff.1 hresults
    obtain ⟨M, hM⟩ := h a (List.mem_append_right _ List.mem_cons_self)
    cases hM.symm.trans ha
  | ok results =>
    refine ⟨SortedMap.ofList results, by rw [ofRegisters, hresults]; rfl, fun name M => ?_⟩
    exact (get?_of_assemble hnodup hresults name).2 M

/-! ## Recordings -/

/-- A register as both sides record it: rows for a simulator, and on hardware an index and a readout handle
for each slot. -/
structure RecordedRegister where
  name : String
  data : RegisterData
  /-- The index and the handle of each slot. -/
  slots : List (UInt64 × String)
  isRegionName : MemoryReference.isRegionName name.toList = true
  shots_pos : 0 < data.shots
  slots_ne_nil : slots ≠ []
  hasWidth : data.HasWidth slots.length
  increasing : (slots.map (·.1)).Pairwise (· < ·)

/-- The registers of a run, with names of their own and a handle of its own for every slot. -/
structure Recording where
  registers : List RecordedRegister
  nodup_names : (registers.map (·.name)).Nodup
  nodup_handles : ((registers.flatMap (·.slots)).map (·.2)).Nodup

namespace RecordedRegister

def mappings (r : RecordedRegister) : List (String × String) :=
  r.slots.map fun s => (MemoryReference.text ⟨r.name, s.1⟩, s.2)

/-- The handles with the columns that they read out. -/
def readout (r : RecordedRegister) : List (String × ReadoutValues) :=
  r.slots.zipIdx.map fun s => (s.1.2, r.data.column s.2)

theorem mem_mappings {r : RecordedRegister} {e : String × String} :
    e ∈ r.mappings ↔ ∃ (i : Nat) (s : UInt64 × String), r.slots[i]? = some s ∧
      e = (MemoryReference.text ⟨r.name, s.1⟩, s.2) := by
  rw [mappings, List.mem_map]
  simp only [List.mem_iff_getElem?]
  constructor
  · rintro ⟨s, ⟨i, hi⟩, rfl⟩
    exact ⟨i, s, hi, rfl⟩
  · rintro ⟨i, s, hi, rfl⟩
    exact ⟨s, ⟨i, hi⟩, rfl⟩

theorem mem_readout {r : RecordedRegister} {i : Nat} {s : UInt64 × String} (h : r.slots[i]? = some s) :
    (s.2, r.data.column i) ∈ r.readout :=
  List.mem_map.2 ⟨(s, i), List.mk_mem_zipIdx_iff_getElem?.2 h, rfl⟩

theorem map_fst_readout (r : RecordedRegister) : r.readout.map (·.1) = r.slots.map (·.2) := by
  conv_rhs => rw [← List.zipIdx_map_fst 0 r.slots]
  rw [readout, List.map_map, List.map_map]
  rfl

/-- The key of a mapping names its slot. -/
theorem slotOf?_mapping (r : RecordedRegister) (s : UInt64 × String) :
    slotOf? (MemoryReference.text ⟨r.name, s.1⟩, s.2) = some ⟨r.name, s.1⟩ := by
  rw [slotOf?, MemoryReference.text, String.toList_ofList]
  exact MemoryReference.ofChars?_of_writtenAs r.isRegionName (MemoryReference.writtenAs_chars _)

theorem filterMap_slotOf?_mappings (r : RecordedRegister) :
    r.mappings.filterMap slotOf? = r.slots.map fun s => ⟨r.name, s.1⟩ := by
  rw [mappings, List.filterMap_map, List.filterMap_eq_map_iff_forall_eq_some]
  intro s _
  rw [Function.comp_apply, r.slotOf?_mapping]

end RecordedRegister

namespace Recording

/-- What a simulator gives: the rows of each register. -/
def rows (R : Recording) : List (String × RegisterData) := R.registers.map fun r => (r.name, r.data)

def mappings (R : Recording) : List (String × String) := R.registers.flatMap RecordedRegister.mappings

/-- What hardware gives: the column of each handle. -/
def readout (R : Recording) : SortedMap String ReadoutValues :=
  .ofList (R.registers.flatMap RecordedRegister.readout)

variable {R : Recording}

theorem nodup_rows (R : Recording) : (R.rows.map (·.1)).Nodup := by
  rw [rows, List.map_map]
  exact R.nodup_names

/-- Registers of one name are the same. -/
theorem eq_of_name_eq {r r' : RecordedRegister} (hr : r ∈ R.registers) (hr' : r' ∈ R.registers)
    (h : r.name = r'.name) : r = r' :=
  List.inj_on_of_nodup_map R.nodup_names hr hr' h

theorem mem_mappings {e : String × String} :
    e ∈ R.mappings ↔ ∃ r ∈ R.registers, ∃ (i : Nat) (s : UInt64 × String), r.slots[i]? = some s ∧
      e = (MemoryReference.text ⟨r.name, s.1⟩, s.2) := by
  simp only [mappings, List.mem_flatMap, RecordedRegister.mem_mappings]

/-- Each handle reads out its column. -/
theorem get?_readout {r : RecordedRegister} (hr : r ∈ R.registers) {i : Nat} {s : UInt64 × String}
    (hs : r.slots[i]? = some s) : R.readout.get? s.2 = some (r.data.column i) := by
  have hkeys : ((R.registers.flatMap RecordedRegister.readout).map (·.1)).Nodup := by
    simpa only [List.map_flatMap, RecordedRegister.map_fst_readout] using R.nodup_handles
  exact SortedMap.get?_ofList_of_mem hkeys (List.mem_flatMap.2 ⟨r, hr, RecordedRegister.mem_readout hs⟩)

/-- No two mappings are for one slot. -/
theorem nodup_slots (R : Recording) : (R.mappings.filterMap slotOf?).Nodup := by
  rw [mappings, List.filterMap_flatMap]
  simp only [RecordedRegister.filterMap_slotOf?_mappings]
  rw [List.nodup_flatMap]
  constructor
  · intro r _
    have hindices := List.pairwise_map.1 r.increasing
    rw [List.Nodup, List.pairwise_map]
    refine hindices.imp fun {s s'} hlt => ?_
    intro heq
    exact UInt64.ne_of_lt hlt (MemoryReference.mk.inj heq).2
  · refine (List.pairwise_map.1 R.nodup_names).imp fun {r r'} hne slot hslot hslot' => hne ?_
    obtain ⟨s, -, rfl⟩ := List.mem_map.1 hslot
    obtain ⟨s', -, heq⟩ := List.mem_map.1 hslot'
    exact (MemoryReference.mk.inj heq).1.symm

/-- The mappings have different keys, in any order. -/
theorem nodup_keys {entries : List (String × String)} (h : entries.Perm R.mappings) :
    (entries.map (·.1)).Nodup := by
  have hslots := (h.filterMap slotOf?).nodup_iff.2 R.nodup_slots
  rw [List.Nodup, List.pairwise_filterMap] at hslots
  rw [List.Nodup, List.pairwise_map]
  refine hslots.imp_of_mem fun {e e'} he _ hne => ?_
  obtain ⟨r, -, i, s, -, rfl⟩ := mem_mappings.1 (h.mem_iff.1 he)
  have hslot := r.slotOf?_mapping s
  intro heq
  refine hne _ hslot _ ?_ rfl
  rw [slotOf?, ← heq]
  exact hslot

def simulator (R : Recording) : SortedMap String RegisterData := .ofList R.rows

/-- Hardware readout, with the mappings in some order, and any final memory. -/
def hardware (R : Recording) {entries : List (String × String)} (h : entries.Perm R.mappings)
    (memory : SortedMap String MemoryValues) : QpuData :=
  ⟨⟨entries, R.nodup_keys h⟩, R.readout, memory⟩

/-- The registers of a recording: the matrix of the rows of each. -/
def IsRegisterMap (R : Recording) (m : RegisterMap) : Prop :=
  ∀ name M, m.get? name = some M ↔ ∃ data, (name, data) ∈ R.rows ∧ data.toMatrix name = .ok M

theorem IsRegisterMap.get?_iff {m : RegisterMap} (hm : R.IsRegisterMap m) {name : String} {M : RegisterMatrix} :
    m.get? name = some M ↔ ∃ r ∈ R.registers, r.name = name ∧ r.data.toMatrix r.name = .ok M := by
  rw [hm, rows]
  constructor
  · rintro ⟨data, hdata, hM⟩
    obtain ⟨r, hr, heq⟩ := List.mem_map.1 hdata
    obtain ⟨rfl, rfl⟩ := Prod.mk.inj heq
    exact ⟨r, hr, rfl, hM⟩
  · rintro ⟨r, hr, rfl, hM⟩
    exact ⟨r.data, List.mem_map_of_mem (f := fun r => (r.name, r.data)) hr, hM⟩

/-! ### Hardware -/

section Hardware

variable {d : QpuData} (hmappings : d.mappings.entries.Perm R.mappings) (hreadout : d.readout = R.readout)

include hmappings

/-- The mappings of a register are those of its slots. -/
theorem exists_mapping_iff {r : RecordedRegister} (hr : r ∈ R.registers) {index : UInt64} :
    (∃ e ∈ d.mappings.entries, slotOf? e = some ⟨r.name, index⟩) ↔ index ∈ r.slots.map (·.1) := by
  rw [List.mem_map]
  constructor
  · rintro ⟨e, he, hslot⟩
    obtain ⟨r', hr', i, s, hs, rfl⟩ := mem_mappings.1 (hmappings.mem_iff.1 he)
    rw [r'.slotOf?_mapping] at hslot
    obtain ⟨hname, rfl⟩ := MemoryReference.mk.inj (Option.some.inj hslot)
    obtain rfl := eq_of_name_eq hr' hr hname
    exact ⟨s, List.mem_of_getElem? hs, rfl⟩
  · rintro ⟨s, hs, rfl⟩
    obtain ⟨i, hi⟩ := List.mem_iff_getElem?.1 hs
    exact ⟨_, hmappings.mem_iff.2 (mem_mappings.2 ⟨r, hr, i, s, hi, rfl⟩), r.slotOf?_mapping s⟩

theorem nodup_slots_of_perm : (d.mappings.entries.filterMap slotOf?).Nodup :=
  (hmappings.filterMap slotOf?).nodup_iff.2 R.nodup_slots

/-- The mapped indices of a register are those of its slots, in order. -/
theorem indicesOf_eq {r : RecordedRegister} (hr : r ∈ R.registers) : d.indicesOf r.name = r.slots.map (·.1) := by
  refine mergeSort_eq_of_perm ?_ (r.increasing.imp UInt64.le_of_lt)
  have hnodup := nodup_filterMap_indexIn? (nodup_slots_of_perm hmappings) r.name
  rw [List.perm_ext_iff_of_nodup hnodup (r.increasing.imp UInt64.ne_of_lt)]
  intro index
  rw [← exists_mapping_iff hmappings hr]
  simp only [List.mem_filterMap, indexIn?_eq_some_iff]

include hreadout

/-- The columns of a register are those of its rows. -/
theorem exists_of_mem_columnsOf {name : String} {values : ReadoutValues} (h : values ∈ d.columnsOf name) :
    ∃ r ∈ R.registers, r.name = name ∧ ∃ i < r.slots.length, values = r.data.column i := by
  obtain ⟨e, he, index, hslot, hvalues⟩ := QpuData.mem_columnsOf.1 h
  obtain ⟨r, hr, i, s, hs, rfl⟩ := mem_mappings.1 (hmappings.mem_iff.1 he)
  rw [r.slotOf?_mapping] at hslot
  rw [hreadout, get?_readout hr hs] at hvalues
  refine ⟨r, hr, (MemoryReference.mk.inj (Option.some.inj hslot)).1, i, ?_, (Option.some.inj hvalues).symm⟩
  exact (List.getElem?_eq_some_iff.1 hs).1

theorem isAssemblable : d.IsAssemblable := by
  have hagree : ∀ name, ∀ x ∈ d.columnsOf name, ∀ y ∈ d.columnsOf name, x.length = y.length ∧ x.kind = y.kind := by
    intro name x hx y hy
    obtain ⟨r, hr, rfl, i, hi, rfl⟩ := exists_of_mem_columnsOf hmappings hreadout hx
    obtain ⟨r', hr', hname, j, hj, rfl⟩ := exists_of_mem_columnsOf hmappings hreadout hy
    obtain rfl := eq_of_name_eq hr' hr hname
    obtain ⟨M, -, -, hcolumns⟩ := RegisterData.exists_toMatrix r'.shots_pos r'.hasWidth r'.name
    have hx := hcolumns i hi
    have hy := hcolumns j hj
    exact ⟨hx.shots.symm.trans hy.shots, hx.kind.symm.trans hy.kind⟩
  constructor
  · intro e he
    obtain ⟨r, hr, i, s, hs, rfl⟩ := mem_mappings.1 (hmappings.mem_iff.1 he)
    exact ⟨_, r.slotOf?_mapping s⟩
  · intro e he
    obtain ⟨r, hr, i, s, hs, rfl⟩ := mem_mappings.1 (hmappings.mem_iff.1 he)
    exact ⟨_, hreadout ▸ get?_readout hr hs⟩
  · exact nodup_slots_of_perm hmappings
  · exact fun name x hx y hy => (hagree name x hx y hy).1
  · exact fun name x hx y hy => (hagree name x hx y hy).2

/-- The registers of the rows are those that hardware readout forms. -/
theorem isAssembly {m : RegisterMap} (hm : R.IsRegisterMap m) : d.IsAssembly m := by
  have hmatrix : ∀ name M, m.get? name = some M → ∃ r ∈ R.registers, r.name = name ∧
      M.slots = r.slots.length ∧ ∀ i < r.slots.length, M.HasColumn i (r.data.column i) := by
    intro name M hM
    obtain ⟨r, hr, rfl, hmatrix⟩ := hm.get?_iff.1 hM
    obtain ⟨M', hM', hslots, hcolumns⟩ := RegisterData.exists_toMatrix r.shots_pos r.hasWidth r.name
    cases hM'.symm.trans hmatrix
    exact ⟨r, hr, rfl, hslots, hcolumns⟩
  constructor
  · intro name
    rw [SortedMap.mem_keys_iff]
    constructor
    · rintro ⟨M, hM⟩
      obtain ⟨r, hr, rfl, -⟩ := hmatrix name M hM
      obtain ⟨s, hs⟩ := List.exists_mem_of_ne_nil _ r.slots_ne_nil
      obtain ⟨e, he, hslot⟩ := (exists_mapping_iff hmappings hr).2 (List.mem_map_of_mem hs)
      exact ⟨e, he, _, hslot⟩
    · rintro ⟨e, he, index, hslot⟩
      obtain ⟨r, hr, i, s, hs, rfl⟩ := mem_mappings.1 (hmappings.mem_iff.1 he)
      rw [r.slotOf?_mapping] at hslot
      obtain ⟨M, hM, -⟩ := RegisterData.exists_toMatrix r.shots_pos r.hasWidth r.name
      exact ⟨M, hm.get?_iff.2 ⟨r, hr, (MemoryReference.mk.inj (Option.some.inj hslot)).1, hM⟩⟩
  · intro name M hM
    obtain ⟨r, hr, rfl, hslots, -⟩ := hmatrix name M hM
    rw [hslots, indicesOf_eq hmappings hr, List.length_map]
  · intro name M hM e he i index hslot hindex
    obtain ⟨r, hr, rfl, hslots, hcolumns⟩ := hmatrix name M hM
    obtain ⟨r', hr', j, s, hs, rfl⟩ := mem_mappings.1 (hmappings.mem_iff.1 he)
    rw [r'.slotOf?_mapping] at hslot
    obtain ⟨hname, rfl⟩ := MemoryReference.mk.inj (Option.some.inj hslot)
    obtain rfl := eq_of_name_eq hr' hr hname
    -- Indices do not repeat, so the place of the index is the place of the slot.
    have hj : (r'.slots.map (·.1))[j]? = some s.1 := by
      rw [List.getElem?_map, hs]
      rfl
    rw [indicesOf_eq hmappings hr] at hindex
    have hnodup : (r'.slots.map (·.1)).Nodup := r'.increasing.imp UInt64.ne_of_lt
    obtain rfl : i = j :=
      (List.getElem?_inj (List.getElem?_eq_some_iff.1 hindex).1 hnodup).1 (hindex.trans hj.symm)
    have hvalues : d.readout.get? s.2 = some (r'.data.column i) := hreadout ▸ get?_readout hr hs
    refine ⟨_, hvalues, ?_, hcolumns i (List.getElem?_eq_some_iff.1 hs).1⟩
    rw [QpuData.values?_of_mem he, hvalues]

end Hardware

end Recording

/-- **The two forms of a run.** Rows of a simulator, converted in any order, and columns of hardware, mapped in
any order, form the same registers. -/
theorem ResultData.toRegisterMap_recording (R : Recording) :
    ∃ m : RegisterMap,
      (ResultData.qvm R.simulator).toRegisterMap = .ok m ∧
      (∀ named, named.Perm R.rows → RegisterMap.ofRegisters named = .ok m) ∧
      ∀ (entries : List (String × String)) (h : entries.Perm R.mappings) (memory : SortedMap String MemoryValues),
        (ResultData.qpu (R.hardware h memory)).toRegisterMap = .ok m := by
  have hforms : ∀ a ∈ R.rows, ∃ M, a.2.toMatrix a.1 = .ok M := by
    intro a ha
    obtain ⟨r, -, rfl⟩ := List.mem_map.1 ha
    obtain ⟨M, hM, -⟩ := RegisterData.exists_toMatrix r.shots_pos r.hasWidth r.name
    exact ⟨M, hM⟩
  have hordered : ∀ named, named.Perm R.rows → ∃ m, RegisterMap.ofRegisters named = .ok m ∧ R.IsRegisterMap m := by
    intro named hperm
    have hnodup := (hperm.map (·.1)).nodup_iff.2 R.nodup_rows
    obtain ⟨m, hm, hget⟩ :=
      RegisterMap.exists_ofRegisters hnodup fun a ha => hforms a (hperm.mem_iff.1 ha)
    refine ⟨m, hm, fun name M => ?_⟩
    simp only [hget, hperm.mem_iff]
  obtain ⟨m, -, hm⟩ := hordered R.rows (List.Perm.refl _)
  have hsame : ∀ named, named.Perm R.rows → RegisterMap.ofRegisters named = .ok m := by
    intro named hperm
    obtain ⟨m', hm', hget⟩ := hordered named hperm
    have heq : m' = m := SortedMap.ext_get? fun name => Option.ext fun M => by rw [hget, hm]
    rw [hm', heq]
  refine ⟨m, hsame _ ?_, hsame, fun entries h memory => ?_⟩
  · rw [List.perm_ext_iff_of_nodup (List.Nodup.of_map _ R.simulator.nodup_keys) (List.Nodup.of_map _ R.nodup_rows)]
    intro a
    rw [← SortedMap.get?_ofList_eq_some_iff R.nodup_rows, SortedMap.get?_eq_some_iff]
    rfl
  · have hassemblable := R.isAssemblable (d := R.hardware h memory) h rfl
    exact QpuData.ofQpu_eq_ok_iff.2 ⟨hassemblable, R.isAssembly h rfl hm⟩

/-- Two shots of a register with slots 2 and 10, and of a complex one with slot 0. -/
def Recording.twoRegisters : Recording where
  registers := [
    { name := "ro"
      data := .bytes [[0, 1], [-1, 1]]
      slots := [(2, "b"), (10, "a")]
      isRegionName := by decide
      shots_pos := by decide
      slots_ne_nil := by decide
      hasWidth := by unfold RegisterData.HasWidth; decide
      increasing := by decide },
    { name := "iq-0"
      data := .complexes [[⟨0.5, -0.25⟩], [⟨1, 2⟩]]
      slots := [(0, "c")]
      isRegionName := by decide
      shots_pos := by decide
      slots_ne_nil := by decide
      hasWidth := by unfold RegisterData.HasWidth; simp
      increasing := by decide }]
  nodup_names := by decide
  nodup_handles := by decide

/-- As texts, the keys of the mappings are out of order. -/
theorem ResultData.toRegisterMap_recording_twoRegisters :
    ∃ h : List.Perm [("iq-0[0]", "c"), ("ro[10]", "a"), ("ro[2]", "b")] Recording.twoRegisters.mappings,
      ∃ m, (ResultData.qvm Recording.twoRegisters.simulator).toRegisterMap = .ok m ∧
        (ResultData.qpu (Recording.twoRegisters.hardware h .empty)).toRegisterMap = .ok m := by
  have h : List.Perm [("iq-0[0]", "c"), ("ro[10]", "a"), ("ro[2]", "b")] Recording.twoRegisters.mappings := by decide
  obtain ⟨m, hsimulator, -, hhardware⟩ := toRegisterMap_recording Recording.twoRegisters
  exact ⟨h, m, hsimulator, hhardware _ h .empty⟩

end QuilControl
