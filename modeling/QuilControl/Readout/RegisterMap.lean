import QuilControl.Duration
import QuilControl.MemoryReference
import QuilControl.Readout.Register
import QuilControl.SortedMap

/-!
# Registers of a run

Hardware gives streams of values by readout handle, and says which slot each handle is for.
Simulators give the rows of each register. Either way the result is a map from register names to
matrices. The columns of a register are its mapped slots by increasing index, whatever the order of
the mappings.
-/

namespace QuilControl

/-- A map from register names to matrices. -/
abbrev RegisterMap := SortedMap String RegisterMatrix

/-- Readout handles by memory slot, in the order in which the slots were mapped. -/
structure ReadoutMappings where
  entries : List (String × String)
  nodup : (entries.map (·.1)).Nodup

namespace ReadoutMappings

instance : BEq ReadoutMappings := ⟨fun m n => m.entries == n.entries⟩

def empty : ReadoutMappings := ⟨[], List.nodup_nil⟩

def get? (m : ReadoutMappings) (slot : String) : Option String :=
  (m.entries.find? (·.1 = slot)).map (·.2)

/-- Map a slot to a handle. A slot that is mapped already keeps its place. -/
def insert (m : ReadoutMappings) (slot handle : String) : ReadoutMappings :=
  if h : slot ∈ m.entries.map (·.1) then
    ⟨m.entries.map fun e => if e.1 = slot then (slot, handle) else e, by
      have keys : (m.entries.map fun e => if e.1 = slot then (slot, handle) else e).map (·.1) =
          m.entries.map (·.1) := by
        rw [List.map_map]
        refine List.map_congr_left fun e _ => ?_
        by_cases he : e.1 = slot <;> simp [he]
      rw [keys]
      exact m.nodup⟩
  else
    ⟨m.entries ++ [(slot, handle)], by
      rw [List.map_append]
      refine List.nodup_append.2 ⟨m.nodup, by simp, fun a ha b hb hab => ?_⟩
      have hb' : b = slot := List.mem_singleton.1 hb
      exact h (hb' ▸ hab ▸ ha)⟩

/-- The mappings of a list of pairs: of two pairs with one slot the later counts. -/
def ofList (pairs : List (String × String)) : ReadoutMappings :=
  pairs.foldl (fun m e => m.insert e.1 e.2) empty

end ReadoutMappings

/-- What hardware gives after a run. -/
structure QpuData where
  mappings : ReadoutMappings
  readout : SortedMap String ReadoutValues
  /-- The final contents of memory regions. -/
  memory : SortedMap String MemoryValues
deriving BEq

inductive ResultData where
  /-- Readout of hardware. -/
  | qpu (data : QpuData)
  /-- The final registers of a simulator. -/
  | qvm (registers : SortedMap String RegisterData)
deriving BEq

/-- The data of a run, and how long it took on the device, if it was one. -/
structure ExecutionData where
  result : ResultData
  duration : Option Duration

instance : BEq ExecutionData :=
  ⟨fun a b => a.result == b.result && decide (a.duration = b.duration)⟩

/-- The values that a slot is mapped to (`get_values_for_memory_reference`). -/
def QpuData.values? (d : QpuData) (slot : String) : Option ReadoutValues :=
  (d.mappings.get? slot).bind d.readout.get?

/-- The columns of registers, by register name and index. -/
abbrev RegisterColumns := SortedMap String (SortedMap UInt64 ReadoutValues)

namespace RegisterMap

/-- Take one mapping into the columns of registers. -/
def addMapping (readout : SortedMap String ReadoutValues) (columns : RegisterColumns)
    (slot handle : String) : Except AssemblyError RegisterColumns :=
  match MemoryReference.ofChars? slot.toList with
  | none => .error (.invalidReference slot)
  | some r =>
    match readout.get? handle with
    | none => .error (.unmappedHandle slot handle)
    | some values =>
      let register := (columns.get? r.name).getD .empty
      if register.contains r.index then .error (.duplicateIndex r.name r.index)
      else .ok (columns.insert r.name (register.insert r.index values))

/-- Take mappings into the columns of registers, in order. -/
def addMappings (readout : SortedMap String ReadoutValues) :
    RegisterColumns → List (String × String) → Except AssemblyError RegisterColumns
  | columns, [] => .ok columns
  | columns, (slot, handle) :: rest =>
    match addMapping readout columns slot handle with
    | .error e => .error e
    | .ok next => addMappings readout next rest

/-- The matrices of named things, in order, up to the first failure. -/
def assemble {α : Type} (matrix : String → α → Except AssemblyError RegisterMatrix) :
    List (String × α) → Except AssemblyError (List (String × RegisterMatrix))
  | [] => .ok []
  | (name, data) :: rest =>
    match matrix name data with
    | .error e => .error e
    | .ok m =>
      match assemble matrix rest with
      | .error e => .error e
      | .ok others => .ok ((name, m) :: others)

/-- The registers of hardware readout (`from_qpu_result_data`). -/
def ofQpu (d : QpuData) : Except AssemblyError RegisterMap :=
  match addMappings d.readout .empty d.mappings.entries with
  | .error e => .error e
  | .ok columns =>
    (assemble (fun name register => stackColumns name register.values) columns.entries).map
      SortedMap.ofList

/-- The registers of a simulator, converted in the given order (`from_qvm_result_data`). -/
def ofRegisters (registers : List (String × RegisterData)) : Except AssemblyError RegisterMap :=
  (assemble (fun name data => data.toMatrix name) registers).map SortedMap.ofList

end RegisterMap

/-- The registers of a run (`to_register_map`). -/
def ResultData.toRegisterMap : ResultData → Except AssemblyError RegisterMap
  | qpu data => RegisterMap.ofQpu data
  | qvm registers => RegisterMap.ofRegisters registers.entries

end QuilControl
