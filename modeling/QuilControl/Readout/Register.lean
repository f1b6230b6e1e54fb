import QuilControl.Grid
import QuilControl.Readout.Values

/-!
# Registers

A simulator gives each register as rows, one a shot, in narrow number types. `RegisterMatrix` is the
rectangular form with wide ones: a row for each shot and a column for each slot. Both rows and
columns can be stacked, if they have one length.
-/

namespace QuilControl

/-- Why data do not form registers. -/
inductive AssemblyError where
  /-- Rows or columns have different lengths. -/
  | jagged (register : String)
  /-- Columns have different kinds. -/
  | mixedKinds (register : String)
  /-- Two mappings are for the same slot. -/
  | duplicateIndex (register : String) (index : UInt64)
  /-- A mapping to a handle without values. -/
  | unmappedHandle (reference handle : String)
  /-- A mapping of something that is no slot. -/
  | invalidReference (text : String)
deriving DecidableEq

def AssemblyError.message : AssemblyError → String
  | jagged register =>
    "The data for register " ++ register ++ " does not fit into a rectangular matrix"
  | mixedKinds register =>
    "The data for register " ++ register ++ " mixes integer, real, and complex values"
  | duplicateIndex register index =>
    "Register " ++ register ++ " has more than one mapping for index " ++ toString index.toNat
  | unmappedHandle reference handle =>
    "The mapping of " ++ reference ++ " to " ++ handle ++ " had no readout values"
  | invalidReference text => "Invalid memory reference in readout mappings: '" ++ text ++ "'"

/-- The values of a register: a row for each shot, a column for each slot. -/
inductive RegisterMatrix where
  | integer (grid : Grid Int64)
  | real (grid : Grid Float)
  | complex (grid : Grid (ComplexNumber Float))
deriving BEq

namespace RegisterMatrix

def kind : RegisterMatrix → ValueKind
  | integer _ => .integer
  | real _ => .real
  | complex _ => .complex

def shots : RegisterMatrix → Nat
  | integer grid => grid.rows
  | real grid => grid.rows
  | complex grid => grid.rows

def slots : RegisterMatrix → Nat
  | integer grid => grid.columns
  | real grid => grid.columns
  | complex grid => grid.columns

def asInteger? : RegisterMatrix → Option (Grid Int64)
  | integer grid => some grid
  | _ => none

def asReal? : RegisterMatrix → Option (Grid Float)
  | real grid => some grid
  | _ => none

def asComplex? : RegisterMatrix → Option (Grid (ComplexNumber Float))
  | complex grid => some grid
  | _ => none

end RegisterMatrix

/-- The rows of a register, as a simulator gives them. -/
inductive RegisterData where
  /-- Bits or octets. -/
  | bytes (rows : List (List Int8))
  | words (rows : List (List Int16))
  | reals (rows : List (List Float))
  | complexes (rows : List (List (ComplexNumber Float32)))
deriving BEq

namespace RegisterData

def shots : RegisterData → Nat
  | bytes rows => rows.length
  | words rows => rows.length
  | reals rows => rows.length
  | complexes rows => rows.length

def asBytes? : RegisterData → Option (List (List Int8))
  | bytes rows => some rows
  | _ => none

def asWords? : RegisterData → Option (List (List Int16))
  | words rows => some rows
  | _ => none

def asReals? : RegisterData → Option (List (List Float))
  | reals rows => some rows
  | _ => none

def asComplexes? : RegisterData → Option (List (List (ComplexNumber Float32)))
  | complexes rows => some rows
  | _ => none

end RegisterData

def ComplexNumber.widen (z : ComplexNumber Float32) : ComplexNumber Float :=
  ⟨z.re.toFloat, z.im.toFloat⟩

/-- The grid of rows, with every entry converted (`stack_rows`). -/
def stackRows {α β : Type} (register : String) (convert : α → β) (rows : List (List α)) :
    Except AssemblyError (Grid β) :=
  match Grid.ofRows? (rows.map (·.map convert)) with
  | some grid => .ok grid
  | none => .error (.jagged register)

/-- The matrix of a register from its rows (`to_register_matrix`). -/
def RegisterData.toMatrix (register : String) : RegisterData → Except AssemblyError RegisterMatrix
  | bytes rows => (stackRows register Int8.toInt64 rows).map .integer
  | words rows => (stackRows register Int16.toInt64 rows).map .integer
  | reals rows => (stackRows register id rows).map .real
  | complexes rows => (stackRows register ComplexNumber.widen rows).map .complex

/-- The lists picked from columns, if all have the kind that is picked. -/
def pickColumns {α : Type} (pick : ReadoutValues → Option (List α)) :
    List ReadoutValues → Option (List (List α))
  | [] => some []
  | column :: rest =>
    match pick column with
    | none => none
    | some values => (pickColumns pick rest).map (values :: ·)

/-- The grid of columns of one kind (`stack_columns`). -/
def stackPicked {α : Type} (register : String) (pick : ReadoutValues → Option (List α))
    (columns : List ReadoutValues) : Except AssemblyError (Grid α) :=
  match pickColumns pick columns with
  | none => .error (.mixedKinds register)
  | some lists =>
    match Grid.ofColumns? lists with
    | some grid => .ok grid
    | none => .error (.jagged register)

/-- The matrix of a register from its columns (`stack_readout_columns`). Lengths are compared before
kinds. -/
def stackColumns (register : String) (columns : List ReadoutValues) :
    Except AssemblyError RegisterMatrix :=
  let shots := (columns.head?.map ReadoutValues.length).getD 0
  if columns.any (·.length ≠ shots) then .error (.jagged register)
  else
    match (columns.head?.map ReadoutValues.kind).getD .integer with
    | .integer => (stackPicked register ReadoutValues.asInteger? columns).map .integer
    | .real => (stackPicked register ReadoutValues.asReal? columns).map .real
    | .complex => (stackPicked register ReadoutValues.asComplex? columns).map .complex

end QuilControl
