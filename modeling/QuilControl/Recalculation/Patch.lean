import QuilControl.Expr.Parser
import QuilControl.Expr.Eval
import QuilControl.Recalculation.Substitution

/-!
# Computing the slots of a table

For each set of memory contents the entries of a recalculation table are evaluated in order, and
their values become the contents of one more region. All entries are read before the first is
evaluated. A failure names its entry.
-/

namespace QuilControl

/-- What is wrong with a table entry. -/
inductive PatchCause where
  | parse (error : QuilError)
  | eval (error : EvalError)
deriving DecidableEq

/-- A table entry that cannot be computed. -/
structure PatchError where
  entry : String
  cause : PatchCause
deriving DecidableEq

namespace PatchError

def message (e : PatchError) : String :=
  let failed := "could not evaluate " ++ e.entry ++ ": "
  match e.cause with
  | .parse error =>
    "unable to parse recalculation expression " ++ e.entry ++ ": " ++ error.message
  | .eval (.undefinedMemory name) => failed ++ "memory region '" ++ name ++ "' is undefined"
  | .eval (.indexOutOfRange name index length) =>
    failed ++ "index " ++ toString index.toNat ++ " is out of range for '" ++ name ++
      "' of length " ++ toString length
  | .eval .divisionByZero => failed ++ "division by zero"
  | .eval .nonFinite => failed ++ "result is not finite"

end PatchError

variable {N : Type} [Scalar N]

namespace RecalculationTable

def read : RecalculationTable → Except PatchError (List (String × Expr N))
  | [] => .ok []
  | entry :: rest =>
    match Expr.ofText entry with
    | .error e => .error ⟨entry, .parse e⟩
    | .ok expression =>
      match read rest with
      | .error e => .error e
      | .ok others => .ok ((entry, expression) :: others)

def values (memory : Memory N) : List (String × Expr N) → Except PatchError (List N)
  | [] => .ok []
  | (entry, expression) :: rest =>
    match expression.eval memory with
    | .error e => .error ⟨entry, .eval e⟩
    | .ok value =>
      match values memory rest with
      | .error e => .error e
      | .ok others => .ok (value :: others)

/-- Memory contents with the values of table entries in the region of computed values. -/
def patchRead (entries : List (String × Expr N)) (memory : Memory N) :
    Except PatchError (Memory N) :=
  match values memory entries with
  | .error e => .error e
  | .ok computed => .ok (memory.insert substitutionName computed)

/-- Memory contents with the computed values of a table (`build_patch_values`). -/
def patch (table : RecalculationTable) (memory : Memory N) : Except PatchError (Memory N) :=
  match table.read (N := N) with
  | .error e => .error e
  | .ok entries => patchRead entries memory

/-- Patch memory contents one after the other, up to the first failure. -/
def patchEach (entries : List (String × Expr N)) :
    List (Memory N) → Except PatchError (List (Memory N))
  | [] => .ok []
  | memory :: rest =>
    match patchRead entries memory with
    | .error e => .error e
    | .ok first =>
      match patchEach entries rest with
      | .error e => .error e
      | .ok others => .ok (first :: others)

/-- `patch` for each of several memory contents (`build_patch_value_batch`). The table is read once.
-/
def patchAll (table : RecalculationTable) (memories : List (Memory N)) :
    Except PatchError (List (Memory N)) :=
  match table.read (N := N) with
  | .error e => .error e
  | .ok entries => patchEach entries memories

end RecalculationTable

end QuilControl
