import QuilControl.Program.Basic

/-!
# Programs edited in place

An edit changes a program where it stands, step by step. When it fails, the program stays as the steps
up to then have left it. `Program.declare`, `Program.add` and `Program.addAll` say what edits give
(`Edit.apply_declare`, `Edit.apply_add`, `Edit.apply_addAll`).
-/

namespace QuilControl

/-- A change of a program in place. It may fail, and leaves a program either way. -/
abbrev Edit (N : Type) := ExceptT QuilError (StateM (Program N))

namespace Edit

variable {N : Type}

def declare (d : Declaration) : Edit N Unit := do
  if ((← get).declaration? d.name).isSome then throw (.duplicateDeclaration d.name)
  modify fun p => { p with declarations := p.declarations ++ [d] }

def add : Instruction N → Edit N Unit
  | .declaration d => declare d
  | i => modify fun p => { p with body := p.body ++ [i] }

def addAll : List (Instruction N) → Edit N Unit
  | [] => pure ()
  | i :: rest => do
    add i
    addAll rest

/-- The program that an edit leaves, and its error if it fails. -/
def apply (edit : Edit N Unit) (p : Program N) : Program N × Option QuilError :=
  match edit.run.run p with
  | (.ok _, q) => (q, none)
  | (.error e, q) => (q, some e)

/-- A refused declaration is found out before anything is changed. -/
theorem apply_declare (p : Program N) (d : Declaration) :
    (declare d).apply p =
      match p.declare d with
      | .ok q => (q, none)
      | .error e => (p, some e) := by
  have hrun : (declare d).run.run p =
      (if (p.declaration? d.name).isSome then throw (.duplicateDeclaration d.name)
        else modify fun p => { p with declarations := p.declarations ++ [d] } : Edit N Unit).run.run p := rfl
  rw [apply, hrun, Program.declare]
  cases p.declaration? d.name <;> rfl

theorem apply_add (p : Program N) (i : Instruction N) :
    (add i).apply p =
      match p.add i with
      | .ok q => (q, none)
      | .error e => (p, some e) := by
  cases i with
  | declaration d => exact apply_declare p d
  | pragma | call | gate | measurement | fence | delay | frameUpdate | other => rfl

/-- An edit behind another one starts with what that one leaves, unless that one fails. -/
theorem apply_cons (p : Program N) (i : Instruction N) (is : List (Instruction N)) :
    (addAll (i :: is)).apply p =
      match (add i).apply p with
      | (q, none) => (addAll is).apply q
      | (q, some e) => (q, some e) := by
  have hrun : (addAll (i :: is)).run.run p =
      (fun r : Except QuilError Unit × Program N => (ExceptT.bindCont (fun _ => addAll is) r.1).run r.2)
        ((add i).run.run p) := rfl
  unfold apply
  rw [hrun]
  rcases (add i).run.run p with ⟨_ | _, q⟩ <;> rfl

theorem apply_addAll (p : Program N) (is : List (Instruction N)) : (addAll is).apply p = p.addAll is := by
  induction is generalizing p with
  | nil => rfl
  | cons i is ih =>
    rw [apply_cons, apply_add, Program.addAll]
    cases p.add i with
    | error e => rfl
    | ok q => exact ih q

end Edit

end QuilControl
