import QuilControl.Program.Basic

/-!
# Adding instructions to a program

Adding instructions sorts them: declarations go behind the declarations, the others behind the body.
It fails just when a declaration has a name that is taken, by the program or by a declaration before
it, and then the error has the first such name (`Program.addAll?_eq`).
-/

namespace QuilControl

variable {N : Type}

def Instruction.declaration? : Instruction N → Option Declaration
  | .declaration d => some d
  | _ => none

/-- The declarations among instructions, in order. -/
def declarationsOf (is : List (Instruction N)) : List Declaration := is.filterMap Instruction.declaration?

/-- The instructions that declare nothing, in order. -/
def statementsOf (is : List (Instruction N)) : List (Instruction N) := is.filter (!·.isDeclaration)

theorem declarationsOf_map_declaration (ds : List Declaration) :
    declarationsOf (ds.map (Instruction.declaration (N := N))) = ds := by
  induction ds with
  | nil => rfl
  | cons d ds ih => exact congrArg (d :: ·) ih

theorem statementsOf_map_declaration (ds : List Declaration) :
    statementsOf (ds.map (Instruction.declaration (N := N))) = [] := by
  simp [statementsOf, Instruction.isDeclaration]

/-- The first of several names that is taken, by one of the given names or by one before it. -/
def firstTaken? : List String → List String → Option String
  | _, [] => none
  | taken, name :: rest => if name ∈ taken then some name else firstTaken? (taken ++ [name]) rest

/-- Names without a repetition are only taken by the given ones. The induction carries the names that
have been passed, `extra`. -/
theorem firstTaken?_append {taken extra names : List String} (h : names.Nodup)
    (hextra : ∀ name ∈ names, name ∉ extra) :
    firstTaken? (taken ++ extra) names = names.find? (· ∈ taken) := by
  induction names generalizing extra with
  | nil => rfl
  | cons name rest ih =>
    obtain ⟨hname, hrest⟩ := List.nodup_cons.1 h
    have hnot : name ∉ extra := hextra name List.mem_cons_self
    by_cases ht : name ∈ taken
    · simp [firstTaken?, ht]
    · have hpassed : ∀ x ∈ rest, x ∉ extra ++ [name] := by
        intro x hx hmem
        rcases List.mem_append.1 hmem with hmem | hmem
        · exact hextra x (List.mem_cons_of_mem _ hx) hmem
        · exact hname (List.mem_singleton.1 hmem ▸ hx)
      rw [firstTaken?, if_neg (by simp [ht, hnot]), List.append_assoc, ih hrest hpassed,
        List.find?_cons_of_neg (by simp [ht])]

theorem firstTaken?_eq_find? {taken names : List String} (h : names.Nodup) :
    firstTaken? taken names = names.find? (· ∈ taken) := by
  have happend : firstTaken? (taken ++ []) names = names.find? (· ∈ taken) :=
    firstTaken?_append h fun _ _ => List.not_mem_nil
  rwa [List.append_nil] at happend

theorem firstTaken?_eq_none_iff {taken names : List String} :
    firstTaken? taken names = none ↔ names.Nodup ∧ ∀ name ∈ names, name ∉ taken := by
  induction names generalizing taken with
  | nil => simp [firstTaken?]
  | cons name rest ih =>
    by_cases ht : name ∈ taken
    · simp [firstTaken?, ht]
    · rw [firstTaken?, if_neg ht, ih, List.nodup_cons, List.forall_mem_cons]
      constructor
      · rintro ⟨hrest, hfree⟩
        refine ⟨⟨fun hmem => hfree name hmem (by simp), hrest⟩, ht, fun other hother htaken => ?_⟩
        exact hfree other hother (List.mem_append_left _ htaken)
      · rintro ⟨⟨hname, hrest⟩, -, hfree⟩
        refine ⟨hrest, fun other hother hmem => ?_⟩
        rcases List.mem_append.1 hmem with hmem | hmem
        · exact hfree other hother hmem
        · exact hname (List.mem_singleton.1 hmem ▸ hother)

namespace Program

def names (p : Program N) : List String := p.declarations.map (·.name)

theorem declaration?_isSome (p : Program N) (name : String) :
    (p.declaration? name).isSome = true ↔ name ∈ p.names := by
  simp [declaration?, names]

/-- A declaration is added unless its name is taken. -/
theorem declare_eq (p : Program N) (d : Declaration) :
    p.declare d =
      if d.name ∈ p.names then .error (.duplicateDeclaration d.name)
      else .ok { p with declarations := p.declarations ++ [d] } := by
  unfold declare
  have htaken := p.declaration?_isSome d.name
  cases hd : p.declaration? d.name with
  | none =>
    rw [hd] at htaken
    rw [if_neg fun hmem => Bool.noConfusion (htaken.2 hmem)]
  | some d' =>
    rw [hd] at htaken
    rw [if_pos (htaken.1 rfl)]

theorem mem_body_of_add {p q : Program N} {i j : Instruction N} (h : p.add i = .ok q) (hj : j ∈ q.body) :
    j ∈ p.body ∨ j = i := by
  cases i with
  | declaration d =>
    rw [add, declare_eq] at h
    split at h
    · cases h
    · cases h
      exact Or.inl hj
  | pragma | call | gate | measurement | fence | delay | frameUpdate | other =>
    cases h
    simpa using hj

/-- Only a name that is taken is refused. -/
theorem add_eq_error {p : Program N} {i : Instruction N} {e : QuilError} (h : p.add i = .error e) :
    ∃ name, e = .duplicateDeclaration name := by
  cases i with
  | declaration d =>
    rw [add, declare_eq] at h
    split at h
    · cases h
      exact ⟨_, rfl⟩
    · cases h
  | pragma | call | gate | measurement | fence | delay | frameUpdate | other => cases h

theorem names_subset_of_add {p q : Program N} {i : Instruction N} (h : p.add i = .ok q) :
    p.names ⊆ q.names := by
  cases i with
  | declaration d =>
    rw [add, declare_eq] at h
    split at h
    · cases h
    · cases h
      simp [names]
  | pragma | call | gate | measurement | fence | delay | frameUpdate | other =>
    cases h
    exact List.Subset.refl _

theorem addAll?_nil (p : Program N) : p.addAll? [] = .ok p := rfl

theorem addAll?_cons (p : Program N) (i : Instruction N) (is : List (Instruction N)) :
    p.addAll? (i :: is) =
      match p.add i with
      | .error e => .error e
      | .ok q => q.addAll? is := by
  unfold addAll?
  rw [addAll]
  cases p.add i <;> rfl

/-- What adding instructions gives: the error with the first name that is taken, or the program with
the declarations and the other instructions behind its own. -/
theorem addAll?_eq (p : Program N) (is : List (Instruction N)) :
    p.addAll? is =
      match firstTaken? p.names ((declarationsOf is).map (·.name)) with
      | some name => .error (.duplicateDeclaration name)
      | none => .ok
        { p with
          declarations := p.declarations ++ declarationsOf is
          body := p.body ++ statementsOf is } := by
  induction is generalizing p with
  | nil => simp [addAll?_nil, declarationsOf, statementsOf, firstTaken?]
  | cons i is ih =>
    rw [addAll?_cons]
    cases hi : i.isDeclaration with
    | true =>
      obtain ⟨d, rfl⟩ : ∃ d, i = .declaration d := by
        cases i <;> first | exact ⟨_, rfl⟩ | cases hi
      have hsplit : declarationsOf (.declaration d :: is) = d :: declarationsOf is := rfl
      have hrest : statementsOf (.declaration d :: is) = statementsOf is := rfl
      rw [hsplit, hrest, List.map_cons, firstTaken?]
      simp only [add, declare_eq]
      by_cases hd : d.name ∈ p.names
      · rw [if_pos hd, if_pos hd]
      · rw [if_neg hd, if_neg hd]
        dsimp only
        rw [ih]
        simp only [names, List.map_append, List.map_cons, List.map_nil, List.append_assoc,
          List.singleton_append]
    | false =>
      have hadd : p.add i = .ok { p with body := p.body ++ [i] } := by
        cases i <;> first | rfl | cases hi
      have hsplit : declarationsOf (i :: is) = declarationsOf is := by
        cases i <;> first | rfl | cases hi
      have hrest : statementsOf (i :: is) = i :: statementsOf is := by
        simp [statementsOf, hi]
      rw [hadd, hsplit, hrest]
      dsimp only
      rw [ih]
      simp only [names, List.append_assoc, List.singleton_append]

/-- Instructions that are all added: their declarations have new names, no two the same. -/
theorem addAll?_eq_ok {p q : Program N} {is : List (Instruction N)} (h : p.addAll? is = .ok q) :
    ((declarationsOf is).map (·.name)).Nodup ∧ (∀ d ∈ declarationsOf is, d.name ∉ p.names) ∧
      q = { p with
        declarations := p.declarations ++ declarationsOf is
        body := p.body ++ statementsOf is } := by
  rw [addAll?_eq] at h
  cases hnone : firstTaken? p.names ((declarationsOf is).map (·.name)) with
  | some name => rw [hnone] at h; cases h
  | none =>
    rw [hnone] at h
    cases h
    obtain ⟨hnodup, hfree⟩ := firstTaken?_eq_none_iff.1 hnone
    exact ⟨hnodup, fun d hd => hfree d.name (List.mem_map_of_mem hd), rfl⟩

theorem addAll?_append (p : Program N) (is js : List (Instruction N)) :
    p.addAll? (is ++ js) =
      match p.addAll? is with
      | .error e => .error e
      | .ok q => q.addAll? js := by
  induction is generalizing p with
  | nil => rfl
  | cons i is ih =>
    rw [List.cons_append, addAll?_cons, addAll?_cons]
    cases p.add i with
    | error e => rfl
    | ok q => exact ih q

end Program

end QuilControl
