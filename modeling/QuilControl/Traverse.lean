/-!
# All or nothing

`traverse? f xs` is the list of the values of `f` on `xs`, if every one exists. Two steps one after the
other succeed just when both do.
-/

namespace QuilControl

variable {α β : Type}

/-- The values of `f` along a list, unless one is missing. -/
def traverse? (f : α → Option β) : List α → Option (List β)
  | [] => some []
  | x :: rest =>
    match f x with
    | none => none
    | some y => (traverse? f rest).map (y :: ·)

theorem traverse?_eq_some_iff {f : α → Option β} {xs : List α} {ys : List β} :
    traverse? f xs = some ys ↔ xs.map f = ys.map some := by
  induction xs generalizing ys with
  | nil => cases ys <;> simp [traverse?]
  | cons x rest ih =>
    unfold traverse?
    cases hx : f x with
    | none => cases ys <;> simp [hx]
    | some y =>
      cases ys with
      | nil => simp
      | cons z zs =>
        simp only [Option.map_eq_some_iff, ih, List.map_cons, hx, List.cons.injEq,
          Option.some.injEq]
        constructor
        · rintro ⟨ws, h, rfl, rfl⟩
          exact ⟨rfl, h⟩
        · rintro ⟨rfl, h⟩
          exact ⟨zs, h, rfl, rfl⟩

theorem traverse?_map_of_eq {f : α → Option β} {g : β → α} (h : ∀ y, f (g y) = some y)
    (ys : List β) :
    traverse? f (ys.map g) = some ys := by
  simp [traverse?_eq_some_iff, Function.comp_def, h]

/-! ## Two steps -/

theorem exists_of_bind_eq_ok {ε α β : Type} {x : Except ε α} {f : α → Except ε β} {b : β}
    (h : (x >>= f) = .ok b) : ∃ a, x = .ok a ∧ f a = .ok b := by
  cases x with
  | error e => cases h
  | ok a => exact ⟨a, rfl, h⟩

theorem eq_error_of_bind_eq_error {ε α β : Type} {x : Except ε α} {f : α → Except ε β} {e : ε}
    (h : (x >>= f) = .error e) : x = .error e ∨ ∃ a, x = .ok a ∧ f a = .error e := by
  cases x with
  | error e' =>
    cases h
    exact Or.inl rfl
  | ok a => exact Or.inr ⟨a, rfl, h⟩

theorem exists_of_map_eq_ok {ε α β : Type} {x : Except ε α} {f : α → β} {b : β} (h : x.map f = .ok b) :
    ∃ a, x = .ok a ∧ f a = b := by
  cases x with
  | error e => cases h
  | ok a => exact ⟨a, rfl, Except.ok.inj h⟩

theorem bind_eq_ok {ε α β : Type} {x : Except ε α} {f : α → Except ε β} {a : α} {b : β} (hx : x = .ok a)
    (hf : f a = .ok b) : (x >>= f) = .ok b := by
  rw [hx]
  exact hf

end QuilControl
