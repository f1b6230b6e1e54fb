import Mathlib.Data.List.Forall2

/-!
# The first fault along a list

Steps along a list, each of which may fail, give the values of all members in order
(`mapM_eq_ok_iff`) or the error of the first member that fails (`mapM_eq_error_iff`). What the first
fault is, is said for any relation between members and their faults, so also where a step depends on
the steps before it.
-/

namespace QuilControl

variable {α β ε : Type}

/-- `e` is the fault of the first member of a list that has one. -/
def FirstFault (fault : α → ε → Prop) (xs : List α) (e : ε) : Prop :=
  ∃ before x after, xs = before ++ x :: after ∧ fault x e ∧ ∀ b ∈ before, ∀ e', ¬ fault b e'

section FirstFault

variable {fault : α → ε → Prop}

@[simp]
theorem not_firstFault_nil (e : ε) : ¬ FirstFault fault [] e := by
  rintro ⟨before, x, after, h, -⟩
  simp at h

theorem firstFault_cons {x : α} {xs : List α} {e : ε} :
    FirstFault fault (x :: xs) e ↔ fault x e ∨ (∀ e', ¬ fault x e') ∧ FirstFault fault xs e := by
  constructor
  · rintro ⟨before, y, after, h, hy, hbefore⟩
    cases before with
    | nil =>
      simp only [List.nil_append, List.cons.injEq] at h
      exact Or.inl (h.1 ▸ hy)
    | cons b before =>
      simp only [List.cons_append, List.cons.injEq] at h
      obtain ⟨rfl, rfl⟩ := h
      exact Or.inr ⟨hbefore x (by simp), before, y, after, rfl, hy, fun c hc => hbefore c (by simp [hc])⟩
  · rintro (hx | ⟨hx, before, y, after, rfl, hy, hbefore⟩)
    · exact ⟨[], x, xs, rfl, hx, by simp⟩
    · refine ⟨x :: before, y, after, rfl, hy, fun b hb => ?_⟩
      rcases List.mem_cons.1 hb with rfl | hb
      · exact hx
      · exact hbefore b hb

/-- There is a first fault as soon as there is one. -/
theorem exists_firstFault_iff {xs : List α} : (∃ e, FirstFault fault xs e) ↔ ∃ x ∈ xs, ∃ e, fault x e := by
  induction xs with
  | nil => simp
  | cons x xs ih =>
    simp only [firstFault_cons, exists_or, exists_and_left, ih, List.exists_mem_cons_iff]
    by_cases hx : ∃ e, fault x e
    · simp [hx]
    · simp [not_exists.1 hx]

/-- Only the faults of the members count. -/
theorem firstFault_congr {fault' : α → ε → Prop} {xs : List α} (h : ∀ x ∈ xs, ∀ e, fault x e ↔ fault' x e)
    (e : ε) : FirstFault fault xs e ↔ FirstFault fault' xs e := by
  induction xs with
  | nil => simp
  | cons x xs ih =>
    simp only [firstFault_cons, h x (by simp), ih fun y hy => h y (by simp [hy])]

end FirstFault

/-! ## Steps that may fail -/

variable {f : α → Except ε β} {xs : List α}

/-- The first member is taken first, and its error is the error of the whole list. -/
theorem mapM_cons_eq (x : α) :
    (x :: xs).mapM f =
      match f x with
      | .error e => .error e
      | .ok y =>
        match xs.mapM f with
        | .error e => .error e
        | .ok ys => .ok (y :: ys) := by
  rw [List.mapM_cons]
  cases f x with
  | error e => rfl
  | ok y => cases xs.mapM f <;> rfl

theorem mapM_eq_ok_iff {ys : List β} : xs.mapM f = .ok ys ↔ List.Forall₂ (fun x y => f x = .ok y) xs ys := by
  induction xs generalizing ys with
  | nil => cases ys <;> simp [pure, Except.pure]
  | cons x xs ih =>
    rw [mapM_cons_eq, List.forall₂_cons_left_iff]
    simp only [← ih]
    cases f x with
    | error e => simp
    | ok y => cases xs.mapM f <;> simp [eq_comm]

theorem mapM_eq_error_iff {e : ε} : xs.mapM f = .error e ↔ FirstFault (fun x e => f x = .error e) xs e := by
  induction xs with
  | nil => simp [pure, Except.pure]
  | cons x xs ih =>
    rw [mapM_cons_eq, firstFault_cons, ← ih]
    cases f x with
    | error e' => simp
    | ok y => cases xs.mapM f <;> simp

end QuilControl
