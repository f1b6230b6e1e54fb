import QuilControl.Expr.Parser
import QuilControl.Traverse

/-!
# Where reading stops

A reader takes tokens from the front and leaves the others, and a fault keeps what was unread. A reader
keeps its place when what it leaves is the end of its tokens, and when a fault that it finds is about
these tokens: an unexpected token is one of them, with all that follows it, and tokens that end too
early have been read to their end (`KeepsPlace`). Readers one after the other keep their place when each
of them does (`KeepsPlace.bind`). The readers of expressions do.
-/

namespace QuilControl

variable {N : Type}

/-- A fault is about these tokens, at the place where reading stopped. -/
def Fault.StandsIn (tokens : List (Token N)) : Fault N → Prop
  | unexpected _ found after => found :: after <:+ tokens
  | unexpectedEnd _ unread => unread = []
  | unknownScalarType _ => True

theorem Fault.StandsIn.mono {fault : Fault N} {tokens tokens' : List (Token N)} (h : fault.StandsIn tokens)
    (hs : tokens <:+ tokens') : fault.StandsIn tokens' := by
  cases fault with
  | unexpected => exact List.IsSuffix.trans h hs
  | unexpectedEnd => exact h
  | unknownScalarType => trivial

/-- What a reader gives for its tokens: a value that leaves the end of them, or a fault about them. -/
def KeepsPlace {α : Type} (left : α → List (Token N)) (tokens : List (Token N)) : Except (Fault N) α → Prop
  | .ok a => left a <:+ tokens
  | .error fault => fault.StandsIn tokens

namespace KeepsPlace

variable {α β : Type} {left : α → List (Token N)} {left' : β → List (Token N)} {tokens tokens' : List (Token N)}

theorem mono {r : Except (Fault N) α} (h : KeepsPlace left tokens r) (hs : tokens <:+ tokens') :
    KeepsPlace left tokens' r := by
  cases r with
  | ok a => exact List.IsSuffix.trans h hs
  | error fault => exact Fault.StandsIn.mono h hs

/-- Finding what is left of the tokens where something else is expected. -/
theorem expecting (expected : String) (hs : tokens <:+ tokens') :
    KeepsPlace left tokens' (.error (.expecting expected tokens)) := by
  cases tokens with
  | nil => exact (rfl : ([] : List (Token N)) = [])
  | cons => exact hs

/-- The next reader goes on where the first one stops. -/
theorem bind {x : Except (Fault N) α} {f : α → Except (Fault N) β} (hx : KeepsPlace left tokens x)
    (hf : ∀ a, x = .ok a → KeepsPlace left' (left a) (f a)) : KeepsPlace left' tokens (x >>= f) := by
  cases x with
  | ok a => exact (hf a rfl).mono hx
  | error fault => exact hx

theorem map {x : Except (Fault N) α} {f : α → β} (hx : KeepsPlace left tokens x)
    (hf : ∀ a, left' (f a) = left a) : KeepsPlace left' tokens (x.map f) := by
  cases x with
  | ok a =>
    change left' (f a) <:+ tokens
    rw [hf]
    exact hx
  | error fault => exact hx

/-- A fault is passed on. -/
theorem of_eq_error {x : Except (Fault N) α} {fault : Fault N} (hx : KeepsPlace left tokens x)
    (h : x = .error fault) : KeepsPlace left' tokens (.error fault) := by
  rw [h] at hx
  exact hx

theorem of_eq_ok {x : Except (Fault N) α} {a : α} (hx : KeepsPlace left tokens x) (h : x = .ok a) :
    left a <:+ tokens := by
  rw [h] at hx
  exact hx

end KeepsPlace

namespace Expr

variable [Scalar N]

omit [Scalar N] in
theorem readIndex_keepsPlace (tokens : List (Token N)) : KeepsPlace Parsed.rest tokens (readIndex tokens) := by
  unfold readIndex
  split
  · exact ⟨[_, _], rfl⟩
  · exact .expecting "]" (List.suffix_cons _ _)
  · exact .expecting "integer" (List.suffix_refl _)

mutual

theorem readBinary_keepsPlace (least : Nat) (tokens : List (Token N)) :
    KeepsPlace Parsed.rest tokens (readBinary least tokens) := by
  have hunary := readUnary_keepsPlace tokens
  unfold readBinary
  split
  · next h => exact hunary.of_eq_error h
  · next left h =>
    have := left.shorter
    have hoperators := (readOperators_keepsPlace least left.value left.rest).mono (hunary.of_eq_ok h)
    split
    · next hall => exact hoperators.of_eq_error hall
    · next all hall => exact hoperators.of_eq_ok hall
termination_by 3 * tokens.length + 2

theorem readOperators_keepsPlace (least : Nat) (left : Expr N) (tokens : List (Token N)) :
    KeepsPlace Parsed.rest tokens (readOperators least left tokens) := by
  unfold readOperators
  split
  · next m after =>
    split
    · exact List.suffix_refl _
    · next op _ =>
      split
      · exact List.suffix_refl _
      · have hbinary := (readBinary_keepsPlace op.rightLeast after).mono (List.suffix_cons (.mark m) after)
        split
        · next h => exact hbinary.of_eq_error h
        · next right h =>
          have := right.shorter
          have hoperators :=
            (readOperators_keepsPlace least (binary op left right.value) right.rest).mono (hbinary.of_eq_ok h)
          split
          · next hall => exact hoperators.of_eq_error hall
          · next all hall => exact hoperators.of_eq_ok hall
  · exact List.suffix_refl _
termination_by 3 * tokens.length
decreasing_by
  all_goals subst_vars; simp only [List.length_cons]; omega

theorem readUnary_keepsPlace (tokens : List (Token N)) : KeepsPlace Parsed.rest tokens (readUnary tokens) := by
  unfold readUnary
  split
  · exact ⟨[_, _], rfl⟩
  · exact ⟨[_, _], rfl⟩
  · next after _ _ =>
    have hunary := (readUnary_keepsPlace after).mono (List.suffix_cons (.mark .minus) after)
    split
    · next h => exact hunary.of_eq_error h
    · next operand h => exact hunary.of_eq_ok h
  · next after =>
    have hunary := (readUnary_keepsPlace after).mono (List.suffix_cons (.mark .plus) after)
    split
    · next h => exact hunary.of_eq_error h
    · next operand h => exact hunary.of_eq_ok h
  · exact readPrimary_keepsPlace tokens
termination_by 3 * tokens.length + 1
decreasing_by
  · subst_vars; simp only [List.length_cons]; omega
  · subst_vars; simp only [List.length_cons]; omega
  · omega

theorem readPrimary_keepsPlace (tokens : List (Token N)) : KeepsPlace Parsed.rest tokens (readPrimary tokens) := by
  unfold readPrimary
  split
  · exact List.suffix_cons _ _
  · exact List.suffix_cons _ _
  · next name after =>
    have hindex := (readIndex_keepsPlace after).mono
      (show after <:+ .identifier name :: .mark .leftBracket :: after from ⟨[_, _], rfl⟩)
    split
    · next h => exact hindex.of_eq_error h
    · next index h => exact hindex.of_eq_ok h
  · next name after _ =>
    split
    · exact List.suffix_cons _ _
    · split
      · next inside _ =>
        split
        · exact List.suffix_refl _
        · next f _ =>
          have hargument := (readBinary_keepsPlace 0 inside).mono
            (show inside <:+ .identifier name :: .mark .leftParen :: inside from ⟨[_, _], rfl⟩)
          split
          · next h => exact hargument.of_eq_error h
          · next argument h =>
            have hrest := hargument.of_eq_ok h
            split
            · next rest hclose => exact (List.suffix_cons _ rest).trans (hclose ▸ hrest)
            · exact .expecting ")" hrest
      · exact List.suffix_cons _ _
  · next inside =>
    have hgrouped := (readBinary_keepsPlace 0 inside).mono (List.suffix_cons (.mark .leftParen) inside)
    split
    · next h => exact hgrouped.of_eq_error h
    · next grouped h =>
      have hrest := hgrouped.of_eq_ok h
      split
      · next rest hclose => exact (List.suffix_cons _ rest).trans (hclose ▸ hrest)
      · exact .expecting ")" hrest
  · exact .expecting "expression" (List.suffix_refl _)
termination_by 3 * tokens.length
decreasing_by
  all_goals subst_vars; simp only [List.length_cons]; omega

end

end Expr

end QuilControl
