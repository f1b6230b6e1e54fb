import QuilControl.Proofs.Expr.Grammar
import QuilControl.Proofs.Expr.RoundTrip
import QuilControl.Proofs.Token.Reading

/-!
# Expressions that are read can be written

Names of an expression come from identifiers, and its literals from number tokens or their negations
(`Derives.madeOf`). So what is read from legible tokens has identifiers for names and finite literals, and
the tokens that are left are legible.
-/

namespace QuilControl

variable {N : Type} [Scalar N]

def LegibleTokens (tokens : List (Token N)) : Prop := ∀ t ∈ tokens, t.IsLegible

@[simp]
theorem legibleTokens_nil : LegibleTokens ([] : List (Token N)) := by simp [LegibleTokens]

@[simp]
theorem legibleTokens_cons {t : Token N} {ts : List (Token N)} :
    LegibleTokens (t :: ts) ↔ t.IsLegible ∧ LegibleTokens ts := by simp [LegibleTokens]

/-- The name of a slot has the form of an identifier. -/
def MemoryReference.IsLegible (slot : MemoryReference) : Prop := IsName slot.name

namespace Expr

/-- Names have the form of identifiers, and literals are finite. -/
abbrev IsLegible (e : Expr N) : Prop := e.FiniteOver MemoryReference.IsLegible

theorem IsLegible.legible (laws : LiteralLaws N) {e : Expr N} (h : e.IsLegible) : e.Legible :=
  h.mono (fun _ hr => hr) laws.readsBack

theorem isFinite_ofInt (laws : LiteralLaws N) (value : UInt64) :
    Scalar.isFinite (ofInt value : N) = true := laws.finite_ofNat _ value.toNat_lt

/-- The expression that is read and the tokens that are left are legible. -/
def ReadsLegible {bound : Nat} (r : Parsed N (Expr N) bound) : Prop := r.value.IsLegible ∧ LegibleTokens r.rest

/-- The number of a legible token is finite, and so is its negation. -/
theorem isFinite_number {t : Token N} {x : N} (laws : LiteralLaws N) (h : t.IsLegible) (hx : t.number? = some x) :
    Scalar.isFinite x = true ∧ Scalar.isFinite (Scalar.neg x) = true := by
  have hfinite : Scalar.isFinite x = true := by
    cases t with
    | int value => cases hx; exact isFinite_ofInt laws value
    | float value => cases hx; exact h.1
    | string | identifier | mark => cases hx
  exact ⟨hfinite, laws.finite_neg x hfinite⟩

/-- What is read from legible tokens is legible. -/
theorem readBinary_legible (laws : LiteralLaws N) {tokens : List (Token N)} {least : Nat}
    {r : Parsed N (Expr N) tokens.length} (ht : LegibleTokens tokens) (h : readBinary least tokens = .ok r) :
    ReadsLegible r := by
  have hderives := derives_of_readBinary h
  refine ⟨hderives.madeOf (fun name hname _ => ht _ hname) fun t hmem x hx => ?_, fun t hmem => ?_⟩
  · exact isFinite_number laws (ht t hmem) hx
  · exact ht t (hderives.suffix.subset hmem)

end Expr

end QuilControl
