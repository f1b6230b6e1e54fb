import QuilControl.Expr.Parser
import QuilControl.Proofs.Token.Spelling

/-!
# Literals that read back

A literal is written as a number token, possibly with a minus in front. What a program computes
with is the number that this text reads as (`reread`): a number reads back when that number is
equal to it. Numbers that read back spell one literal (`spells_literal`).
-/

namespace QuilControl

variable {N : Type} [Scalar N]

def Token.number? : Token N → Option N
  | int value => some (Expr.ofInt value)
  | float value => some value
  | _ => none

/-- The number that a text is as a literal: one number token, possibly with a minus in front. -/
def literalValue? (text : List Char) : Option N :=
  match (pieces text : List (Piece N)) with
  | [.token _ t] => t.number?
  | [.token _ (.mark .minus), .token _ t] => t.number?.map Scalar.neg
  | _ => none

/-- The text of a number is a literal of an equal number. -/
def ReadsBack (v : N) : Prop := ∃ w : N, literalValue? (Scalar.literal v) = some w ∧ (w == v) = true

/-- The number that the text of a number reads as. -/
def reread (v : N) : N := (literalValue? (Scalar.literal v)).getD v

def literalTokens (v : N) : List (Token N) := tokensOf (pieces (Scalar.literal v))

theorem ReadsBack.beq {v : N} (h : ReadsBack v) : (reread v == v) = true := by
  obtain ⟨w, hw, hv⟩ := h
  rw [reread, hw]
  exact hv

/-! ## Number tokens -/

/-- A number token comes from a number literal. -/
theorem read_eq_number {c : Char} {cs text rest : List Char} {t : Token N}
    (h : Piece.read c cs = (.token text t, rest)) (ht : t.number?.isSome = true) :
    (c.isDigit || (c = '.' && startsWithDigit cs)) = true := by
  cases Piece.reads_of_eq h with
  | int hdigit => rw [hdigit]; rfl
  | float hnumber => exact hnumber
  | string | name | mark => cases ht

theorem spells_number {text cs : List Char} {t : Token N} (h : pieces text = [.token cs t])
    (ht : t.number?.isSome = true) : Spells breaksNumber text [t] := by
  cases text with
  | nil => rw [pieces_nil] at h; cases h
  | cons c rest =>
    rw [pieces_cons] at h
    obtain ⟨hpiece, hrest⟩ := List.cons.inj h
    have hnil : (Piece.read (N := N) c rest).2 = [] := by
      rw [← flatMap_chars_pieces (N := N) (Piece.read (N := N) c rest).2, hrest]
      rfl
    have hread : Piece.read c rest = (.token cs t, []) := Prod.ext hpiece hnil
    have hcs : cs = c :: rest := by
      have := Piece.chars_read (N := N) c rest
      rwa [hread, List.append_nil] at this
    subst hcs
    have hnumber := read_eq_number hread ht
    rw [read_of_number hnumber] at hread
    obtain ⟨hn, hr⟩ := Prod.mk.inj hread
    have hnumeral : Numeral.read (c :: rest) = (_, []) := Prod.ext rfl hr
    refine Spells.of_read fun tail htail => ?_
    have hnumber' : (c.isDigit || (c = '.' && startsWithDigit (rest ++ tail))) = true := by
      rcases Bool.or_eq_true_iff.1 hnumber with hd | hd
      · rw [hd]; rfl
      · obtain ⟨hc, hd⟩ := Bool.and_eq_true_iff.1 hd
        rw [hc, startsWithDigit_append tail hd, Bool.and_self, Bool.or_true]
    rw [read_of_number hnumber', ← List.cons_append, read_append_rest hnumeral htail (Or.inl rfl), hn,
      List.nil_append]

/-- A mark is a piece of its own. -/
theorem read_eq_mark {c : Char} {cs text rest : List Char} {m : Mark}
    (h : (Piece.read c cs : Piece N × List Char) = (.token text (.mark m), rest)) :
    c = m.char ∧ rest = cs := by
  cases Piece.reads_of_eq h with
  | mark hm => exact ⟨hm.symm, rfl⟩

/-- The two forms of a literal. -/
theorem pieces_literal {v : N} (h : ReadsBack v) :
    (∃ cs t, pieces (Scalar.literal v) = [.token cs t] ∧ t.number? = some (reread v)) ∨
      ∃ ms cs t x, pieces (Scalar.literal v) = [.token ms (.mark .minus), .token cs t] ∧
        t.number? = some x ∧ reread v = Scalar.neg x := by
  obtain ⟨w, hw, -⟩ := h
  have hre : reread v = w := by rw [reread, hw]; rfl
  rw [hre]
  unfold literalValue? at hw
  split at hw
  · exact Or.inl ⟨_, _, ‹_›, hw⟩
  · obtain ⟨x, hx, rfl⟩ := Option.map_eq_some_iff.1 hw
    exact Or.inr ⟨_, _, _, x, ‹_›, hx, rfl⟩
  · cases hw

theorem literalTokens_cases {v : N} (h : ReadsBack v) :
    (∃ t, literalTokens v = [t] ∧ t.number? = some (reread v)) ∨
      ∃ t x, literalTokens v = [.mark .minus, t] ∧ t.number? = some x ∧ reread v = Scalar.neg x := by
  rcases pieces_literal h with ⟨cs, t, hp, ht⟩ | ⟨ms, cs, t, x, hp, ht, hx⟩
  · exact Or.inl ⟨t, by rw [literalTokens, hp]; rfl, ht⟩
  · exact Or.inr ⟨t, x, by rw [literalTokens, hp]; rfl, ht, hx⟩

/-- A number that reads back spells its literal. -/
theorem spells_literal {v : N} (h : ReadsBack v) :
    Spells breaksNumber (Scalar.literal v) (literalTokens v) := by
  rcases pieces_literal h with ⟨cs, t, hp, ht⟩ | ⟨ms, cs, t, x, hp, ht, hx⟩
  · rw [literalTokens, hp]
    exact spells_number hp (by rw [ht]; rfl)
  · have htokens : literalTokens v = [.mark .minus] ++ [t] := by rw [literalTokens, hp]; rfl
    generalize Scalar.literal v = text at *
    cases text with
    | nil => rw [pieces_nil] at hp; cases hp
    | cons c rest =>
      rw [pieces_cons] at hp
      obtain ⟨hpiece, hrest⟩ := List.cons.inj hp
      obtain ⟨rfl, hr⟩ := read_eq_mark
        (show Piece.read c rest = (.token ms (.mark .minus), (Piece.read (N := N) c rest).2) from
          Prod.ext hpiece rfl)
      rw [hr] at hrest
      rw [htokens]
      exact (spells_mark .minus).append (spells_number hrest (by rw [ht]; rfl)) fun _ _ => trivial

/-! ## Laws -/

/-- What writing programs needs of numbers. Words, and the numbers that literals are read as, are not
negative; words and negations of finite numbers are finite; finite numbers read back, and have no sign
unless they are negative. -/
structure LiteralLaws (N : Type) [Scalar N] : Prop where
  finite_ofNat : ∀ n, n < UInt64.size → Scalar.isFinite (Scalar.ofNat n : N) = true
  finite_neg : ∀ v : N, Scalar.isFinite v = true → Scalar.isFinite (Scalar.neg v) = true
  nonnegative_ofNat : ∀ n, Scalar.isNegative (Scalar.ofNat n : N) = false
  nonnegative_ofDecimal : ∀ significand exponent,
    Scalar.isNegative (Scalar.ofDecimal significand exponent : N) = false
  readsBack : ∀ v : N, Scalar.isFinite v = true → ReadsBack v
  unsigned : ∀ v : N, Scalar.isNegative v = false → (Scalar.literal v).head? ≠ some '-'

/-- A number that is not negative is written as one number token. -/
theorem LiteralLaws.literalTokens_of_nonnegative (laws : LiteralLaws N) {v : N}
    (hf : Scalar.isFinite v = true) (hn : Scalar.isNegative v = false) :
    ∃ t, literalTokens v = [t] ∧ t.number? = some (reread v) := by
  rcases pieces_literal (laws.readsBack v hf) with ⟨cs, t, hp, ht⟩ | ⟨ms, cs, t, x, hp, ht, hx⟩
  · exact ⟨t, by rw [literalTokens, hp]; rfl, ht⟩
  · have hhead := laws.unsigned v hn
    cases hl : Scalar.literal v with
    | nil => rw [hl, pieces_nil] at hp; cases hp
    | cons c rest =>
      rw [hl, pieces_cons] at hp
      obtain ⟨hpiece, -⟩ := List.cons.inj hp
      obtain ⟨rfl, -⟩ := read_eq_mark
        (show Piece.read c rest = (.token ms (.mark .minus), (Piece.read (N := N) c rest).2) from
          Prod.ext hpiece rfl)
      exact absurd (by rw [hl]; rfl) hhead

end QuilControl
