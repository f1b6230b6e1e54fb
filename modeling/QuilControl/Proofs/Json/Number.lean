import Mathlib.Data.List.DropRight
import QuilControl.Proofs.Json.Writing

/-!
# Numbers of documents

The digits of a double begin with no zero (`Double.isProper_digits`), so the text of an integer and of a finite
double is one that a document may hold. An integer is read as itself. A double is written with a point or a
power of ten, so it is no integer (`JsonNumber.integer?_ofFloat`).
-/

namespace QuilControl

open Decimal

/-! ## Digits -/

theorem head?_toDigits {n : Nat} (h : 0 < n) : (Nat.toDigits 10 n).head? ≠ some '0' := by
  induction n using Nat.strongRecOn with
  | ind n ih =>
    rw [Nat.toDigits_eq_if (by decide)]
    split
    · next hn =>
      have hall : ∀ d < 10, 0 < d → ([d.digitChar].head? ≠ some '0') := by decide
      exact hall n hn h
    · next hn =>
      have hhead := ih (n / 10) (by omega) (by omega)
      rwa [List.head?_append, Option.or_of_isSome (by simp [Nat.toDigits_ne_nil])]

namespace Decimal.Digits

/-- Digits of a number that is not zero begin with another digit than zero; zero has none. -/
structure IsProper (d : Digits) : Prop where
  isDigit : ∀ c ∈ d.digits, c.isDigit = true
  head : d.digits.head? ≠ some '0'
  point : d.digits = [] → d.point = 0

theorem isDigit_zeros (count : Nat) : ∀ c ∈ zeros count, c.isDigit = true := by
  intro c hc
  rw [List.eq_of_mem_replicate hc]
  rfl

theorem IsProper.isDigit_wholePart {d : Digits} (h : d.IsProper) : ∀ c ∈ d.wholePart, c.isDigit = true := by
  unfold wholePart
  split
  · exact List.forall_mem_singleton.2 rfl
  · exact List.forall_mem_append.2 ⟨fun c hc => h.isDigit c (List.mem_of_mem_take hc), isDigit_zeros _⟩

theorem IsProper.isDigit_fractionPart {d : Digits} (h : d.IsProper) :
    ∀ c ∈ d.fractionPart, c.isDigit = true := by
  unfold fractionPart
  split
  · nofun
  split
  · exact List.forall_mem_append.2 ⟨isDigit_zeros _, h.isDigit⟩
  · exact fun c hc => h.isDigit c (List.mem_of_mem_drop hc)

/-- The places in front of the point: a zero alone, or digits of which the first is none. -/
theorem IsProper.wholePart_cases {d : Digits} (h : d.IsProper) :
    d.wholePart = ['0'] ∨ ∃ c cs, d.wholePart = c :: cs ∧ c ≠ '0' := by
  unfold wholePart
  split
  · exact Or.inl rfl
  · next hpoint =>
    cases hdigits : d.digits with
    | nil => exact absurd (h.point hdigits) (by omega)
    | cons c cs =>
      obtain ⟨n, hn⟩ : ∃ n, d.point.toNat = n + 1 := ⟨d.point.toNat - 1, by omega⟩
      have hc : c ≠ '0' := fun hc => h.head (by rw [hdigits, hc]; rfl)
      refine Or.inr ⟨c, _, by rw [hn, List.take_succ_cons, List.cons_append], hc⟩

end Decimal.Digits

namespace Decimal

theorem Scientific.isProper_toDigits {s : Scientific} (h : s.significand ≠ 0) : s.toDigits.IsProper := by
  have hall := head?_toDigits (Nat.pos_of_ne_zero h)
  have hdigits : s.toDigits.digits = (Nat.toDigits 10 s.significand).rdropWhile (· = '0') := by
    simp only [toDigits, if_neg h, List.rdropWhile]
  have hkept := List.rdropWhile_prefix (fun c : Char => decide (c = '0')) (l := Nat.toDigits 10 s.significand)
  rw [← hdigits] at hkept
  refine ⟨fun c hc => isDigit_of_mem_toDigits c (hkept.subset hc), fun hhead => hall ?_, fun hnil => ?_⟩
  · obtain ⟨zeros, hzeros⟩ := hkept
    rw [← hzeros, List.head?_append, hhead]
    rfl
  · -- The first digit is no zero, so not all are dropped.
    rw [hdigits, List.rdropWhile_eq_nil_iff] at hnil
    obtain ⟨c, cs, hcs⟩ := List.exists_cons_of_ne_nil (Nat.toDigits_ne_nil (b := 10) (n := s.significand))
    have hc : c = '0' := of_decide_eq_true (hnil c (by rw [hcs]; exact List.mem_cons_self))
    exact absurd (by rw [hcs, hc]; rfl) hall

theorem Basin.significand_onGrid {tie : Tie} {b : Basin} {exponent : Int} {s : Scientific}
    (h : b.onGrid tie exponent = some s) : s.significand ≠ 0 := by
  unfold onGrid at h
  dsimp only at h
  split at h
  · next hbelow =>
    cases h
    simp only [Bool.and_eq_true, decide_eq_true_eq] at hbelow
    exact hbelow.1.1
  · split at h
    · cases h
      exact Nat.succ_ne_zero _
    · cases h

theorem Basin.significand_shortest (tie : Tie) {b : Basin} (h : b.centre ≠ 0) :
    (b.shortest tie).significand ≠ 0 := by
  unfold shortest
  dsimp only
  cases hfound : (List.range gridCount).findSome? _ with
  | none => exact Nat.mul_ne_zero h (Nat.pow_pos (by decide)).ne'
  | some s =>
    obtain ⟨i, -, hi⟩ := List.exists_of_findSome?_eq_some hfound
    exact significand_onGrid hi

end Decimal

theorem Double.isProper_digits (tie : Tie) (v : Float) : (Double.digits tie v).IsProper := by
  unfold Double.digits
  obtain ⟨significand, exponent⟩ := Double.magnitude v
  dsimp only
  split
  · exact ⟨nofun, nofun, fun _ => rfl⟩
  · next h =>
    refine Scientific.isProper_toDigits (Basin.significand_shortest tie ?_)
    have hquarter : 1 <<< (exponent - 2).toNat ≠ 0 := by simp [Nat.shiftLeft_eq]
    exact Nat.mul_ne_zero (Nat.mul_ne_zero (by decide) h) hquarter

namespace JsonNumber

/-! ## Integers -/

theorem isWellFormed_of_whole {digits : List Char} (h : digits = ['0'] ∨ ∃ c cs, digits = c :: cs ∧ c ≠ '0')
    (fraction : Option (List Char)) (hfraction : fraction ≠ some []) (power : List Char) :
    isWellFormed ⟨digits, fraction, power⟩ = true := by
  obtain rfl | ⟨c, cs, rfl, hc⟩ := h
  · simpa [isWellFormed] using hfraction
  · simpa [isWellFormed, hc] using hfraction

theorem toDigits_cases (n : Nat) :
    Nat.toDigits 10 n = ['0'] ∨ ∃ c cs, Nat.toDigits 10 n = c :: cs ∧ c ≠ '0' := by
  by_cases hn : n = 0
  · exact Or.inl (by rw [hn]; rfl)
  · obtain ⟨c, cs, hcs⟩ := List.exists_cons_of_ne_nil (Nat.toDigits_ne_nil (b := 10) (n := n))
    have hhead := head?_toDigits (Nat.pos_of_ne_zero hn)
    rw [hcs] at hhead
    exact Or.inr ⟨c, cs, hcs, fun hc => hhead (by rw [hc]; rfl)⟩

theorem isSpelled_ofInt (i : Int) : (ofInt i).IsSpelled where
  wellFormed := isWellFormed_of_whole (toDigits_cases i.natAbs) none nofun []
  read_text := Numeral.read_text_of_digits (fun d hd => isDigit_of_mem_toDigits d hd) nofun rfl

theorem integer?_ofInt {i : Int} (h : i.natAbs < 1 <<< 63) : (ofInt i).integer? = some i := by
  unfold integer? ofInt
  simp only [digitsValue_toDigits, Numeral.isInteger, Option.isNone_none, List.isEmpty_nil, Bool.and_self,
    Bool.not_true, Bool.false_eq_true, if_false, decide_eq_true_eq]
  by_cases hneg : i < 0
  · have hbounds : 0 < i.natAbs ∧ i.natAbs ≤ 1 <<< 63 := ⟨by omega, Nat.le_of_lt h⟩
    rw [if_pos hneg, if_pos hbounds]
    exact congrArg some (by omega)
  · have hlt : i.natAbs < UInt64.size := Nat.lt_trans h (by decide)
    rw [if_neg hneg, if_pos hlt]
    exact congrArg some (by omega)

/-! ## Doubles -/

theorem readSign_integer (k : Int) :
    Numeral.readSign (Digits.integer k) = (if k < 0 then ['-'] else [], Nat.toDigits 10 k.natAbs) := by
  unfold Digits.integer
  split
  · rfl
  · obtain ⟨c, cs, hcs⟩ := List.exists_cons_of_ne_nil (Nat.toDigits_ne_nil (b := 10) (n := k.natAbs))
    have hc : c.isDigit = true := isDigit_of_mem_toDigits c (by rw [hcs]; exact List.mem_cons_self)
    rw [hcs]
    exact Numeral.readSign_append_digit hc [] cs

/-- A power of ten is read as it is written. -/
theorem readPower_integer (k : Int) :
    Numeral.readPower ('e' :: Digits.integer k) = ('e' :: Digits.integer k, []) := by
  have hinteger : Digits.integer k = (if k < 0 then ['-'] else []) ++ Nat.toDigits 10 k.natAbs := by
    unfold Digits.integer
    split <;> rfl
  have hdigits : ∀ c ∈ Nat.toDigits 10 k.natAbs, c.isDigit = true := isDigit_of_mem_toDigits
  have htake := List.takeWhile_eq_self_iff.2 hdigits
  have hdrop := List.dropWhile_eq_nil_iff.2 hdigits
  obtain ⟨c, cs, hcs⟩ := List.exists_cons_of_ne_nil (Nat.toDigits_ne_nil (b := 10) (n := k.natAbs))
  rw [Numeral.readPower, if_pos (by decide)]
  simp only [readSign_integer, htake, hdrop]
  rw [hinteger, hcs]
  rfl

/-- The digits of a double are digits that a document may hold. -/
theorem isSpelled_writtenDigits {d : Digits} (h : d.IsProper) (negative : Bool) :
    (⟨negative, writtenDigits d⟩ : JsonNumber).IsSpelled := by
  by_cases hexponent : (16 < d.point || d.point < -4) = true
  · -- Zero has no power of ten, so there is a first digit.
    have hne : d.digits ≠ [] := fun hnil => by simp [h.point hnil] at hexponent
    obtain ⟨c, cs, hcs⟩ := List.exists_cons_of_ne_nil hne
    have hc : c ≠ '0' := fun hc => h.head (by rw [hcs, hc]; rfl)
    have hwritten : writtenDigits d =
        ⟨[c], if cs = [] then none else some cs, 'e' :: Digits.integer (d.point - 1)⟩ := by
      rw [writtenDigits, if_pos hexponent, hcs]
      cases cs <;> simp
    have hisDigit := h.isDigit
    rw [hcs] at hisDigit
    obtain ⟨hfirst, hothers⟩ := List.forall_mem_cons.1 hisDigit
    refine ⟨?_, ?_⟩ <;> simp only [hwritten]
    · refine isWellFormed_of_whole (Or.inr ⟨c, [], rfl, hc⟩) _ ?_ _
      split <;> simp_all
    · refine Numeral.read_text_of_digits (by simpa using hfirst) ?_ (readPower_integer _)
      split
      · nofun
      · rintro _ ⟨⟩
        exact hothers
  · have hwritten : writtenDigits d =
        ⟨d.wholePart, some (if d.fractionPart.isEmpty then ['0'] else d.fractionPart), []⟩ := by
      rw [writtenDigits, if_neg hexponent]
    refine ⟨?_, ?_⟩ <;> simp only [hwritten]
    · refine isWellFormed_of_whole h.wholePart_cases _ ?_ _
      split <;> simp_all
    · refine Numeral.read_text_of_digits h.isDigit_wholePart ?_ rfl
      rintro _ ⟨⟩
      split
      · exact List.forall_mem_singleton.2 rfl
      · exact h.isDigit_fractionPart

theorem isSpelled_ofFloat (v : Float) : (ofFloat v).IsSpelled :=
  isSpelled_writtenDigits (Double.isProper_digits _ v) _

theorem integer?_ofFloat (v : Float) : (ofFloat v).integer? = none := by
  have hinteger : (writtenDigits (Double.digits .toEven v)).isInteger = false := by
    unfold writtenDigits
    split
    · simp [Numeral.isInteger]
    · rfl
  simp [ofFloat, integer?, hinteger]

end JsonNumber

end QuilControl
