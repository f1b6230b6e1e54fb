import Mathlib
import QuilControl.Scalar.Double

/-!
# Natural numbers as doubles

A double has 53 significant bits, so a longer natural number becomes the nearest one that has no more
(`nearest53`), and of two that are equally near the even one. The model of doubles gets there by shifting: the
bits that are shifted out are kept as the first of them and whether any other is set, which is enough to round
(`roundedMantissa_shiftRight`). What comes out is a normal double that holds the rounded number (`Holds`).
Normal doubles are unpacked as they were packed and have one form for each value, so words are equal as doubles
just when they are rounded alike (`ofNat_beq_iff`).
-/

namespace QuilControl.Double

open Float.Model Float.Model.UnpackedFloat

/-! ## Rounding -/

/-- The natural number nearest to `n / 2 ^ k`, the even one of two. -/
def divRound (n k : Nat) : Nat :=
  let quotient := n / 2 ^ k
  let rest := n % 2 ^ k
  if 2 ^ k < 2 * rest ∨ 2 * rest = 2 ^ k ∧ quotient % 2 = 1 then quotient + 1 else quotient

/-- The number nearest to `n` of those with at most 53 significant bits. -/
def nearest53 (n : Nat) : Nat := divRound n (n.log2 - 52) * 2 ^ (n.log2 - 52)

theorem le_divRound (n k : Nat) : n / 2 ^ k ≤ divRound n k := by
  unfold divRound
  dsimp only
  split <;> omega

theorem divRound_le (n k : Nat) : divRound n k ≤ n / 2 ^ k + 1 := by
  unfold divRound
  dsimp only
  split <;> omega

theorem divRound_zero (n : Nat) : divRound n 0 = n := by
  unfold divRound
  simp [Nat.mod_one]

/-- Zeros at the end do not count. -/
theorem divRound_mul_pow (n k l : Nat) : divRound (n * 2 ^ l) (k + l) = divRound n k := by
  have hpos : 0 < 2 ^ l := Nat.two_pow_pos l
  have hlt : 2 ^ k * 2 ^ l < 2 * (n % 2 ^ k * 2 ^ l) ↔ 2 ^ k < 2 * (n % 2 ^ k) := by
    rw [← Nat.mul_assoc, Nat.mul_lt_mul_right hpos]
  have heq : 2 * (n % 2 ^ k * 2 ^ l) = 2 ^ k * 2 ^ l ↔ 2 * (n % 2 ^ k) = 2 ^ k := by
    rw [← Nat.mul_assoc, Nat.mul_left_inj hpos.ne']
  unfold divRound
  rw [Nat.pow_add, Nat.mul_div_mul_right _ _ hpos, Nat.mul_mod_mul_right]
  simp only [hlt, heq]

theorem log2_eq {n b : Nat} (hle : 2 ^ b ≤ n) (hlt : n < 2 ^ (b + 1)) : n.log2 = b := by
  have hn : n ≠ 0 := by have := Nat.two_pow_pos b; omega
  exact (Nat.log2_eq_iff hn).2 ⟨hle, hlt⟩

theorem log2_mul_pow {n : Nat} (hn : n ≠ 0) (k : Nat) : (n * 2 ^ k).log2 = n.log2 + k := by
  refine log2_eq ?_ ?_
  · rw [Nat.pow_add]
    exact Nat.mul_le_mul_right _ (Nat.log2_self_le hn)
  · rw [Nat.add_right_comm, Nat.pow_add]
    exact Nat.mul_lt_mul_of_pos_right Nat.lt_log2_self (Nat.two_pow_pos k)

/-- Numbers of at most 53 bits are not rounded. -/
theorem nearest53_of_lt {n : Nat} (h : n < 2 ^ 53) : nearest53 n = n := by
  have hlog : n.log2 - 52 = 0 := by
    by_cases hn : n = 0
    · rw [hn]
      rfl
    · have := (Nat.log2_lt hn).2 h
      omega
  rw [nearest53, hlog, divRound_zero, Nat.pow_zero, Nat.mul_one]

/-- A number of more bits has 53 of them left when the others are dropped. -/
theorem le_div_two_pow {n : Nat} (h : 52 ≤ n.log2) : 2 ^ 52 ≤ n / 2 ^ (n.log2 - 52) := by
  have hn : n ≠ 0 := by
    rintro rfl
    rw [Nat.log2_zero] at h
    omega
  rw [Nat.le_div_iff_mul_le (Nat.two_pow_pos _), ← Nat.pow_add, Nat.add_sub_cancel' h]
  exact Nat.log2_self_le hn

theorem div_two_pow_lt (n : Nat) : n / 2 ^ (n.log2 - 52) < 2 ^ 53 := by
  have hbits : n.log2 + 1 ≤ 53 + (n.log2 - 52) := by omega
  rw [Nat.div_lt_iff_lt_mul (Nat.two_pow_pos _), ← Nat.pow_add]
  exact Nat.lt_log2_self.trans_le (Nat.pow_le_pow_right (by decide) hbits)

/-- A quotient that was rounded up may need one bit more, which is a zero. -/
theorem exists_normal {q : Nat} (hlow : 2 ^ 52 ≤ q) (hhigh : q ≤ 2 ^ 53) :
    ∃ j, q.log2 = 52 + j ∧ q / 2 ^ j * 2 ^ j = q ∧ 2 ^ 52 ≤ q / 2 ^ j ∧ q / 2 ^ j < 2 ^ 53 := by
  by_cases hcarry : q = 2 ^ 53
  · exact ⟨1, by rw [hcarry, Nat.log2_two_pow], by omega, by omega, by omega⟩
  · exact ⟨0, log2_eq hlow (by omega), by omega, by omega, by omega⟩

/-- A number of more than 53 bits is not rounded to one of at most 53. -/
theorem le_nearest53 {n : Nat} (h : 2 ^ 53 ≤ n) : 2 ^ 53 ≤ nearest53 n := by
  have hlog : 53 ≤ n.log2 := (Nat.le_log2 (by omega)).2 h
  calc 2 ^ 53 = 2 ^ 52 * 2 ^ 1 := by decide
    _ ≤ 2 ^ 52 * 2 ^ (n.log2 - 52) := Nat.mul_le_mul_left _ (Nat.pow_le_pow_right (by decide) (by omega))
    _ ≤ nearest53 n := Nat.mul_le_mul_right _ ((le_div_two_pow (by omega)).trans (le_divRound _ _))

/-- No number of 53 significant bits lies between the two multiples next to `n`. -/
theorem not_between {n m e : Nat} (hm : m < 2 ^ 53) :
    m * 2 ^ e ≤ n / 2 ^ (n.log2 - 52) * 2 ^ (n.log2 - 52) ∨
      (n / 2 ^ (n.log2 - 52) + 1) * 2 ^ (n.log2 - 52) ≤ m * 2 ^ e := by
  by_cases hd : n.log2 - 52 ≤ e
  · have hsplit : m * 2 ^ e = m * 2 ^ (e - (n.log2 - 52)) * 2 ^ (n.log2 - 52) := by
      rw [Nat.mul_assoc, ← Nat.pow_add, Nat.sub_add_cancel hd]
    rw [hsplit]
    rcases Nat.lt_or_ge (n / 2 ^ (n.log2 - 52)) (m * 2 ^ (e - (n.log2 - 52))) with hlt | hge
    · exact Or.inr (Nat.mul_le_mul_right _ hlt)
    · exact Or.inl (Nat.mul_le_mul_right _ hge)
  · refine Or.inl ?_
    calc m * 2 ^ e ≤ 2 ^ 53 * 2 ^ e := Nat.mul_le_mul_right _ hm.le
      _ = 2 ^ 52 * 2 ^ (e + 1) := by rw [← Nat.pow_add, ← Nat.pow_add, Nat.add_comm e, ← Nat.add_assoc]
      _ ≤ 2 ^ 52 * 2 ^ (n.log2 - 52) := Nat.mul_le_mul_left _ (Nat.pow_le_pow_right (by decide) (by omega))
      _ ≤ n / 2 ^ (n.log2 - 52) * 2 ^ (n.log2 - 52) := Nat.mul_le_mul_right _ (le_div_two_pow (by omega))

/-- No number of 53 significant bits is nearer. -/
theorem nearest53_nearest (n : Nat) {m e : Nat} (hm : m < 2 ^ 53) :
    ((nearest53 n : Int) - n).natAbs ≤ (((m * 2 ^ e : Nat) : Int) - n).natAbs := by
  have hbetween := not_between (n := n) (e := e) hm
  have hsplit := Nat.div_add_mod n (2 ^ (n.log2 - 52))
  have hlt : n % 2 ^ (n.log2 - 52) < 2 ^ (n.log2 - 52) := Nat.mod_lt _ (Nat.two_pow_pos _)
  unfold nearest53 divRound
  generalize m * 2 ^ e = v at *
  rw [Nat.mul_comm] at hsplit
  dsimp only
  split
  · rw [Nat.add_mul] at *
    omega
  · rw [Nat.add_mul] at hbetween
    omega

theorem nearest53_le {n : Nat} (h : n < 2 ^ 64) : nearest53 n ≤ 2 ^ 64 := by
  have hd : n.log2 - 52 ≤ 64 := by
    by_cases hn : n = 0
    · rw [hn, Nat.log2_zero]
      decide
    · have := (Nat.log2_lt hn).2 h
      omega
  rw [nearest53]
  generalize n.log2 - 52 = d at *
  have hsplit : 2 ^ (64 - d) * 2 ^ d = 2 ^ 64 := by rw [← Nat.pow_add, Nat.sub_add_cancel hd]
  have hdiv : n / 2 ^ d < 2 ^ (64 - d) := by
    rw [Nat.div_lt_iff_lt_mul (Nat.two_pow_pos d), hsplit]
    exact h
  have hround := divRound_le n d
  calc divRound n d * 2 ^ d ≤ 2 ^ (64 - d) * 2 ^ d := Nat.mul_le_mul_right _ (by omega)
    _ = 2 ^ 64 := hsplit

/-! ## The shifts of the model -/

/-- What was shifted out is kept as its first bit and whether there is another one. -/
theorem shiftRight_exact (n k : Nat) :
    (⟨n, false, false⟩ : ExtendedMantissa) >>> k =
      ⟨n / 2 ^ k, decide (2 ^ k ≤ 2 * (n % 2 ^ k)), decide (2 * (n % 2 ^ k) % 2 ^ k ≠ 0)⟩ := by
  change k.repeat ExtendedMantissa.shiftRightOne ⟨n, false, false⟩ = _
  induction k with
  | zero => simp [Nat.repeat, Nat.mod_one]
  | succ k ih =>
    have hrest : n % 2 ^ (k + 1) = n % 2 ^ k + 2 ^ k * (n / 2 ^ k % 2) := Nat.mod_pow_succ
    have hlt : n % 2 ^ k < 2 ^ k := Nat.mod_lt _ (Nat.two_pow_pos k)
    have hbit : n / 2 ^ k % 2 = 0 ∨ n / 2 ^ k % 2 = 1 := Nat.mod_two_eq_zero_or_one _
    have hquotient : n / 2 ^ (k + 1) = n / 2 ^ k / 2 := by rw [Nat.pow_succ, Nat.div_div_eq_div_mul]
    have hdouble : 2 * (n % 2 ^ (k + 1)) % 2 ^ (k + 1) = 2 * (n % 2 ^ k) := by
      rw [hrest, Nat.pow_succ]
      rcases hbit with hbit | hbit <;> rw [hbit]
      · rw [Nat.mul_zero, Nat.add_zero, Nat.mod_eq_of_lt (by omega)]
      · rw [Nat.mul_one, Nat.mul_add, Nat.mul_comm (2 ^ k) 2, Nat.add_mod_right, Nat.mod_eq_of_lt (by omega)]
    rw [Nat.repeat, ih, hquotient, hdouble]
    simp only [ExtendedMantissa.shiftRightOne, ExtendedMantissa.mk.injEq, true_and]
    constructor
    · rw [hrest, Nat.pow_succ]
      rcases hbit with hbit | hbit <;> simp [hbit] <;> omega
    · by_cases hround : 2 ^ k ≤ 2 * (n % 2 ^ k)
      · have hne : n % 2 ^ k ≠ 0 := by have := Nat.two_pow_pos k; omega
        rw [decide_eq_true hround, Bool.true_or, decide_eq_true (by omega)]
      · have hsmall : 2 * (n % 2 ^ k) % 2 ^ k = 2 * (n % 2 ^ k) := Nat.mod_eq_of_lt (by omega)
        rw [hsmall, decide_eq_false hround, Bool.false_or]

/-- Rounding by the bits that were shifted out. -/
theorem roundedMantissa_shiftRight (n k : Nat) :
    ((⟨n, false, false⟩ : ExtendedMantissa) >>> k).roundedMantissa = divRound n k := by
  have hlt : n % 2 ^ k < 2 ^ k := Nat.mod_lt _ (Nat.two_pow_pos k)
  rw [shiftRight_exact, divRound]
  generalize n % 2 ^ k = rest at *
  generalize 2 ^ k = unit at *
  unfold ExtendedMantissa.roundedMantissa
  by_cases hround : unit ≤ 2 * rest
  · have hmod : 2 * rest % unit = 2 * rest - unit := by
      rw [Nat.mod_eq_sub_mod hround, Nat.mod_eq_of_lt (by omega)]
    rw [hmod, decide_eq_true hround]
    by_cases htie : 2 * rest = unit
    · rw [decide_eq_false (by omega)]
      simp only [ExtendedMantissa.accuracy, Accuracy.roundToNearestEven]
      split <;> omega
    · rw [decide_eq_true (by omega), if_pos (by omega)]
      rfl
  · rw [decide_eq_false hround, if_neg (by omega)]
    cases decide (2 * rest % unit ≠ 0) <;> rfl

/-! ## Doubles of natural numbers -/

/-- The normal double that is a natural number: 53 bits, of which the first counts `2 ^ e`. -/
def Holds (u : UnpackedFloat) (n : Nat) : Prop :=
  ∃ (m e : Nat) (h : 0 < m), u = .finite .positive m (e - 52) h ∧ 2 ^ 52 ≤ m ∧ m < 2 ^ 53 ∧
    m * 2 ^ e = n * 2 ^ 52

theorem mantissaBits_binary64 : Format.binary64.mantissaBits = 53 := rfl

theorem exponentBias_binary64 : Format.binary64.exponentBias = 1023 := rfl

theorem minExponent_binary64 : Format.binary64.minExponent = -1074 := by decide

theorem targetExponent_binary64 (m : Nat) (e : Int) :
    Format.binary64.targetExponent (totalExponent m e) = max (m.log2 + e - 52) (-1074) := by
  rw [Format.targetExponent, totalExponent, mantissaBits_binary64, minExponent_binary64]
  congr 1
  omega

/-- Shifting to 53 bits. -/
theorem shiftToTargetExponent_of_log2 {m k : Nat} {e : Int} (hlog : m.log2 = 52 + k) (he : -1074 ≤ e + k) :
    shiftToTargetExponent .binary64 m e .exact = ((⟨m, false, false⟩ : ExtendedMantissa) >>> k, e + k) := by
  have hk : (max (m.log2 + e - 52) (-1074) - e).toNat = k := by omega
  unfold shiftToTargetExponent shiftToExponent
  rw [targetExponent_binary64]
  dsimp only
  rw [hk]
  rfl

/-- Rounding a number of more bits to 53. -/
theorem holds_roundWithAccuracy {m k e n : Nat} {e' : Int} (hlog : m.log2 = 52 + k) (he : e' + k = e - 52)
    (hn : divRound m k * 2 ^ e = n * 2 ^ 52) :
    Holds (roundWithAccuracy .binary64 .positive m e' .exact) n := by
  have hk : m.log2 - 52 = k := by omega
  have hge := le_div_two_pow (n := m) (by omega)
  have hlt := div_two_pow_lt m
  rw [hk] at hge hlt
  have hfirst := shiftToTargetExponent_of_log2 hlog (e := e') (by omega)
  have hq := le_divRound m k
  have hq' := divRound_le m k
  unfold roundWithAccuracy
  rw [hfirst]
  dsimp only
  rw [roundedMantissa_shiftRight]
  generalize divRound m k = q at *
  obtain ⟨j, hlogq, hj, hlow, hhigh⟩ := exists_normal (hge.trans hq) (hq'.trans hlt)
  have hpos : q / 2 ^ j ≠ 0 := by omega
  have hsecond := shiftToTargetExponent_of_log2 hlogq (e := e' + k) (by omega)
  have hexponent : e' + k + j = ((e + j : Nat) : Int) - 52 := by omega
  rw [shiftRight_exact, hexponent] at hsecond
  rw [hsecond]
  dsimp only
  rw [dif_neg hpos]
  refine ⟨q / 2 ^ j, e + j, Nat.pos_of_ne_zero hpos, rfl, hlow, hhigh, ?_⟩
  rw [Nat.add_comm, Nat.pow_add, ← Nat.mul_assoc, hj, hn]

/-! ## Bit patterns -/

section Normal

variable {m e : Nat}

/-- The exponent of a normal double is biased, and the first of its bits is left out. -/
theorem pack_normal (h : 0 < m) (hlow : 2 ^ 52 ≤ m) (hhigh : m < 2 ^ 53) (he : e < 1024) :
    UnpackedFloat.pack .binary64 (.finite .positive m (e - 52) h) =
      packComponents .binary64 .positive (BitVec.ofNat 11 (e + 1023)) (BitVec.ofNat 52 m) := by
  have hbiased : ((e : Int) - 52 + Format.binary64.exponentBias + Format.binary64.mantissaBitsWithoutImplicit).toNat =
      e + 1023 := by
    rw [exponentBias_binary64]
    change ((e : Int) - 52 + (1023 : Nat) + (52 : Nat)).toNat = e + 1023
    omega
  have hfinite : ¬ 2 ^ Format.binary64.exponentBits ≤ e + 1023 + 1 := by
    have hbits : 2 ^ Format.binary64.exponentBits = 2048 := by decide
    omega
  have hlog : m.log2 + 1 = Format.binary64.mantissaBits := by
    rw [log2_eq hlow hhigh]
    rfl
  unfold UnpackedFloat.pack
  dsimp only
  rw [hbiased, if_neg hfinite, if_pos hlog]

theorem toNat_one_append (hlow : 2 ^ 52 ≤ m) (hhigh : m < 2 ^ 53) : (1#1 ++ BitVec.ofNat 52 m).toNat = m := by
  have hfield : (BitVec.ofNat 52 m).toNat = m - 2 ^ 52 := by
    rw [BitVec.toNat_ofNat, Nat.mod_eq_sub_mod hlow, Nat.mod_eq_of_lt (by omega)]
  have hone : (1#1).toNat <<< 52 = 2 ^ 52 := by decide
  rw [BitVec.toNat_append, hfield, ← Nat.shiftLeft_add_eq_or_of_lt (by omega), hone]
  omega

/-- A normal double is unpacked as it was packed. -/
theorem unpack_pack_normal (h : 0 < m) (hlow : 2 ^ 52 ≤ m) (hhigh : m < 2 ^ 53) (he : e < 1024) :
    UnpackedFloat.unpack .binary64 (UnpackedFloat.pack .binary64 (.finite .positive m (e - 52) h)) =
      .finite .positive m (e - 52) h := by
  have hexponent : (BitVec.ofNat 11 (e + 1023)).toNat = e + 1023 := by
    rw [BitVec.toNat_ofNat, Nat.mod_eq_of_lt (by omega)]
  have hne {v : BitVec 11} (hv : v.toNat ≠ e + 1023) : BitVec.ofNat 11 (e + 1023) ≠ v := by
    rintro rfl
    exact hv hexponent
  have hfull : BitVec.ofNat 11 (e + 1023) ≠ -1#11 := hne (by change 2047 ≠ _; omega)
  have hzero : BitVec.ofNat 11 (e + 1023) ≠ 0#11 := hne (by change 0 ≠ _; omega)
  have hmantissa := toNat_one_append hlow hhigh
  have hunbiased : ((e + 1023 : Nat) : Int) - ((1023 : Nat) + (52 : Nat)) = e - 52 := by omega
  rw [pack_normal h hlow hhigh he]
  unfold UnpackedFloat.unpack
  simp only [unpackExponent_packComponents, unpackMantissa_packComponents, unpackSign_packComponents]
  rw [if_neg hfull, if_neg hzero, hexponent, exponentBias_binary64]
  -- The bits and the exponent are those of the two facts above.
  congr 1

end Normal

/-- Packing loses nothing of a whole number in the range of doubles. -/
theorem Holds.unpack_pack {u : UnpackedFloat} {n : Nat} (h : Holds u n) (hn : n ≤ 2 ^ 64) :
    Holds (Float.Model.pack u).unpack n := by
  obtain ⟨m, e, hpos, rfl, hlow, hhigh, hvalue⟩ := h
  have he : e < 65 := by
    by_contra hge
    have hpow : 2 ^ 65 ≤ 2 ^ e := Nat.pow_le_pow_right (by decide) (by omega)
    have hmul : 2 ^ 52 * 2 ^ 65 ≤ m * 2 ^ e := Nat.mul_le_mul hlow hpow
    omega
  have hbits : (Float.Model.pack (.finite .positive m (e - 52) hpos)).unpack = .finite .positive m (e - 52) hpos :=
    unpack_pack_normal hpos hlow hhigh (by omega)
  rw [hbits]
  exact ⟨m, e, hpos, rfl, hlow, hhigh, hvalue⟩

theorem log2_mul_two_pow {m : Nat} (hlow : 2 ^ 52 ≤ m) (hhigh : m < 2 ^ 53) (e : Nat) :
    (m * 2 ^ e).log2 = 52 + e := by
  rw [log2_mul_pow (by omega), log2_eq hlow hhigh]

/-- Doubles that hold whole numbers are compared as these. -/
theorem Holds.beq_iff {u u' : UnpackedFloat} {n n' : Nat} (h : Holds u n) (h' : Holds u' n') :
    UnpackedFloat.beq u u' = true ↔ n = n' := by
  obtain ⟨m, e, hpos, rfl, hlow, hhigh, hvalue⟩ := h
  obtain ⟨m', e', hpos', rfl, hlow', hhigh', hvalue'⟩ := h'
  have hcompare :
      UnpackedFloat.beq (.finite .positive m (e - 52) hpos) (.finite .positive m' (e' - 52) hpos') = true ↔
        e = e' ∧ m = m' := by
    simp only [beq_iff_ne_notANumber_and_eq, ne_eq, reduceCtorEq, not_false_eq_true, finite.injEq, true_and, false_and,
      or_false]
    omega
  rw [hcompare]
  constructor
  · rintro ⟨rfl, rfl⟩
    exact Nat.eq_of_mul_eq_mul_right (Nat.two_pow_pos 52) (hvalue.symm.trans hvalue')
  · rintro rfl
    have hsame : m * 2 ^ e = m' * 2 ^ e' := hvalue.trans hvalue'.symm
    have hlog := log2_mul_two_pow hlow hhigh e
    rw [hsame, log2_mul_two_pow hlow' hhigh'] at hlog
    obtain rfl : e = e' := by omega
    exact ⟨rfl, Nat.eq_of_mul_eq_mul_right (Nat.two_pow_pos e) hsame⟩

/-! ## Natural numbers as doubles -/

theorem holds_ofUInt64 {w : UInt64} (hw : w.toNat ≠ 0) (hlt : w.toNat < 2 ^ 53) :
    Holds (UnpackedFloat.ofUInt64 .binary64 w) w.toNat := by
  generalize hn : w.toNat = n at *
  have hlog : n.log2 ≤ 52 := by have := (Nat.log2_lt hw).2 hlt; omega
  have hround : UnpackedFloat.ofUInt64 .binary64 w = UnpackedFloat.round .binary64 .positive n 0 := by
    have hcompare : compare (n : Int) 0 = .gt := compare_gt_iff_gt.2 (by omega)
    rw [UnpackedFloat.ofUInt64, UnpackedFloat.ofNat, UnpackedFloat.ofInt, UnpackedFloat.normalize, hn, hcompare]
    rfl
  have hshift : (0 - max ((n.log2 : Int) + 0 - 52) (-1074)).toNat = 52 - n.log2 := by omega
  rw [hround, UnpackedFloat.round]
  dsimp only
  rw [targetExponent_binary64, decreaseExponent, hshift]
  dsimp only
  rw [Nat.shiftLeft_eq]
  refine holds_roundWithAccuracy (k := 0) (e := n.log2) ?_ (by omega) ?_
  · rw [log2_mul_pow hw]
    omega
  · rw [divRound_zero, Nat.mul_assoc, ← Nat.pow_add, Nat.sub_add_cancel hlog]

theorem unpack_one : (Float.ofBits 0x3FF0000000000000).toModel.unpack =
    .finite .positive (2 ^ 52) (-52) (by decide) := by
  rfl

theorem Holds.mul_one {u : UnpackedFloat} {n : Nat} (h : Holds u n) :
    Holds (UnpackedFloat.mul .binary64 u (.finite .positive (2 ^ 52) (-52) (by decide))) n := by
  obtain ⟨m, e, hpos, rfl, hlow, hhigh, hvalue⟩ := h
  change Holds (roundWithAccuracy .binary64 .positive (m * 2 ^ 52) (e - 52 + -52) .exact) n
  refine holds_roundWithAccuracy (k := 52) (e := e) ?_ (by omega) ?_
  · rw [log2_mul_two_pow hlow hhigh]
  · have hdiv := divRound_mul_pow m 0 52
    rw [Nat.zero_add, divRound_zero] at hdiv
    rw [hdiv, hvalue]

/-- A number of at most 53 bits is multiplied by one. -/
theorem holds_ofNat_of_lt {n : Nat} (hn : n ≠ 0) (hlt : n < 2 ^ 53) : Holds (Float.ofNat n).toModel.unpack n := by
  have hword : n.toUInt64.toNat = n := Nat.mod_eq_of_lt (by omega)
  have hof : Float.ofNat n = n.toUInt64.toFloat * Float.ofBits 0x3FF0000000000000 := by
    change Float.ofScientific n false 0 = _
    rw [Float.ofScientific, dif_pos ⟨hlt, by decide⟩]
    rfl
  rw [hof]
  have hexact := holds_ofUInt64 (w := n.toUInt64) (by omega) (by omega)
  rw [hword] at hexact
  change Holds (Float.Model.pack (UnpackedFloat.mul .binary64
    (Float.Model.pack (UnpackedFloat.ofUInt64 .binary64 n.toUInt64)).unpack
    (Float.ofBits 0x3FF0000000000000).toModel.unpack)).unpack n
  rw [unpack_one]
  exact ((hexact.unpack_pack (by omega)).mul_one).unpack_pack (by omega)

theorem holds_ofNat_of_le {n : Nat} (hle : 2 ^ 53 ≤ n) (hword : n < 2 ^ 64) :
    Holds (Float.ofNat n).toModel.unpack (nearest53 n) := by
  have hn : n ≠ 0 := by omega
  have hlog : 53 ≤ n.log2 := (Nat.le_log2 hn).2 hle
  have hof : Float.ofNat n = Float.ofModel (Float.Model.ofScientific n 0) := by
    change Float.ofScientific n false 0 = _
    rw [Float.ofScientific, dif_neg (by omega)]
    rfl
  have hmul : UnpackedFloat.ofScientific .binary64 n 0 =
      roundWithAccuracy .binary64 .positive (n * 2 ^ 53) (-53) .exact := by
    unfold UnpackedFloat.ofScientific
    have hsmall : ¬ (0 : Int) < -((2 ^ Format.binary64.exponentBits : Int) + n.log2) := by
      have : (0 : Int) ≤ 2 ^ Format.binary64.exponentBits := by decide
      omega
    have hsign : Sign.positive * Sign.positive = Sign.positive := rfl
    rw [dif_neg hn, if_neg (by decide), if_neg hsmall, if_pos (by decide)]
    simp only [UnpackedFloat.mul, mantissaBits_binary64, hsign, Int.toNat_zero, Nat.pow_zero, Nat.mul_one,
      Nat.shiftLeft_eq, Int.add_zero]
    rfl
  rw [hof]
  change Holds (Float.Model.pack (UnpackedFloat.ofScientific .binary64 n 0)).unpack _
  rw [hmul]
  refine Holds.unpack_pack ?_ (nearest53_le hword)
  refine holds_roundWithAccuracy (k := n.log2 + 1) (e := n.log2) ?_ (by omega) ?_
  · rw [log2_mul_pow hn]
    omega
  · have hk : n.log2 + 1 = n.log2 - 52 + 53 := by omega
    have he : n.log2 = n.log2 - 52 + 52 := by omega
    rw [hk, divRound_mul_pow, nearest53, Nat.mul_assoc, ← Nat.pow_add, ← he]

/-- Words are compared as they are rounded to 53 bits. -/
theorem ofNat_beq_iff {n n' : Nat} (hn : n ≠ 0) (hn' : n' ≠ 0) (hword : n < 2 ^ 64) (hword' : n' < 2 ^ 64) :
    (Float.ofNat n == Float.ofNat n') = true ↔ nearest53 n = nearest53 n' := by
  have holds {n : Nat} (hn : n ≠ 0) (hword : n < 2 ^ 64) : Holds (Float.ofNat n).toModel.unpack (nearest53 n) := by
    by_cases hlt : n < 2 ^ 53
    · rw [nearest53_of_lt hlt]
      exact holds_ofNat_of_lt hn hlt
    · exact holds_ofNat_of_le (by omega) hword
  exact (holds hn hword).beq_iff (holds hn' hword')

end QuilControl.Double
