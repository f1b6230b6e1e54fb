import Mathlib.Data.Finite.Defs
import Mathlib.Data.Fintype.EquivFin
import Mathlib.Data.List.Prime
import Mathlib.Data.Nat.Prime.Basic
import Mathlib.Dynamics.PeriodicPts.Defs
import Mathlib.Tactic.NormNum.Prime
import QuilControl.Proofs.Sequencer.Polynomial
import QuilControl.Sequencer.Seed

/-!
# The period of the shift register

Steps come back after `2 ^ 48 - 1`, the number of seeds, and for no seed earlier
(`Seed.run_period`). Both halves are facts about polynomials in the step. The power with the exponent
`2 ^ 48 - 1` is one. A shorter period would divide this number by one of its prime divisors `p`; but
the power with the exponent `(2 ^ 48 - 1) / p` differs from one by a polynomial that has an inverse,
so only zero comes back after so many steps. The inverses are listed in `inverses`, one for each `p`.
-/

namespace QuilControl

namespace ShiftRegister

def order : Nat := 2 ^ 48 - 1

/-! ## Steps that come back -/

theorem run_order (s : ShiftRegister) : s.run order = s := by
  have hpower : power 48 2 order = 1 := by decide +kernel
  rw [← act_power_two (by decide : order < 2 ^ 48), hpower, act_one]

theorem step_injective : Function.Injective step := by
  have hback (s : ShiftRegister) : s.step.run (order - 1) = s := by
    have h := run_add s 1 (order - 1)
    rw [Nat.add_sub_cancel' (by decide), run_order] at h
    exact h.symm
  intro s t h
  rw [← hback s, ← hback t, h]

@[simp]
theorem run_zero (n : Nat) : run 0 n = 0 := by
  rw [run_eq_iterate]
  exact (isLinear_step.iterate n).map_zero

/-- A run never reaches zero from elsewhere. -/
theorem run_ne_zero {s : ShiftRegister} (h : s ≠ 0) (n : Nat) : s.run n ≠ 0 := by
  intro hn
  have hzero : s.run n = run 0 n := by rw [hn, run_zero]
  rw [run_eq_iterate, run_eq_iterate] at hzero
  exact h (step_injective.iterate n hzero)

/-! ## No shorter period -/

/-- The prime divisors `p` of the number of seeds, each with the inverse of the polynomial that adds
the state and the state after `order / p` steps. -/
def inverses : List (Nat × BitVec 48) :=
  [(3, 0x4ec3bf93f656#48), (5, 0x31e9d41a4c#48), (7, 0xe54bb4de882c#48), (13, 0x2ae05e310eba#48),
    (17, 0xa9f61cafe84a#48), (97, 0x7d40b87c6c8a#48), (241, 0x30fbe50ea07e#48), (257, 0xe95c41385c81#48),
    (673, 0x40c6daae42b#48)]

theorem exists_inverse {p : Nat} (hp : p.Prime) (h : p ∣ order) :
    ∃ inverse, mul inverse (power 48 2 (order / p) ^^^ 1) = 1 := by
  have hfactors : order = 3 * (inverses.map (·.1)).prod := by decide +kernel
  have hprimes : ∀ q ∈ 3 :: inverses.map (·.1), q.Prime := by
    simp only [inverses, List.map_cons, List.map_nil, List.forall_mem_cons]
    norm_num
  have hinverses : ∀ c ∈ inverses, mul c.2 (power 48 2 (order / c.1) ^^^ 1) = 1 := by decide +kernel
  have hmem : p ∈ 3 :: inverses.map (·.1) := by
    rw [hfactors, ← List.prod_cons] at h
    obtain ⟨q, hq, hpq⟩ := hp.prime.dvd_prod_iff.1 h
    rwa [(Nat.prime_dvd_prime_iff_eq hp (hprimes q hq)).1 hpq]
  have hmem' : p ∈ inverses.map (·.1) := by
    rcases List.mem_cons.1 hmem with rfl | hmem
    · decide
    · exact hmem
  obtain ⟨c, hc, rfl⟩ := List.mem_map.1 hmem'
  exact ⟨c.2, hinverses c hc⟩

/-- Only zero comes back after `order / p` steps. -/
theorem eq_zero_of_run_eq {p : Nat} (hp : p.Prime) (h : p ∣ order) {s : ShiftRegister}
    (hs : s.run (order / p) = s) : s = 0 := by
  obtain ⟨inverse, hinverse⟩ := exists_inverse hp h
  have hsmall : order / p < 2 ^ 48 := Nat.lt_of_le_of_lt (Nat.div_le_self order p) (by decide)
  calc
    s = act (mul inverse (power 48 2 (order / p) ^^^ 1)) s := by rw [hinverse, act_one]
    _ = act inverse (s.run (order / p) ^^^ s) := by rw [act_mul, act_xor, act_power_two hsmall, act_one]
    _ = 0 := by rw [hs, BitVec.xor_self]; exact (isLinear_act inverse).map_zero

theorem minimalPeriod_step {s : ShiftRegister} (h : s ≠ 0) : Function.minimalPeriod step s = order := by
  have hperiodic (n : Nat) : Function.IsPeriodicPt step n s ↔ s.run n = s := by
    rw [run_eq_iterate]
    rfl
  have hdvd : Function.minimalPeriod step s ∣ order :=
    ((hperiodic order).2 (run_order s)).minimalPeriod_dvd
  by_contra hne
  obtain ⟨k, hk⟩ := hdvd
  have hk1 : k ≠ 1 := by
    rintro rfl
    rw [Nat.mul_one] at hk
    exact hne hk.symm
  obtain ⟨p, hp, hpk⟩ := Nat.exists_prime_and_dvd hk1
  have hpdvd : p ∣ order := hk ▸ hpk.mul_left _
  have hback : s.run (order / p) = s := by
    rw [← hperiodic, Function.isPeriodicPt_iff_minimalPeriod_dvd]
    apply Nat.dvd_div_of_mul_dvd
    rw [hk, Nat.mul_comm p]
    exact Nat.mul_dvd_mul_left _ hpk
  exact h (eq_zero_of_run_eq hp hpdvd hback)

/-- Every contents but zero are reached, once in a period. -/
theorem existsUnique_run {s t : ShiftRegister} (hs : s ≠ 0) (ht : t ≠ 0) :
    ∃! n, n < order ∧ s.run n = t := by
  have hinj : Set.InjOn (s.run ·) (Set.Iio order) := by
    have h := Function.iterate_injOn_Iio_minimalPeriod (f := step) (x := s)
    rw [minimalPeriod_step hs] at h
    simpa only [run_eq_iterate] using h
  have hpos {u : ShiftRegister} (hu : u ≠ 0) : 0 < u.toNat :=
    Nat.pos_of_ne_zero fun h0 => hu (BitVec.eq_of_toNat_eq h0)
  have hrange {u : ShiftRegister} (hu : u ≠ 0) : u.toNat - 1 < order := by
    have hlt := u.isLt
    have hu0 := hpos hu
    unfold order
    omega
  -- The states of a period, numbered from zero, are as many as their numbers, so all occur.
  let number (n : Fin order) : Fin order := ⟨(s.run n).toNat - 1, hrange (run_ne_zero hs n)⟩
  have hnumber : Function.Injective number := by
    intro m n h
    have hm := hpos (run_ne_zero hs m)
    have hn := hpos (run_ne_zero hs n)
    have hval : (s.run m).toNat - 1 = (s.run n).toNat - 1 := congrArg Fin.val h
    have heq : s.run m = s.run n := BitVec.eq_of_toNat_eq (by omega)
    exact Fin.ext (hinj m.isLt n.isLt heq)
  obtain ⟨n, hn⟩ := Finite.surjective_of_injective hnumber ⟨t.toNat - 1, hrange ht⟩
  have ht0 := hpos ht
  have hn0 := hpos (run_ne_zero hs n)
  have hval : (s.run n).toNat - 1 = t.toNat - 1 := congrArg Fin.val hn
  have hreach : s.run n = t := BitVec.eq_of_toNat_eq (by omega)
  refine ⟨n, ⟨n.isLt, hreach⟩, ?_⟩
  rintro m ⟨hm, hmt⟩
  exact hinj hm n.isLt (hmt.trans hreach.symm)

end ShiftRegister

/-- **The register has the longest period there is.** From every seed, a run stays in the range of
seeds, comes back after `2 ^ 48 - 1` steps and not before, and passes all contents but zero once in
a period. -/
theorem Seed.run_period (s : Seed) :
    (∀ n, 1 ≤ (s.register.run n).toNat ∧ (s.register.run n).toNat ≤ 2 ^ 48 - 1) ∧
    s.register.run (2 ^ 48 - 1) = s.register ∧
    (∀ n, 0 < n → n < 2 ^ 48 - 1 → s.register.run n ≠ s.register) ∧
    ∀ t : ShiftRegister, t ≠ 0 → ∃! n, n < 2 ^ 48 - 1 ∧ s.register.run n = t := by
  have horder : 2 ^ 48 - 1 = ShiftRegister.order := rfl
  rw [horder]
  refine ⟨fun n => ?_, ShiftRegister.run_order s.register, fun n hpos hlt hback => ?_, fun t ht => ?_⟩
  · have hne := ShiftRegister.run_ne_zero s.ne_zero n
    have hlt := (s.register.run n).isLt
    have hpos : (s.register.run n).toNat ≠ 0 := fun h0 => hne (BitVec.eq_of_toNat_eq h0)
    rw [← horder]
    omega
  · have hperiodic : Function.IsPeriodicPt ShiftRegister.step n s.register := by
      rw [ShiftRegister.run_eq_iterate] at hback
      exact hback
    have hle := hperiodic.minimalPeriod_le hpos
    rw [ShiftRegister.minimalPeriod_step s.ne_zero] at hle
    exact absurd hlt (Nat.not_lt.2 hle)
  · exact ShiftRegister.existsUnique_run s.ne_zero ht

end QuilControl
