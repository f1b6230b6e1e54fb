import Mathlib.Algebra.Group.Nat.Defs
import Mathlib.Logic.Function.Iterate
import QuilControl.Sequencer.ShiftRegister

/-!
# Polynomials in the step of the shift register

The contents of the register are a vector of bits, added by `^^^`, and a step adds up (`isLinear_step`).
So sums of states are worth a name: a polynomial picks the states after certain numbers of steps and
adds them (`act`). The step meets a relation of degree 48, `act_relation`; therefore polynomials
multiply modulo the relation, with few operations on words (`mul`, `power`), and a huge number of
steps is one polynomial of degree below 48: `act_power` is the main statement.
-/

namespace QuilControl

namespace ShiftRegister

/-! ## Linear maps -/

/-- A map of bit vectors that respects their sums. -/
def IsLinear {v w : Nat} (f : BitVec v → BitVec w) : Prop := ∀ x y, f (x ^^^ y) = f x ^^^ f y

section Linear

variable {v w : Nat} {f g : BitVec v → BitVec w}

theorem IsLinear.map_xor (hf : IsLinear f) (x y : BitVec v) : f (x ^^^ y) = f x ^^^ f y := hf x y

theorem IsLinear.map_zero (hf : IsLinear f) : f 0 = 0 := by
  have h := hf 0 0
  rw [BitVec.xor_self, BitVec.xor_self] at h
  exact h

theorem IsLinear.map_ite (hf : IsLinear f) (c : Bool) (x : BitVec v) :
    f (if c then x else 0) = if c then f x else 0 := by
  cases c
  · exact hf.map_zero
  · rfl

theorem isLinear_zero : IsLinear fun _ : BitVec v => (0 : BitVec w) := by
  intro x y
  simp

theorem IsLinear.xor (hf : IsLinear f) (hg : IsLinear g) : IsLinear fun x => f x ^^^ g x := by
  intro x y
  simp only [hf.map_xor, hg.map_xor]
  ac_rfl

theorem IsLinear.comp {u : Nat} {f : BitVec w → BitVec u} {g : BitVec v → BitVec w} (hf : IsLinear f)
    (hg : IsLinear g) : IsLinear fun x => f (g x) := by
  intro x y
  simp only [hg.map_xor, hf.map_xor]

theorem IsLinear.iterate {f : BitVec v → BitVec v} (hf : IsLinear f) (n : Nat) : IsLinear f^[n] := by
  induction n with
  | zero => intro x y; rfl
  | succ n ih => exact ih.comp hf

/-- Linear maps that agree on every single bit are equal. The induction is on the number of low bits
that may be set: the highest of them is split off. -/
theorem eq_of_twoPow (hf : IsLinear f) (hg : IsLinear g)
    (h : ∀ i < v, f (BitVec.twoPow v i) = g (BitVec.twoPow v i)) (x : BitVec v) : f x = g x := by
  have low (n : Nat) : ∀ y : BitVec v, (∀ i ≥ n, y.getLsbD i = false) → f y = g y := by
    induction n with
    | zero =>
      intro y hy
      have hy0 : y = 0 := BitVec.eq_of_getLsbD_eq fun i _ => by simpa using hy i (Nat.zero_le i)
      rw [hy0, hf.map_zero, hg.map_zero]
    | succ n ih =>
      intro y hy
      by_cases hn : y.getLsbD n = true
      · have hv : n < v := BitVec.lt_of_getLsbD hn
        have hsplit : y = (y ^^^ BitVec.twoPow v n) ^^^ BitVec.twoPow v n := by
          rw [BitVec.xor_assoc, BitVec.xor_self, BitVec.xor_zero]
        have hrest : f (y ^^^ BitVec.twoPow v n) = g (y ^^^ BitVec.twoPow v n) := by
          apply ih
          intro i hi
          rcases Nat.eq_or_lt_of_le hi with rfl | hi
          · simp [hn, hv]
          · have hne : ¬n = i := by omega
            simp [hy i hi, hne]
        rw [hsplit, hf, hg, hrest, h n hv]
      · apply ih
        intro i hi
        rcases Nat.eq_or_lt_of_le hi with rfl | hi
        · exact Bool.eq_false_iff.2 hn
        · exact hy i hi
  exact low v x fun i hi => BitVec.getLsbD_of_ge x i hi

end Linear

/-! ## The step -/

theorem run_eq_iterate (s : ShiftRegister) (n : Nat) : s.run n = step^[n] s := by
  induction n generalizing s with
  | zero => rfl
  | succ n ih => exact ih s.step

theorem feedback_xor (x y : ShiftRegister) : feedback (x ^^^ y) = (feedback x ^^ feedback y) := by
  simp only [feedback, BitVec.getLsbD_xor, Bool.xor_assoc, Bool.xor_left_comm, Bool.xor_comm]

theorem isLinear_step : IsLinear step := by
  intro x y
  apply BitVec.eq_of_getLsbD_eq
  intro i hi
  simp only [step, feedback_xor, BitVec.getLsbD_shiftConcat, BitVec.getLsbD_xor, hi, decide_true,
    Bool.true_and]
  by_cases h0 : i = 0
  · simp only [h0, if_true]
  · simp only [h0, if_false]

/-! ## Sums of picked values -/

/-- The sum of the values that coefficients pick among `x`, `next x`, and so on: of `n` values, the
first for the coefficient `i`. -/
def gather (next : BitVec 48 → BitVec 48) (q : BitVec 48) : Nat → Nat → BitVec 48 → BitVec 48
  | 0, _, _ => 0
  | n + 1, i, x => (if q.getLsbD i then x else 0) ^^^ gather next q n (i + 1) (next x)

section Gather

variable {next next' φ : BitVec 48 → BitVec 48}

/-- A linear map that turns one way to go on into another turns the sums into each other. -/
theorem map_gather (hφ : IsLinear φ) (h : ∀ x, φ (next x) = next' (φ x)) (q : BitVec 48) (n i : Nat)
    (x : BitVec 48) : φ (gather next q n i x) = gather next' q n i (φ x) := by
  induction n generalizing i x with
  | zero => exact hφ.map_zero
  | succ n ih => simp only [gather, hφ.map_xor, hφ.map_ite, ih, h]

theorem isLinear_gather_coefficients (n i : Nat) (x : BitVec 48) :
    IsLinear fun q => gather next q n i x := by
  induction n generalizing i x with
  | zero => exact isLinear_zero
  | succ n ih =>
    refine IsLinear.xor (fun p q => ?_) (ih (i + 1) (next x))
    rw [BitVec.getLsbD_xor]
    cases p.getLsbD i <;> cases q.getLsbD i <;> simp

theorem isLinear_gather (h : IsLinear next) (q : BitVec 48) (n i : Nat) :
    IsLinear (gather next q n i) := by
  induction n generalizing i with
  | zero => exact isLinear_zero
  | succ n ih =>
    refine IsLinear.xor (fun x y => ?_) ((ih (i + 1)).comp h)
    cases q.getLsbD i <;> simp

/-- The value for the highest coefficient can be split off. -/
theorem gather_succ (q : BitVec 48) (n i : Nat) (x : BitVec 48) :
    gather next q (n + 1) i x =
      gather next q n i x ^^^ if q.getLsbD (i + n) then next^[n] x else 0 := by
  induction n generalizing i x with
  | zero => simp [gather]
  | succ n ih =>
    rw [gather, ih, gather, BitVec.xor_assoc, Nat.succ_add_eq_add_succ]
    rfl

/-- Moving the coefficients up by one goes on by one. -/
theorem gather_shiftLeft (q : BitVec 48) {n i : Nat} (h : i + n < 48) (x : BitVec 48) :
    gather next (q <<< 1) n (i + 1) x = gather next q n i x := by
  induction n generalizing i x with
  | zero => rfl
  | succ n ih =>
    have hi : i + 1 < 48 := by omega
    have hbit : (q <<< 1).getLsbD (i + 1) = q.getLsbD i := by
      rw [BitVec.getLsbD_shiftLeft]
      simp [hi]
    rw [gather, gather, hbit, ih (by omega)]

end Gather

/-! ## Polynomials -/

/-- The sum of the states that a polynomial picks: the bit `i` picks the state after `i` steps. -/
def act (q : BitVec 48) (s : ShiftRegister) : ShiftRegister := gather step q 48 0 s

/-- The polynomial with the same sum as the state after 48 steps. -/
def relation : BitVec 48 := 0x18000003#48

/-- The product of a polynomial and the step, modulo the relation. -/
def mulStep (q : BitVec 48) : BitVec 48 := (q <<< 1) ^^^ if q.getLsbD 47 then relation else 0

/-- The product of polynomials, modulo the relation. -/
def mul (p q : BitVec 48) : BitVec 48 := gather mulStep p 48 0 q

/-- The power of a polynomial, modulo the relation, for an exponent of so many bits: by squaring. -/
def power : Nat → BitVec 48 → Nat → BitVec 48
  | 0, _, _ => 1
  | bits + 1, q, n =>
    let half := power bits (mul q q) (n / 2)
    if n % 2 = 1 then mul half q else half

theorem isLinear_act (q : BitVec 48) : IsLinear (act q) := isLinear_gather isLinear_step q 48 0

theorem act_xor (p q : BitVec 48) (s : ShiftRegister) : act (p ^^^ q) s = act p s ^^^ act q s :=
  isLinear_gather_coefficients 48 0 s p q

theorem act_step (q : BitVec 48) (s : ShiftRegister) : (act q s).step = act q s.step :=
  map_gather isLinear_step (fun _ => rfl) q 48 0 s

@[simp]
theorem act_one (s : ShiftRegister) : act 1 s = s := by
  simp [act, gather]

@[simp]
theorem act_two (s : ShiftRegister) : act 2 s = s.step := by
  simp [act, gather]

theorem act_relation (s : ShiftRegister) : act relation s = step^[48] s := by
  refine eq_of_twoPow (isLinear_act relation) (isLinear_step.iterate 48) ?_ s
  decide +kernel

theorem act_mulStep (q : BitVec 48) (s : ShiftRegister) : act (mulStep q) s = (act q s).step := by
  have hshift : act (q <<< 1) s = gather step q 47 0 s.step := by
    rw [act, gather, gather_shiftLeft q (by decide)]
    simp
  have htop : act q s.step = gather step q 47 0 s.step ^^^ if q.getLsbD 47 then step^[48] s else 0 :=
    gather_succ q 47 0 s.step
  have hrelation : act (if q.getLsbD 47 then relation else 0) s =
      if q.getLsbD 47 then step^[48] s else 0 := by
    rw [← act_relation]
    exact IsLinear.map_ite (f := fun p => act p s) (fun p p' => act_xor p p' s) _ _
  rw [mulStep, act_xor, hshift, hrelation, ← htop, act_step]

theorem act_mul (p q : BitVec 48) (s : ShiftRegister) : act (mul p q) s = act p (act q s) :=
  map_gather (φ := fun q => act q s) (fun x y => act_xor x y s) (fun x => act_mulStep x s) p 48 0 q

/-- The power of a polynomial acts as often as the exponent says. -/
theorem act_power {bits n : Nat} (h : n < 2 ^ bits) (q : BitVec 48) (s : ShiftRegister) :
    act (power bits q n) s = (act q)^[n] s := by
  induction bits generalizing q n s with
  | zero =>
    have hn : n = 0 := by omega
    rw [hn, power, act_one, Function.iterate_zero, id]
  | succ bits ih =>
    have hhalf (t : ShiftRegister) : act (power bits (mul q q) (n / 2)) t = (act q)^[2 * (n / 2)] t := by
      have hsquare : act (mul q q) = (act q)^[2] := funext fun u => act_mul q q u
      rw [ih (by omega), hsquare, Function.iterate_mul]
    rw [power]
    by_cases hodd : n % 2 = 1
    · have hn : (2 * (n / 2)).succ = n := by omega
      rw [if_pos hodd, act_mul, hhalf, ← Function.iterate_succ_apply, hn]
    · have hn : 2 * (n / 2) = n := by omega
      rw [if_neg hodd, hhalf, hn]

/-- So many steps are one polynomial. -/
theorem act_power_two {bits n : Nat} (h : n < 2 ^ bits) (s : ShiftRegister) :
    act (power bits 2 n) s = s.run n := by
  have hstep : act 2 = step := funext act_two
  rw [act_power h, hstep, run_eq_iterate]

end ShiftRegister

end QuilControl
