import QuilControl.Proofs.Sequencer.Period
import QuilControl.Sequencer.SubRegion

/-!
# Windows of a run

A replay walks through all steps behind the seed and keeps those that its window asks for. The walk
has two parts: steps below the start only move the register (`visited_of_le_start`), steps from the
start on are all kept (`visited_of_start_le`). So a window lists the contents behind its start one
after the other (`window_eq_map_run`), wherever it lies, and windows that meet join
(`window_append`). `Seed.indices_window` says it of the draws.
-/

namespace QuilControl

namespace ShiftRegister

/-! ## The walk -/

variable {start number : UInt64}

/-- Below the start, the register moves and nothing is kept. -/
theorem visited_of_le_start {n : Nat} (steps : Nat) (s : ShiftRegister)
    (h : number.toNat + n ≤ start.toNat) :
    visited start (n + steps) number s = visited start steps (number + UInt64.ofNat n) (s.run n) := by
  induction n generalizing number s with
  | zero => simp [run]
  | succ n ih =>
    have hstart := start.toNat_lt
    have hbelow : ¬start ≤ number := by rw [UInt64.le_iff_toNat_le]; omega
    have hnext : (number + 1).toNat = number.toNat + 1 := by
      rw [UInt64.toNat_add, UInt64.toNat_one, Nat.mod_eq_of_lt (by omega)]
    have hnumber : number + 1 + UInt64.ofNat n = number + UInt64.ofNat (n + 1) := by
      rw [UInt64.ofNat_add, UInt64.add_assoc, UInt64.add_comm (UInt64.ofNat n)]
      rfl
    rw [Nat.succ_add, visited, if_neg hbelow, ih s.step (by omega), hnumber]
    rfl

/-- From the start on, every step is kept. -/
theorem visited_of_start_le {steps : Nat} (s : ShiftRegister) (h : start ≤ number)
    (hsmall : number.toNat + steps < 2 ^ 64) :
    visited start steps number s = (List.range steps).map fun i => s.run (i + 1) := by
  induction steps generalizing number s with
  | zero => rfl
  | succ steps ih =>
    have hnext : (number + 1).toNat = number.toNat + 1 := by
      rw [UInt64.toNat_add, UInt64.toNat_one, Nat.mod_eq_of_lt (by omega)]
    have hle : start ≤ number + 1 := by
      rw [UInt64.le_iff_toNat_le] at h ⊢
      omega
    rw [visited, if_pos h, ih s.step hle (by omega), List.range_succ_eq_map, List.map_cons,
      List.map_map]
    rfl

/-! ## Windows -/

/-- A window lists the contents behind its start, one after the other. The number of all steps may
exceed 32 bits. -/
theorem window_eq_map_run (s : ShiftRegister) (start length : UInt32) :
    s.window start length = (List.range length.toNat).map fun i => s.run (start.toNat + i + 1) := by
  have hstart := start.toNat_lt
  have hlength := length.toNat_lt
  have htotal : (start.toUInt64 + length.toUInt64).toNat = start.toNat + length.toNat := by
    rw [UInt64.toNat_add, UInt32.toNat_toUInt64, UInt32.toNat_toUInt64, Nat.mod_eq_of_lt (by omega)]
  have hnumber : (0 : UInt64) + UInt64.ofNat start.toNat = start.toUInt64 := by
    rw [UInt64.zero_add, UInt64.ofNat_uInt32ToNat]
  rw [window, htotal, visited_of_le_start length.toNat s (by simp), hnumber,
    visited_of_start_le _ (UInt64.le_refl _) (by rw [UInt32.toNat_toUInt64]; omega)]
  apply List.map_congr_left
  intro i _
  rw [← run_add, Nat.add_assoc]

theorem length_window (s : ShiftRegister) (start length : UInt32) :
    (s.window start length).length = length.toNat := by
  rw [window_eq_map_run, List.length_map, List.length_range]

/-- A window is a shorter one and the window behind that. -/
theorem window_append (s : ShiftRegister) {start length a b : UInt32}
    (hlength : a.toNat + b.toNat = length.toNat) (hstart : start.toNat + a.toNat < 2 ^ 32) :
    s.window start length = s.window start a ++ s.window (start + a) b := by
  have hsum : (start + a).toNat = start.toNat + a.toNat := by
    rw [UInt32.toNat_add, Nat.mod_eq_of_lt hstart]
  rw [window_eq_map_run, window_eq_map_run, window_eq_map_run, ← hlength, List.range_add,
    List.map_append, List.map_map, hsum]
  congr 1
  apply List.map_congr_left
  intro i _
  rw [Function.comp_apply, ← Nat.add_assoc]

/-- A window is the first window behind the contents that it starts from. -/
theorem window_run (s : ShiftRegister) (start length : UInt32) :
    (s.run start.toNat).window 0 length = s.window start length := by
  rw [window_eq_map_run, window_eq_map_run]
  apply List.map_congr_left
  intro i _
  rw [UInt32.toNat_zero, Nat.zero_add, ← run_add, Nat.add_assoc]

/-! ## What is selected -/

/-- The low 16 bits decide, modulo the number of sub-regions. -/
theorem toNat_select (s : ShiftRegister) {count : UInt8} (h : 1 ≤ count) :
    (s.select count).toNat = s.toNat % 2 ^ 16 % count.toNat := by
  have hs := s.isLt
  have hcount := count.toNat_lt
  have hpos : 1 ≤ count.toNat := UInt8.le_iff_toNat_le.1 h
  have hlt := Nat.mod_lt (s.toNat % 2 ^ 16) hpos
  have hmask : (UInt64.ofNat s.toNat &&& 0xFFFF).toNat = s.toNat % 2 ^ 16 := by
    rw [UInt64.toNat_and, UInt64.toNat_ofNat_of_lt' (Nat.lt_trans hs (by decide))]
    exact Nat.and_two_pow_sub_one_eq_mod s.toNat 16
  rw [select, UInt64.toNat_toUInt8, UInt64.toNat_mod, hmask, UInt8.toNat_toUInt64,
    Nat.mod_eq_of_lt (by omega)]

end ShiftRegister

namespace Seed

def after (s : Seed) (n : Nat) : Seed := ⟨s.register.run n, ShiftRegister.run_ne_zero s.ne_zero n⟩

theorem indices_eq_ok (s : Seed) (start length : UInt32) {count : UInt8} (h : 1 ≤ count) :
    s.indices start length count = .ok (s.selections start length count) := by
  have hne : count ≠ 0 := by
    rintro rfl
    exact absurd h (by decide)
  exact if_neg hne

/-- **A replay shows the draws of its window.** There are as many draws as asked for. Each is selected
by the low 16 bits after as many steps as its place behind the seed says, also where the numbers of
steps exceed 32 bits. A replay in two parts gives the same draws, and so does the replay from the seed
that the start has reached. -/
theorem indices_window (s : Seed) (start length : UInt32) (count : UInt8) (h : 1 ≤ count) :
    ∃ draws, s.indices start length count = .ok draws ∧
      draws.length = length.toNat ∧
      (∀ i < length.toNat, ∃ draw, draws[i]? = some draw ∧ draw < count ∧
        draw.toNat = (s.register.run (start.toNat + i + 1)).toNat % 2 ^ 16 % count.toNat) ∧
      (∀ a b : UInt32, a.toNat + b.toNat = length.toNat → start.toNat + a.toNat < 2 ^ 32 →
        ∃ front back, s.indices start a count = .ok front ∧
          s.indices (start + a) b count = .ok back ∧ draws = front ++ back) ∧
      (s.after start.toNat).indices 0 length count = .ok draws := by
  refine ⟨s.selections start length count, s.indices_eq_ok start length h, ?_, ?_, ?_, ?_⟩
  · rw [selections, List.length_map, ShiftRegister.length_window]
  · intro i hi
    have hdraw := (s.register.run (start.toNat + i + 1)).toNat_select h
    refine ⟨_, ?_, ?_, hdraw⟩
    · rw [selections, ShiftRegister.window_eq_map_run, List.map_map, List.getElem?_map,
        List.getElem?_range hi]
      rfl
    · rw [UInt8.lt_iff_toNat_lt, hdraw]
      exact Nat.mod_lt _ (UInt8.le_iff_toNat_le.1 h)
  · intro a b hlength hstart
    refine ⟨_, _, s.indices_eq_ok start a h, s.indices_eq_ok (start + a) b h, ?_⟩
    rw [selections, ShiftRegister.window_append s.register hlength hstart, List.map_append]
    rfl
  · rw [indices_eq_ok _ _ _ h, selections, after, ShiftRegister.window_run]
    rfl

/-- A replay of nine draws that passes the greatest start, in two parts. -/
theorem indices_window_late :
    let s := ofNat 1 (by decide) (by decide)
    (1 : UInt8) ≤ 3 ∧ ∃ front back, s.indices 4294967290 2 3 = .ok front ∧
      s.indices 4294967292 7 3 = .ok back ∧ s.indices 4294967290 9 3 = .ok (front ++ back) ∧
      (front ++ back).length = 9 ∧ (s.after 4294967290).indices 0 9 3 = .ok (front ++ back) := by
  intro s
  obtain ⟨draws, hdraws, hlength, -, hparts, hafter⟩ := indices_window s 4294967290 9 3 (by decide)
  obtain ⟨front, back, hfront, hback, rfl⟩ := hparts 2 7 (by decide) (by decide)
  exact ⟨by decide, front, back, hfront, hback, hdraws, hlength, hafter⟩

/-- The draws of a program with four sub-regions. -/
example : (ofNat 639523 (by decide) (by decide)).indices 0 8 4 = .ok [3, 3, 2, 1, 2, 0, 1, 2] := by
  decide +kernel

end Seed

end QuilControl
