/-!
# The shift register of the sequencer

A 48-bit register that moves its bits up by one and takes in, at the bottom, the parity of four
tapped bits. A window of a run lists the contents behind its start. `run_add` says that runs compose.
-/

namespace QuilControl

abbrev ShiftRegister := BitVec 48

namespace ShiftRegister

/-- The parity of the tapped bits. -/
def feedback (s : ShiftRegister) : Bool :=
  s.getLsbD 47 ^^ s.getLsbD 46 ^^ s.getLsbD 20 ^^ s.getLsbD 19

/-- One step (`lfsr_v1_next`): the top bit leaves, the feedback enters at the bottom. -/
def step (s : ShiftRegister) : ShiftRegister := s.shiftConcat s.feedback

/-- The contents after a number of steps. -/
def run (s : ShiftRegister) : Nat → ShiftRegister
  | 0 => s
  | n + 1 => run s.step n

/-- The contents after each of the next steps, which are numbered from `number` on. The steps with a
number below `start` are left out. -/
def visited (start : UInt64) : Nat → UInt64 → ShiftRegister → List ShiftRegister
  | 0, _, _ => []
  | steps + 1, number, s =>
    if start ≤ number then s.step :: visited start steps (number + 1) s.step
    else visited start steps (number + 1) s.step

/-- The contents after each of `length` steps in a row, behind `start` steps that are left out
(`lfsr_v1_sequence`). All of them together may be more than 32 bits count, so they are counted in
64. -/
def window (s : ShiftRegister) (start length : UInt32) : List ShiftRegister :=
  visited start.toUInt64 (start.toUInt64 + length.toUInt64).toNat 0 s

theorem run_add (s : ShiftRegister) (m n : Nat) : s.run (m + n) = (s.run m).run n := by
  induction m generalizing s with
  | zero => rw [Nat.zero_add]; rfl
  | succ m ih => rw [Nat.succ_add]; exact ih s.step

end ShiftRegister

end QuilControl
