import QuilControl.Scalar
import QuilControl.Sequencer.Seed

/-!
# Draws of sub-regions

On each shot the sequencer steps its register, takes the contents' low 16 bits modulo the number of
sub-regions, and copies the sub-region of that index from a source region to a destination region.
A program asks for the copy by an external call. `Seed.indices` replays the draws.
-/

namespace QuilControl

/-- The sub-region that the contents of a register select among `count` (`to_sub_region_index`). The
remainder is below the count, so it fits in a byte. -/
def ShiftRegister.select (s : ShiftRegister) (count : UInt8) : UInt8 :=
  ((UInt64.ofNat s.toNat &&& 0xFFFF) % count.toUInt64).toUInt8

/-- The sub-regions selected by the `length` draws that follow the first `start`
(`sub_region_indices`). -/
def Seed.selections (s : Seed) (start length : UInt32) (count : UInt8) : List UInt8 :=
  (s.register.window start length).map (·.select count)

/-- Replay the sub-regions drawn among `count` (`choose_random_real_sub_region_indices`). -/
def Seed.indices (s : Seed) (start length : UInt32) (count : UInt8) :
    Except SequencerError (List UInt8) :=
  if count = 0 then .error .noSubRegions else .ok (s.selections start length count)

/-- A copy of drawn sub-regions, by the names of its regions. -/
structure SubRegionDraw where
  destination : String
  source : String
  /-- The number of slots of a sub-region. -/
  size : UInt64
  seed : String
deriving DecidableEq

namespace SubRegionDraw

def functionName : String := "choose_random_real_sub_regions"

def signature : String :=
  "(destination : mut REAL[], source : REAL[], sub_region_size : INTEGER, seed : mut INTEGER)"

/-- A copy between two regions of real numbers, both made of whole sub-regions (`try_new`). Of
several things that are wrong the first is reported: types before lengths, the destination before
the source. -/
def ofRegions (destination source : Declaration) (size : UInt64) (seed : MemoryReference) :
    Except SequencerError SubRegionDraw :=
  if destination.scalar ≠ .real then .error (.invalidDestinationType destination.scalar)
  else if source.scalar ≠ .real then .error (.invalidSourceType source.scalar)
  else if size = 0 ∨ destination.length % size ≠ 0 then
    .error (.invalidDestinationLength destination.length size)
  else if source.length % size ≠ 0 then .error (.invalidSourceLength source.length size)
  else .ok ⟨destination.name, source.name, size, seed.name⟩

/-- The pragma that declares the external function (`pragma_extern`). -/
def externPragma : Pragma := ⟨"EXTERN", [.identifier functionName], some signature⟩

/-- The call that asks for a copy (`to_call`). The size is passed as a number. -/
def call {N : Type} [Scalar N] (d : SubRegionDraw) : Call N where
  name := functionName
  arguments := [.identifier d.destination, .identifier d.source,
    .immediate (Scalar.ofNat d.size.toNat), .identifier d.seed]

end SubRegionDraw

end QuilControl
