import QuilControl.Instruction.Basic

/-!
# Misuse of the sequencer

What can be wrong with a seed, with the regions of a draw, and with the number of sub-regions.
-/

namespace QuilControl

/-- Why the sequencer cannot be asked for something. -/
inductive SequencerError where
  /-- A seed that no register of the sequencer holds, or zero. -/
  | invalidSeed (value : UInt64)
  | invalidDestinationType (found : ScalarType)
  | invalidSourceType (found : ScalarType)
  | invalidDestinationLength (length size : UInt64)
  | invalidSourceLength (length size : UInt64)
  /-- A draw among no sub-regions. -/
  | noSubRegions
deriving DecidableEq

namespace SequencerError

/-- The wording of a length that a size does not divide. -/
def lengthMessage (region : String) (length size : UInt64) : String :=
  region ++ " length must be divisible by a non-zero sub-region size, found " ++
    toString length.toNat ++ " % " ++ toString size.toNat

def message : SequencerError → String
  | invalidSeed value =>
    "seed values must be in range [1, " ++ toString ((1 <<< 48) - 1) ++ "], found " ++
      toString value.toNat
  | invalidDestinationType found => "destination must be a REAL[], found " ++ found.keyword
  | invalidSourceType found => "source must be a REAL[], found " ++ found.keyword
  | invalidDestinationLength length size => lengthMessage "destination" length size
  | invalidSourceLength length size => lengthMessage "source" length size
  | noSubRegions => "sub-region count must be at least 1"

end SequencerError

end QuilControl
