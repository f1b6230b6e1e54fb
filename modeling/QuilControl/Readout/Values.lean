/-!
# Values of a run

A readout handle yields a stream of values of one numeric kind, one value a shot. A memory region
ends with contents of its type. Nothing is converted between kinds: asking for another kind gives
nothing.
-/

namespace QuilControl

structure ComplexNumber (R : Type) where
  re : R
  im : R
deriving BEq

/-- The numeric kinds of readout. -/
inductive ValueKind where
  | integer | real | complex
deriving DecidableEq

inductive ReadoutValues where
  | integer (values : List Int64)
  | real (values : List Float)
  | complex (values : List (ComplexNumber Float))
deriving BEq

namespace ReadoutValues

def length : ReadoutValues → Nat
  | integer values => values.length
  | real values => values.length
  | complex values => values.length

def kind : ReadoutValues → ValueKind
  | integer _ => .integer
  | real _ => .real
  | complex _ => .complex

def asInteger? : ReadoutValues → Option (List Int64)
  | integer values => some values
  | _ => none

def asReal? : ReadoutValues → Option (List Float)
  | real values => some values
  | _ => none

def asComplex? : ReadoutValues → Option (List (ComplexNumber Float))
  | complex values => some values
  | _ => none

end ReadoutValues

inductive MemoryValues where
  /-- Bits or octets. -/
  | binary (values : List UInt8)
  | integer (values : List Int64)
  | real (values : List Float)
deriving BEq

namespace MemoryValues

def length : MemoryValues → Nat
  | binary values => values.length
  | integer values => values.length
  | real values => values.length

def asBinary? : MemoryValues → Option (List UInt8)
  | binary values => some values
  | _ => none

def asInteger? : MemoryValues → Option (List Int64)
  | integer values => some values
  | _ => none

def asReal? : MemoryValues → Option (List Float)
  | real values => some values
  | _ => none

end MemoryValues

end QuilControl
