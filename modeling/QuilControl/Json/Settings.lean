import QuilControl.Json.Program
import QuilControl.Randomized.Measurement
import QuilControl.Sequencer.Seed
import QuilControl.Telemetry.Config

/-!
# JSON forms of seeds, randomized measurements and configurations
-/

namespace QuilControl

open JsonValue (record ofString ofWord)

def Seed.toJson (s : Seed) : JsonValue := ofWord s.value

def Seed.ofJson : JsonDecoder Seed :=
  JsonDecoder.word.filterMap fun v => (Seed.ofValue v).toOption

def RandomizedMeasurement.toJson (m : RandomizedMeasurement) : JsonValue :=
  record [("qubit", ofWord m.qubit), ("target", m.target.toJson)]

def RandomizedMeasurement.ofJson : JsonDecoder RandomizedMeasurement := fun depth v =>
  match JsonDecoder.record ["qubit", "target"] depth v with
  | some (inner, [some qubit, some target]) =>
    match JsonDecoder.word inner qubit, MemoryReference.ofJson inner target with
    | some qubit, some target => some ⟨qubit, target⟩
    | _, _ => none
  | _ => none

namespace TracingConfig

def toJson (config : TracingConfig) : JsonValue :=
  record [("log_level", ofString config.logLevel), ("format", ofString config.format.name),
    ("service_name", ofString config.serviceName)]

def fieldOr {α : Type} (default : α) (d : JsonDecoder α) (depth : Nat) : Option JsonValue → Option α
  | none => some default
  | some v => d depth v

/-- The configuration of a document. Missing fields keep their defaults. -/
def ofJson : JsonDecoder TracingConfig := fun depth v =>
  match JsonDecoder.looseRecord ["log_level", "format", "service_name"] depth v with
  | some (inner, [level, format, service]) =>
    match fieldOr defaults.logLevel JsonDecoder.text inner level,
      fieldOr defaults.format (JsonDecoder.cases TracingFormat.name TracingFormat.all) inner format,
      fieldOr defaults.serviceName JsonDecoder.text inner service with
    | some level, some format, some service => some ⟨level, format, service⟩
    | _, _, _ => none
  | _ => none

end TracingConfig

end QuilControl
