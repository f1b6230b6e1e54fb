import QuilControl.Yaml.Flat

/-!
# Tracing configuration

How the log is filtered and written, and the name of the service. Values come from the environment,
else from a file, else from the defaults.
-/

namespace QuilControl

inductive TracingFormat where
  | console | json
deriving DecidableEq

namespace TracingFormat

def name : TracingFormat → String
  | console => "console"
  | json => "json"

def all : List TracingFormat := [console, json]

def ofExactName? (name : String) : Option TracingFormat := all.find? (·.name = name)

/-- The form that a name asks for (`from_name`): `json` in any letter case (of ASCII), and console
otherwise. -/
def ofName (name : String) : TracingFormat :=
  if name.toList.map Char.toLower = ['j', 's', 'o', 'n'] then json else console

end TracingFormat

structure TracingConfig where
  /-- The filter of the log. -/
  logLevel : String
  format : TracingFormat
  serviceName : String
deriving DecidableEq

inductive ConfigError where
  /-- The file cannot be read. -/
  | unreadable
  /-- The text is no configuration. -/
  | malformed
deriving DecidableEq

namespace TracingConfig

/-- The values used where nothing else is said. -/
def defaults : TracingConfig := ⟨"info", .console, "arvak"⟩

/-- Replace the fields whose variables are set (`with_overrides`). An empty variable counts. -/
def withEnvironment (config : TracingConfig) (lookup : String → Option String) :
    TracingConfig where
  logLevel := (lookup "RUST_LOG").getD config.logLevel
  format := ((lookup "ARVAK_LOG_FORMAT").map TracingFormat.ofName).getD config.format
  serviceName := (lookup "ARVAK_SERVICE_NAME").getD config.serviceName

def ofEnvironment (lookup : String → Option String) : TracingConfig :=
  defaults.withEnvironment lookup

/-- The value of a key, if there is one; nothing if there are several. -/
def valueOf (key : String) (entries : List (String × String)) : Option (Option String) :=
  match entries.filter (·.1 = key) with
  | [] => some none
  | [entry] => some (some entry.2)
  | _ => none

/-- The format of an entry, or the default. -/
def formatOf : Option String → Option TracingFormat
  | none => some defaults.format
  | some name => TracingFormat.ofExactName? name

/-- The configuration of entries. Missing ones keep their defaults, unknown ones do not matter. -/
def ofEntries? (entries : List (String × String)) : Option TracingConfig :=
  match valueOf "log_level" entries, valueOf "format" entries, valueOf "service_name" entries with
  | some level, some format, some service =>
    (formatOf format).map
      (⟨level.getD defaults.logLevel, ·, service.getD defaults.serviceName⟩)
  | _, _, _ => none

/-- The configuration of a YAML document (`from_yaml_str`). -/
def ofYaml (text : String) : Except ConfigError TracingConfig :=
  match (Yaml.flatEntries? text.toList).bind ofEntries? with
  | some config => .ok config
  | none => .error .malformed

/-- The configuration of a file, given its contents if it can be read (`from_file`). -/
def ofFile : Option String → Except ConfigError TracingConfig
  | none => .error .unreadable
  | some contents => ofYaml contents

/-- The configuration of a file, if one is named, and of the environment (`load`). -/
def load (file : Option (Option String)) (lookup : String → Option String) :
    Except ConfigError TracingConfig :=
  match file with
  | none => .ok (ofEnvironment lookup)
  | some contents => (ofFile contents).map (·.withEnvironment lookup)

end TracingConfig

end QuilControl
