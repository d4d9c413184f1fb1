import MetricLedger.Diagnostics.Filter
import MetricLedger.Settings.Environment

/-!
# Settings of the diagnostic log

What is reported, in which form, and where to.
-/

namespace MetricLedger.Diagnostics

/-- The form of reported events. -/
inductive LogFormat where
  | pretty
  | json
  deriving DecidableEq, Repr

namespace LogFormat

def name : LogFormat → String
  | .pretty => "pretty"
  | .json => "json"

/-- The form of a name in any case; every other text means the readable form. -/
def parse (s : String) : LogFormat :=
  if Text.lowerAscii (Text.trim s.toList) = json.name.toList then .json else .pretty

end LogFormat

/-- The settings of the diagnostic log. -/
structure Logging where
  filter : Filter
  format : LogFormat
  /-- The file that takes the events instead of the error output. -/
  file : Option String
  deriving DecidableEq, Repr

namespace Logging

/-- The level reported when the environment gives no filter. -/
def defaultLevel (verbose : Bool) : Level := if verbose then .debug else .info

/-- The settings that an environment gives; a filter that does not read counts as none. -/
def ofEnvironment (verbose : Bool) (env : Environment) : Logging where
  filter := ((env "RUST_LOG").bind Filter.parse?).getD (.ofLevel (defaultLevel verbose))
  format := ((env "METRICSTORE_LOG_FORMAT").map LogFormat.parse).getD .pretty
  file := (env "METRICSTORE_LOG_FILE").filter fun s => !Text.allBlank s.toList

/-- The settings without an environment. -/
def standard : Logging := ofEnvironment false fun _ => none

/-- The failure of a second start of the diagnostic log. -/
def alreadyStarted : Failure := .failed "logging_init" "logging already initialized"

end Logging

end MetricLedger.Diagnostics
