import MetricLedger.Failure
import MetricLedger.Text.Numeral

/-!
# Values from the environment

An environment gives texts to some names. Blanks around a value do not count; a value that does not
read as its setting is refused with the name and the text as it was given.
-/

namespace MetricLedger

/-- The texts that an environment gives to names. -/
abbrev Environment := String → Option String

namespace Environment

/-- The environment of a list of names and texts; the first text of a name counts. -/
def ofList (entries : List (String × String)) : Environment := fun name => entries.lookup name

def refuse (name value reason : String) : Failure := .invalidInput s!"{name} '{value}'{reason}"

/-- Reads a whole number of at most `limit`. -/
def natural (limit : Nat) (name value : String) : Except Failure Nat :=
  match Text.readNatural limit (Text.trim value.toList) with
  | .ok n => .ok n
  | .error fault => .error (refuse name value s!": {fault.message}")

/-- The spellings of a switch that is on. -/
def switchedOn : List String := ["1", "true", "yes", "on"]

def switchedOff : List String := ["0", "false", "no", "off"]

/-- Reads a switch, in any mixture of upper and lower case letters. -/
def switch (name value : String) : Except Failure Bool :=
  let word := String.ofList (Text.lowerAscii (Text.trim value.toList))
  if switchedOn.contains word then .ok true
  else if switchedOff.contains word then .ok false
  else .error (refuse name value " is not a boolean")

/-- Reads a setting if its name is in the environment, and keeps the value it has otherwise. -/
def override {α : Type} (env : Environment) (name : String)
    (read : String → String → Except Failure α) (current : α) : Except Failure α :=
  match env name with
  | some value => read name value
  | none => .ok current

end Environment

end MetricLedger
