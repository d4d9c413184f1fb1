import MetricLedger.Json.Fields
import MetricLedger.Json.Writer
import MetricLedger.Metric

/-!
# Metrics as JSON

A kind is the string of its name. A counter or a gauge is an object of its name and its value; a
number that is not finite is written `null`.
-/

namespace MetricLedger

/-- The JSON value of a double precision number. -/
def Binary64.json (x : Binary64) : Json.Value :=
  if x.isFinite then .number (.real x) else .null

namespace MetricKind

def json (k : MetricKind) : Json.Value := .string k.name

/-- Reads a kind from a whole text. -/
def parse (cs : List Char) : Except Json.Fault MetricKind :=
  Json.readWholeText (Json.readVariant ofExactName? "`counter` or `gauge`") cs

end MetricKind

namespace Counter

def json (c : Counter) : Json.Value :=
  .object [("name", .string c.name), ("value", .number (.whole c.value.toInt))]

/-- The members of a counter. -/
def shape : Json.Shape := ⟨"Counter", [⟨"name", Json.readString⟩, ⟨"value", Json.readSigned⟩]⟩

/-- Reads a counter from a whole text. -/
def parse (cs : List Char) : Except Json.Fault Counter := do
  match ← shape.parse cs with
  | [.string name, .number (.whole n)] => .ok ⟨name, Int64.ofInt n⟩
  | _ => .error .expectedValue

end Counter

namespace Gauge

def json (g : Gauge) : Json.Value := .object [("name", .string g.name), ("value", g.value.json)]

/-- The members of a gauge. -/
def shape : Json.Shape := ⟨"Gauge", [⟨"name", Json.readString⟩, ⟨"value", Json.readReal⟩]⟩

/-- Reads a gauge from a whole text. -/
def parse (cs : List Char) : Except Json.Fault Gauge := do
  match ← shape.parse cs with
  | [.string name, .number (.real x)] => .ok ⟨name, x⟩
  | _ => .error .expectedValue

end Gauge

end MetricLedger
