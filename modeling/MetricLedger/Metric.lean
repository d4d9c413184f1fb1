import MetricLedger.Binary64.Basic
import MetricLedger.Text.Blank

/-!
# Metrics

A counter is the running sum of the deltas applied under its name, a gauge the last number written
under its name. The two kinds have names of their own: one name may stand for a counter and for a
gauge.
-/

namespace MetricLedger

inductive MetricKind where
  | counter
  | gauge
  deriving DecidableEq, Repr

namespace MetricKind

/-- Both kinds, in their usual order. -/
def all : List MetricKind := [.counter, .gauge]

def name : MetricKind → String
  | .counter => "counter"
  | .gauge => "gauge"

/-- The kind of a name, in any mixture of upper and lower case letters. No character outside ASCII has
a letter of a kind's name as its lower case form. -/
def ofName? (s : String) : Option MetricKind :=
  all.find? fun k => k.name.toList == Text.lowerAscii s.toList

def ofExactName? (s : String) : Option MetricKind := all.find? fun k => k.name == s

theorem ofName?_name (k : MetricKind) : ofName? k.name = some k := by cases k <;> rfl

end MetricKind

/-- A counter with its value. -/
structure Counter where
  name : String
  value : Int64
  deriving DecidableEq, Repr

/-- A gauge with its value. -/
structure Gauge where
  name : String
  value : Binary64
  deriving DecidableEq, Repr

end MetricLedger
