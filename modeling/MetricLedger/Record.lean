import MetricLedger.Metric

/-!
# Records

A record is one write as the log keeps it: the delta added to a counter, or the number written to a
gauge.
-/

namespace MetricLedger

/-- One write of the log. -/
inductive Record where
  | counter (name : String) (delta : Int64)
  | gauge (name : String) (value : Binary64)
  deriving DecidableEq, Repr

namespace Record

def kind : Record → MetricKind
  | .counter .. => .counter
  | .gauge .. => .gauge

/-- The name of the metric that a record writes. -/
def name : Record → String
  | .counter name _ => name
  | .gauge name _ => name

/-- The record has a form in the log: its number, if it is a gauge, is finite. -/
def isEncodable : Record → Bool
  | .counter .. => true
  | .gauge _ value => value.isFinite

end Record

end MetricLedger
