/-!
# Durations

A span of time in nanoseconds. Moments are spans since the start of the clock.
-/

namespace MetricLedger

/-- A span of time. -/
structure Duration where
  nanos : Nat
  deriving DecidableEq, Repr

namespace Duration

/-- The nanoseconds of a second. -/
def perSecond : Nat := 1000000000

/-- The nanoseconds of a millisecond. -/
def perMillisecond : Nat := 1000000

/-- The span of whole seconds. -/
def ofSeconds (n : Nat) : Duration := ⟨n * perSecond⟩

/-- The span of whole milliseconds. -/
def ofMilliseconds (n : Nat) : Duration := ⟨n * perMillisecond⟩

/-- The whole seconds of a span. -/
def seconds (d : Duration) : Nat := d.nanos / perSecond

/-- The nanoseconds past the whole seconds. -/
def subsecond (d : Duration) : Nat := d.nanos % perSecond

/-- The span is empty. -/
def isZero (d : Duration) : Bool := d.nanos == 0

theorem seconds_ofSeconds (n : Nat) : (ofSeconds n).seconds = n :=
  Nat.mul_div_cancel n (by decide)

end Duration

end MetricLedger
