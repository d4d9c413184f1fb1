import MetricLedger.Duration
import MetricLedger.Settings.Environment

/-!
# Flush modes

A log is flushed after every record, or once in an interval. The interval of length zero stands for
the first.
-/

namespace MetricLedger

/-- When the records of a log reach its file. -/
inductive FlushMode where
  /-- After every record. -/
  | sync
  /-- Once in every interval. -/
  | interval (period : Duration)
  deriving DecidableEq, Repr

namespace FlushMode

def ofInterval (d : Duration) : FlushMode := if d.isZero then .sync else .interval d

theorem ofInterval_eq_sync_iff {d : Duration} : ofInterval d = .sync ↔ d.nanos = 0 := by
  simp [ofInterval, Duration.isZero]

end FlushMode

/-- The text without one letter `s` at its end. -/
def withoutSecondsUnit (cs : List Char) : List Char :=
  match cs.reverse with
  | 's' :: rest => rest.reverse
  | _ => cs

/-- Reads a store interval: whole seconds, with or without the unit `s`. -/
def parseStoreInterval (value : String) : Except Failure Duration :=
  let digits := withoutSecondsUnit (Text.trim value.toList)
  match Text.readNatural Text.maxUnsigned64 digits with
  | .ok n => .ok (Duration.ofSeconds n)
  | .error fault =>
      .error (Environment.refuse "STORE_INTERVAL" value s!": {fault.message}")

end MetricLedger
