import MetricLedger.Metric

/-!
# Failures

Why an operation of the engine did not succeed, with its wording.
-/

namespace MetricLedger

/-- Why an operation failed. -/
inductive Failure where
  /-- A metric that was never written was read. -/
  | notFound (kind : MetricKind) (name : String)
  /-- The database could not be reached. -/
  | connection (operation cause : String)
  /-- A record, a row or a value could not be encoded or decoded. -/
  | serialization (operation cause : String)
  /-- A part of a batch failed and the batch was undone. -/
  | transaction (source : Failure)
  /-- An operation on files, on the database or on the log failed. -/
  | failed (operation cause : String)
  /-- A value that was handed in is not admissible. -/
  | invalidInput (text : String)
  /-- A capability is left out of this build. -/
  | featureNotEnabled (feature : String)
  deriving DecidableEq, Repr

namespace Failure

/-- The wording of a failure. -/
def message : Failure → String
  | .notFound kind name => s!"{kind.name} '{name}' not found"
  | .connection operation cause => s!"connection failure during '{operation}': {cause}"
  | .serialization operation cause => s!"serialization failure during '{operation}': {cause}"
  | .transaction source => "transaction aborted: " ++ source.message
  | .failed operation cause => s!"operation '{operation}' failed: {cause}"
  | .invalidInput text => s!"invalid input: {text}"
  | .featureNotEnabled feature =>
      s!"feature not enabled: {feature} (compile with --features {feature})"

/-- The failure of a batch one part of which failed. -/
def aborted : Failure → Failure
  | .transaction source => .transaction source
  | cause => .transaction cause

/-- A metric was not found. -/
def isNotFound : Failure → Bool
  | .notFound .. => true
  | _ => false

/-- Another attempt may succeed. -/
def isRetryable : Failure → Bool
  | .connection .. => true
  | _ => false

/-- The failures that led to this one, the nearest first. -/
def sources : Failure → List Failure
  | .transaction source => source :: source.sources
  | _ => []

/-- The wording of a failure followed by those of its sources. -/
def chain (f : Failure) : String := ": ".intercalate ((f :: f.sources).map message)

end Failure

end MetricLedger
