import MetricLedger.Settings.Environment

/-!
# Repeated attempts

A connection that cannot be had is asked for again, after a pause that doubles from one attempt to
the next up to a limit. Any other failure, and success, ends the attempts at once.
-/

namespace MetricLedger

/-- How often and after which pauses an attempt is repeated; the pauses are in milliseconds. -/
structure RetryPolicy where
  /-- The attempts after the first one. -/
  maxRetries : UInt32
  /-- The pause before the first repetition. -/
  baseDelay : UInt64
  /-- The longest pause, unless the first one is longer. -/
  maxDelay : UInt64
  deriving DecidableEq, Repr

/-- What came of a run of attempts. -/
structure Attempts (α : Type) where
  /-- The outcome of the last attempt. -/
  result : Except Failure α
  /-- The pauses before the attempts after the first one, in milliseconds. -/
  pauses : List Nat

namespace Attempts

variable {α : Type}

/-- The number of attempts. -/
def calls (a : Attempts α) : Nat := a.pauses.length + 1

/-- The moments after `start` at which attempts begin, for the given pauses between them. -/
def startsFrom (start : Nat) : List Nat → List Nat
  | [] => [start]
  | pause :: pauses => start :: startsFrom (start + pause) pauses

/-- The moments at which the attempts begin, in milliseconds after the first one. -/
def callTimes (a : Attempts α) : List Nat := startsFrom 0 a.pauses

end Attempts

namespace RetryPolicy

-- Powers are those of the core library, whatever else is imported.
attribute [local instance (2000)] instPowNat

/-- Three repetitions, after pauses of one second up to five seconds. -/
def standard : RetryPolicy := ⟨3, 1000, 5000⟩

/-- The doublings of the first pause that are counted. -/
def maxDoublings : Nat := 16

/-- The pause before a repetition, the first one having the number one, in milliseconds. -/
def delay (p : RetryPolicy) (attempt : Nat) : Nat :=
  if attempt = 0 then 0
  else
    let doubled := p.baseDelay.toNat * 2 ^ min (attempt - 1) maxDoublings
    min (min doubled Text.maxUnsigned64) (max p.maxDelay.toNat p.baseDelay.toNat)

/-- The policy with the values that the environment gives. -/
def withEnvironment (p : RetryPolicy) (env : Environment) : Except Failure RetryPolicy := do
  let retries ←
    env.override "METRICSTORE_DB_MAX_RETRIES" (Environment.natural Text.maxUnsigned32)
      p.maxRetries.toNat
  let base ←
    env.override "METRICSTORE_DB_RETRY_BASE_MS" (Environment.natural Text.maxUnsigned64)
      p.baseDelay.toNat
  .ok ⟨UInt32.ofNat retries, UInt64.ofNat base, p.maxDelay⟩

variable {σ α : Type}

/-- Attempts until one succeeds or fails for good, with at most `left` repetitions after the
repetition of number `attempt`. -/
def runFrom (p : RetryPolicy) (call : σ → Except Failure α × σ) :
    Nat → Nat → σ → Attempts α × σ
  | 0, _, s =>
      let (result, s) := call s
      (⟨result, []⟩, s)
  | left + 1, attempt, s =>
      match call s with
      | (.ok a, s) => (⟨.ok a, []⟩, s)
      | (.error f, s) =>
          if f.isRetryable then
            let (rest, s) := runFrom p call left (attempt + 1) s
            (⟨rest.result, p.delay (attempt + 1) :: rest.pauses⟩, s)
          else (⟨.error f, []⟩, s)

/-- Attempts until one succeeds or fails for good, or the repetitions are used up. -/
def run (p : RetryPolicy) (call : σ → Except Failure α × σ) (s : σ) : Attempts α × σ :=
  runFrom p call p.maxRetries.toNat 0 s

/-! ## Laws -/

/-- No pause exceeds both limits. -/
theorem delay_le (p : RetryPolicy) (attempt : Nat) :
    p.delay attempt ≤ max p.maxDelay.toNat p.baseDelay.toNat := by
  unfold delay
  split
  · exact Nat.zero_le _
  · exact Nat.min_le_right _ _

end RetryPolicy

end MetricLedger
