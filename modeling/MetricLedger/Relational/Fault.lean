import MetricLedger.Failure

/-!
# Faults of the database

Why the database gave no answer, with the wording, and the failure of an operation that follows from
it. Main statement: `isRetryable_queryFailure_iff`, another attempt is made exactly after a fault of
the connection.
-/

namespace MetricLedger.Relational

/-- Why a question to the database has no answer. -/
inductive ClientFault where
  /-- The database refused it, with a code of five characters. -/
  | database (code : String)
  /-- The connection was cut. -/
  | closed
  /-- No connection could be made. -/
  | unreachable
  /-- A text cannot be sent as it holds the character of code zero. -/
  | unsendable
  /-- The database asks for a password, and there is none. -/
  | configuration
  /-- There are more or fewer rows than wanted. -/
  | rowCount
  /-- The value of a column is missing or of another type. -/
  | cell (column : Nat)
  | noColumn (name : String)
  deriving DecidableEq, Repr

namespace ClientFault

/-- The wording of a fault. -/
def message : ClientFault → String
  | .database _ => "db error"
  | .closed => "connection closed"
  | .unreachable => "error connecting to server"
  | .unsendable => "error encoding message to server"
  | .configuration => "invalid configuration"
  | .rowCount => "query returned an unexpected number of rows"
  | .cell column => s!"error deserializing column {column}"
  | .noColumn name => "invalid column `" ++ name ++ "`"

/-- What the codes of a broken connection begin with. -/
def connectionClass : String := "08"

/-- The code of a number that is too large for its column. -/
def outOfRange : String := "22003"

def isOfConnection : ClientFault → Bool
  | .database code => connectionClass.toList.isPrefixOf code.toList
  | .closed | .unreachable | .unsendable => true
  | _ => false

/-- The failure of an operation whose question has no answer. -/
def queryFailure (operation : String) (fault : ClientFault) : Failure :=
  if fault.isOfConnection then .connection operation fault.message
  else if fault = .database outOfRange then .invalidInput s!"{operation}: {fault.message}"
  else .failed operation fault.message

/-- The failure of a row that cannot be read. -/
def rowFailure (operation : String) (fault : ClientFault) : Failure :=
  .serialization operation fault.message

end ClientFault

/-- Why the pool gives no connection. -/
inductive PoolFault where
  /-- A new connection could not be made. -/
  | creation (fault : ClientFault)
  /-- A connection did not become free in time. -/
  | timeout
  | closed
  deriving DecidableEq, Repr

namespace PoolFault

/-- The wording of a fault. -/
def message : PoolFault → String
  | .creation fault => "Error occurred while creating a new object: " ++ fault.message
  | .timeout => "Timeout occurred while waiting for a slot to become available"
  | .closed => "Pool has been closed"

/-- The failure to get a connection. -/
def poolFailure (fault : PoolFault) : Failure :=
  let operation := "postgres_get_client"
  match fault with
  | .creation inner =>
      if inner.isOfConnection then .connection operation fault.message
      else .failed operation fault.message
  | _ => .connection operation fault.message

end PoolFault

/-! ## Laws -/

/-- A failed question is asked again exactly if the connection is to blame. -/
theorem isRetryable_queryFailure_iff (operation : String) (fault : ClientFault) :
    (fault.queryFailure operation).isRetryable = fault.isOfConnection := by
  unfold ClientFault.queryFailure
  split
  next h => simp [Failure.isRetryable, h]
  next h => split <;> simp [Failure.isRetryable, h]

theorem isRetryable_poolFailure_iff (fault : PoolFault) :
    fault.poolFailure.isRetryable ↔
      ∀ inner, fault = .creation inner → inner.isOfConnection := by
  cases fault with
  | creation inner =>
      simp only [PoolFault.poolFailure]
      split <;> simp_all [Failure.isRetryable]
  | timeout => simp [PoolFault.poolFailure, Failure.isRetryable]
  | closed => simp [PoolFault.poolFailure, Failure.isRetryable]

end MetricLedger.Relational
