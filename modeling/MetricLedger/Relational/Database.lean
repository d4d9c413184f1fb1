import MetricLedger.Batch
import MetricLedger.Relational.Options
import MetricLedger.Relational.Statement

/-!
# The database behind its pool

A database is seen through a pool of connections. An operation takes a connection, sends its
statements on it one by one and waits for every answer. A batch is a transaction: it is committed if
all its operations succeed, and rolled back at the first one that fails.
-/

namespace MetricLedger.Relational

/-- A database with its pool; a value of `σ` is what the two remember. -/
structure Database (σ : Type) where
  /-- Takes a connection out of the pool; it goes back by itself. -/
  acquire : σ → Except PoolFault Unit × σ
  /-- Sends a statement on the connection and waits for the rows of the answer. -/
  send : Statement → σ → Except ClientFault (List Row) × σ
  /-- Gives up the transaction of the connection, and does not wait for an answer. -/
  abandon : σ → σ
  /-- Closes the pool. -/
  close : σ → σ

/-- An exchange with a database, which ends at its first failure. -/
abbrev Exchange (σ α : Type) := ExceptT Failure (StateM σ) α

namespace Database

variable {σ α : Type} (db : Database σ)

/-! ## Exchanges -/

/-- The exchange that does nothing but give a result. -/
def conclude (result : Except Failure α) : Exchange σ α := fun s => (result, s)

/-- Takes a connection. -/
def take (failure : PoolFault → Failure) : Exchange σ Unit := fun s =>
  let (result, s) := db.acquire s
  (result.mapError failure, s)

/-- Sends a statement and reads the rows of its answer. -/
def ask (failure : ClientFault → Failure) (statement : Statement)
    (read : List Row → Except ClientFault α) : Exchange σ α := fun s =>
  let (answer, s) := db.send statement s
  ((answer >>= read).mapError failure, s)

/-- Sends a statement whose answer says no more than that it succeeded. -/
def tell (failure : ClientFault → Failure) (statement : Statement) : Exchange σ Unit :=
  db.ask failure statement fun _ => .ok ()

/-- Gives up the transaction if an exchange fails. -/
def orAbandon (x : Exchange σ α) : Exchange σ α := fun s =>
  match x s with
  | (.ok a, s) => (.ok a, s)
  | (.error f, s) => (.error f, db.abandon s)

/-- Starts a transaction. -/
def start (failure : ClientFault → Failure) : Exchange σ Unit :=
  db.orAbandon (db.tell failure .startTransaction)

/-! ## Writing -/

/-- The operation that a write outside a batch is reported as. -/
def writeName : MetricKind → String
  | .counter => "postgres_upsert_counter"
  | .gauge => "postgres_upsert_gauge"

/-- The operation that a write of a batch is reported as. -/
def batchWriteName : MetricKind → String
  | .counter => "postgres_tx_upsert_counter"
  | .gauge => "postgres_tx_upsert_gauge"

def write (r : Record) : Exchange σ Unit := do
  db.take PoolFault.poolFailure
  db.tell (ClientFault.queryFailure (writeName r.kind)) (.upsert r)

/-- Runs one operation of a batch to its end. -/
def runOp : Op → σ → Except Failure Unit × σ
  | .done result, s => (result, s)
  | .suspend op, s => runOp op s
  | .write r next, s =>
      let (result, s) :=
        db.tell (ClientFault.queryFailure (batchWriteName r.kind)) (.upsert r) s
      runOp (next result) s

/-- Runs the operations in order, up to the first one that fails. -/
def runOps : List Op → σ → Except Failure Unit × σ
  | [], s => (.ok (), s)
  | op :: ops, s =>
      match db.runOp op s with
      | (.ok _, s) => runOps ops s
      | (.error f, s) => (.error f, s)

/-- Ends a transaction after its operations. What comes of a rollback does not count. -/
def finish : Except Failure Unit × σ → Except Failure Unit × σ
  | (.ok _, s) =>
      db.tell (fun fault => (fault.queryFailure "postgres_tx_commit").aborted) .commit s
  | (.error f, s) => (.error f.aborted, (db.send .rollback s).2)

/-- Runs a batch as one transaction. -/
def runBatch (ops : List Op) : Exchange σ Unit := do
  db.take PoolFault.poolFailure
  db.start (ClientFault.queryFailure "postgres_tx_begin")
  fun s => db.finish (db.runOps ops s)

/-! ## Reading -/

def getCounter (name : String) : Exchange σ Counter := do
  db.take PoolFault.poolFailure
  let row ← db.ask (ClientFault.queryFailure "postgres_get_counter") (.select .counter name)
    Row.single?
  match row with
  | some row => conclude row.counter
  | none => throw (.notFound .counter name)

def getGauge (name : String) : Exchange σ Gauge := do
  db.take PoolFault.poolFailure
  let row ← db.ask (ClientFault.queryFailure "postgres_get_gauge") (.select .gauge name)
    Row.single?
  match row with
  | some row => conclude row.gauge
  | none => throw (.notFound .gauge name)

/-- All counters, those with the newest rows first. -/
def allCounters : Exchange σ (List Counter) := do
  db.take PoolFault.poolFailure
  let rows ← db.ask (ClientFault.queryFailure "postgres_get_counters") (.selectAll .counter) .ok
  let counters ← conclude (rows.mapM Row.counter)
  return latestPerName Counter.name counters

/-- All gauges, those with the newest rows first. -/
def allGauges : Exchange σ (List Gauge) := do
  db.take PoolFault.poolFailure
  let rows ← db.ask (ClientFault.queryFailure "postgres_get_gauges") (.selectAll .gauge) .ok
  let gauges ← conclude (rows.mapM Row.gauge)
  return latestPerName Gauge.name gauges

/-! ## Signs of life -/

/-- Takes a connection and sends a statement without any effect. -/
def probe (operation : String) : Exchange σ Unit := do
  db.take PoolFault.poolFailure
  db.tell (ClientFault.queryFailure operation) .probe

/-- Tells whether the database answers. -/
def ping : Exchange σ Unit := db.probe "postgres_ping"

end Database

end MetricLedger.Relational
