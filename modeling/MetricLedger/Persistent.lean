import MetricLedger.Batch
import MetricLedger.Log.Lines
import MetricLedger.Log.Pipeline

/-!
# Persistent ledgers

A ledger whose writes are logged. A write is applied and its record is put into the queue of the log
in one step, so the log is in the order of the writes. Once the queue is closed every write is
refused.
-/

namespace MetricLedger

/-- A ledger with its log. -/
structure Persistent where
  ledger : Ledger
  log : Log.Pipeline
  /-- The path of the log. -/
  path : String
  /-- Nobody has asked for the report of the writer yet. -/
  hasReport : Bool

namespace Persistent

/-! ## Opening -/

/-- The ledger that a log leads to. -/
def restoreLedger (files : Files) (path : String) : Except Failure Ledger := do
  let records ← Log.readFile files path
  let (result, ledger) := Batch.run (records.map Op.ofRecord) Ledger.empty
  let _ ← result
  .ok ledger

/-- Opens a ledger on a log, at a moment. The log is read first if `restore` is set, and what is read
is not logged again. -/
def openAt (files : Files) (path : String) (storeInterval : Duration) (restore : Bool)
    (now : Duration) : Except Failure Persistent × Files :=
  match if restore then restoreLedger files path else .ok Ledger.empty with
  | .error f => (.error f, files)
  | .ok ledger =>
      match Log.Pipeline.openAt files path (.ofInterval storeInterval) now with
      | (.error f, files) => (.error f, files)
      | (.ok log, files) => (.ok ⟨ledger, log, path, true⟩, files)

/-! ## Writing -/

def closedFailure : Failure := .failed "persistent_write" "dump pipeline is closed"

/-- Refuses a write after the queue was closed. -/
def admission (p : Persistent) : Except Failure Unit :=
  if p.log.isOpen then .ok () else .error closedFailure

/-- Applies and logs one write. -/
def write (p : Persistent) (r : Record) : Except Failure Unit × Persistent :=
  match p.admission with
  | .error f => (.error f, p)
  | .ok _ =>
      match p.ledger.apply r with
      | .error f => (.error f, p)
      | .ok ledger => (.ok (), { p with ledger, log := (p.log.publish r).2 })

/-- Runs a batch, and logs the records of one that succeeds. -/
def runBatch (p : Persistent) (ops : List Op) : Except Failure Unit × Persistent :=
  match p.admission with
  | .error f => (.error f, p)
  | .ok _ =>
      match Batch.run ops p.ledger with
      | (.error f, ledger) => (.error f, { p with ledger })
      | (.ok records, ledger) => (.ok (), { p with ledger, log := p.log.publishAll records })

/-- Runs a batch whose caller waits `patience` times and gives up the next time. Nothing is logged of
a batch that was given up. -/
def runBatchUntil (p : Persistent) (ops : List Op) (patience : Nat) :
    Option (Except Failure Unit) × Persistent :=
  match p.admission with
  | .error f => (some (.error f), p)
  | .ok _ =>
      match Batch.runUntil ops patience p.ledger with
      | (none, ledger) => (none, { p with ledger })
      | (some (.error f), ledger) => (some (.error f), { p with ledger })
      | (some (.ok records), ledger) =>
          (some (.ok ()), { p with ledger, log := p.log.publishAll records })

/-! ## Closing -/

/-- The failure of a look at a ledger whose queue was closed. -/
def pingFailure (path : String) : Failure :=
  .failed "persistent_ping" s!"dump pipeline for {path} is closed"

/-- Tells whether writes are taken. -/
def ping (p : Persistent) : Except Failure Unit :=
  if p.log.isOpen then .ok () else .error (pingFailure p.path)

/-- Closes the queue; no write is under way at that moment. -/
def closeQueue (p : Persistent) : Persistent := { p with log := p.log.close.2 }

/-- Asks for the report of the writer, which is given to the first who asks. -/
def takeReport (p : Persistent) : Bool × Persistent := (p.hasReport, { p with hasReport := false })

/-- Lets the writer of the log do what it can do without a tick. -/
def settle (p : Persistent) (files : Files) : Persistent × Files :=
  let (log, files) := p.log.settle files
  ({ p with log }, files)

/-- Closes the queue and waits for the writer: its report, for the first who asks. -/
def shutdown (p : Persistent) (files : Files) :
    Except Failure (Option Log.Summary) × Persistent × Files :=
  let (asked, p) := p.closeQueue.takeReport
  if asked then
    let (p, files) := p.settle files
    match p.log.outcome with
    | some result => (some <$> result, p, files)
    | none => (.ok none, p, files)
  else (.ok none, p, files)

end Persistent

end MetricLedger
