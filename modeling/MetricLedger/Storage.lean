import MetricLedger.Persistent
import MetricLedger.Relational.Pool
import MetricLedger.Settings.Basic

/-!
# Storages

A storage is a ledger behind one of three backends: in memory alone, in memory with a log, or in a
database. The settings decide which one is opened.
-/

namespace MetricLedger

/-- A ledger behind one of the backends. -/
inductive Storage where
  | memory (ledger : Ledger)
  | persistent (p : Persistent)
  | relational (s : Relational.Storage)

namespace Storage

variable {τ : Type} (server : Relational.Server τ)

/-- The name of the backend. -/
def name : Storage → String
  | .memory _ => "memory"
  | .persistent _ => "persistent"
  | .relational _ => "postgres"

/-! ## Opening -/

/-- Opens the storage that some settings ask for, at a moment. -/
def openAt (s : Settings) (now : Duration) (files : Files) (t : τ) :
    Attempts Storage × Files × τ :=
  match s.selection with
  | .memory => (⟨.ok (.memory Ledger.empty), []⟩, files, t)
  | .persistent path storeInterval restore =>
      let (result, files) := Persistent.openAt files path storeInterval restore now
      (⟨result.map .persistent, []⟩, files, t)
  | .relational dsn =>
      let (attempts, t) := Relational.Storage.openAt server dsn s.relationalOptions t
      (⟨attempts.result.map .relational, attempts.pauses⟩, files, t)

/-! ## Writing -/

def write (r : Record) (s : Storage) (t : τ) : Except Failure Unit × Storage × τ :=
  match s with
  | .memory ledger =>
      match ledger.apply r with
      | .ok ledger => (.ok (), .memory ledger, t)
      | .error f => (.error f, .memory ledger, t)
  | .persistent p =>
      let (result, p) := p.write r
      (result, .persistent p, t)
  | .relational s =>
      let (result, s, t) := s.run server (·.write r) t
      (result, .relational s, t)

/-- Runs a batch. -/
def runBatch (ops : List Op) (s : Storage) (t : τ) : Except Failure Unit × Storage × τ :=
  match s with
  | .memory ledger =>
      let (result, ledger) := Batch.run ops ledger
      (result.map fun _ => (), .memory ledger, t)
  | .persistent p =>
      let (result, p) := p.runBatch ops
      (result, .persistent p, t)
  | .relational s =>
      let (result, s, t) := s.run server (·.runBatch ops) t
      (result, .relational s, t)

/-- Writes the records of a log as one batch, and counts them. -/
def restore (files : Files) (path : String) (s : Storage) (t : τ) :
    Except Failure Nat × Storage × τ :=
  match Log.readFile files path with
  | .error f => (.error f, s, t)
  | .ok [] => (.ok 0, s, t)
  | .ok records =>
      let (result, s, t) := runBatch server (records.map Op.ofRecord) s t
      (result.map fun _ => records.length, s, t)

/-! ## Reading -/

/-- Reads from the ledger in memory, or from the database. -/
def read {α : Type} (inMemory : Ledger → Except Failure α)
    (inDatabase : {σ : Type} → Relational.Database σ → Relational.Exchange σ α) (s : Storage)
    (t : τ) : Except Failure α × Storage × τ :=
  match s with
  | .memory ledger => (inMemory ledger, s, t)
  | .persistent p => (inMemory p.ledger, s, t)
  | .relational s =>
      let (result, s, t) := s.run server (fun db => inDatabase db) t
      (result, .relational s, t)

def getCounter (name : String) : Storage → τ → Except Failure Counter × Storage × τ :=
  read server (·.getCounter name) (·.getCounter name)

def getGauge (name : String) : Storage → τ → Except Failure Gauge × Storage × τ :=
  read server (·.getGauge name) (·.getGauge name)

def allCounters : Storage → τ → Except Failure (List Counter) × Storage × τ :=
  read server (fun l => .ok l.allCounters) (·.allCounters)

def allGauges : Storage → τ → Except Failure (List Gauge) × Storage × τ :=
  read server (fun l => .ok l.allGauges) (·.allGauges)

/-- Tells whether the storage is of use. -/
def ping (s : Storage) (t : τ) : Except Failure Unit × Storage × τ :=
  match s with
  | .memory _ => (.ok (), s, t)
  | .persistent p => (p.ping, s, t)
  | .relational s =>
      let (result, s, t) := s.run server (·.ping) t
      (result, .relational s, t)

def schemaVersion? (s : Storage) (t : τ) : Option (Except Failure Int) × Storage × τ :=
  match s with
  | .relational s =>
      let (result, s, t) := s.run server (·.schemaVersion) t
      (some result, .relational s, t)
  | s => (none, s, t)

/-! ## Order -/

/-- Counters in the order of their names. -/
def sortCounters (counters : List Counter) : List Counter :=
  counters.mergeSort fun a b => decide (a.name ≤ b.name)

/-- Gauges in the order of their names. -/
def sortGauges (gauges : List Gauge) : List Gauge :=
  gauges.mergeSort fun a b => decide (a.name ≤ b.name)

/-! ## Closing -/

def log? : Storage → Option Log.Pipeline
  | .persistent p => some p.log
  | _ => none

/-- The storage with its log in a later state. -/
def withLog (s : Storage) (log : Log.Pipeline) : Storage :=
  match s with
  | .persistent p => .persistent { p with log }
  | s => s

/-- Closes the storage, and waits until all that was written is safe. -/
def close (s : Storage) (files : Files) : Except Failure Unit × Storage × Files :=
  match s with
  | .memory _ => (.ok (), s, files)
  | .persistent p =>
      let (result, p, files) := p.shutdown files
      (result.map fun _ => (), .persistent p, files)
  | .relational s => (.ok (), .relational s.close, files)

end Storage

end MetricLedger
