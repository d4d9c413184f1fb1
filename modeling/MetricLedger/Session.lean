import MetricLedger.Storage

/-!
# Sessions

Several storages and logs over one tree of files, one database server and one clock. The clock moves
only when it is told to; the writers of the logs do all that they can do at a moment before the clock
leaves it, and a tick that is passed over finds nothing but what was written before it.
-/

namespace MetricLedger

/-- An open log that belongs to no storage. -/
structure OpenLog where
  pipeline : Log.Pipeline
  /-- Records can still be handed in. -/
  hasPublisher : Bool
  /-- Nobody has asked for the report of the writer yet. -/
  hasReport : Bool

/-- A storage of a session. -/
structure OpenStorage where
  storage : Storage
  /-- The storage was opened as a log, and not by way of settings. -/
  isLog : Bool

/-- Storages and logs by name, and what they work on. -/
structure Session (τ : Type) where
  files : Files
  clock : Duration
  server : τ
  storages : List (String × OpenStorage)
  logs : List (String × OpenLog)

namespace Session

variable {τ : Type} (backend : Relational.Server τ)

/-- The session before anything is opened. -/
def start (files : Files) (server : τ) : Session τ := ⟨files, ⟨0⟩, server, [], []⟩

/-! ## Names -/

/-- What a name stands for, put in the place of what it stood for before. -/
def putName {α : Type} (name : String) (a : α) : List (String × α) → List (String × α)
  | [] => [(name, a)]
  | (n, b) :: rest => if n = name then (n, a) :: rest else (n, b) :: putName name a rest

/-- The names without one of them. -/
def dropName {α : Type} (name : String) (names : List (String × α)) : List (String × α) :=
  names.filter fun (n, _) => n != name

def storage? (s : Session τ) (name : String) : Option OpenStorage := s.storages.lookup name

def log? (s : Session τ) (name : String) : Option OpenLog := s.logs.lookup name

def withStorage (s : Session τ) (name : String) (o : OpenStorage) : Session τ :=
  { s with storages := putName name o s.storages }

def withLog (s : Session τ) (name : String) (o : OpenLog) : Session τ :=
  { s with logs := putName name o s.logs }

/-! ## Writers -/

/-- A writer of the session. -/
inductive WriterName where
  | ofStorage (name : String)
  | ofLog (name : String)
  deriving DecidableEq, Repr

def pipeline? (s : Session τ) : WriterName → Option Log.Pipeline
  | .ofStorage name => (s.storage? name).bind (·.storage.log?)
  | .ofLog name => (s.log? name).map (·.pipeline)

def withPipeline (s : Session τ) (w : WriterName) (p : Log.Pipeline) : Session τ :=
  match w with
  | .ofStorage name =>
      (s.storage? name).elim s fun o => s.withStorage name { o with storage := o.storage.withLog p }
  | .ofLog name => (s.log? name).elim s fun o => s.withLog name { o with pipeline := p }

def writers (s : Session τ) : List WriterName :=
  s.storages.map (.ofStorage ·.1) ++ s.logs.map (.ofLog ·.1)

def letWork (work : Log.Pipeline → Files → Log.Pipeline × Files) (s : Session τ) (w : WriterName) :
    Session τ :=
  match s.pipeline? w with
  | none => s
  | some p =>
      let (p, files) := work p s.files
      { s.withPipeline w p with files }

/-- Lets all writers do what they can do without a tick. -/
def settle (s : Session τ) : Session τ := s.writers.foldl (letWork Log.Pipeline.settle) s

/-- The writers with a tick before or at a moment, the first tick first. -/
def due (s : Session τ) (moment : Duration) : List WriterName :=
  let ticks := s.writers.filterMap fun w => do
    let p ← s.pipeline? w
    if p.isDue moment then some (p.nextTick.nanos, w) else none
  (ticks.mergeSort fun a b => decide (a.1 ≤ b.1)).map (·.2)

/-- Moves the clock on. -/
def advance (s : Session τ) (span : Duration) : Session τ :=
  let s := s.settle
  let moment : Duration := ⟨s.clock.nanos + span.nanos⟩
  let s := (s.due moment).foldl (letWork fun p files => p.tickUntil files moment) s
  { s with clock := moment }

/-- The span that passes while others are waited for. -/
def moment : Duration := Duration.ofMilliseconds 1

/-- Moves the clock on a little. -/
def pause (s : Session τ) : Session τ := s.advance moment

/-! ## Storages -/

/-- Closes the log of a storage that is given up, and lets its writer finish. -/
def release (s : Session τ) (name : String) : Session τ :=
  match s.pipeline? (.ofStorage name) with
  | none => s
  | some p => (s.withPipeline (.ofStorage name) p.close.2).settle

/-- Gives a name to a new storage; the one that had it is given up. -/
def keep (s : Session τ) (name : String) (o : OpenStorage) : Session τ :=
  ({ s.release name with storages := dropName name (s.release name).storages }).withStorage name o

def openMemory (s : Session τ) (name : String) : Session τ :=
  s.keep name ⟨.memory Ledger.empty, false⟩

def openPersistent (s : Session τ) (name path : String) (storeInterval : Duration)
    (restore : Bool) : Except Failure Unit × Session τ :=
  let s := s.settle
  match Persistent.openAt s.files path storeInterval restore s.clock with
  | (.error f, files) => (.error f, { s with files })
  | (.ok p, files) => (.ok (), { s with files }.keep name ⟨.persistent p, true⟩)

/-- Opens the storage that some settings ask for; the clock goes on by the pauses between the
attempts. -/
def openSettings (s : Session τ) (name : String) (settings : Settings) :
    Except Failure String × Session τ :=
  let s := s.settle
  let (attempts, files, server) := Storage.openAt backend settings s.clock s.files s.server
  let s := attempts.pauses.foldl (fun s pause => s.advance (.ofMilliseconds pause))
    { s with files, server }
  match attempts.result with
  | .error f => (.error f, s)
  | .ok storage => (.ok storage.name, s.keep name ⟨storage, false⟩)

/-- Gives up a storage without closing it, and tells whether there was one. -/
def drop (s : Session τ) (name : String) : Bool × Session τ :=
  let isThere := (s.storage? name).isSome
  let s := s.release name
  (isThere, ({ s with storages := dropName name s.storages }).pause)

/-- Lets the storage of a name work on the server. -/
def onStorage {α : Type} (s : Session τ) (name : String)
    (work : Storage → τ → α × Storage × τ) : Option α × Session τ :=
  match s.storage? name with
  | none => (none, s)
  | some o =>
      let (a, storage, server) := work o.storage s.server
      (some a, ({ s with server }.withStorage name { o with storage }).settle)

/-- Writes one record after the other, and counts the failures. -/
def writeEach (s : Session τ) (name : String) (records : List Record) : Option Nat × Session τ :=
  s.onStorage name fun storage server =>
    records.foldl (fun (failed, storage, server) r =>
      match Storage.write backend r storage server with
      | (.ok _, storage, server) => (failed, storage, server)
      | (.error _, storage, server) => (failed + 1, storage, server)) (0, storage, server)

/-- Writes the records of a log to a storage as one batch. -/
def restore (s : Session τ) (name path : String) : Option (Except Failure Nat) × Session τ :=
  let s := s.pause
  s.onStorage name (Storage.restore backend s.files path)

/-- Closes a storage. -/
def close (s : Session τ) (name : String) : Option (Except Failure Unit) × Session τ :=
  match s.storage? name with
  | none => (none, s)
  | some o =>
      let (result, storage, files) := o.storage.close s.files
      (some result, { s with files }.withStorage name { o with storage })

/-- What came of a wish to shut a log down. -/
inductive ShutdownAnswer where
  | noStorage
  /-- The storage was not opened as one with a log. -/
  | noLog
  | done (result : Except Failure (Option Log.Summary))

/-- Closes a storage that was opened as one with a log, for the report of its writer. -/
def shutdown (s : Session τ) (name : String) : ShutdownAnswer × Session τ :=
  match s.storage? name with
  | none => (.noStorage, s)
  | some o =>
      match o.storage, o.isLog with
      | .persistent p, true =>
          let (result, p, files) := p.shutdown s.files
          (.done result, { s with files }.withStorage name { o with storage := .persistent p })
      | _, _ => (.noLog, s)

/-! ## Logs -/

/-- Closes the queue of a log that is given up, and lets its writer finish. -/
def releaseLog (s : Session τ) (name : String) : Session τ :=
  match s.pipeline? (.ofLog name) with
  | none => s
  | some p => (s.withPipeline (.ofLog name) p.close.2).settle

/-- Opens a log that belongs to no storage; an earlier one of that name is given up. -/
def openLog (s : Session τ) (name path : String) (mode : FlushMode) :
    Except Failure Unit × Session τ :=
  let s := s.settle
  match Log.Pipeline.openAt s.files path mode s.clock with
  | (.error f, files) => (.error f, { s with files })
  | (.ok p, files) =>
      (.ok (), ({ s with files }.releaseLog name).withLog name ⟨p, true, true⟩)

/-- The log of a name that records can be handed to. -/
def publisher? (s : Session τ) (name : String) : Option OpenLog :=
  (s.log? name).filter (·.hasPublisher)

/-- Hands records to a log, and tells of each whether it was taken. -/
def publish (s : Session τ) (name : String) (records : List Record) :
    Option (List Bool) × Session τ :=
  match s.publisher? name with
  | none => (none, s)
  | some o =>
      let (taken, p) := records.foldl
        (fun (taken, p) r =>
          let (isTaken, p) := p.publish r
          (taken ++ [isTaken], p)) ([], o.pipeline)
      (some taken, (s.withLog name { o with pipeline := p }).settle)

/-- Closes the queue of a log, and tells whether it was open. -/
def closeLog (s : Session τ) (name : String) : Option Bool × Session τ :=
  match s.publisher? name with
  | none => (none, s)
  | some o =>
      let (wasOpen, p) := o.pipeline.close
      (some wasOpen, (s.withLog name { o with pipeline := p }).settle)

def isLogClosed? (s : Session τ) (name : String) : Option Bool :=
  (s.publisher? name).map (!·.pipeline.isOpen)

/-- Gives up the handing in of records, which closes the queue. -/
def dropPublisher (s : Session τ) (name : String) : Option Unit × Session τ :=
  match s.publisher? name with
  | none => (none, s)
  | some o =>
      (some (),
        (s.withLog name { o with pipeline := o.pipeline.close.2, hasPublisher := false }).settle)

/-- What came of the wait for a writer. -/
inductive WaitAnswer where
  | noLog
  /-- The report was given to another one. -/
  | alreadyWaited
  /-- The writer goes on, and nothing will end it. -/
  | endless
  | done (result : Except Failure Log.Summary)

/-- Waits for the report of a writer. -/
def waitLog (s : Session τ) (name : String) : WaitAnswer × Session τ :=
  let s := s.settle
  match s.log? name with
  | none => (.noLog, s)
  | some o =>
      if o.hasReport then
        (o.pipeline.outcome.elim .endless .done, s.withLog name { o with hasReport := false })
      else (.alreadyWaited, s)

/-! ## Files -/

/-- The bytes of a file, a moment later. -/
def fileContent (s : Session τ) (path : String) : Except FileFault (List UInt8) × Session τ :=
  let s := s.pause
  (s.files.read path, s)

/-- The records of a log, a moment later. -/
def readRecords (s : Session τ) (path : String) : Except Failure (List Record) × Session τ :=
  let s := s.pause
  (Log.readFile s.files path, s)

/-- Writes a whole file. -/
def putFile (s : Session τ) (path : String) (content : List UInt8) :
    Except FileFault Unit × Session τ :=
  match s.files.write path content with
  | .ok files => (.ok (), { s with files })
  | .error fault => (.error fault, s)

end Session

end MetricLedger
