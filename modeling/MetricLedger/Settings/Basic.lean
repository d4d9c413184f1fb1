import MetricLedger.Files.Tree
import MetricLedger.Log.Mode
import MetricLedger.Relational.Options
import MetricLedger.Settings.File
import MetricLedger.Text.Utf8

/-!
# Settings

The settings of the engine come in layers: what holds by default, a file, the environment, and what
is set one by one. A blank address of a database and an empty path count as none, and as such they
hide the layers below.
-/

namespace MetricLedger

/-- The settings of the engine. -/
structure Settings where
  /-- The address of the database, if there is one. -/
  databaseDsn : Option String
  /-- The path of the log, if one is kept. -/
  fileStoragePath : Option String
  storeInterval : Duration
  /-- The log is read before anything else. -/
  restore : Bool
  poolMaxSize : Nat
  tablePrefix : String
  retry : RetryPolicy
  deriving DecidableEq, Repr

/-- The backend that some settings ask for. -/
inductive Selection where
  | relational (dsn : String)
  | persistent (path : String) (storeInterval : Duration) (restore : Bool)
  | memory
  deriving DecidableEq, Repr

/-- The name of a backend. -/
def Selection.name : Selection → String
  | .relational .. => "postgres"
  | .persistent .. => "persistent"
  | .memory => "memory"

namespace Settings

/-- The settings that hold by default. -/
def standard : Settings where
  databaseDsn := none
  fileStoragePath := some "/tmp/metrics-db.json"
  storeInterval := Duration.ofSeconds 300
  restore := true
  poolMaxSize := Relational.Options.standard.poolMaxSize
  tablePrefix := Relational.Options.standard.tablePrefix
  retry := .standard

/-! ## Single settings -/

def withDatabaseDsn (s : Settings) (dsn : String) : Settings :=
  { s with databaseDsn := if Text.allBlank dsn.toList then none else some dsn }

def withFileStoragePath (s : Settings) (path : String) : Settings :=
  { s with fileStoragePath := if path.isEmpty then none else some path }

def withStoreInterval (s : Settings) (d : Duration) : Settings := { s with storeInterval := d }

/-- The settings with or without the reading of the log. -/
def withRestore (s : Settings) (restore : Bool) : Settings := { s with restore := restore }

/-- Changes the settings by a value that may be missing. -/
def withOptional {α : Type} (change : Settings → α → Settings) (s : Settings) (v : Option α) :
    Settings :=
  match v with
  | some v => change s v
  | none => s

/-! ## Layers -/

/-- The settings with those of a file over them. -/
def withFile (s : Settings) (file : FileSettings) : Settings :=
  let s := withOptional withDatabaseDsn s file.databaseDsn
  let s := withOptional withFileStoragePath s file.fileStoragePath
  { s with
    storeInterval := (file.storeInterval.map Duration.ofSeconds).getD s.storeInterval
    restore := file.restore.getD s.restore
    poolMaxSize := file.poolMaxSize.getD s.poolMaxSize
    tablePrefix := file.tablePrefix.getD s.tablePrefix
    retry := file.retry.getD s.retry }

/-- The settings with those of the environment over them. -/
def withEnvironment (s : Settings) (env : Environment) : Except Failure Settings := do
  let s := withOptional withDatabaseDsn s (env "DATABASE_DSN")
  let s := withOptional withFileStoragePath s (env "FILE_STORAGE_PATH")
  let interval ←
    env.override "STORE_INTERVAL" (fun _ value => parseStoreInterval value) s.storeInterval
  let restore ← env.override "RESTORE" Environment.switch s.restore
  let retry ← s.retry.withEnvironment env
  .ok { s with storeInterval := interval, restore := restore, retry := retry }

/-- The failure of a file whose text gives no settings. -/
def unreadable (path : String) : Failure :=
  .invalidInput s!"{path}: not a document of known settings"

/-- The default settings with those of a file over them. -/
def load (files : Files) (path : String) : Except Failure Settings :=
  let fail (fault : FileFault) : Except Failure Settings :=
    .error (.failed "read_config_file" s!"{path}: {fault.message}")
  match files.read path with
  | .error fault => fail fault
  | .ok bytes =>
      match Text.utf8Decode bytes with
      | .error _ => fail .notText
      | .ok text =>
          match FileSettings.parse? text with
          | some file => .ok (standard.withFile file)
          | none => .error (unreadable path)

/-! ## What the settings ask for -/

/-- The backend: a database if there is an address of one, else a log if there is a path of one. -/
def selection (s : Settings) : Selection :=
  match s.databaseDsn, s.fileStoragePath with
  | some dsn, _ => .relational dsn
  | none, some path => .persistent path s.storeInterval s.restore
  | none, none => .memory

def relationalOptions (s : Settings) : Relational.Options := ⟨s.tablePrefix, s.poolMaxSize, s.retry⟩

end Settings

end MetricLedger
