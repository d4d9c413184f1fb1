import MetricLedger.CommandLine.Help
import MetricLedger.Diagnostics.Logging
import MetricLedger.Json.Writer
import MetricLedger.Metric.Json
import MetricLedger.Settings.EnvironmentFile
import MetricLedger.Storage

/-!
# The program

A run of the program: the environment is completed from a file, the arguments are read, the
diagnostic log is opened, the settings are put together, and the command is carried out on the storage
that they ask for. Whatever fails is reported with all that it follows from.
-/

namespace MetricLedger.CommandLine

/-- What a run of the program leaves behind. -/
structure Outcome where
  exitCode : Nat
  /-- The text printed. -/
  output : String
  /-- The text of the complaint. -/
  complaint : String
  files : Files

namespace Outcome

/-- The end of a run that did what it was told. -/
def success (output : String) (files : Files) : Outcome := ⟨0, output, "", files⟩

/-- The end of a run that failed after it had printed something. -/
def failure (output complaint : String) (files : Files) : Outcome :=
  ⟨1, output, complaint ++ "\n", files⟩

/-- The end of a run whose arguments make no sense. -/
def misuse (files : Files) : Outcome :=
  ⟨2, "", s!"error: see '{programName} --help'\n", files⟩

end Outcome

/-! ## Settings -/

/-- The path of the file that completes the environment. -/
def environmentPath : String := ".env"

/-- The environment, completed from its file if there is one. -/
def completeEnvironment (env : Environment) (files : Files) : Environment :=
  match files.read environmentPath with
  | .error _ => env
  | .ok bytes =>
      match Text.utf8Decode bytes with
      | .error _ => env
      | .ok text => env.orElse (Environment.ofText text)

/-- The settings with those of the options over them. -/
def withFlags (s : Settings) (f : Flags) : Settings :=
  let s := Settings.withOptional Settings.withDatabaseDsn s f.databaseDsn
  let s := Settings.withOptional Settings.withFileStoragePath s f.fileStoragePath
  let s := Settings.withOptional Settings.withStoreInterval s f.storeInterval
  Settings.withOptional Settings.withRestore s f.restore

/-- The settings that hold before the environment, or the complaint about their file. -/
def baseSettings (files : Files) (config : Option String) : Except String Settings :=
  match config with
  | none => .ok Settings.standard
  | some path => (Settings.load files path).mapError fun f => s!"loading {path}: {f.chain}"

/-- The settings from the file, the environment and the options. -/
def settings (files : Files) (env : Environment) (f : Flags) : Except String Settings := do
  let base ← baseSettings files f.config
  let s ← (base.withEnvironment env).mapError Failure.chain
  .ok (withFlags s f)

/-! ## The diagnostic log -/

/-- Opens the file of the diagnostic log; its content is not of interest here. -/
def openDiagnostics (files : Files) (path : String) : Except Failure Unit × Files :=
  match files.createDirectories ((Path.parent? path).getD "") with
  | (.error fault, files) => (.error (.failed "create_log_dir" fault.message), files)
  | (.ok _, files) =>
      match files.openAppend path with
      | .ok (_, files) => (.ok (), files)
      | .error fault => (.error (.failed "open_log_file" s!"{path}: {fault.message}"), files)

def startDiagnostics (files : Files) (l : Diagnostics.Logging) : Except Failure Unit × Files :=
  match l.file with
  | none => (.ok (), files)
  | some path => openDiagnostics files path

/-! ## Commands -/

variable {τ : Type} (server : Relational.Server τ)

/-- A failure with what was being done. -/
def inContext (context : String) (f : Failure) : String := s!"{context}: {f.chain}"

/-- The document of all metrics. -/
def document (backend : String) (counters : List Counter) (gauges : List Gauge) : Json.Value :=
  .object [
    ("backend", .string backend),
    ("counters", .array ((Storage.sortCounters counters).map Counter.json)),
    ("gauges", .array ((Storage.sortGauges gauges).map Gauge.json))]

/-- Reads all metrics. -/
def readAll (s : Storage) (t : τ) : Except Failure (List Counter × List Gauge) × Storage × τ :=
  match s.allCounters server t with
  | (.error f, s, t) => (.error f, s, t)
  | (.ok counters, s, t) =>
      match s.allGauges server t with
      | (.error f, s, t) => (.error f, s, t)
      | (.ok gauges, s, t) => (.ok (counters, gauges), s, t)

/-- What a command prints on an open storage, or the complaint. -/
def print (c : Command) (s : Storage) (t : τ) : Except String String × Storage :=
  match c with
  | .serve => (.ok "", s)
  | .inspect =>
      let (result, s, _) := readAll server s t
      match result with
      | .error f => (.error f.chain, s)
      | .ok (counters, gauges) =>
          let text := (document s.name counters gauges).indented 0
          (.ok (String.ofList text ++ "\n"), s)
  | .ping =>
      let (result, s, _) := s.ping server t
      match result with
      | .error f => (.error (inContext "ping failed" f), s)
      | .ok _ => (.ok (s.name ++ ": ok\n"), s)

/-- The complaint about a storage that does not close. -/
def closeComplaint (c : Command) (f : Failure) : String :=
  match c with
  | .serve => inContext "closing storage" f
  | _ => f.chain

/-- Carries a command out. -/
def perform (c : Command) (s : Settings) (files : Files) (t : τ) : Outcome :=
  let (attempts, files, t) := Storage.openAt server s ⟨0⟩ files t
  match attempts.result with
  | .error f => .failure "" ("Error: " ++ inContext "storage failed to start" f) files
  | .ok storage =>
      match print server c storage t with
      | (.error complaint, _) => .failure "" s!"Error: {complaint}" files
      | (.ok output, storage) =>
          match storage.close files with
          | (.error f, _, files) => .failure output ("Error: " ++ closeComplaint c f) files
          | (.ok _, _, files) => .success output files

/-- Carries a command out once the arguments are read. -/
def runCommand (f : Flags) (c : Command) (env : Environment) (files : Files) (t : τ) : Outcome :=
  match startDiagnostics files (Diagnostics.Logging.ofEnvironment f.verbose env) with
  | (.error failure, files) =>
      .failure "" s!"Failed to initialize logging: {failure.message}" files
  | (.ok _, files) =>
      match settings files env f with
      | .error complaint => .failure "" s!"Failed to load configuration: {complaint}" files
      | .ok s => perform server c s files t

/-- The paths that a run comes by, as far as the files that are known tell. -/
def pathsOf (args : List String) (env : Environment) (files : Files) : List String :=
  match Request.parse args with
  | .run f _ =>
      let env := completeEnvironment env files
      let log := (Diagnostics.Logging.ofEnvironment f.verbose env).file
      let storage :=
        match settings files env f with
        | .ok s => s.fileStoragePath
        | .error _ => none
      environmentPath :: (f.config.toList ++ log.toList ++ storage.toList)
  | _ => []

/-- Runs the program. -/
def run (args : List String) (env : Environment) (files : Files) (t : τ) : Outcome :=
  match Request.parse args with
  | .misuse => .misuse files
  | .version => .success versionLine files
  | .help command => .success (help command) files
  | .run f c => runCommand server f c (completeEnvironment env files) files t

end MetricLedger.CommandLine
