import MetricLedger.CommandLine.Program
import MetricLedger.Relational.Script

/-!
# The entry point

Brings the files that a run comes by into a tree of files, runs the program on it, and brings what the
run changed back to the disk.
-/

namespace MetricLedger.Main

/-- The names that the program looks up in the environment. -/
def variableNames : List String :=
  ["DATABASE_DSN", "FILE_STORAGE_PATH", "STORE_INTERVAL", "RESTORE", "METRICSTORE_DB_MAX_RETRIES",
    "METRICSTORE_DB_RETRY_BASE_MS", "RUST_LOG", "METRICSTORE_LOG_FORMAT", "METRICSTORE_LOG_FILE"]

/-- The environment of the process. -/
def readEnvironment : IO Environment := do
  let entries ← variableNames.filterMapM fun name => do
    return (← IO.getEnv name).map fun value => (name, value)
  return Environment.ofList entries

/-- The directories that a path lies in, the outermost first, and the path itself. -/
def withAncestors : Nat → String → List String
  | 0, path => [path]
  | fuel + 1, path =>
      match Path.parent? path with
      | some parent => if parent.isEmpty then [path] else withAncestors fuel parent ++ [path]
      | none => [path]

/-- Brings what is at a path into the tree. -/
def load (files : Files) (path : String) : IO Files := do
  try
    let bytes ← IO.FS.readBinFile path
    return (files.write path bytes.toList).toOption.getD files
  catch
    | .noFileOrDirectory .. => return files
    | _ => return (files.createDirectories path).2

/-- Brings what is at some paths, and at the directories around them, into the tree. -/
def loadAll (files : Files) (paths : List String) : IO Files :=
  (paths.flatMap fun path => withAncestors path.length path).foldlM load files

/-- Brings what the run changed at a path back to the disk. -/
def store (before after : Files) (path : String) : IO Unit := do
  match after.read path with
  | .error _ => return
  | .ok bytes =>
      if (before.read path).toOption = some bytes then return
      let parent := (Path.parent? path).getD ""
      unless parent.isEmpty do IO.FS.createDirAll parent
      IO.FS.writeBinFile path (ByteArray.mk bytes.toArray)

partial def waitForEnd (input : IO.FS.Stream) : IO Unit := do
  unless (← input.getLine).isEmpty do waitForEnd input

/-- The run holds the storage until it is told to end. -/
def isHeld (args : List String) (outcome : CommandLine.Outcome) : Bool :=
  match CommandLine.Request.parse args with
  | .run _ .serve => outcome.exitCode == 0
  | _ => false

/-- Runs the program with the arguments of the process. -/
def run (args : List String) : IO UInt32 := do
  let env ← readEnvironment
  let mut files := Files.empty
  for _ in [0, 1, 2] do
    files ← loadAll files (CommandLine.pathsOf args env files)
  let outcome :=
    CommandLine.run Relational.Script.server args env files Relational.Script.nowhere
  if isHeld args outcome then waitForEnd (← IO.getStdin)
  for path in CommandLine.pathsOf args env files do
    store files outcome.files path
  IO.print outcome.output
  IO.eprint outcome.complaint
  return UInt32.ofNat outcome.exitCode

end MetricLedger.Main

/-- The program. -/
def main (args : List String) : IO UInt32 := MetricLedger.Main.run args
