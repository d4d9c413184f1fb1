import MetricLedger.CommandLine.Arguments

/-!
# Help

The text that tells how the program is used.
-/

namespace MetricLedger.CommandLine

def programName : String := "metricstore"

def programVersion : String := "0.3.2"

def programSummary : String :=
  "Storage engine for a metrics collector: in-memory, file-backed and PostgreSQL backends"

namespace Command

/-- What a command does. -/
def summary : Command → String
  | .serve => "Open the backend and hold it until Ctrl-C, then shut down gracefully"
  | .inspect => "Print every counter and gauge as JSON"
  | .ping => "Check that the backend is reachable"

end Command

namespace Valued

/-- What stands for the value of an option. -/
def placeholder (o : Valued) : String :=
  String.ofList (o.word.toList.map fun c => if c == '-' then '_' else c.toUpper)

/-- What an option does. -/
def summary : Valued → String
  | .config => "Path to a TOML configuration file"
  | .databaseDsn => "Relational database DSN (selects the PostgreSQL backend)"
  | .fileStoragePath => "Dump log path (empty disables file persistence)"
  | .storeInterval => "Dump flush interval in seconds (0 flushes every write)"
  | .restore => "Replay the dump log at startup [possible values: true, false]"

end Valued

/-- An option with what it does. -/
def optionHelp (option summary : String) : List String := ["  " ++ option, "          " ++ summary]

/-- The options of a command, or of the program. -/
def optionsHelp (hasVersion : Bool) : List String :=
  let valued (o : Valued) : List String :=
    optionHelp s!"-{o.letter}, --{o.word} <{o.placeholder}>" o.summary
  ["Options:"] ++ optionHelp "-v, --verbose" "Enable verbose output" ++
    Valued.all.flatMap valued ++ optionHelp "-h, --help" "Print help" ++
    if hasVersion then optionHelp "-V, --version" "Print version" else []

/-- A command with what it does. -/
def commandHelp (name summary : String) : String :=
  "  " ++ name ++ String.ofList (List.replicate (9 - name.length) ' ') ++ summary

def programHelp : List String :=
  [programSummary, "", s!"Usage: {programName} [OPTIONS] <COMMAND>", "", "Commands:"] ++
    (Command.all.map fun c => commandHelp c.name c.summary) ++
    [commandHelp "help" "Print this message or the help of the given subcommand(s)", ""] ++
    optionsHelp true

def help (command : Option Command) : String :=
  let lines :=
    match command with
    | none => programHelp
    | some c =>
        [c.summary, "", s!"Usage: {programName} {c.name} [OPTIONS]", ""] ++ optionsHelp false
  "\n".intercalate lines ++ "\n"

/-- The answer to the question for the version. -/
def versionLine : String := s!"{programName} {programVersion}\n"

end MetricLedger.CommandLine
