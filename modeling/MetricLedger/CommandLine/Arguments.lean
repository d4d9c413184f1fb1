import MetricLedger.Log.Mode
import MetricLedger.Text.Pieces

/-!
# Arguments

The options may stand in front of the command and behind it, an option behind it wins. A value is
the rest of its argument or the next one, and does not look like an option. An option is given at
most once on either side.
-/

namespace MetricLedger.CommandLine

/-- What the program is told to do. -/
inductive Command where
  /-- Hold the storage open until an interruption. -/
  | serve
  /-- Print all metrics. -/
  | inspect
  /-- Look whether the storage is of use. -/
  | ping
  deriving DecidableEq, Repr

namespace Command

def name : Command → String
  | .serve => "serve"
  | .inspect => "inspect"
  | .ping => "ping"

def all : List Command := [.serve, .inspect, .ping]

def ofName? (s : String) : Option Command := all.find? fun c => c.name == s

end Command

/-- What the options say. -/
structure Flags where
  verbose : Bool
  config : Option String
  databaseDsn : Option String
  fileStoragePath : Option String
  storeInterval : Option Duration
  restore : Option Bool
  deriving DecidableEq, Repr

namespace Flags

/-- No option. -/
def empty : Flags := ⟨false, none, none, none, none, none⟩

/-- The options of both sides of the command; those behind it win. -/
def within (inner outer : Flags) : Flags where
  verbose := inner.verbose || outer.verbose
  config := inner.config.or outer.config
  databaseDsn := inner.databaseDsn.or outer.databaseDsn
  fileStoragePath := inner.fileStoragePath.or outer.fileStoragePath
  storeInterval := inner.storeInterval.or outer.storeInterval
  restore := inner.restore.or outer.restore

end Flags

/-- Why the reading of arguments ends early. -/
inductive Stop where
  /-- The arguments make no sense. -/
  | misuse
  /-- The version is asked for. -/
  | version
  /-- Help is asked for. -/
  | help
  deriving DecidableEq, Repr

/-! ## Options with values -/

/-- An option with a value. -/
inductive Valued where
  | config
  | databaseDsn
  | fileStoragePath
  | storeInterval
  | restore
  deriving DecidableEq, Repr

namespace Valued

/-- All options with values. -/
def all : List Valued := [.config, .databaseDsn, .fileStoragePath, .storeInterval, .restore]

/-- The letter of an option. -/
def letter : Valued → Char
  | .config => 'c'
  | .databaseDsn => 'd'
  | .fileStoragePath => 'f'
  | .storeInterval => 'i'
  | .restore => 'r'

/-- The word of an option. -/
def word : Valued → String
  | .config => "config"
  | .databaseDsn => "database-dsn"
  | .fileStoragePath => "file-storage-path"
  | .storeInterval => "store-interval"
  | .restore => "restore"

/-- Reads a path, which has a character. -/
def path? (value : String) : Option String := if value.isEmpty then none else some value

def truth? (value : String) : Option Bool :=
  if value = "true" then some true else if value = "false" then some false else none

def once {α : Type} (set : α → Flags) (before : Option α) (value : Option α) : Option Flags :=
  match before, value with
  | none, some a => some (set a)
  | _, _ => none

/-- The options with one more. -/
def set (o : Valued) (value : String) (f : Flags) : Option Flags :=
  match o with
  | .config => once (fun a => { f with config := some a }) f.config (path? value)
  | .databaseDsn => once (fun a => { f with databaseDsn := some a }) f.databaseDsn (some value)
  | .fileStoragePath =>
      once (fun a => { f with fileStoragePath := some a }) f.fileStoragePath (path? value)
  | .storeInterval =>
      once (fun a => { f with storeInterval := some a }) f.storeInterval
        (parseStoreInterval value).toOption
  | .restore => once (fun a => { f with restore := some a }) f.restore (truth? value)

end Valued

/-! ## Single arguments -/

/-- The options with the one for more events. -/
def setVerbose (f : Flags) : Except Stop Flags :=
  if f.verbose then .error .misuse else .ok { f with verbose := true }

/-- The options with one more, unless its value does not read or it is there already. -/
def setValued (o : Valued) (value : List Char) (f : Flags) : Except Stop Flags :=
  match o.set (String.ofList value) f with
  | some f => .ok f
  | none => .error .misuse

/-- Reads an argument of letters; the last of them may lack its value. The version can be asked for
in front of the command only. -/
def readLetters (hasVersion : Bool) : Flags → List Char → Except Stop (Flags × Option Valued)
  | f, [] => .ok (f, none)
  | f, c :: cs =>
      if c == 'v' then do readLetters hasVersion (← setVerbose f) cs
      else if c == 'h' then .error .help
      else if c == 'V' && hasVersion then .error .version
      else
        match Valued.all.find? fun o => o.letter == c, cs with
        | none, _ => .error .misuse
        | some o, [] => .ok (f, some o)
        | some o, '=' :: value => do return (← setValued o value f, none)
        | some o, value => do return (← setValued o value f, none)

/-- Reads an argument of a word, with or without a value behind an equals sign. -/
def readWord (hasVersion : Bool) (f : Flags) (cs : List Char) :
    Except Stop (Flags × Option Valued) :=
  let (word, value) := (Text.cutAround? '=' cs).elim (cs, none) fun (word, value) =>
    (word, some value)
  match Valued.all.find? (fun o => o.word.toList == word), value with
  | some o, some value => do return (← setValued o value f, none)
  | some o, none => .ok (f, some o)
  | none, some _ => .error .misuse
  | none, none =>
      if word = "verbose".toList then do return (← setVerbose f, none)
      else if word = "help".toList then .error .help
      else if word = "version".toList ∧ hasVersion then .error .version
      else .error .misuse

/-- The argument looks like an option. -/
def isOption (arg : String) : Bool :=
  match arg.toList with
  | '-' :: _ :: _ => true
  | _ => false

/-- Reads an argument that looks like an option. -/
def readOption (hasVersion : Bool) (f : Flags) (arg : String) :
    Except Stop (Flags × Option Valued) :=
  match arg.toList with
  | '-' :: '-' :: word => readWord hasVersion f word
  | '-' :: letters => readLetters hasVersion f letters
  | _ => .error .misuse

/-! ## Sequences of arguments -/

/-- Reads the options up to the first argument that is none, which is given back with the rest. -/
def readOptions (hasVersion : Bool) : Flags → List String → Except Stop (Flags × List String)
  | f, [] => .ok (f, [])
  | f, arg :: rest =>
      if !isOption arg then .ok (f, arg :: rest)
      else if arg = "--" then if rest.isEmpty then .ok (f, []) else .error .misuse
      else
        match readOption hasVersion f arg, rest with
        | .error stop, _ => .error stop
        | .ok (f, none), rest => readOptions hasVersion f rest
        | .ok (_, some _), [] => .error .misuse
        | .ok (f, some o), value :: rest =>
            if isOption value then .error .misuse
            else
              match setValued o value.toList f with
              | .ok f => readOptions hasVersion f rest
              | .error stop => .error stop

/-- What the arguments ask for. -/
inductive Request where
  | run (flags : Flags) (command : Command)
  | version
  | help (command : Option Command)
  | misuse
  deriving DecidableEq, Repr

/-- The request of an early end. -/
def Request.ofStop (command : Option Command) : Stop → Request
  | .misuse => .misuse
  | .version => .version
  | .help => .help command

def helpOn : List String → Request
  | [] => .help none
  | [name] => (Command.ofName? name).elim .misuse fun c => .help (some c)
  | _ => .misuse

/-- Reads all arguments. -/
def Request.parse (args : List String) : Request :=
  match readOptions true Flags.empty args with
  | .error stop => .ofStop none stop
  | .ok (_, []) => .misuse
  | .ok (outer, name :: rest) =>
      match Command.ofName? name with
      | none => if name = "help" then helpOn rest else .misuse
      | some command =>
          match readOptions false Flags.empty rest with
          | .error stop => .ofStop (some command) stop
          | .ok (inner, []) => .run (inner.within outer) command
          | .ok (_, _ :: _) => .misuse

end MetricLedger.CommandLine
