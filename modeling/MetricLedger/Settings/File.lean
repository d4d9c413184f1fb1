import MetricLedger.Retry
import MetricLedger.Toml.Reader

/-!
# Settings from a file

The settings that a document gives. At the top and in the section of the relational backend every
key has to be known; in the section of the repeated attempts other keys may stand. A section may
also be written as the list of its values.
-/

namespace MetricLedger

structure FileSettings where
  databaseDsn : Option String
  fileStoragePath : Option String
  storeInterval : Option Nat
  restore : Option Bool
  poolMaxSize : Option Nat
  tablePrefix : Option String
  retry : Option RetryPolicy
  deriving DecidableEq, Repr

namespace FileSettings

open Toml (Item Entries)

/-! ## Values -/

def textOf? : Item → Option String
  | .string s => some s
  | _ => none

def truthOf? : Item → Option Bool
  | .boolean b => some b
  | _ => none

/-- The whole number of an item, from zero up to `limit`. -/
def naturalOf? (limit : Nat) : Item → Option Nat
  | .integer n => if 0 ≤ n ∧ n ≤ limit then some n.toNat else none
  | _ => none

/-- A value that may be missing but has to read if it is there. -/
def optional? {α : Type} (read : Item → Option α) : Option Item → Option (Option α)
  | none => some none
  | some item => some <$> read item

/-- All keys are among the known ones. -/
def onlyKnown (known : List String) (entries : Entries) : Bool :=
  entries.all fun (key, _) => known.contains key

/-! ## Sections -/

/-- The items of a section by name, whether it is a table or a list; `none` for anything else. A list
may hold more items than there are names. -/
def section? (names : List String) : Item → Option Entries
  | .table _ entries => some entries
  | .array items => some (names.zip items)
  | .tables all => some (names.zip (all.map (Item.table .declared)))
  | _ => none

/-- The keys of the section of the relational backend. -/
def relationalKeys : List String := ["pool_max_size", "table_prefix"]

/-- The items of the section of the relational backend; as a list it has to be complete. -/
def relationalSection? (item : Item) : Option Entries := do
  let entries ← section? relationalKeys item
  let complete :=
    match item with
    | .table .. => true
    | _ => entries.length == relationalKeys.length
  if complete && onlyKnown relationalKeys entries then some entries else none

/-- The keys of the section of the repeated attempts. -/
def retryKeys : List String := ["max_retries", "base_delay_ms", "max_delay_ms"]

/-- The policy of the section of the repeated attempts; what is missing has its usual value. A date
is a section without any of the keys. -/
def retryOf? (item : Item) : Option RetryPolicy := do
  let entries : Entries ←
    match item with
    | .moment => some []
    | item => section? retryKeys item
  let retries ← optional? (naturalOf? Text.maxUnsigned32) (entries.item? "max_retries")
  let base ← optional? (naturalOf? Text.maxUnsigned64) (entries.item? "base_delay_ms")
  let longest ← optional? (naturalOf? Text.maxUnsigned64) (entries.item? "max_delay_ms")
  let p := RetryPolicy.standard
  some ⟨(retries.map UInt32.ofNat).getD p.maxRetries, (base.map UInt64.ofNat).getD p.baseDelay,
    (longest.map UInt64.ofNat).getD p.maxDelay⟩

/-! ## Documents -/

def topKeys : List String :=
  ["database_dsn", "file_storage_path", "store_interval_secs", "restore", "postgres", "retry"]

/-- The settings of a document. -/
def ofEntries? (entries : Entries) : Option FileSettings :=
  if !onlyKnown topKeys entries then none
  else do
    let dsn ← optional? textOf? (entries.item? "database_dsn")
    let path ← optional? textOf? (entries.item? "file_storage_path")
    let interval ← optional? (naturalOf? Text.maxUnsigned64) (entries.item? "store_interval_secs")
    let restore ← optional? truthOf? (entries.item? "restore")
    let relational ← optional? relationalSection? (entries.item? "postgres")
    let relational : Entries := relational.getD []
    let size ← optional? (naturalOf? Text.maxUnsigned64) (relational.item? "pool_max_size")
    let tablePrefix ← optional? textOf? (relational.item? "table_prefix")
    let retry ← optional? retryOf? (entries.item? "retry")
    some ⟨dsn, path, interval, restore, size, tablePrefix, retry⟩

/-- The settings of a text, if it is a document with known keys and suitable values. -/
def parse? (cs : List Char) : Option FileSettings := do
  let entries ← Toml.parse cs
  ofEntries? entries

end FileSettings

end MetricLedger
