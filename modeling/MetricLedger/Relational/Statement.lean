import MetricLedger.Record
import MetricLedger.Relational.Migration
import MetricLedger.Relational.Row

/-!
# Statements

What is asked of the database, and the text that it is asked with. A write is one statement that
leaves the arithmetic to the database: the delta of a counter is added to the value that is there,
and the number of a gauge takes the place of it.
-/

namespace MetricLedger.Relational

/-- What is asked of the database. -/
inductive Statement where
  /-- A sign of life. -/
  | probe
  | startTransaction
  | commit
  | rollback
  /-- The table of the schema versions is made, if it is not there. -/
  | createVersionTable
  | hasVersionTable
  | currentVersion
  | recordVersion (version : Int) (description : String)
  /-- A statement of a migration. -/
  | schema (text : String)
  /-- A write to the table of counters or gauges. -/
  | upsert (r : Record)
  | select (kind : MetricKind) (name : String)
  /-- All rows of a table, the newest first. -/
  | selectAll (kind : MetricKind)
  deriving DecidableEq, Repr

/-- A value that a statement is sent with. -/
inductive Parameter where
  | text (value : String)
  | integer (value : Int)
  | number (value : Binary64)
  deriving DecidableEq, Repr

/-- A statement as the database gets to see it. -/
structure Command where
  text : String
  parameters : List Parameter
  /-- The statement is prepared before it is executed. -/
  isPrepared : Bool
  deriving DecidableEq, Repr

namespace Statement

def versionTable (tablePrefix : String) : String := tablePrefix ++ "_schema_migrations"

def table (tablePrefix : String) : MetricKind → String
  | .counter => tablePrefix ++ "_counters"
  | .gauge => tablePrefix ++ "_gauges"

def text (tablePrefix : String) : Statement → String
  | .probe => "SELECT 1"
  | .startTransaction => "START TRANSACTION"
  | .commit => "COMMIT"
  | .rollback => "ROLLBACK"
  | .createVersionTable => "
                CREATE TABLE IF NOT EXISTS " ++ versionTable tablePrefix ++ " (
                    version INTEGER PRIMARY KEY,
                    description TEXT NOT NULL,
                    applied_at TIMESTAMPTZ NOT NULL DEFAULT NOW()
                )
                "
  | .hasVersionTable =>
      "SELECT EXISTS (SELECT FROM information_schema.tables WHERE table_name = $1)"
  | .currentVersion => "SELECT COALESCE(MAX(version), 0) FROM " ++ versionTable tablePrefix
  | .recordVersion .. =>
      "INSERT INTO " ++ versionTable tablePrefix ++ " (version, description) VALUES ($1, $2)"
  | .schema text => text
  | .upsert (.counter ..) =>
      "INSERT INTO " ++ table tablePrefix .counter ++ " AS t (name, value) VALUES ($1, $2) " ++
        "ON CONFLICT (name) DO UPDATE SET value = t.value + EXCLUDED.value"
  | .upsert (.gauge ..) =>
      "INSERT INTO " ++ table tablePrefix .gauge ++ " (name, value) VALUES ($1, $2) " ++
        "ON CONFLICT (name) DO UPDATE SET value = EXCLUDED.value"
  | .select kind _ => "SELECT name, value FROM " ++ table tablePrefix kind ++ " WHERE name = $1"
  | .selectAll kind => "SELECT name, value FROM " ++ table tablePrefix kind ++ " ORDER BY id DESC"

/-- The values that a statement is sent with. -/
def parameters (tablePrefix : String) : Statement → List Parameter
  | .hasVersionTable => [.text (versionTable tablePrefix)]
  | .recordVersion version description => [.integer version, .text description]
  | .upsert (.counter name delta) => [.text name, .integer delta.toInt]
  | .upsert (.gauge name value) => [.text name, .number value]
  | .select _ name => [.text name]
  | _ => []

/-- The statement is prepared before it is executed. -/
def isPrepared : Statement → Bool
  | .probe | .startTransaction | .commit | .rollback => false
  | _ => true

/-- The statement as the database gets to see it. -/
def command (tablePrefix : String) (s : Statement) : Command :=
  ⟨s.text tablePrefix, s.parameters tablePrefix, s.isPrepared⟩

end Statement

end MetricLedger.Relational
