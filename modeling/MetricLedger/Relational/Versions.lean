import MetricLedger.Relational.Database

/-!
# Migrating the schema

The database keeps a table of the versions of its schema. Every migration is a transaction that
changes the schema and records the version it leads to. A start connects, migrates and looks which
version that led to.
-/

namespace MetricLedger.Relational.Database

variable {σ : Type} (db : Database σ)

/-- The failure of a statement about schema versions. -/
def versionFailure (operation : String) (fault : ClientFault) : Failure :=
  .failed operation fault.message

/-- The failure to get a connection for schema versions. -/
def versionPoolFailure (fault : PoolFault) : Failure :=
  .connection "migration_get_connection" fault.message

/-- The greatest version that is recorded, on the connection at hand. -/
def recordedVersion : Exchange σ Int :=
  db.ask (versionFailure "migration_current_version") .currentVersion fun rows => do
    let row ← Row.single rows
    row.readFirst Column.int32?

/-- The version of the schema; it is zero as long as no version was ever recorded. -/
def schemaVersion : Exchange σ Int := do
  db.take versionPoolFailure
  let isThere ← db.ask (versionFailure "migration_table_exists") .hasVersionTable fun rows => do
    let row ← Row.single rows
    row.readFirst Column.flag?
  if isThere then db.recordedVersion else return 0

def applyMigration (tablePrefix : String) (m : Migration) : Exchange σ Unit := do
  db.start (versionFailure s!"migration_v{m.version}_begin_tx")
  db.orAbandon do
    (m.statements tablePrefix).forM fun text =>
      db.tell (versionFailure s!"migration_v{m.version}: {m.description}") (.schema text)
    db.tell (versionFailure "record_migration") (.recordVersion m.version m.description)
  db.tell (versionFailure s!"migration_v{m.version}_commit") .commit

/-- Applies the migrations above a version in the order of the list, and counts them. -/
def applyAbove (tablePrefix : String) (version : Int) : List Migration → Exchange σ Nat
  | [] => return 0
  | m :: ms =>
      if version < m.version then do
        db.applyMigration tablePrefix m
        let applied ← applyAbove tablePrefix version ms
        return applied + 1
      else applyAbove tablePrefix version ms

/-- Applies the migrations above the recorded version, and counts them. -/
def migrate (tablePrefix : String) (ms : List Migration) : Exchange σ Nat := do
  db.take versionPoolFailure
  db.tell (versionFailure "create_migrations_table") .createVersionTable
  let version ← db.recordedVersion
  db.applyAbove tablePrefix version ms

/-- Migrates the schema and looks up its version. -/
def prepare (tablePrefix : String) : Exchange σ Int := do
  let _ ← db.migrate tablePrefix Migration.embedded
  db.schemaVersion

/-- Waits for the first sign of life, as often as the policy has it, and prepares the schema. -/
def connect (o : Options) (s : σ) : Attempts Int × σ :=
  let (reached, s) := o.retry.run (db.probe "postgres_connect_probe") s
  match reached.result with
  | .error f => (⟨.error f, reached.pauses⟩, s)
  | .ok _ =>
      let (result, s) := db.prepare o.tablePrefix s
      (⟨result, reached.pauses⟩, s)

end MetricLedger.Relational.Database
