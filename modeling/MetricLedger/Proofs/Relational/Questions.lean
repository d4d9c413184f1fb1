import MetricLedger.Proofs.Relational.Schema
import MetricLedger.Proofs.Relational.Talk

/-!
# What a database is asked

A database with a record of what it is asked does the same as without it. Work on the schema asks for
connections and sends statements up to the first question that breaks it off; if none does, it has
asked all that the version it found calls for. Main statement: `prepare_asks`.
-/

namespace MetricLedger.Relational

/-! ## Records of what is asked -/

/-- What a database is asked, with the reply. -/
inductive Question where
  | connection (reply : Except PoolFault Unit)
  | statement (asked : Statement) (reply : Reply)

/-- The database that keeps a record of what it is asked. -/
def Database.recorded {σ : Type} (db : Database σ) : Database (σ × List Question) where
  acquire := fun (s, asked) =>
    let (reply, s) := db.acquire s
    (reply, s, asked ++ [.connection reply])
  send statement := fun (s, asked) =>
    let (reply, s) := db.send statement s
    (reply, s, asked ++ [.statement statement reply])
  abandon := fun (s, asked) => (db.abandon s, asked)
  close := fun (s, asked) => (db.close s, asked)

/-- The version in the answer to the question for it. -/
def versionOf (rows : List Row) : Except ClientFault Int := do
  let row ← Row.single rows
  row.readFirst Column.int32?

/-- What the answer says to the question for the version table. -/
def tableFlagOf (rows : List Row) : Except ClientFault Bool := do
  let row ← Row.single rows
  row.readFirst Column.flag?

namespace Question

/-- A sign of life is asked for. -/
inductive IsProbe : Question → Prop
  | mk (reply : Reply) : IsProbe (.statement .probe reply)

/-- The reply is no fault. -/
inductive IsAnswered : Question → Prop
  | connection : IsAnswered (.connection (.ok ()))
  | statement (asked : Statement) (rows : List Row) : IsAnswered (.statement asked (.ok rows))

/-- The question breaks off work on the schema, with a failure that tells its fault. -/
inductive Fails : Question → Failure → Prop
  | connection (fault : PoolFault) :
      Fails (.connection (.error fault)) (Database.versionPoolFailure fault)
  | statement (asked : Statement) (operation : String) (fault : ClientFault) :
      Fails (.statement asked (.error fault)) (Database.versionFailure operation fault)
  | version {rows : List Row} {fault : ClientFault} (h : versionOf rows = .error fault) :
      Fails (.statement .currentVersion (.ok rows))
        (Database.versionFailure "migration_current_version" fault)
  | table {rows : List Row} {fault : ClientFault} (h : tableFlagOf rows = .error fault) :
      Fails (.statement .hasVersionTable (.ok rows))
        (Database.versionFailure "migration_table_exists" fault)

end Question

/-- The statements were sent one after the other, and all were answered. -/
def Answered (statements : List Statement) (asked : List Question) : Prop :=
  List.Forall₂ (fun s q => ∃ rows, q = .statement s (.ok rows)) statements asked

theorem Answered.append {first second : List Statement} {asked later : List Question}
    (hfirst : Answered first asked) (hsecond : Answered second later) :
    Answered (first ++ second) (asked ++ later) :=
  List.rel_append hfirst hsecond

theorem answered_singleton_iff {statement : Statement} {asked : List Question} :
    Answered [statement] asked ↔ ∃ rows, asked = [.statement statement (.ok rows)] := by
  constructor
  · intro h
    obtain ⟨_, _, ⟨rows, rfl⟩, hrest, rfl⟩ := List.forall₂_cons_left_iff.1 h
    obtain rfl := List.forall₂_nil_left_iff.1 hrest
    exact ⟨rows, rfl⟩
  · rintro ⟨rows, rfl⟩
    exact .cons ⟨rows, rfl⟩ .nil

/-- How work on the schema goes: it asks a `whole` course of questions for its result, and all are
answered, or the first question that breaks it off is the last one. -/
inductive Course {α : Type} (whole : α → List Question → Prop) :
    List Question → Except Failure α → Prop
  | ok {a : α} {asked : List Question} (h : whole a asked) (hall : ∀ q ∈ asked, q.IsAnswered) :
      Course whole asked (.ok a)
  | error {asked : List Question} {last : Question} {f : Failure} (hall : ∀ q ∈ asked, q.IsAnswered)
      (hlast : last.Fails f) : Course whole (asked ++ [last]) (.error f)

theorem course_of_fails {α : Type} {whole : α → List Question → Prop} {q : Question} {f : Failure}
    (h : q.Fails f) : Course whole [q] (.error f) := by
  rw [← List.nil_append [q]]
  exact .error (by simp) h

/-! ## Exchanges with a record -/

namespace Exchange

variable {σ α β : Type} {x : Exchange (σ × List Question) α} {y : Exchange σ α}
  {whole whole' : α → List Question → Prop}

/-- An exchange with a record does what the one without does, and goes its course without asking for a
sign of life. -/
def Asks (x : Exchange (σ × List Question) α) (y : Exchange σ α)
    (whole : α → List Question → Prop) : Prop :=
  ∀ s before, ∃ asked result next, x (s, before) = (result, next, before ++ asked) ∧
    y s = (result, next) ∧ Course whole asked result ∧ ∀ q ∈ asked, ¬q.IsProbe

namespace Asks

theorem pure (a : α) : Asks (pure a : Exchange (σ × List Question) α) (pure a)
    fun b asked => b = a ∧ asked = [] := by
  intro s before
  refine ⟨[], .ok a, s, ?_, rfl, .ok ⟨rfl, rfl⟩ (by simp), by simp⟩
  rw [List.append_nil]
  rfl

theorem mono (hx : Asks x y whole) (h : ∀ a asked, whole a asked → whole' a asked) :
    Asks x y whole' := by
  intro s before
  obtain ⟨asked, result, next, hrun, hplain, hcourse, hquiet⟩ := hx s before
  refine ⟨asked, result, next, hrun, hplain, ?_, hquiet⟩
  cases hcourse with
  | ok hwhole hall => exact .ok (h _ _ hwhole) hall
  | error hall hlast => exact .error hall hlast

theorem bind {k : α → Exchange (σ × List Question) β} {k' : α → Exchange σ β}
    {later : α → β → List Question → Prop} (hx : Asks x y whole)
    (hk : ∀ a, Asks (k a) (k' a) (later a)) :
    Asks (x >>= k) (y >>= k') fun b asked =>
      ∃ a first second, asked = first ++ second ∧ whole a first ∧ later a b second := by
  intro s before
  obtain ⟨first, result, mid, hrun, hplain, hcourse, hquiet⟩ := hx s before
  rw [bind_apply, bind_apply, hrun, hplain]
  cases hcourse with
  | error hall hlast => exact ⟨_, _, mid, rfl, rfl, .error hall hlast, hquiet⟩
  | @ok a _ hwhole hall =>
      obtain ⟨second, result, next, hrun', hplain', hcourse', hquiet'⟩ := hk a mid (before ++ first)
      refine ⟨first ++ second, result, next, ?_, hplain', ?_, ?_⟩
      · rw [← List.append_assoc]
        exact hrun'
      · cases hcourse' with
        | ok hlater hall' =>
            refine .ok ⟨a, first, second, rfl, hwhole, hlater⟩ ?_
            exact List.forall_mem_append.2 ⟨hall, hall'⟩
        | error hall' hlast =>
            rw [← List.append_assoc]
            exact .error (List.forall_mem_append.2 ⟨hall, hall'⟩) hlast
      · exact List.forall_mem_append.2 ⟨hquiet, hquiet'⟩

variable {db : Database σ}

theorem orAbandon (hx : Asks x y whole) : Asks (db.recorded.orAbandon x) (db.orAbandon y) whole := by
  intro s before
  obtain ⟨asked, result, next, hrun, hplain, hcourse, hquiet⟩ := hx s before
  simp only [Database.orAbandon, hrun, hplain]
  cases hcourse with
  | ok hwhole hall => exact ⟨asked, _, next, rfl, rfl, .ok hwhole hall, hquiet⟩
  | error hall hlast => exact ⟨_, _, db.abandon next, rfl, rfl, .error hall hlast, hquiet⟩

end Asks

end Exchange

/-! ## Single questions -/

section Questions

open Exchange

variable {σ α : Type} (db : Database σ)

theorem take_asks : Asks (db.recorded.take Database.versionPoolFailure)
    (db.take Database.versionPoolFailure) fun _ asked => asked = [.connection (.ok ())] := by
  intro s before
  rcases hacquire : db.acquire s with ⟨reply, next⟩
  refine ⟨[.connection reply], reply.mapError Database.versionPoolFailure, next, ?_, ?_, ?_, ?_⟩
  · simp only [Database.take, Database.recorded, hacquire]
  · simp only [Database.take, hacquire]
  · cases reply with
    | ok u => exact .ok rfl (by simpa using .connection)
    | error fault => exact course_of_fails (.connection fault)
  · intro q hq hprobe
    rw [List.mem_singleton.1 hq] at hprobe
    cases hprobe

/-- A statement that is no sign of life, with an answer that is read. -/
theorem ask_asks (operation : String) (statement : Statement) (hstatement : statement ≠ .probe)
    (read : List Row → Except ClientFault α)
    (hread : ∀ rows fault, read rows = .error fault →
      Question.Fails (.statement statement (.ok rows)) (Database.versionFailure operation fault)) :
    Asks (db.recorded.ask (Database.versionFailure operation) statement read)
      (db.ask (Database.versionFailure operation) statement read)
      fun a asked => ∃ rows, asked = [.statement statement (.ok rows)] ∧ read rows = .ok a := by
  intro s before
  rcases hsend : db.send statement s with ⟨reply, next⟩
  refine ⟨[.statement statement reply],
    (reply >>= read).mapError (Database.versionFailure operation), next, ?_, ?_, ?_, ?_⟩
  · simp only [Database.ask, Database.recorded, hsend]
  · simp only [Database.ask, hsend]
  · cases reply with
    | error fault => exact course_of_fails (.statement statement operation fault)
    | ok rows =>
        show Course _ _ ((read rows).mapError _)
        cases hrows : read rows with
        | ok a => exact .ok ⟨rows, rfl, hrows⟩ (by simpa using .statement statement rows)
        | error fault => exact course_of_fails (hread rows fault hrows)
  · intro q hq
    rw [List.mem_singleton.1 hq]
    intro hprobe
    cases hprobe
    exact hstatement rfl

theorem tell_asks (operation : String) (statement : Statement) (hstatement : statement ≠ .probe) :
    Asks (db.recorded.tell (Database.versionFailure operation) statement)
      (db.tell (Database.versionFailure operation) statement) fun _ => Answered [statement] := by
  refine (ask_asks db operation statement hstatement (fun _ => .ok ()) (by simp)).mono ?_
  rintro _ _ ⟨rows, rfl, -⟩
  exact answered_singleton_iff.2 ⟨rows, rfl⟩

theorem start_asks (operation : String) :
    Asks (db.recorded.start (Database.versionFailure operation))
      (db.start (Database.versionFailure operation)) fun _ => Answered [.startTransaction] :=
  (tell_asks db operation .startTransaction (by simp)).orAbandon

theorem recordedVersion_asks :
    Asks db.recorded.recordedVersion db.recordedVersion fun version asked =>
      ∃ rows, asked = [.statement .currentVersion (.ok rows)] ∧ versionOf rows = .ok version :=
  ask_asks db "migration_current_version" .currentVersion (by simp) versionOf fun _ _ h => .version h

end Questions

/-! ## Work on the schema -/

section Schema

open Exchange

variable {σ : Type} (db : Database σ) (tablePrefix : String)

/-- The transaction of a migration that executes some texts. -/
def Migration.transactionOf (m : Migration) (texts : List String) : List Statement :=
  .startTransaction :: texts.map .schema ++ [.recordVersion m.version m.description, .commit]

/-- The transaction of a migration. -/
def Migration.transaction (m : Migration) : List Statement :=
  m.transactionOf (m.statements tablePrefix)

/-- All that is asked in a run of migrations that succeeds: every migration above the version that was
read is a transaction, with the statements that its template has. -/
inductive Migrated (ms : List Migration) : ℕ → List Question → Prop
  | mk {made rows : List Row} {version : Int} {texts : List (List String)}
      {committing : List Question} (hversion : versionOf rows = .ok version)
      (htexts : List.Forall₂ (fun m => m.HasStatements tablePrefix) (above version ms) texts)
      (hcommitting : Answered (List.zipWith Migration.transactionOf (above version ms) texts).flatten
        committing) :
      Migrated ms (above version ms).length
        (.connection (.ok ()) :: .statement .createVersionTable (.ok made) ::
          .statement .currentVersion (.ok rows) :: committing)

/-- All that is asked to look up the version of the schema. -/
inductive LookedUp : Int → List Question → Prop
  | noTable {rows : List Row} (h : tableFlagOf rows = .ok false) :
      LookedUp 0 [.connection (.ok ()), .statement .hasVersionTable (.ok rows)]
  | version {rows answer : List Row} {version : Int} (h : tableFlagOf rows = .ok true)
      (hversion : versionOf answer = .ok version) :
      LookedUp version [.connection (.ok ()), .statement .hasVersionTable (.ok rows),
        .statement .currentVersion (.ok answer)]

theorem texts_asks (operation : String) (texts : List String) :
    Asks (texts.forM fun text =>
        db.recorded.tell (Database.versionFailure operation) (.schema text))
      (texts.forM fun text => db.tell (Database.versionFailure operation) (.schema text))
      fun _ => Answered (texts.map .schema) := by
  induction texts with
  | nil =>
      refine (Asks.pure ()).mono ?_
      rintro _ _ ⟨-, rfl⟩
      exact .nil
  | cons text texts ih =>
      refine ((tell_asks db operation (.schema text) (by simp)).bind fun _ => ih).mono ?_
      rintro _ _ ⟨-, first, second, rfl, hfirst, hsecond⟩
      exact hfirst.append hsecond

theorem applyMigration_asks (m : Migration) :
    Asks (db.recorded.applyMigration tablePrefix m) (db.applyMigration tablePrefix m)
      fun _ => Answered (m.transaction tablePrefix) := by
  have hbody := ((texts_asks db s!"migration_v{m.version}: {m.description}"
    (m.statements tablePrefix)).bind fun _ =>
      tell_asks db "record_migration" (.recordVersion m.version m.description) (by simp))
  refine ((start_asks db s!"migration_v{m.version}_begin_tx").bind fun _ =>
    (hbody.orAbandon).bind fun _ =>
      tell_asks db s!"migration_v{m.version}_commit" .commit (by simp)).mono ?_
  rintro _ _ ⟨-, start, _, rfl, hstart, -, _, commit, rfl, hbody, hcommit⟩
  obtain ⟨-, texts, row, rfl, htexts, hrow⟩ := hbody
  have hall := hstart.append ((htexts.append hrow).append hcommit)
  rwa [List.append_assoc] at hall

theorem applyAbove_asks (version : Int) (ms : List Migration) :
    Asks (db.recorded.applyAbove tablePrefix version ms) (db.applyAbove tablePrefix version ms)
      fun n asked => n = (above version ms).length ∧
        Answered ((above version ms).flatMap (·.transaction tablePrefix)) asked := by
  induction ms with
  | nil =>
      refine (Asks.pure 0).mono ?_
      rintro _ _ ⟨rfl, rfl⟩
      exact ⟨rfl, .nil⟩
  | cons m ms ih =>
      by_cases hm : version < m.version
      · have habove : above version (m :: ms) = m :: above version ms :=
          List.filter_cons_of_pos (by simpa using hm)
        rw [Database.applyAbove, Database.applyAbove, if_pos hm, if_pos hm, habove]
        refine ((applyMigration_asks db tablePrefix m).bind fun _ => ih.bind fun applied =>
          Asks.pure (applied + 1)).mono ?_
        rintro _ _ ⟨-, first, _, rfl, hfirst, n, rest, _, rfl, ⟨rfl, hrest⟩, rfl, rfl⟩
        rw [List.append_nil]
        exact ⟨rfl, hfirst.append hrest⟩
      · have habove : above version (m :: ms) = above version ms :=
          List.filter_cons_of_neg (by simpa using hm)
        rw [Database.applyAbove, Database.applyAbove, if_neg hm, if_neg hm, habove]
        exact ih

theorem flatMap_transaction (ms : List Migration) :
    ms.flatMap (·.transaction tablePrefix) =
      (List.zipWith Migration.transactionOf ms (ms.map (·.statements tablePrefix))).flatten := by
  rw [List.zipWith_map_right, List.zipWith_self, List.flatMap_def]
  rfl

theorem migrate_asks (ms : List Migration) :
    Asks (db.recorded.migrate tablePrefix ms) (db.migrate tablePrefix ms)
      (Migrated tablePrefix ms) := by
  refine ((take_asks db).bind fun _ =>
    (tell_asks db "create_migrations_table" .createVersionTable (by simp)).bind fun _ =>
      (recordedVersion_asks db).bind fun version =>
        applyAbove_asks db tablePrefix version ms).mono ?_
  rintro n _ ⟨-, _, _, rfl, rfl, -, made, _, rfl, hmade, version, _, committing, rfl, hrecorded, rfl,
    hcommitting⟩
  obtain ⟨made, rfl⟩ := answered_singleton_iff.1 hmade
  obtain ⟨rows, rfl, hversion⟩ := hrecorded
  rw [flatMap_transaction] at hcommitting
  exact .mk hversion (Migration.forall₂_hasStatements_iff.2 rfl) hcommitting

theorem schemaVersion_asks :
    Asks db.recorded.schemaVersion db.schemaVersion LookedUp := by
  have htable := ask_asks db "migration_table_exists" .hasVersionTable (by simp) tableFlagOf
    fun _ _ h => .table h
  have hlook (isThere : Bool) : Asks (if isThere then db.recorded.recordedVersion else pure 0)
      (if isThere then db.recordedVersion else pure 0) fun version asked =>
        isThere = false ∧ version = 0 ∧ asked = [] ∨ isThere = true ∧
          ∃ rows, asked = [.statement .currentVersion (.ok rows)] ∧ versionOf rows = .ok version := by
    cases isThere with
    | false => exact (Asks.pure 0).mono fun _ _ h => .inl ⟨rfl, h⟩
    | true => exact (recordedVersion_asks db).mono fun _ _ h => .inr ⟨rfl, h⟩
  refine ((take_asks db).bind fun _ => htable.bind hlook).mono ?_
  rintro version _ ⟨-, _, _, rfl, rfl, isThere, _, _, rfl, ⟨rows, rfl, hflag⟩,
    ⟨rfl, rfl, rfl⟩ | ⟨rfl, answer, rfl, hversion⟩⟩
  · exact .noTable hflag
  · exact .version hflag hversion

/-- All that is asked to prepare the schema. -/
def Prepared (version : Int) (asked : List Question) : Prop :=
  ∃ n migrating lookingUp, asked = migrating ++ lookingUp ∧
    Migrated tablePrefix Migration.embedded n migrating ∧ LookedUp version lookingUp

theorem prepare_asks : Asks (db.recorded.prepare tablePrefix) (db.prepare tablePrefix)
    (Prepared tablePrefix) :=
  (migrate_asks db tablePrefix Migration.embedded).bind fun _ => schemaVersion_asks db

end Schema

end MetricLedger.Relational
