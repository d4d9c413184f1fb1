import MetricLedger.Proofs.Relational.Exchanges
import MetricLedger.Proofs.Relational.Statements

/-!
# The schema grows by whole migrations

A run of migrations may be cut short at any statement, and the server may have carried out the one
that failed. What the database holds between two runs is all the same what a prefix of the migrations
leads to: a migration and the row of its version are one transaction, and a run starts above the
greatest version. Main statements: `ensures_migrate`, what one run does, and `migrate_advances`, what
any run does after any history of runs.
-/

namespace MetricLedger.Relational

/-! ## What a database holds of the schema -/

/-- What a database holds of the schema: the rows of the version table, if there is one, and the
statements that changed the schema, in their order. -/
structure Schema where
  versions : Option (List (Int × String))
  statements : List String
  deriving DecidableEq, Repr

/-- The row that records a migration. -/
def Migration.row (m : Migration) : Int × String := (m.version, m.description)

namespace Schema

/-- The schema of a new database. -/
def empty : Schema := ⟨none, []⟩

def rows (c : Schema) : List (Int × String) := c.versions.getD []

/-- The greatest version of some rows, and zero if there are none. -/
def greatest (rows : List (Int × String)) : Int := ((rows.map Prod.fst).max?).getD 0

/-- The code of a statement about a table that is not there. -/
def undefinedTable : String := "42P01"

/-- The code of a row whose key is there already. -/
def uniqueViolation : String := "23505"

/-- What statements do to the schema. The version is the key of the version table. -/
def effect : Effect Schema
  | .createVersionTable, c => .ok ([], { c with versions := some c.rows })
  | .hasVersionTable, c => .ok ([[⟨"exists", .bool, .flag c.versions.isSome⟩]], c)
  | .currentVersion, c =>
      match c.versions with
      | some rows => .ok ([[⟨"coalesce", .int4, .integer (greatest rows)⟩]], c)
      | none => .error undefinedTable
  | .recordVersion version description, c =>
      match c.versions with
      | some rows =>
          if version ∈ rows.map Prod.fst then .error uniqueViolation
          else .ok ([], { c with versions := some (rows ++ [(version, description)]) })
      | none => .error undefinedTable
  | .schema text, c => .ok ([], { c with statements := c.statements ++ [text] })
  | _, c => .ok ([], c)

/-- The schema that some migrations lead to, with its version table. -/
def after (tablePrefix : String) (done : List Migration) : Schema where
  versions := some (done.map Migration.row)
  statements := done.flatMap (·.statements tablePrefix)

/-- The schema is what some migrations lead to: exactly their versions are recorded, and the
statements that their templates have with the table prefix have been executed once, in their order. -/
structure IsAfter (tablePrefix : String) (done : List Migration) (c : Schema) : Prop where
  rows : c.rows = done.map Migration.row
  statements : ∃ texts, List.Forall₂ (fun m => m.HasStatements tablePrefix) done texts ∧
    c.statements = texts.flatten

theorem isAfter_iff {tablePrefix : String} {done : List Migration} {c : Schema} :
    IsAfter tablePrefix done c ↔ c.rows = done.map Migration.row ∧
      c.statements = done.flatMap (·.statements tablePrefix) := by
  constructor
  · rintro ⟨hrows, texts, htexts, hstatements⟩
    rw [Migration.forall₂_hasStatements_iff.1 htexts, ← List.flatMap_def] at hstatements
    exact ⟨hrows, hstatements⟩
  · rintro ⟨hrows, hstatements⟩
    rw [List.flatMap_def] at hstatements
    exact ⟨hrows, _, Migration.forall₂_hasStatements_iff.2 rfl, hstatements⟩

theorem isAfter_empty (tablePrefix : String) : IsAfter tablePrefix [] empty :=
  isAfter_iff.2 ⟨rfl, rfl⟩

theorem isAfter_after (tablePrefix : String) (done : List Migration) :
    IsAfter tablePrefix done (after tablePrefix done) :=
  isAfter_iff.2 ⟨rfl, rfl⟩

/-- The schema that some more migrations lead to, with its version table. -/
def extend (tablePrefix : String) (c : Schema) (ms : List Migration) : Schema where
  versions := some (c.rows ++ ms.map Migration.row)
  statements := c.statements ++ ms.flatMap (·.statements tablePrefix)

@[simp] theorem rows_extend (tablePrefix : String) (c : Schema) (ms : List Migration) :
    (c.extend tablePrefix ms).rows = c.rows ++ ms.map Migration.row := rfl

theorem extend_nil (tablePrefix : String) (c : Schema) :
    c.extend tablePrefix [] = { c with versions := some c.rows } := by
  simp [extend]

theorem IsAfter.extend_eq {tablePrefix : String} {done : List Migration} {c : Schema}
    (hc : IsAfter tablePrefix done c) (ms : List Migration) :
    c.extend tablePrefix ms = after tablePrefix (done ++ ms) := by
  obtain ⟨hrows, hstatements⟩ := isAfter_iff.1 hc
  rw [extend, after, hrows, hstatements, List.map_append, List.flatMap_append]

/-- The row of a migration, after its statements, completes what it leads to. -/
theorem effect_recordVersion {tablePrefix : String} {c : Schema} {done : List Migration}
    {m : Migration} (hnew : m.version ∉ (c.extend tablePrefix done).rows.map Prod.fst) :
    effect (.recordVersion m.version m.description)
        { c.extend tablePrefix done with
          statements := (c.extend tablePrefix done).statements ++ m.statements tablePrefix } =
      .ok ([], c.extend tablePrefix (done ++ [m])) := by
  rw [rows_extend] at hnew
  simp only [effect, extend, if_neg hnew]
  simp [Migration.row]

theorem le_greatest {rows : List (Int × String)} {row : Int × String} (hrow : row ∈ rows) :
    row.1 ≤ greatest rows := by
  have hmem : row.1 ∈ rows.map Prod.fst := List.mem_map_of_mem hrow
  unfold greatest
  cases hmax : (rows.map Prod.fst).max? with
  | none =>
      rw [List.max?_eq_none_iff.1 hmax] at hmem
      cases hmem
  | some v => exact (List.max?_eq_some_iff.1 hmax).2 _ hmem

/-- A version above the greatest is not recorded. -/
theorem not_mem_of_greatest_lt {rows : List (Int × String)} {version : Int}
    (h : greatest rows < version) : version ∉ rows.map Prod.fst := by
  intro hmem
  obtain ⟨row, hrow, rfl⟩ := List.mem_map.1 hmem
  have hle := le_greatest hrow
  omega

end Schema

/-! ## Lists of migrations -/

/-- Every migration leads to a positive version, beyond those of the migrations before it. -/
structure IsAscending (ms : List Migration) : Prop where
  ascending : ms.Pairwise (·.version < ·.version)
  positive : ∀ m ∈ ms, 0 < m.version

/-- What every run asks of the database, whatever its migrations are. -/
def runStatements : List Statement :=
  [.startTransaction, .commit, .rollback, .createVersionTable, .currentVersion]

/-- What is asked of the database to run migrations. -/
def migrationStatements (tablePrefix : String) (ms : List Migration) : List Statement :=
  runStatements ++
    ms.flatMap fun m =>
      (m.statements tablePrefix).map .schema ++ [.recordVersion m.version m.description]

/-- The server keeps transactions of what is asked of it to run migrations. -/
abbrev Server.RunsMigrations {τ : Type} (server : Server τ) (tablePrefix : String)
    (ms : List Migration) (view : τ → Holding Schema) (calm : τ → Prop) : Prop :=
  server.IsTransactional tablePrefix (· ∈ migrationStatements tablePrefix ms) Schema.effect view calm

section Lists

variable {tablePrefix : String} {ms done missing list : List Migration}

theorem mem_migrationStatements {s : Statement} (hs : s ∈ runStatements) :
    s ∈ migrationStatements tablePrefix ms :=
  List.mem_append_left _ hs

theorem schema_mem_migrationStatements {m : Migration} (hm : m ∈ ms) {text : String}
    (htext : text ∈ m.statements tablePrefix) :
    .schema text ∈ migrationStatements tablePrefix ms := by
  refine List.mem_append_right _ (List.mem_flatMap.2 ⟨m, hm, List.mem_append_left _ ?_⟩)
  exact List.mem_map_of_mem htext

theorem recordVersion_mem_migrationStatements {m : Migration} (hm : m ∈ ms) :
    .recordVersion m.version m.description ∈ migrationStatements tablePrefix ms :=
  List.mem_append_right _ (List.mem_flatMap.2 ⟨m, hm, List.mem_append_right _ (by simp)⟩)

theorem IsAscending.of_isPrefix (hms : IsAscending ms) (hdone : done <+: ms) : IsAscending done where
  ascending := hms.ascending.sublist hdone.sublist
  positive m hm := hms.positive m (hdone.subset hm)

theorem IsAscending.distinct (hms : IsAscending ms) : (ms.map (·.version)).Nodup :=
  List.pairwise_map.2 (hms.ascending.imp Int.ne_of_lt)

/-- No version of some migrations is above the greatest. -/
theorem version_le_greatest {m : Migration} (hm : m ∈ done) :
    m.version ≤ Schema.greatest (done.map Migration.row) :=
  Schema.le_greatest (List.mem_map_of_mem hm)

/-- The greatest version of some migrations is below that of every later one. -/
theorem greatest_lt_version (hall : IsAscending (done ++ missing)) {m : Migration}
    (hm : m ∈ missing) : Schema.greatest (done.map Migration.row) < m.version := by
  unfold Schema.greatest
  cases hmax : ((done.map Migration.row).map Prod.fst).max? with
  | none => exact hall.positive m (List.mem_append_right _ hm)
  | some v =>
      obtain ⟨row, hrow, rfl⟩ := List.mem_map.1 (List.max?_mem hmax)
      obtain ⟨earlier, hearlier, rfl⟩ := List.mem_map.1 hrow
      exact (List.pairwise_append.1 hall.ascending).2.2 earlier hearlier m hm

/-- Of two prefixes of the migrations, what the second has beyond the first continues the first. -/
theorem append_drop_isPrefix (hdone : done <+: ms) (hlist : list <+: ms) :
    done ++ list.drop done.length <+: ms := by
  rcases List.prefix_or_prefix_of_prefix hdone hlist with hle | hle
  · rwa [← List.prefix_append_drop hle]
  · rwa [List.drop_of_length_le hle.length_le, List.append_nil]

/-- The migrations above a version, in their order. -/
def above (version : Int) (list : List Migration) : List Migration :=
  list.filter fun m => decide (version < m.version)

theorem lt_of_mem_above {version : Int} {m : Migration} (hm : m ∈ above version list) :
    version < m.version := by
  simpa using (List.mem_filter.1 hm).2

theorem above_sublist (version : Int) (list : List Migration) : (above version list).Sublist list :=
  List.filter_sublist

/-- The migrations of a list that a run applies, in the order of the list: those above all that are
done. -/
def pending (done list : List Migration) : List Migration :=
  list.filter fun m => decide (Schema.greatest (done.map Migration.row) < m.version)

theorem greatest_lt_of_mem_pending {m : Migration} (hm : m ∈ pending done list) :
    Schema.greatest (done.map Migration.row) < m.version :=
  lt_of_mem_above hm

theorem mem_of_mem_take (hdone : done <+: ms) (hlist : list <+: ms) {m : Migration}
    (hm : m ∈ list.take done.length) : m ∈ done := by
  rcases List.prefix_or_prefix_of_prefix hdone hlist with hle | hle
  · rwa [← List.prefix_iff_eq_take.1 hle] at hm
  · exact hle.subset (List.mem_of_mem_take hm)

/-- Of ascending migrations the first ones are done, and the others are pending. -/
theorem pending_eq_drop (hms : IsAscending ms) (hdone : done <+: ms) (hlist : list <+: ms) :
    pending done list = list.drop done.length := by
  have hall := hms.of_isPrefix (append_drop_isPrefix hdone hlist)
  have htake : pending done (list.take done.length) = [] := by
    refine List.filter_eq_nil_iff.2 fun m hm => ?_
    simpa using version_le_greatest (mem_of_mem_take hdone hlist hm)
  have hdrop : pending done (list.drop done.length) = list.drop done.length := by
    refine List.filter_eq_self.2 fun m hm => ?_
    simpa using greatest_lt_version hall hm
  have hsplit : pending done (list.take done.length ++ list.drop done.length) =
      pending done (list.take done.length) ++ pending done (list.drop done.length) :=
    List.filter_append ..
  rwa [List.take_append_drop, htake, hdrop, List.nil_append] at hsplit

end Lists

/-! ## One run -/

section Runs

open Exchange Schema

variable {τ : Type} {server : Server τ} {tablePrefix : String}
  {ms done missing list : List Migration} {c : Schema} {view : τ → Holding Schema} {calm : τ → Prop}
  {live : Prop}

/-- Some migrations are done, and the database is between two exchanges. -/
def IsReached (tablePrefix : String) (view : τ → Holding Schema) (calm : τ → Prop) (live : Prop)
    (done : List Migration) (σ : Pool × τ) : Prop :=
  ∃ contents : Schema, contents.IsAfter tablePrefix done ∧
    IsIdle tablePrefix view calm live contents σ

theorem IsReached.isAfter {σ : Pool × τ}
    (hσ : IsReached tablePrefix view calm live done σ) :
    (view σ.2).contents.IsAfter tablePrefix done := by
  obtain ⟨contents, hafter, hidle⟩ := hσ
  rwa [hidle.contents]

/-- What becomes of the calm of a server can be watched from every state between two exchanges. -/
theorem IsReached.watch {σ : Pool × τ}
    (hσ : IsReached tablePrefix view calm live done σ) {live' : Prop} (hcalm : live' → calm σ.2) :
    IsReached tablePrefix view calm live' done σ := by
  obtain ⟨contents, hafter, hidle⟩ := hσ
  exact ⟨contents, hafter, hidle.watch hcalm⟩

theorem isReached_after {σ : Pool × τ}
    (hσ : IsIdle tablePrefix view calm live (after tablePrefix done) σ) :
    IsReached tablePrefix view calm live done σ :=
  ⟨_, isAfter_after tablePrefix done, hσ⟩

/-- Migrations up to a version are passed over. -/
theorem applyAbove_above {σ : Type} (db : Database σ) (tablePrefix : String) (version : Int)
    (list : List Migration) :
    db.applyAbove tablePrefix version list =
      db.applyAbove tablePrefix version (above version list) := by
  unfold above
  induction list with
  | nil => rfl
  | cons m list ih =>
      by_cases hm : version < m.version
      · rw [List.filter_cons_of_pos (by simpa using hm), Database.applyAbove, if_pos hm, ih,
          Database.applyAbove, if_pos hm]
      · rw [List.filter_cons_of_neg (by simpa using hm), Database.applyAbove, if_neg hm, ih]

/-- In a transaction a mishap has left the contents of the database alone. -/
def IsHalted (view : τ → Holding Schema) (live : Prop) (contents : Schema) (σ : Pool × τ) : Prop :=
  ∃ s h, Interrupted effect view live s h σ ∧ (view σ.2).contents = contents

theorem ensures_texts
    (hserver : server.RunsMigrations tablePrefix ms view calm) (login : Login)
    (failure : ClientFault → Failure) {contents : Schema} {texts : List String}
    (htexts : ∀ text ∈ texts, .schema text ∈ migrationStatements tablePrefix ms) (changed : Schema) :
    Ensures (IsAt view calm live ⟨contents, .underWay changed⟩)
      (texts.forM fun text => (Pool.database server login tablePrefix).tell failure (.schema text))
      (fun _ => IsAt view calm live
        ⟨contents, .underWay { changed with statements := changed.statements ++ texts }⟩)
      (IsHalted view live contents) := by
  induction texts generalizing changed with
  | nil => exact Ensures.pure _ fun σ hσ => by simpa using hσ
  | cons text texts ih =>
      refine Ensures.bind (Q := fun _ => IsAt view calm live ⟨contents, .underWay
        { changed with statements := changed.statements ++ [text] }⟩) ?_ fun _ => ?_
      · refine (ensures_tell (fun σ hσ => send_of_isAt hserver login
          (htexts text List.mem_cons_self) hσ) rfl).weaken_error
          fun σ hσ => ⟨_, _, hσ, ?_⟩
        exact or_self_iff.1 hσ.mishap.contents
      · simpa using ih (fun text htext => htexts text (List.mem_cons_of_mem _ htext))
          { changed with statements := changed.statements ++ [text] }

/-- A migration is applied as a whole, or a mishap has kept it out, or it came with the mishap of the
commit. -/
theorem ensures_applyMigration
    (hserver : server.RunsMigrations tablePrefix ms view calm) (login : Login)
    {m : Migration} (hm : m ∈ ms) (hnew : m.version ∉ (c.extend tablePrefix done).rows.map Prod.fst) :
    Ensures (IsTaken tablePrefix view calm live (c.extend tablePrefix done))
      ((Pool.database server login tablePrefix).applyMigration tablePrefix m)
      (fun _ => IsTaken tablePrefix view calm live (c.extend tablePrefix (done ++ [m])))
      (fun σ => ¬live ∧ ∃ now, now <+: [m] ∧
        IsIdle tablePrefix view calm live (c.extend tablePrefix (done ++ now)) σ) := by
  refine Ensures.bind ((ensures_start hserver (mem_migrationStatements (by decide))
    (mem_migrationStatements (by decide)) login _).weaken_error
    fun σ hσ => ⟨hσ.1, [], List.nil_prefix, by simpa using hσ.2⟩) fun _ => ?_
  refine Ensures.bind (Q := fun _ => IsAt view calm live
    ⟨c.extend tablePrefix done, .underWay (c.extend tablePrefix (done ++ [m]))⟩) ?_ fun _ => ?_
  · -- The statements of the migration, and its row in the version table.
    refine Ensures.orAbandon (E := IsHalted view live (c.extend tablePrefix done)) ?_ fun σ hσ => ?_
    · refine Ensures.bind (ensures_texts hserver login _
        (fun text htext => schema_mem_migrationStatements hm htext) _) fun _ => ?_
      have hanswer : Holding.answer effect (.recordVersion m.version m.description) _ =
          (.ok [], ⟨c.extend tablePrefix done, .underWay (c.extend tablePrefix (done ++ [m]))⟩) :=
        Holding.answer_of_ok ⟨by simp, by simp, by simp⟩ (effect_recordVersion hnew)
      refine (ensures_tell (fun σ hσ => send_of_isAt hserver login
        (recordVersion_mem_migrationStatements hm) hσ) hanswer).weaken_error fun σ hσ => ⟨_, _, hσ, ?_⟩
      have hcontents := hσ.mishap.contents
      rw [hanswer] at hcontents
      exact or_self_iff.1 hcontents
    · obtain ⟨s, h, hhalted, hcontents⟩ := hσ
      refine ⟨hhalted.not_live, [], List.nil_prefix, ?_⟩
      rw [List.append_nil, ← hcontents]
      exact hhalted.isIdle_abandon login
  · -- The commit: whether it has taken effect or not, no transaction is left.
    refine (ensures_tell (fun σ hσ => send_of_isAt hserver login
      (mem_migrationStatements (by decide)) hσ) rfl).weaken (fun _ h => h)
      (fun _ σ hσ => hσ.isTaken rfl) fun σ hσ => ⟨hσ.not_live, ?_⟩
    have hidle : IsIdle tablePrefix view calm live _ σ :=
      hσ.isIdle (hσ.mishap.transaction.resolve_right fun hfailed => hfailed.2.2.1 rfl)
    rcases hσ.mishap.contents with hcontents | hcontents
    · exact ⟨[], List.nil_prefix, by rwa [hcontents, ← List.append_nil done] at hidle⟩
    · exact ⟨[m], List.prefix_rfl, by rwa [hcontents] at hidle⟩

/-- Migrations with new versions are applied one by one in their order, up to the first mishap. -/
theorem ensures_applyAbove
    (hserver : server.RunsMigrations tablePrefix ms view calm) (login : Login)
    {version : Int} (habove : ∀ m ∈ missing, version < m.version)
    (hmissing : ∀ m ∈ missing, m ∈ ms) (hdistinct : (missing.map (·.version)).Nodup)
    (hnew : ∀ m ∈ missing, m.version ∉ (c.extend tablePrefix done).rows.map Prod.fst) :
    Ensures (IsTaken tablePrefix view calm live (c.extend tablePrefix done))
      ((Pool.database server login tablePrefix).applyAbove tablePrefix version missing)
      (fun n σ => n = missing.length ∧
        IsTaken tablePrefix view calm live (c.extend tablePrefix (done ++ missing)) σ)
      (fun σ => ¬live ∧ ∃ now, now <+: missing ∧
        IsIdle tablePrefix view calm live (c.extend tablePrefix (done ++ now)) σ) := by
  induction missing generalizing done with
  | nil => exact Ensures.pure _ fun σ hσ => ⟨rfl, by rwa [List.append_nil]⟩
  | cons m missing ih =>
      obtain ⟨hm, hrest⟩ := List.nodup_cons.1 hdistinct
      have hsplit : done ++ m :: missing = done ++ [m] ++ missing := by simp
      have hnewRest : ∀ k ∈ missing,
          k.version ∉ (c.extend tablePrefix (done ++ [m])).rows.map Prod.fst := by
        intro k hk hmem
        have hrows : (c.extend tablePrefix (done ++ [m])).rows =
            (c.extend tablePrefix done).rows ++ [m.row] := by simp
        rw [hrows, List.map_append, List.mem_append] at hmem
        rcases hmem with hdone | hlast
        · exact hnew k (List.mem_cons_of_mem _ hk) hdone
        · exact hm (List.mem_map.2 ⟨k, hk, List.mem_singleton.1 hlast⟩)
      rw [Database.applyAbove, if_pos (habove m List.mem_cons_self)]
      refine Ensures.bind ((ensures_applyMigration hserver login
        (hmissing m List.mem_cons_self) (hnew m List.mem_cons_self)).weaken_error ?_) fun _ => ?_
      · rintro σ ⟨hnot, now, hnow, hidle⟩
        exact ⟨hnot, now, hnow.trans (List.prefix_append [m] missing), hidle⟩
      · refine Ensures.bind ((ih (fun k hk => habove k (List.mem_cons_of_mem _ hk))
          (fun k hk => hmissing k (List.mem_cons_of_mem _ hk)) hrest hnewRest).weaken_error ?_)
          fun n => ?_
        · rintro σ ⟨hnot, now, hnow, hidle⟩
          exact ⟨hnot, m :: now, List.prefix_cons_inj m |>.2 hnow, by simpa using hidle⟩
        · refine Ensures.pure _ fun σ hσ => ⟨?_, ?_⟩
          · rw [hσ.1, List.length_cons]
          · rw [hsplit]
            exact hσ.2

/-- The version table is there after it was asked for, and no version is in it that was not there
before. -/
theorem ensures_createVersionTable
    (hserver : server.RunsMigrations tablePrefix ms view calm) (login : Login)
    (failure : ClientFault → Failure) :
    Ensures (IsTaken tablePrefix view calm live c)
      ((Pool.database server login tablePrefix).tell failure .createVersionTable)
      (fun _ => IsAt view calm live ⟨c.extend tablePrefix [], .none⟩)
      (fun σ => ¬live ∧ (IsIdle tablePrefix view calm live c σ ∨
        IsIdle tablePrefix view calm live (c.extend tablePrefix []) σ)) := by
  have hanswer : (⟨c, .none⟩ : Holding Schema).answer effect .createVersionTable =
      (.ok [], ⟨c.extend tablePrefix [], .none⟩) := by
    simp [Holding.answer, Holding.execute, effect, extend_nil]
  refine (ensures_tell (fun σ hσ => send_of_isIdle hserver
    (mem_migrationStatements (by decide)) login (mem_migrationStatements (by decide)) hσ.1 hσ.2)
    hanswer).weaken_error fun σ hσ => ⟨hσ.not_live, ?_⟩
  have hidle : IsIdle tablePrefix view calm live _ σ :=
    hσ.isIdle (hσ.mishap.transaction_of_none rfl)
  rcases hσ.mishap.contents with hcontents | hcontents
  · exact .inl (by rwa [hcontents] at hidle)
  · exact .inr (by rwa [hcontents, hanswer] at hidle)

theorem ensures_recordedVersion
    (hserver : server.RunsMigrations tablePrefix ms view calm) (login : Login)
    (hc : c.versions = some c.rows) :
    Ensures (IsAt view calm live ⟨c, .none⟩)
      (Pool.database server login tablePrefix).recordedVersion
      (fun version σ => version = greatest c.rows ∧ IsTaken tablePrefix view calm live c σ)
      (fun σ => ¬live ∧ IsIdle tablePrefix view calm live c σ) := by
  have hanswer : (⟨c, .none⟩ : Holding Schema).answer effect .currentVersion =
      (.ok [[⟨"coalesce", .int4, .integer (greatest c.rows)⟩]], ⟨c, .none⟩) := by
    simp only [Holding.answer, Holding.execute, effect, hc]
  exact (ensures_ask (fun σ hσ => send_of_isAt hserver login
    (mem_migrationStatements (by decide)) hσ) (b := greatest c.rows) hanswer
    rfl).weaken (fun _ h => h) (fun version σ hσ => ⟨hσ.1, hσ.2.isTaken rfl⟩)
    fun σ hσ => ⟨hσ.not_live, hσ.isIdle_of_unchanged hanswer⟩

/-- A run applies the migrations above the greatest version, all of them or up to the first mishap. -/
theorem ensures_migrate_above
    (hserver : server.RunsMigrations tablePrefix ms view calm) (login : Login)
    (hlist : ∀ m ∈ list, m ∈ ms) (hdistinct : (list.map (·.version)).Nodup) :
    Ensures (IsIdle tablePrefix view calm live c)
      ((Pool.database server login tablePrefix).migrate tablePrefix list)
      (fun n σ => n = (above (greatest c.rows) list).length ∧
        IsIdle tablePrefix view calm live (c.extend tablePrefix (above (greatest c.rows) list)) σ)
      (fun σ => ¬live ∧ (IsIdle tablePrefix view calm live c σ ∨
        ∃ now, now <+: above (greatest c.rows) list ∧
          IsIdle tablePrefix view calm live (c.extend tablePrefix now) σ)) := by
  refine Ensures.bind ((ensures_take hserver login _).weaken_error
    fun σ hσ => ⟨hσ.1, .inl hσ.2⟩) fun _ => ?_
  refine Ensures.bind ((ensures_createVersionTable hserver login _).weaken_error
    fun σ hσ => ⟨hσ.1, hσ.2.imp_right fun hidle => ⟨[], List.nil_prefix, hidle⟩⟩) fun _ => ?_
  refine Ensures.bind ((ensures_recordedVersion hserver login rfl).weaken_error
    fun σ hσ => ⟨hσ.1, .inr ⟨[], List.nil_prefix, hσ.2⟩⟩) fun version => ?_
  have hrows : (c.extend tablePrefix []).rows = c.rows := by simp
  rintro σ ⟨rfl, hσ⟩
  rw [hrows, applyAbove_above]
  have hsublist := above_sublist (greatest c.rows) list
  refine ((ensures_applyAbove hserver login (fun m hm => lt_of_mem_above hm)
    (fun m hm => hlist m (hsublist.subset hm)) (hdistinct.sublist (hsublist.map _))
    (fun m hm => ?_)).weaken (fun _ h => h) (fun n σ hσ => ⟨hσ.1, hσ.2.1⟩) ?_) σ hσ
  · rw [hrows]
    exact not_mem_of_greatest_lt (lt_of_mem_above hm)
  · rintro σ ⟨hnot, now, hnow, hidle⟩
    exact ⟨hnot, .inr ⟨now, hnow, hidle⟩⟩

/-- A run applies what is pending of its list, all of it or up to the first mishap. -/
theorem ensures_migrate_pending
    (hserver : server.RunsMigrations tablePrefix ms view calm) (login : Login)
    (hlist : ∀ m ∈ list, m ∈ ms) (hdistinct : (list.map (·.version)).Nodup) :
    Ensures (IsReached tablePrefix view calm live done)
      ((Pool.database server login tablePrefix).migrate tablePrefix list)
      (fun n σ => n = (pending done list).length ∧
        IsReached tablePrefix view calm live (done ++ pending done list) σ)
      (fun σ => ¬live ∧ ∃ now, now <+: pending done list ∧
        IsReached tablePrefix view calm live (done ++ now) σ) := by
  rintro σ ⟨c, hc, hσ⟩
  have habove : above (greatest c.rows) list = pending done list := by rw [hc.rows]; rfl
  have hrun : Ensures (IsIdle tablePrefix view calm live c) _ _ _ :=
    ensures_migrate_above hserver login hlist hdistinct
  rw [habove] at hrun
  refine (hrun.weaken (fun _ h => h) ?_ ?_) σ hσ
  · rintro n σ ⟨hn, hidle⟩
    exact ⟨hn, isReached_after (by rwa [← hc.extend_eq])⟩
  · rintro σ ⟨hnot, hidle | ⟨now, hnow, hidle⟩⟩
    · exact ⟨hnot, [], List.nil_prefix, c, by rwa [List.append_nil], hidle⟩
    · exact ⟨hnot, now, hnow, isReached_after (by rwa [← hc.extend_eq])⟩

/-- Of ascending migrations a run applies what is missing of its list, all of it or up to the first
mishap. -/
theorem ensures_migrate (hms : IsAscending ms)
    (hserver : server.RunsMigrations tablePrefix ms view calm) (login : Login)
    (hdone : done <+: ms) (hlist : list <+: ms) :
    Ensures (IsReached tablePrefix view calm live done)
      ((Pool.database server login tablePrefix).migrate tablePrefix list)
      (fun n σ => n = (list.drop done.length).length ∧
        IsReached tablePrefix view calm live (done ++ list.drop done.length) σ)
      (fun σ => ¬live ∧ ∃ now, now <+: list.drop done.length ∧
        IsReached tablePrefix view calm live (done ++ now) σ) := by
  have hascending := hms.of_isPrefix hlist
  rw [← pending_eq_drop hms hdone hlist]
  exact ensures_migrate_pending hserver login (fun m hm => hlist.subset hm) hascending.distinct

end Runs

/-! ## Histories -/

section Histories

open Exchange Schema

variable {τ : Type} {server : Server τ} {tablePrefix : String} {ms done list : List Migration}
  {view : τ → Holding Schema} {calm : τ → Prop}

/-- A turn of a history: the migrations of a list are run, or a new pool takes the place of the
old one. -/
inductive Turn where
  | run (list : List Migration)
  | restart
  deriving DecidableEq, Repr

/-- The migrations of a turn are a prefix of a list. -/
def Turn.IsOf (ms : List Migration) : Turn → Prop
  | .run list => list <+: ms
  | .restart => True

/-- The pool and the server after a turn. -/
def Turn.next (server : Server τ) (login : Login) (tablePrefix : String) (σ : Pool × τ) :
    Turn → Pool × τ
  | .run list => ((Pool.database server login tablePrefix).migrate tablePrefix list σ).2
  | .restart => (Pool.fresh, σ.2)

/-- The pool and the server after a history that begins with a new pool. -/
def afterTurns (server : Server τ) (login : Login) (tablePrefix : String) (turns : List Turn)
    (t : τ) : Pool × τ :=
  turns.foldl (Turn.next server login tablePrefix) (Pool.fresh, t)

/-- What a run does while some migrations are `missing` beyond those that are done. -/
structure Advances (tablePrefix : String) (view : τ → Holding Schema) (calm : τ → Prop)
    (done missing : List Migration) (σ : Pool × τ) (result : Except Failure Nat × Pool × τ) :
    Prop where
  /-- However it ends, the missing migrations are done from the first one on. -/
  grows : ∃ now, now <+: missing ∧ (view result.2.2).contents.IsAfter tablePrefix (done ++ now)
  /-- If it succeeds, it has counted all the missing migrations, and they are done. -/
  ok : ∀ n, result.1 = .ok n →
    n = missing.length ∧ (view result.2.2).contents.IsAfter tablePrefix (done ++ missing)
  /-- It succeeds if nothing goes wrong. -/
  calm : calm σ.2 → result.1 = .ok missing.length ∧ calm result.2.2

theorem IsReached.advances_pending {live : Prop}
    (hserver : server.RunsMigrations tablePrefix ms view calm) (login : Login)
    (hlist : ∀ m ∈ list, m ∈ ms) (hdistinct : (list.map (·.version)).Nodup) {σ : Pool × τ}
    (hσ : IsReached tablePrefix view calm live done σ) :
    Advances tablePrefix view calm done (pending done list) σ
      ((Pool.database server login tablePrefix).migrate tablePrefix list σ) := by
  have hσ := hσ.watch fun hcalm : calm σ.2 => hcalm
  rcases (ensures_migrate_pending hserver login hlist hdistinct).cases hσ with
    ⟨n, next, hrun, rfl, hnext⟩ | ⟨f, next, hrun, hnot, now, hnow, hnext⟩
  · rw [hrun]
    refine ⟨⟨_, List.prefix_rfl, hnext.isAfter⟩, fun n hn => ?_, fun hcalm => ⟨rfl, ?_⟩⟩
    · cases hn
      exact ⟨rfl, hnext.isAfter⟩
    · obtain ⟨_, _, hidle⟩ := hnext
      exact hidle.calm hcalm
  · rw [hrun]
    exact ⟨⟨now, hnow, hnext.isAfter⟩, nofun, fun hcalm => absurd hcalm hnot⟩

theorem IsReached.advances {live : Prop} (hms : IsAscending ms)
    (hserver : server.RunsMigrations tablePrefix ms view calm) (login : Login)
    (hdone : done <+: ms) (hlist : list <+: ms) {σ : Pool × τ}
    (hσ : IsReached tablePrefix view calm live done σ) :
    Advances tablePrefix view calm done (list.drop done.length) σ
      ((Pool.database server login tablePrefix).migrate tablePrefix list σ) := by
  rw [← pending_eq_drop hms hdone hlist]
  exact hσ.advances_pending hserver login (fun m hm => hlist.subset hm)
    (hms.of_isPrefix hlist).distinct

/-- Whatever has happened in its turns, a history leaves the database where a prefix of the migrations
leads to. -/
theorem isReached_afterTurns (hms : IsAscending ms)
    (hserver : server.RunsMigrations tablePrefix ms view calm) (login : Login)
    {turns : List Turn} (hturns : ∀ turn ∈ turns, turn.IsOf ms) {t : τ}
    (hnew : (view t).contents = empty) :
    ∃ done, done <+: ms ∧ IsReached tablePrefix view calm False done
      (afterTurns server login tablePrefix turns t) := by
  unfold afterTurns
  induction turns using List.reverseRecOn with
  | nil =>
      exact ⟨[], List.nil_prefix, empty, isAfter_empty tablePrefix, isIdle_fresh hnew False.elim⟩
  | append_singleton turns turn ih =>
      obtain ⟨done, hdone, hreached⟩ := ih fun turn hturn =>
        hturns turn (List.mem_append_left _ hturn)
      rw [List.foldl_append]
      have hturn := hturns turn (List.mem_append_right _ (List.mem_singleton.2 rfl))
      cases turn with
      | run list =>
          simp only [List.foldl_cons, List.foldl_nil, Turn.next]
          rcases (ensures_migrate hms hserver login hdone hturn).cases hreached with
            ⟨n, next, hrun, -, hnext⟩ | ⟨f, next, hrun, -, now, hnow, hnext⟩
          · rw [hrun]
            exact ⟨_, append_drop_isPrefix hdone hturn, hnext⟩
          · rw [hrun]
            exact ⟨_, ((List.prefix_append_right_inj done).2 hnow).trans
              (append_drop_isPrefix hdone hturn), hnext⟩
      | restart =>
          obtain ⟨contents, hafter, hidle⟩ := hreached
          exact ⟨done, hdone, contents, hafter, isIdle_fresh hidle.contents False.elim⟩

/-- After any history of runs of prefixes of the migrations, each of which may have been cut short
anywhere, the database is where a prefix of the migrations leads to. A run leads it on to a longer
prefix; if the run succeeds, it has applied exactly the migrations that were missing, and the next run
finds none to apply. -/
theorem migrate_advances (hms : IsAscending ms)
    (hserver : server.RunsMigrations tablePrefix ms view calm) (login : Login)
    {turns : List Turn} (hturns : ∀ turn ∈ turns, turn.IsOf ms) {t : τ}
    (hnew : (view t).contents = empty) :
    ∃ done, done <+: ms ∧
      (view (afterTurns server login tablePrefix turns t).2).contents.IsAfter tablePrefix done ∧
      ∀ list, list <+: ms →
        let run := (Pool.database server login tablePrefix).migrate tablePrefix list
        let σ := afterTurns server login tablePrefix turns t
        Advances tablePrefix view calm done (list.drop done.length) σ (run σ) ∧
          ∀ n, (run σ).1 = .ok n →
            Advances tablePrefix view calm (done ++ list.drop done.length) [] (run σ).2
              (run (run σ).2) := by
  obtain ⟨done, hdone, hreached⟩ := isReached_afterTurns hms hserver login hturns hnew
  refine ⟨done, hdone, hreached.isAfter, fun list hlist => ⟨?_, fun n hn => ?_⟩⟩
  · exact hreached.advances hms hserver login hdone hlist
  · have hnone : list.drop (done ++ list.drop done.length).length = [] := by
      rw [List.drop_eq_nil_iff, List.length_append, List.length_drop]
      omega
    rcases (ensures_migrate hms hserver login hdone hlist).cases hreached with
      ⟨n, next, hrun, -, hnext⟩ | ⟨f, next, hrun, -⟩
    · have hadvances := hnext.advances hms hserver login (append_drop_isPrefix hdone hlist) hlist
      rw [hnone] at hadvances
      rwa [hrun]
    · rw [hrun] at hn
      cases hn

/-- Two migrations, the second with a statement about a table and one without. -/
def twoMigrations : List Migration := [⟨1, "one", "A"⟩, ⟨2, "two", "B \x7bprefix\x7d;C"⟩]

/-- A server that is asked for nothing but the two migrations. -/
def twoServer : Server (Holding Schema × Plan) :=
  plannedServer (fun c => (migrationStatements "m" twoMigrations).find? (·.command "m" = c)) effect

def twoLogin : Login := ⟨"root", none, "ledger", ["localhost"], 5432⟩

/-- A new database. The first run is refused the row of the first migration. The second run sends the
rollback that was left over, applies the first migration and learns nothing of its commit, which has
taken effect. -/
def unluckyStart : Holding Schema × Plan :=
  (⟨empty, .none⟩, List.replicate 4 none ++ [some (.database "57014", false)] ++
    List.replicate 6 none ++ [some (.closed, true)])

def unluckyTurns : List Turn := [.run twoMigrations, .run twoMigrations, .restart]

/-- After two unlucky runs and a restart the statement of the first migration has been executed. The
next run executes the two of the second migration, and the run after it none. -/
theorem migrate_advances_unluckyTurns :
    (afterTurns twoServer twoLogin "m" unluckyTurns unluckyStart).2.1.contents =
      ⟨some [(1, "one")], ["A"]⟩ ∧
    ∃ next, (Pool.database twoServer twoLogin "m").migrate "m" twoMigrations
        (afterTurns twoServer twoLogin "m" unluckyTurns unluckyStart) = (.ok 1, next) ∧
      next.2.1.contents = ⟨some [(1, "one"), (2, "two")], ["A", "B m", "C"]⟩ ∧
      ((Pool.database twoServer twoLogin "m").migrate "m" twoMigrations next).1 = .ok 0 := by
  have hdecode : ∀ s ∈ migrationStatements "m" twoMigrations,
      (migrationStatements "m" twoMigrations).find? (·.command "m" = s.command "m") = some s := by
    decide +kernel
  have hserver : twoServer.RunsMigrations "m" twoMigrations Prod.fst (·.2 = []) :=
    plannedServer_isTransactional hdecode
  obtain ⟨done, -, hafter, hruns⟩ := migrate_advances (t := unluckyStart) ⟨by decide, by decide⟩
    hserver twoLogin (by simp [unluckyTurns, Turn.IsOf] : ∀ turn ∈ unluckyTurns, _) rfl
  -- The history has come to the first migration and to the end of the plan.
  obtain ⟨hcontents, hplan⟩ :
      (afterTurns twoServer twoLogin "m" unluckyTurns unluckyStart).2.1.contents =
          ⟨some [(1, "one")], ["A"]⟩ ∧
        (afterTurns twoServer twoLogin "m" unluckyTurns unluckyStart).2.2 = [] := by
    decide +kernel
  have hrows := hafter.rows.symm.trans (congrArg Schema.rows hcontents)
  have hlength : done.length = 1 := by simpa [Schema.rows] using congrArg List.length hrows
  obtain ⟨hrun, hnext⟩ := hruns twoMigrations List.prefix_rfl
  have hexecuted : ((Pool.database twoServer twoLogin "m").migrate "m" twoMigrations
      (afterTurns twoServer twoLogin "m" unluckyTurns unluckyStart)).2.2.1.contents =
        ⟨some [(1, "one"), (2, "two")], ["A", "B m", "C"]⟩ := by decide +kernel
  rcases hresult : (Pool.database twoServer twoLogin "m").migrate "m" twoMigrations
    (afterTurns twoServer twoLogin "m" unluckyTurns unluckyStart) with ⟨result, next⟩
  rw [hresult] at hrun hnext hexecuted
  obtain ⟨hok, hcalm⟩ := hrun.calm hplan
  obtain rfl : result = .ok 1 := by rw [show result = _ from hok, hlength]; rfl
  exact ⟨hcontents, next, rfl, hexecuted, ((hnext 1 rfl).calm hcalm).1⟩

end Histories

end MetricLedger.Relational
