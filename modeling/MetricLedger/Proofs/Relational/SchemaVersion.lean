import MetricLedger.Proofs.Relational.Schema

/-!
# The version of the schema

The version that a database shows is the greatest one recorded. As long as only runs of migrations
record versions, all that are recorded are positive, and a run that succeeds raises the version to the
greatest one of its list, if it was below. Main statement: `migrate_raisesVersion`.
-/

namespace MetricLedger.Relational

/-! ## Tables that only runs write -/

namespace Schema

/-- What may be asked after the contents `seen`, if only runs of migrations write to the version table:
the row of a version that is above the greatest one a run has read, at any time before, and everything
that records no version. -/
inductive MayAsk (seen : List Schema) : Statement → Prop
  | row {read : Schema} {version : Int} (description : String) (hread : read ∈ seen)
      (h : greatest read.rows < version) : MayAsk seen (.recordVersion version description)
  | other {s : Statement} (h : ∀ version description, s ≠ .recordVersion version description) :
      MayAsk seen s

/-- The contents that a database has come to through those `seen`, from the time when it had no version
table, if only runs of migrations wrote to it. Any number of runs may have been under way at once. -/
inductive Traces : List Schema → Schema → Prop
  | start (statements : List String) : Traces [⟨none, statements⟩] ⟨none, statements⟩
  | step {seen : List Schema} {c next : Schema} {s : Statement} {answer : List Row}
      (h : Traces seen c) (hs : MayAsk seen s) (heffect : effect s c = .ok (answer, next)) :
      Traces (next :: seen) next

/-- Only runs of migrations have written to the version table, if there is one. -/
def IsWrittenByRuns (c : Schema) : Prop := ∃ seen, Traces seen c

theorem rows_of_effect {s : Statement} {c next : Schema} {answer : List Row}
    (h : effect s c = .ok (answer, next)) :
    next.rows = c.rows ∨ ∃ version description, s = .recordVersion version description ∧
      next.rows = c.rows ++ [(version, description)] := by
  unfold effect at h
  split at h
  · cases h
    exact .inl rfl
  · cases h
    exact .inl rfl
  · split at h
    · cases h
      exact .inl rfl
    · cases h
  · split at h
    next version description _ recorded hversions =>
      split at h
      · cases h
      · cases h
        exact .inr ⟨version, description, rfl, by simp [rows, hversions]⟩
    · cases h
  · cases h
    exact .inl rfl
  · cases h
    exact .inl rfl

theorem greatest_nonneg {rows : List (Int × String)} (h : ∀ row ∈ rows, 0 < row.1) :
    0 ≤ greatest rows := by
  cases rows with
  | nil => decide
  | cons row rows => exact (h row List.mem_cons_self).le.trans (le_greatest List.mem_cons_self)

theorem Traces.mem {seen : List Schema} {c : Schema} (h : Traces seen c) : c ∈ seen := by
  cases h
  all_goals exact List.mem_cons_self

/-- No run has ever recorded a version that is not positive. -/
theorem Traces.positive {seen : List Schema} {c : Schema} (h : Traces seen c) :
    ∀ d ∈ seen, ∀ row ∈ d.rows, 0 < row.1 := by
  induction h with
  | start statements =>
      intro d hd row hrow
      rw [List.mem_singleton.1 hd] at hrow
      cases hrow
  | @step seen c next s answer h hs heffect ih =>
      intro d hd row hrow
      obtain rfl | hd := List.mem_cons.1 hd
      · obtain hrows | ⟨version, description, rfl, hrows⟩ := rows_of_effect heffect
        · rw [hrows] at hrow
          exact ih c h.mem row hrow
        · rw [hrows, List.mem_append] at hrow
          obtain hrow | hrow := hrow
          · exact ih c h.mem row hrow
          · rw [List.mem_singleton.1 hrow]
            cases hs with
            | row _ hread hversion => exact (greatest_nonneg (ih _ hread)).trans_lt hversion
            | other hother => exact absurd rfl (hother _ _)
      · exact ih d hd row hrow

theorem IsWrittenByRuns.positive {c : Schema} (hc : c.IsWrittenByRuns) :
    ∀ row ∈ c.rows, 0 < row.1 := by
  obtain ⟨seen, h⟩ := hc
  exact h.positive c h.mem

/-! ## Greatest versions -/

theorem greatest_le_iff {rows : List (Int × String)} (hrows : ∀ row ∈ rows, 0 < row.1) {b : Int} :
    greatest rows ≤ b ↔ 0 ≤ b ∧ ∀ row ∈ rows, row.1 ≤ b := by
  constructor
  · intro h
    exact ⟨(greatest_nonneg hrows).trans h, fun row hrow => (le_greatest hrow).trans h⟩
  · rintro ⟨hb, h⟩
    unfold greatest
    cases hmax : (rows.map Prod.fst).max? with
    | none => exact hb
    | some v =>
        obtain ⟨row, hrow, rfl⟩ := List.mem_map.1 (List.max?_mem hmax)
        exact h row hrow

end Schema

theorem maxVersion_le_iff {ms : List Migration} {b : Int} :
    maxVersion ms ≤ b ↔ 0 ≤ b ∧ ∀ m ∈ ms, m.version ≤ b := by
  unfold maxVersion
  generalize (0 : Int) = v
  induction ms generalizing v with
  | nil => simp
  | cons m ms ih => rw [List.foldl_cons, ih, max_le_iff, List.forall_mem_cons, and_assoc]

/-- What a run records raises the greatest version to that of its list, if it was below. -/
theorem greatest_append_above {rows : List (Int × String)} (hrows : ∀ row ∈ rows, 0 < row.1)
    (list : List Migration) :
    Schema.greatest (rows ++ (above (Schema.greatest rows) list).map Migration.row) =
      max (Schema.greatest rows) (maxVersion list) := by
  have hnonneg := Schema.greatest_nonneg hrows
  have hnewer : ∀ row ∈ rows ++ (above (Schema.greatest rows) list).map Migration.row, 0 < row.1 := by
    intro row hrow
    obtain hrow | hrow := List.mem_append.1 hrow
    · exact hrows row hrow
    · obtain ⟨m, hm, rfl⟩ := List.mem_map.1 hrow
      exact hnonneg.trans_lt (lt_of_mem_above hm)
  refine eq_of_forall_ge_iff fun b => ?_
  rw [Schema.greatest_le_iff hnewer, max_le_iff, maxVersion_le_iff]
  constructor
  · rintro ⟨hb, h⟩
    obtain ⟨hold, hnew⟩ := List.forall_mem_append.1 h
    have hgreatest := (Schema.greatest_le_iff hrows).2 ⟨hb, hold⟩
    refine ⟨hgreatest, hb, fun m hm => ?_⟩
    by_cases hversion : Schema.greatest rows < m.version
    · exact hnew m.row (List.mem_map_of_mem (List.mem_filter.2 ⟨hm, by simpa using hversion⟩))
    · omega
  · rintro ⟨hgreatest, hb, hlist⟩
    refine ⟨hb, List.forall_mem_append.2 ⟨((Schema.greatest_le_iff hrows).1 hgreatest).2, ?_⟩⟩
    intro row hrow
    obtain ⟨m, hm, rfl⟩ := List.mem_map.1 hrow
    exact hlist m ((above_sublist _ _).subset hm)

/-! ## What runs write -/

namespace Schema

variable {seen : List Schema} {c : Schema}

theorem Traces.texts (h : Traces seen c) (texts : List String) :
    ∃ later, seen ⊆ later ∧ Traces later { c with statements := c.statements ++ texts } := by
  induction texts generalizing seen c with
  | nil => exact ⟨seen, List.Subset.refl _, by simpa using h⟩
  | cons text texts ih =>
      have hnext := h.step (s := .schema text) (.other (by simp)) rfl
      obtain ⟨later, hlater, htexts⟩ := ih hnext
      refine ⟨later, fun d hd => hlater (List.mem_cons_of_mem _ hd), ?_⟩
      simpa using htexts

/-- What a run leaves behind is written by runs again. -/
theorem Traces.extend (h : Traces seen c) (tablePrefix : String) {now : List Migration}
    (hnow : ∀ m ∈ now, greatest c.rows < m.version) (hdistinct : (now.map (·.version)).Nodup) :
    ∃ later, seen ⊆ later ∧ Traces later (c.extend tablePrefix now) := by
  induction now using List.reverseRecOn with
  | nil =>
      rw [extend_nil]
      exact ⟨_, List.subset_cons_self _ _, h.step (s := .createVersionTable) (.other (by simp)) rfl⟩
  | append_singleton now m ih =>
      rw [List.map_append, List.nodup_append] at hdistinct
      obtain ⟨later, hlater, hdone⟩ := ih (fun k hk => hnow k (List.mem_append_left _ hk)) hdistinct.1
      obtain ⟨latest, hlatest, htexts⟩ := hdone.texts (m.statements tablePrefix)
      have hm : greatest c.rows < m.version := hnow m (List.mem_append_right _ List.mem_cons_self)
      have hnew : m.version ∉ (c.extend tablePrefix now).rows.map Prod.fst := by
        rw [rows_extend, List.map_append, List.mem_append]
        rintro (hold | hrecent)
        · exact not_mem_of_greatest_lt hm hold
        · rw [List.map_map] at hrecent
          exact hdistinct.2.2 m.version hrecent m.version (by simp) rfl
      refine ⟨_, fun d hd => List.mem_cons_of_mem _ (hlatest (hlater hd)),
        htexts.step (.row m.description (hlatest (hlater h.mem)) hm) (effect_recordVersion hnew)⟩

theorem IsWrittenByRuns.extend (hc : c.IsWrittenByRuns) (tablePrefix : String) {now : List Migration}
    (hnow : ∀ m ∈ now, greatest c.rows < m.version) (hdistinct : (now.map (·.version)).Nodup) :
    (c.extend tablePrefix now).IsWrittenByRuns := by
  obtain ⟨seen, h⟩ := hc
  obtain ⟨later, -, hlater⟩ := h.extend tablePrefix hnow hdistinct
  exact ⟨later, hlater⟩

end Schema

/-! ## What a database shows -/

section Runs

open Exchange Schema

variable {τ : Type} {server : Server τ} {tablePrefix : String} {ms list : List Migration} {c : Schema}
  {view : τ → Holding Schema} {calm : τ → Prop} {live : Prop}

/-- What is asked of a database to look at its schema and to run migrations. -/
def schemaStatements (tablePrefix : String) (ms : List Migration) : List Statement :=
  [.probe, .hasVersionTable] ++ migrationStatements tablePrefix ms

/-- The server keeps transactions of what is asked of it about its schema. -/
abbrev Server.KeepsSchema (server : Server τ) (tablePrefix : String) (ms : List Migration)
    (view : τ → Holding Schema) (calm : τ → Prop) : Prop :=
  server.IsTransactional tablePrefix (· ∈ schemaStatements tablePrefix ms) Schema.effect view calm

theorem Server.KeepsSchema.runsMigrations (h : server.KeepsSchema tablePrefix ms view calm) :
    server.RunsMigrations tablePrefix ms view calm where
  connect := h.connect
  answer s hs := h.answer s (List.mem_append_right _ hs)
  connect_of_calm := h.connect_of_calm
  answer_of_calm s hs := h.answer_of_calm s (List.mem_append_right _ hs)

/-- A question that leaves the contents as they are, asked first on a connection. -/
theorem ensures_look {β : Type} (hserver : server.KeepsSchema tablePrefix ms view calm) (login : Login)
    (failure : ClientFault → Failure) {s : Statement} (hs : s ∈ [.probe, .hasVersionTable])
    {read : List Row → Except ClientFault β} {rows : List Row} {b : β}
    (hanswer : (⟨c, .none⟩ : Holding Schema).answer effect s = (.ok rows, ⟨c, .none⟩))
    (hread : read rows = .ok b) :
    Ensures (IsTaken tablePrefix view calm live c)
      ((Pool.database server login tablePrefix).ask failure s read)
      (fun a σ => a = b ∧ IsAt view calm live ⟨c, .none⟩ σ)
      (fun σ => ¬live ∧ IsIdle tablePrefix view calm live c σ) := by
  have hasked : s ∈ schemaStatements tablePrefix ms := List.mem_append_left _ hs
  have hrollback : .rollback ∈ schemaStatements tablePrefix ms :=
    List.mem_append_right _ (mem_migrationStatements (by decide))
  exact (ensures_ask (fun σ hσ => send_of_isIdle hserver hrollback login hasked hσ.1 hσ.2)
    hanswer hread).weaken_error fun σ hσ => ⟨hσ.not_live, hσ.isIdle_of_unchanged hanswer⟩

/-- The version of the schema is the greatest one recorded. -/
theorem ensures_schemaVersion (hserver : server.KeepsSchema tablePrefix ms view calm) (login : Login) :
    Ensures (IsIdle tablePrefix view calm live c)
      (Pool.database server login tablePrefix).schemaVersion
      (fun version σ => version = greatest c.rows ∧ IsIdle tablePrefix view calm live c σ)
      (fun σ => ¬live ∧ IsIdle tablePrefix view calm live c σ) := by
  refine Ensures.bind (ensures_take hserver login _) fun _ => ?_
  refine Ensures.bind (ensures_look hserver login _ (by decide) (b := c.versions.isSome) rfl rfl)
    fun isThere => ?_
  rintro σ ⟨rfl, hσ⟩
  cases hversions : c.versions with
  | none =>
      have hnone : greatest c.rows = 0 := by simp [rows, hversions, greatest]
      exact ⟨hnone.symm, hσ.isIdle rfl⟩
  | some rows =>
      have hrows : c.versions = some c.rows := by simp [Schema.rows, hversions]
      exact ((ensures_recordedVersion hserver.runsMigrations login hrows).weaken (fun _ h => h)
        (fun version σ hσ => ⟨hσ.1, hσ.2.1⟩) fun σ hσ => hσ) σ hσ

theorem ensures_probe (hserver : server.KeepsSchema tablePrefix ms view calm) (login : Login)
    (operation : String) :
    Ensures (IsIdle tablePrefix view calm live c)
      ((Pool.database server login tablePrefix).probe operation)
      (fun _ => IsIdle tablePrefix view calm live c)
      (fun σ => ¬live ∧ IsIdle tablePrefix view calm live c σ) := by
  refine Ensures.bind (ensures_take hserver login _) fun _ => ?_
  exact (ensures_look hserver login _ (by decide) (b := ()) rfl rfl).weaken (fun _ h => h)
    (fun _ σ hσ => hσ.2.isIdle rfl) fun σ hσ => hσ

/-- Attempts that each leave a state as they find it, and only fail if something goes wrong, do so
together. -/
theorem runFrom_ensures {σ α : Type} {x : Exchange σ α} {P : σ → Prop}
    (hx : Ensures P x (fun _ => P) fun s => ¬live ∧ P s) (p : RetryPolicy) (left attempt : ℕ) {s : σ}
    (hs : P s) :
    P (p.runFrom x left attempt s).2 ∧
      ((∃ a, (p.runFrom x left attempt s).1.result = .ok a) ∨ ¬live) := by
  induction left generalizing attempt s with
  | zero =>
      rcases hx.cases hs with ⟨a, next, hrun, hnext⟩ | ⟨f, next, hrun, hnot, hnext⟩
      · simp [RetryPolicy.runFrom, hrun, hnext]
      · simp [RetryPolicy.runFrom, hrun, hnext, hnot]
  | succ left ih =>
      unfold RetryPolicy.runFrom
      rcases hx.cases hs with ⟨a, next, hrun, hnext⟩ | ⟨f, next, hrun, hnot, hnext⟩
      · simp [hrun, hnext]
      · by_cases hf : f.isRetryable = true
        · simpa [hrun, hf] using ih (attempt + 1) hnext
        · simp [hrun, hf, hnext, hnot]

/-- Asked for the version of its schema, the database gives this answer, or meets a mishap, which does
not happen while the server is calm. -/
def Shows (db : Database (Pool × τ)) (calm : τ → Prop) (version : Int) (σ : Pool × τ) : Prop :=
  (∃ next, db.schemaVersion σ = (.ok version, next)) ∨
    ¬calm σ.2 ∧ ∃ f next, db.schemaVersion σ = (.error f, next)

theorem shows_greatest (hserver : server.KeepsSchema tablePrefix ms view calm) (login : Login)
    {σ : Pool × τ} (hσ : IsIdle tablePrefix view calm live c σ) :
    Shows (Pool.database server login tablePrefix) calm (greatest c.rows) σ := by
  rcases (ensures_schemaVersion hserver login).cases (hσ.watch id) with
    ⟨version, next, hshown, rfl, -⟩ | ⟨f, next, hshown, hnot, -⟩
  · exact .inl ⟨next, hshown⟩
  · exact .inr ⟨hnot, f, next, hshown⟩

/-- However a run ends, only runs have written to the version table. -/
theorem migrate_isWrittenByRuns (hserver : server.RunsMigrations tablePrefix ms view calm)
    (login : Login) (hlist : ∀ m ∈ list, m ∈ ms) (hdistinct : (list.map (·.version)).Nodup)
    (hc : c.IsWrittenByRuns) {σ : Pool × τ} (hσ : IsIdle tablePrefix view calm live c σ) :
    ∃ next : Schema, next.IsWrittenByRuns ∧ IsIdle tablePrefix view calm live next
      ((Pool.database server login tablePrefix).migrate tablePrefix list σ).2 := by
  have hwritten {now : List Migration} (hnow : now.Sublist (above (greatest c.rows) list)) :
      (c.extend tablePrefix now).IsWrittenByRuns :=
    hc.extend tablePrefix (fun m hm => lt_of_mem_above (hnow.subset hm))
      (hdistinct.sublist ((hnow.trans (above_sublist _ _)).map _))
  rcases (ensures_migrate_above hserver login hlist hdistinct).cases hσ with
    ⟨n, next, hrun, -, hnext⟩ | ⟨f, next, hrun, -, hnext | ⟨now, hnow, hnext⟩⟩
  · rw [hrun]
    exact ⟨_, hwritten (List.Sublist.refl _), hnext⟩
  · rw [hrun]
    exact ⟨c, hc, hnext⟩
  · rw [hrun]
    exact ⟨_, hwritten hnow.sublist, hnext⟩

/-- However the runs of a history have ended, only they have written to the version table. -/
theorem isWrittenByRuns_afterTurns (hserver : server.RunsMigrations tablePrefix ms view calm)
    (login : Login) {turns : List Turn}
    (hturns : ∀ list, .run list ∈ turns → (∀ m ∈ list, m ∈ ms) ∧ (list.map (·.version)).Nodup) {t : τ}
    (hnew : (view t).contents.versions = none) :
    ∃ c : Schema, c.IsWrittenByRuns ∧ IsIdle tablePrefix view calm False c
      (afterTurns server login tablePrefix turns t) := by
  unfold afterTurns
  induction turns using List.reverseRecOn with
  | nil =>
      refine ⟨⟨none, (view t).contents.statements⟩, ⟨_, .start _⟩, isIdle_fresh ?_ False.elim⟩
      rw [← hnew]
  | append_singleton turns turn ih =>
      obtain ⟨c, hc, hidle⟩ := ih fun list hlist => hturns list (List.mem_append_left _ hlist)
      rw [List.foldl_append]
      cases turn with
      | run list =>
          obtain ⟨hlist, hdistinct⟩ := hturns list (List.mem_append_right _ List.mem_cons_self)
          exact migrate_isWrittenByRuns hserver login hlist hdistinct hc hidle
      | restart => exact ⟨c, hc, isIdle_fresh hidle.contents False.elim⟩

/-- A version is what a run of migrations up to `known` makes of an earlier one: it is raised to `known`
if it was below, so it is beyond `known` exactly if the earlier one was. -/
structure IsRaised (known before after : Int) : Prop where
  eq : after = max before known
  le : before ≤ after
  newer : known < after ↔ known < before

theorem isRaised_max (known before : Int) : IsRaised known before (max before known) := by
  refine ⟨rfl, ?_, ?_⟩
  · omega
  · omega

theorem ensures_prepare (hserver : server.KeepsSchema tablePrefix ms view calm) (login : Login)
    (hembedded : ∀ m ∈ Migration.embedded, m ∈ ms) (hc : ∀ row ∈ c.rows, 0 < row.1) :
    Ensures (IsIdle tablePrefix view calm live c)
      ((Pool.database server login tablePrefix).prepare tablePrefix)
      (fun version _ => version = max (greatest c.rows) (maxVersion Migration.embedded))
      (fun _ => ¬live) := by
  refine Ensures.bind ((ensures_migrate_above hserver.runsMigrations login hembedded
    (by decide)).weaken (fun _ h => h) (fun n σ hσ => hσ.2) fun σ hσ => hσ.1) fun n => ?_
  refine (ensures_schemaVersion hserver login).weaken (fun _ h => h) ?_ fun σ hσ => hσ.1
  rintro version σ ⟨rfl, -⟩
  rw [rows_extend, greatest_append_above hc]

/-- A start that succeeds comes with the version that the schema was raised to. -/
theorem connect_isRaised {o : Options} (hserver : server.KeepsSchema o.tablePrefix ms view calm)
    (login : Login) (hembedded : ∀ m ∈ Migration.embedded, m ∈ ms) (hc : ∀ row ∈ c.rows, 0 < row.1)
    {σ : Pool × τ} (hσ : IsIdle o.tablePrefix view calm live c σ) :
    (∃ version, ((Pool.database server login o.tablePrefix).connect o σ).1.result = .ok version ∧
      IsRaised (maxVersion Migration.embedded) (greatest c.rows) version) ∨
    ¬calm σ.2 ∧
      ∃ f, ((Pool.database server login o.tablePrefix).connect o σ).1.result = .error f := by
  obtain ⟨hreached, hresult⟩ := runFrom_ensures
    (ensures_probe hserver login "postgres_connect_probe") o.retry o.retry.maxRetries.toNat 0
    (hσ.watch id)
  unfold Database.connect RetryPolicy.run
  rcases hrun : o.retry.runFrom ((Pool.database server login o.tablePrefix).probe
    "postgres_connect_probe") o.retry.maxRetries.toNat 0 σ with ⟨⟨result, pauses⟩, mid⟩
  rw [hrun] at hreached hresult
  cases result with
  | error f => exact .inr ⟨hresult.resolve_left (by simp), f, rfl⟩
  | ok u =>
      rcases (ensures_prepare hserver login hembedded hc).cases hreached with
        ⟨version, next, hprepare, rfl⟩ | ⟨f, next, hprepare, hnot⟩
      · exact .inl ⟨_, by simp only [hprepare], isRaised_max _ _⟩
      · exact .inr ⟨hnot, f, by simp only [hprepare]⟩

/-- As long as only runs write to the version table, the database shows the greatest version recorded.
A run that succeeds raises it to the greatest version of its list, in whatever order the list has its
migrations, and leaves a table that only runs have written to; if nothing goes wrong, it succeeds. A
start does so with the migrations at hand, so it finds a version beyond theirs exactly if it was
beyond theirs before. -/
theorem migrate_raisesVersion
    (hserver : server.KeepsSchema tablePrefix (list ++ Migration.embedded) view calm) (login : Login)
    (hdistinct : (list.map (·.version)).Nodup) (hc : c.IsWrittenByRuns) {σ : Pool × τ}
    (hσ : IsIdle tablePrefix view calm False c σ) :
    let db := Pool.database server login tablePrefix
    let before := greatest c.rows
    Shows db calm before σ ∧
    (view (db.migrate tablePrefix list σ).2.2).contents.IsWrittenByRuns ∧
    (∀ n next, db.migrate tablePrefix list σ = (.ok n, next) →
      ∃ after, Shows db calm after next ∧ IsRaised (maxVersion list) before after) ∧
    (calm σ.2 → ∃ n next, db.migrate tablePrefix list σ = (.ok n, next) ∧ calm next.2) ∧
    ∀ o : Options, o.tablePrefix = tablePrefix →
      (∃ after, (db.connect o σ).1.result = .ok after ∧
        IsRaised (maxVersion Migration.embedded) before after) ∨
      ¬calm σ.2 ∧ ∃ f, (db.connect o σ).1.result = .error f := by
  have hembedded : ∀ m ∈ Migration.embedded, m ∈ list ++ Migration.embedded := fun m hm =>
    List.mem_append_right _ hm
  have hlist : ∀ m ∈ list, m ∈ list ++ Migration.embedded := fun m hm => List.mem_append_left _ hm
  refine ⟨shows_greatest hserver login hσ, ?_, fun n next hn => ?_, fun hcalm => ?_, ?_⟩
  · obtain ⟨next, hnext, hidle⟩ :=
      migrate_isWrittenByRuns hserver.runsMigrations login hlist hdistinct hc hσ
    rwa [hidle.contents]
  · obtain ⟨-, hnext⟩ := (ensures_migrate_above hserver.runsMigrations login hlist hdistinct).of_ok
      hσ hn
    refine ⟨_, shows_greatest hserver login hnext, ?_⟩
    rw [rows_extend, greatest_append_above hc.positive]
    exact isRaised_max _ _
  · rcases (ensures_migrate_above hserver.runsMigrations login hlist hdistinct).cases
      (hσ.watch id) with ⟨n, next, hn, -, hnext⟩ | ⟨f, next, -, hnot, -⟩
    · exact ⟨n, next, hn, hnext.calm hcalm⟩
    · exact absurd hcalm hnot
  · rintro o rfl
    exact connect_isRaised hserver login hembedded hc.positive hσ

/-- Migrations out of order, with a gap and a version that is not positive. -/
def scatteredMigrations : List Migration :=
  [⟨7, "seven", "A"⟩, ⟨-1, "below", "B"⟩, ⟨5, "five", "C \x7bprefix\x7d;D"⟩]

def scatteredStatements : List Statement :=
  schemaStatements "m" (scatteredMigrations ++ Migration.embedded)

/-- A server that is asked for nothing but these migrations. -/
def scatteredServer : Server (Holding Schema × Plan) :=
  plannedServer (fun command => scatteredStatements.find? (·.command "m" = command)) effect

/-- The third version is recorded, and nothing will go wrong. -/
def thirdVersion : Holding Schema × Plan := (⟨⟨some [(3, "three")], []⟩, .none⟩, [])

theorem isWrittenByRuns_thirdVersion : IsWrittenByRuns ⟨some [(3, "three")], []⟩ := by
  have htable : Traces _ ⟨some [], []⟩ :=
    (Traces.start []).step (s := .createVersionTable) (.other (by simp)) rfl
  have hthree : MayAsk _ (.recordVersion 3 "three") := .row "three" htable.mem (by decide)
  exact ⟨_, htable.step hthree rfl⟩

/-- From the third version the run of the scattered migrations leads to the seventh. -/
theorem migrate_raisesVersion_scattered :
    (scatteredMigrations.map (·.version)).Nodup ∧ IsWrittenByRuns thirdVersion.1.contents ∧
    ∃ n next last, (Pool.database scatteredServer twoLogin "m").migrate "m" scatteredMigrations
        (Pool.fresh, thirdVersion) = (.ok n, next) ∧
      (Pool.database scatteredServer twoLogin "m").schemaVersion next = (.ok 7, last) := by
  have hdecode : ∀ s ∈ scatteredStatements,
      scatteredStatements.find? (·.command "m" = s.command "m") = some s := by
    decide +kernel
  have hserver : scatteredServer.KeepsSchema "m" (scatteredMigrations ++ Migration.embedded) Prod.fst
      (·.2 = []) :=
    plannedServer_isTransactional hdecode
  have hdistinct : (scatteredMigrations.map (·.version)).Nodup := by decide
  have hidle : IsIdle "m" Prod.fst (·.2 = []) False ⟨some [(3, "three")], []⟩
      (Pool.fresh, thirdVersion) :=
    isIdle_fresh rfl False.elim
  obtain ⟨-, -, hraises, hsucceeds, -⟩ := migrate_raisesVersion hserver twoLogin hdistinct
    isWrittenByRuns_thirdVersion hidle
  obtain ⟨n, next, hrun, hcalm⟩ := hsucceeds rfl
  obtain ⟨after, hshows, hraised⟩ := hraises n next hrun
  obtain rfl : after = 7 := hraised.eq.trans (by decide)
  obtain ⟨last, hshown⟩ := hshows.resolve_right fun hmishap => hmishap.1 hcalm
  exact ⟨hdistinct, isWrittenByRuns_thirdVersion, n, next, last, hrun, hshown⟩

end Runs

end MetricLedger.Relational
