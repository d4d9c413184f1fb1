import MetricLedger.Proofs.Relational.Exchanges
import MetricLedger.Proofs.Text.Utf8
import MetricLedger.Storage

/-!
# Tables that hold a ledger

A database keeps counters and gauges in two tables, with the name as the key of a row; an upsert
changes the row of a name, or makes it. Tables hold a ledger if their rows are its entries, in
whichever order. Main statements: `effect_upsert_of_ok` and `effect_upsert_of_error`, an upsert is
taken or refused as the ledger takes or refuses the record, and `Storage.Keeps.reads`, whatever is
read from a database that keeps a ledger is what the ledger says.
-/

namespace MetricLedger.Relational

/-- The rows of the tables of counters and of gauges, the oldest first. -/
structure Tables where
  counters : List (String × Int64)
  gauges : List (String × Binary64)
  deriving DecidableEq, Repr

namespace Tables

/-! ## Rows under names -/

section Rows

variable {α : Type} {name : String} {v : α} {rows : List (String × α)} {t : Table α}

/-- Puts a value under a name: into the row of the name, or into a new one. -/
def put (name : String) (v : α) : List (String × α) → List (String × α)
  | [] => [(name, v)]
  | row :: rows => if name = row.1 then (name, v) :: rows else row :: put name v rows

theorem valueAt?_put (name other : String) (v : α) (rows : List (String × α)) :
    Table.valueAt? other (put name v rows) =
      if other = name then some v else Table.valueAt? other rows := by
  induction rows with
  | nil => rfl
  | cons row rows ih =>
      rw [put]
      split
      next h =>
        simp only [Table.valueAt?, ← h]
        split <;> rfl
      next h =>
        rw [Table.valueAt?, ih, Table.valueAt?]
        split
        next hrow => rw [if_neg (hrow ▸ Ne.symm h)]
        next => rfl

theorem map_name_put (name : String) (v : α) (rows : List (String × α)) :
    (put name v rows).map (·.1) =
      if name ∈ rows.map (·.1) then rows.map (·.1) else rows.map (·.1) ++ [name] := by
  induction rows with
  | nil => rfl
  | cons row rows ih =>
      rw [put]
      split
      next h => simp [h]
      next h =>
        rw [List.map_cons, ih]
        simp only [List.map_cons, List.mem_cons, h, false_or]
        split <;> rfl

theorem nodup_names_put (h : (rows.map (·.1)).Nodup) (name : String) (v : α) :
    ((put name v rows).map (·.1)).Nodup := by
  rw [map_name_put]
  split
  next => exact h
  next hname =>
    refine List.nodup_append.2 ⟨h, List.nodup_singleton name, fun other hother last hlast => ?_⟩
    rintro rfl
    exact hname (List.mem_singleton.1 hlast ▸ hother)

/-- If no two rows have a name in common, the rows are the look-ups. -/
theorem mem_iff_of_nodup (h : (rows.map (·.1)).Nodup) :
    (name, v) ∈ rows ↔ Table.valueAt? name rows = some v := by
  induction rows with
  | nil => simp [Table.valueAt?]
  | cons row rows ih =>
      obtain ⟨hrow, hrows⟩ := List.nodup_cons.1 h
      rw [List.mem_cons, ih hrows, Table.valueAt?]
      obtain ⟨n, w⟩ := row
      by_cases hn : name = n
      · subst hn
        have hnone : Table.valueAt? name rows ≠ some v := fun hv =>
          hrow (List.mem_map.2 ⟨_, (ih hrows).2 hv, rfl⟩)
        simp [hnone, eq_comm]
      · simp [hn]

theorem nodup_names_of_perm (h : rows.Perm t.entries) : (rows.map (·.1)).Nodup :=
  (h.map _).nodup_iff.2 t.nodup_names

theorem valueAt?_of_perm (h : rows.Perm t.entries) (name : String) :
    Table.valueAt? name rows = t.get? name := by
  refine Option.ext fun v => ?_
  rw [← mem_iff_of_nodup (nodup_names_of_perm h), h.mem_iff, Table.mem_entries_iff]

theorem perm_put (h : rows.Perm t.entries) (name : String) (v : α) :
    (put name v rows).Perm (t.insert name v).entries := by
  have hput := nodup_names_put (nodup_names_of_perm h) name v
  refine (List.perm_ext_iff_of_nodup hput.of_map (t.insert name v).nodup_names.of_map).2 ?_
  rintro ⟨other, w⟩
  rw [mem_iff_of_nodup hput, valueAt?_put, valueAt?_of_perm h, Table.mem_entries_iff,
    Table.get?_insert]

/-- There is one row of a name at most. -/
theorem filter_of_perm (h : rows.Perm t.entries) (name : String) :
    rows.filter (·.1 = name) = (t.get? name).toList.map fun v => (name, v) := by
  rw [← valueAt?_of_perm h name]
  have hnodup := nodup_names_of_perm h
  clear h
  induction rows with
  | nil => rfl
  | cons row rows ih =>
      obtain ⟨hrow, hrows⟩ := List.nodup_cons.1 hnodup
      rw [List.filter_cons, Table.valueAt?, ih hrows]
      obtain ⟨n, w⟩ := row
      by_cases hn : name = n
      · subst hn
        have hnone : Table.valueAt? name rows = none := Option.eq_none_iff_forall_ne_some.2
          fun v hv => hrow (List.mem_map.2 ⟨_, (mem_iff_of_nodup hrows).2 hv, rfl⟩)
        simp [hnone]
      · simp [hn, Ne.symm hn]

end Rows

/-! ## What statements do -/

/-- A row of the table of counters as it is answered. -/
def counterRow (row : String × Int64) : Row := [
  ⟨"name", .text, .text (Text.utf8Encode row.1.toList)⟩,
  ⟨"value", .int8, .integer row.2.toInt⟩]

/-- A row of the table of gauges as it is answered. -/
def gaugeRow (row : String × Binary64) : Row := [
  ⟨"name", .text, .text (Text.utf8Encode row.1.toList)⟩,
  ⟨"value", .float8, .number row.2⟩]

/-- What statements do to the tables. A sum that is out of the range of its column is refused. -/
def effect : Effect Tables
  | .upsert (.counter name delta), d =>
      match Table.valueAt? name d.counters with
      | none => .ok ([], { d with counters := put name delta d.counters })
      | some value =>
          match counterValue? (value.toInt + delta.toInt) with
          | some sum => .ok ([], { d with counters := put name sum d.counters })
          | none => .error ClientFault.outOfRange
  | .upsert (.gauge name value), d => .ok ([], { d with gauges := put name value d.gauges })
  | .select .counter name, d => .ok ((d.counters.filter (·.1 = name)).map counterRow, d)
  | .select .gauge name, d => .ok ((d.gauges.filter (·.1 = name)).map gaugeRow, d)
  | .selectAll .counter, d => .ok (d.counters.reverse.map counterRow, d)
  | .selectAll .gauge, d => .ok (d.gauges.reverse.map gaugeRow, d)
  | _, d => .ok ([], d)

/-- The rows of the tables are the entries of a ledger. -/
structure Holds (d : Tables) (l : Ledger) : Prop where
  counters : d.counters.Perm l.counters.entries
  gauges : d.gauges.Perm l.gauges.entries

variable {d : Tables} {l m : Ledger} {r : Record}

theorem Holds.unique (hl : d.Holds l) (hm : d.Holds m) : l = m :=
  Ledger.ext_get?
    (fun name => (valueAt?_of_perm hl.counters name).symm.trans (valueAt?_of_perm hm.counters name))
    (fun name => (valueAt?_of_perm hl.gauges name).symm.trans (valueAt?_of_perm hm.gauges name))

/-- A counter without a row is as good as one whose value is zero. -/
theorem effect_upsert_counter (h : d.Holds l) (name : String) (delta : Int64) :
    effect (.upsert (.counter name delta)) d =
      match counterValue? ((l.counterOrZero name).toInt + delta.toInt) with
      | some sum => .ok ([], { d with counters := put name sum d.counters })
      | none => .error ClientFault.outOfRange := by
  simp only [effect, valueAt?_of_perm h.counters name, Ledger.counterOrZero]
  cases l.counters.get? name with
  | some value => rfl
  | none =>
      have hsum : (Option.getD (none : Option Int64) 0).toInt + delta.toInt = delta.toInt :=
        zero_add _
      rw [hsum, counterValue?_toInt]

/-- An upsert of a record that the ledger takes leads to what the ledger is then. -/
theorem effect_upsert_of_ok (h : d.Holds l) (happly : l.apply r = .ok m) :
    ∃ next, effect (.upsert r) d = .ok ([], next) ∧ next.Holds m := by
  cases r with
  | gauge name value =>
      obtain rfl := Except.ok.inj happly
      exact ⟨_, rfl, h.counters, perm_put h.gauges name value⟩
  | counter name delta =>
      rw [effect_upsert_counter h]
      rw [Ledger.apply] at happly
      cases hsum : counterValue? ((l.counterOrZero name).toInt + delta.toInt) with
      | none =>
          rw [hsum] at happly
          cases happly
      | some sum =>
          rw [hsum] at happly
          obtain rfl := Except.ok.inj happly
          exact ⟨_, rfl, perm_put h.counters name sum, h.gauges⟩

/-- An upsert of a record that the ledger refuses is refused. -/
theorem effect_upsert_of_error {f : Failure} (h : d.Holds l) (happly : l.apply r = .error f) :
    effect (.upsert r) d = .error ClientFault.outOfRange := by
  cases r with
  | gauge name value => cases happly
  | counter name delta =>
      rw [effect_upsert_counter h]
      rw [Ledger.apply] at happly
      cases hsum : counterValue? ((l.counterOrZero name).toInt + delta.toInt) with
      | none => rfl
      | some sum =>
          rw [hsum] at happly
          cases happly

theorem readNamed_name (name : String) (rest : List Column) :
    Row.readNamed Column.text? (⟨"name", .text, .text (Text.utf8Encode name.toList)⟩ :: rest) "name" =
      .ok name := by
  simp [Row.readNamed, Row.indexOf?, Row.readAt, List.findIdx?_cons, Column.text?,
    Text.utf8Decode_utf8Encode, Except.toOption]

theorem counter_counterRow (row : String × Int64) :
    Row.counter (counterRow row) = .ok ⟨row.1, row.2⟩ := by
  have hvalue : Row.readNamed Column.int64? (counterRow row) "value" = .ok row.2 := by
    show Except.ok (Int64.ofInt row.2.toInt) = _
    rw [Int64.ofInt_toInt]
  rw [Row.counter, hvalue, counterRow, readNamed_name]
  rfl

theorem gauge_gaugeRow (row : String × Binary64) :
    Row.gauge (gaugeRow row) = .ok ⟨row.1, row.2⟩ := by
  have hvalue : Row.readNamed Column.number? (gaugeRow row) "value" = .ok row.2 := rfl
  rw [Row.gauge, hvalue, gaugeRow, readNamed_name]
  rfl

end Tables

/-! ## What is read -/

theorem mapM_of_forall₂ {α β γ : Type} {read : β → Except Failure γ} {value : α → γ}
    {rows : List β} {items : List α}
    (h : List.Forall₂ (fun row a => read row = .ok (value a)) rows items) :
    rows.mapM read = .ok (items.map value) := by
  induction h with
  | nil => rfl
  | cons hrow _ ih =>
      rw [List.mapM_cons, hrow, ih]
      rfl

/-- Reads the row of a name in a table. -/
def Database.readRow {α σ : Type} (db : Database σ) (operation : String) (kind : MetricKind)
    (decode : Row → Except Failure α) (name : String) : Exchange σ α := do
  db.take PoolFault.poolFailure
  let row ← db.ask (ClientFault.queryFailure operation) (.select kind name) Row.single?
  match row with
  | some row => conclude (decode row)
  | none => throw (.notFound kind name)

/-- Reads a table: all its rows are decoded, and the latest of each name are given. -/
def Database.readTable {α σ : Type} (db : Database σ) (operation : String) (kind : MetricKind)
    (decode : Row → Except Failure α) (name : α → String) : Exchange σ (List α) := do
  db.take PoolFault.poolFailure
  let rows ← db.ask (ClientFault.queryFailure operation) (.selectAll kind) .ok
  let items ← conclude (rows.mapM decode)
  return latestPerName name items

/-- What is asked of a database to read and write a ledger. -/
def Statement.IsOfLedger : Statement → Prop
  | .startTransaction | .commit | .rollback | .upsert _ | .select .. | .selectAll _ => True
  | _ => False

/-- The server keeps transactions of what is asked of it to read and write a ledger. -/
abbrev Server.KeepsLedgers {τ : Type} (server : Server τ) (tablePrefix : String)
    (view : τ → Holding Tables) (calm : τ → Prop) : Prop :=
  server.IsTransactional tablePrefix Statement.IsOfLedger Tables.effect view calm

/-- The database of a storage keeps a ledger; it is between two exchanges, and calm. -/
def Storage.Keeps {τ : Type} (view : τ → Holding Tables) (calm : τ → Prop) (l : Ledger)
    (s : Storage) (t : τ) : Prop :=
  ∃ d : Tables, d.Holds l ∧ IsIdle s.tablePrefix view calm True d (s.pool, t)

section Reads

open Exchange Tables

variable {α τ : Type} {server : Server τ} {tablePrefix : String} {view : τ → Holding Tables}
  {calm : τ → Prop} {l : Ledger} {d : Tables}

/-- A question that changes nothing is answered. -/
theorem exists_ask
    (hserver : server.KeepsLedgers tablePrefix view calm) (login : Login)
    (failure : ClientFault → Failure) {q : Statement} (hq : q.IsOfLedger) {rows : List Row}
    (hanswer : Holding.answer effect q ⟨d, .none⟩ = (.ok rows, ⟨d, .none⟩))
    (read : List Row → Except ClientFault α) {a : α} (hread : read rows = .ok a) {σ : Pool × τ}
    (hσ : IsIdle tablePrefix view calm True d σ) :
    ∃ taken next,
      (Pool.database server login tablePrefix).take PoolFault.poolFailure σ = (.ok (), taken) ∧
      (Pool.database server login tablePrefix).ask failure q read taken = (.ok a, next) ∧
      IsIdle tablePrefix view calm True d next := by
  obtain ⟨_, taken, htake, htaken⟩ :=
    (ensures_take hserver login PoolFault.poolFailure).exists_ok
      (fun _ hnot => hnot.1 trivial) hσ
  obtain ⟨_, next, hask, rfl, hnext⟩ :=
    (ensures_ask (fun σ hσ => send_of_isIdle hserver trivial login hq hσ.1 hσ.2) hanswer
      hread).exists_ok (fun _ hint => hint.not_live trivial) htaken
  exact ⟨taken, next, htake, hask, hnext.isIdle rfl⟩

theorem readRow_of_holds {β : Type}
    (hserver : server.KeepsLedgers tablePrefix view calm) (login : Login) (operation : String)
    (kind : MetricKind) {rows : List (String × β)} {t : Table β} (hrows : rows.Perm t.entries)
    {make : String × β → Row} (name : String)
    (hanswer : Holding.answer effect (.select kind name) ⟨d, .none⟩ =
      (.ok ((rows.filter (·.1 = name)).map make), ⟨d, .none⟩))
    {decode : Row → Except Failure α} {value : String × β → α}
    (hdecode : ∀ row, decode (make row) = .ok (value row)) {σ : Pool × τ}
    (hσ : IsIdle tablePrefix view calm True d σ) :
    ∃ next, (Pool.database server login tablePrefix).readRow operation kind decode name σ =
        ((t.get? name).elim (.error (.notFound kind name)) fun v => .ok (value (name, v)), next) ∧
      IsIdle tablePrefix view calm True d next := by
  have hread : Row.single? ((rows.filter (·.1 = name)).map make) =
      .ok ((t.get? name).map fun v => make (name, v)) := by
    rw [filter_of_perm hrows name]
    cases t.get? name <;> rfl
  obtain ⟨taken, next, htake, hask, hnext⟩ := exists_ask hserver login
    (ClientFault.queryFailure operation) (q := .select kind name) trivial hanswer Row.single? hread
    hσ
  refine ⟨next, ?_, hnext⟩
  simp only [Database.readRow, bind_apply, htake, hask]
  cases t.get? name with
  | none => rfl
  | some v => simp only [Option.map_some, Option.elim_some, Database.conclude, hdecode]

theorem getCounter_of_holds
    (hserver : server.KeepsLedgers tablePrefix view calm) (login : Login)
    (hd : d.Holds l) (name : String) {σ : Pool × τ}
    (hσ : IsIdle tablePrefix view calm True d σ) :
    ∃ next, (Pool.database server login tablePrefix).getCounter name σ =
        (l.getCounter name, next) ∧ IsIdle tablePrefix view calm True d next := by
  obtain ⟨next, hread, hnext⟩ := readRow_of_holds hserver login "postgres_get_counter" .counter
    hd.counters name rfl counter_counterRow hσ
  refine ⟨next, hread.trans ?_, hnext⟩
  rw [Ledger.getCounter]
  cases l.counters.get? name <;> rfl

theorem getGauge_of_holds
    (hserver : server.KeepsLedgers tablePrefix view calm) (login : Login)
    (hd : d.Holds l) (name : String) {σ : Pool × τ}
    (hσ : IsIdle tablePrefix view calm True d σ) :
    ∃ next, (Pool.database server login tablePrefix).getGauge name σ =
        (l.getGauge name, next) ∧ IsIdle tablePrefix view calm True d next := by
  obtain ⟨next, hread, hnext⟩ := readRow_of_holds hserver login "postgres_get_gauge" .gauge
    hd.gauges name rfl gauge_gaugeRow hσ
  refine ⟨next, hread.trans ?_, hnext⟩
  rw [Ledger.getGauge]
  cases l.gauges.get? name <;> rfl

/-- Rows that are the entries of a table are all listed, the newest first. -/
theorem latestPerName_reverse {β : Type} {rows : List (String × β)} {t : Table β}
    (h : rows.Perm t.entries) {name : α → String} {value : String × β → α}
    (hname : ∀ row, name (value row) = row.1) :
    latestPerName name (rows.reverse.map value) = rows.reverse.map value := by
  refine latestUnseen_of_nodup name ?_ (by simp)
  have hnames : (rows.reverse.map value).map name = (rows.map (·.1)).reverse := by
    rw [List.map_map, List.map_reverse]
    simp only [Function.comp_def, hname]
  rw [hnames]
  exact List.nodup_reverse.2 (nodup_names_of_perm h)

theorem readTable_of_holds {β : Type}
    (hserver : server.KeepsLedgers tablePrefix view calm) (login : Login) (operation : String)
    (kind : MetricKind) {rows : List (String × β)} {t : Table β} (hrows : rows.Perm t.entries)
    {make : String × β → Row}
    (hanswer : Holding.answer effect (.selectAll kind) ⟨d, .none⟩ =
      (.ok (rows.reverse.map make), ⟨d, .none⟩))
    {decode : Row → Except Failure α} {value : String × β → α}
    (hdecode : ∀ row, decode (make row) = .ok (value row)) (name : α → String)
    (hname : ∀ row, name (value row) = row.1) {σ : Pool × τ}
    (hσ : IsIdle tablePrefix view calm True d σ) :
    ∃ next, (Pool.database server login tablePrefix).readTable operation kind decode name σ =
        (.ok (rows.reverse.map value), next) ∧ IsIdle tablePrefix view calm True d next := by
  obtain ⟨taken, next, htake, hask, hnext⟩ := exists_ask hserver login
    (ClientFault.queryFailure operation) (q := .selectAll kind) trivial hanswer Except.ok rfl hσ
  have hitems : (rows.reverse.map make).mapM decode = .ok (rows.reverse.map value) :=
    mapM_of_forall₂ (List.forall₂_map_left_iff.2 (List.forall₂_same.2 fun row _ => hdecode row))
  refine ⟨next, ?_, hnext⟩
  simp only [Database.readTable, bind_apply, htake, hask, Database.conclude, hitems]
  exact congrArg (fun items => (Except.ok items, next)) (latestPerName_reverse hrows hname)

theorem allCounters_of_holds
    (hserver : server.KeepsLedgers tablePrefix view calm) (login : Login)
    (hd : d.Holds l) {σ : Pool × τ} (hσ : IsIdle tablePrefix view calm True d σ) :
    ∃ counters next, (Pool.database server login tablePrefix).allCounters σ =
        (.ok counters, next) ∧ counters.Perm l.allCounters ∧
      IsIdle tablePrefix view calm True d next := by
  obtain ⟨next, hread, hnext⟩ := readTable_of_holds hserver login "postgres_get_counters"
    .counter hd.counters rfl counter_counterRow Counter.name (fun _ => rfl) hσ
  exact ⟨_, next, hread, (d.counters.reverse_perm.trans hd.counters).map _, hnext⟩

theorem allGauges_of_holds
    (hserver : server.KeepsLedgers tablePrefix view calm) (login : Login)
    (hd : d.Holds l) {σ : Pool × τ} (hσ : IsIdle tablePrefix view calm True d σ) :
    ∃ gauges next, (Pool.database server login tablePrefix).allGauges σ =
        (.ok gauges, next) ∧ gauges.Perm l.allGauges ∧
      IsIdle tablePrefix view calm True d next := by
  obtain ⟨next, hread, hnext⟩ := readTable_of_holds hserver login "postgres_get_gauges"
    .gauge hd.gauges rfl gauge_gaugeRow Gauge.name (fun _ => rfl) hσ
  exact ⟨_, next, hread, (d.gauges.reverse_perm.trans hd.gauges).map _, hnext⟩

/-- What is read from a database that keeps a ledger is what the ledger says, but for the order of
lists. -/
theorem Storage.Keeps.reads {s : Storage} {t : τ}
    (hserver : server.KeepsLedgers s.tablePrefix view calm) (hs : s.Keeps view calm l t) :
    (∀ name, ∃ s' t', MetricLedger.Storage.getCounter server name (.relational s) t =
      (l.getCounter name, .relational s', t') ∧ s'.Keeps view calm l t') ∧
    (∀ name, ∃ s' t', MetricLedger.Storage.getGauge server name (.relational s) t =
      (l.getGauge name, .relational s', t') ∧ s'.Keeps view calm l t') ∧
    (∃ counters s' t', MetricLedger.Storage.allCounters server (.relational s) t =
      (.ok counters, .relational s', t') ∧ counters.Perm l.allCounters ∧ s'.Keeps view calm l t') ∧
    ∃ gauges s' t', MetricLedger.Storage.allGauges server (.relational s) t =
      (.ok gauges, .relational s', t') ∧ gauges.Perm l.allGauges ∧ s'.Keeps view calm l t' := by
  obtain ⟨d, hd, hidle⟩ := hs
  refine ⟨fun name => ?_, fun name => ?_, ?_, ?_⟩
  · obtain ⟨⟨pool, u⟩, hrun, hnext⟩ := getCounter_of_holds hserver s.login hd name hidle
    refine ⟨{ s with pool }, u, ?_, d, hd, hnext⟩
    simp only [MetricLedger.Storage.getCounter, MetricLedger.Storage.read, Storage.run, hrun]
  · obtain ⟨⟨pool, u⟩, hrun, hnext⟩ := getGauge_of_holds hserver s.login hd name hidle
    refine ⟨{ s with pool }, u, ?_, d, hd, hnext⟩
    simp only [MetricLedger.Storage.getGauge, MetricLedger.Storage.read, Storage.run, hrun]
  · obtain ⟨counters, ⟨pool, u⟩, hrun, hperm, hnext⟩ :=
      allCounters_of_holds hserver s.login hd hidle
    refine ⟨counters, { s with pool }, u, ?_, hperm, d, hd, hnext⟩
    simp only [MetricLedger.Storage.allCounters, MetricLedger.Storage.read, Storage.run, hrun]
  · obtain ⟨gauges, ⟨pool, u⟩, hrun, hperm, hnext⟩ :=
      allGauges_of_holds hserver s.login hd hidle
    refine ⟨gauges, { s with pool }, u, ?_, hperm, d, hd, hnext⟩
    simp only [MetricLedger.Storage.allGauges, MetricLedger.Storage.read, Storage.run, hrun]

end Reads

end MetricLedger.Relational
