import MetricLedger.Proofs.Relational.Tables

/-!
# The newest row of every name

A table is read as a whole, with its newest rows first. The ids by which the rows are ordered are not
sent. Main statement: `reads_keepNewest`, of the rows of a name the one with the greatest id is
given, and nothing is given if one of the rows cannot be decoded.
-/

namespace MetricLedger.Relational

/-! ## Rows with ids -/

/-- What was decoded from a row, with the id of the row. The newer of two rows has the greater id. -/
structure Numbered (α : Type) where
  id : ℤ
  item : α
  deriving DecidableEq

section Numbered

variable {α : Type} {name : α → String} {rows kept other : List (Numbered α)} {r : Numbered α}

/-- Of some rows those are kept, in the order in which they stand, that are the newest of their
name. -/
structure KeepsNewest (name : α → String) (rows kept : List (Numbered α)) : Prop where
  sublist : kept.Sublist rows
  /-- Every name is kept once. -/
  once : ∀ r ∈ rows, (kept.map fun k => name k.item).count (name r.item) = 1
  newest : ∀ k ∈ kept, ∀ r ∈ rows, name r.item = name k.item → r = k ∨ r.id < k.id

theorem keepsNewest_latestPerName (name : α → String) (h : rows.Pairwise fun a b => b.id < a.id) :
    KeepsNewest name rows (latestPerName (fun r => name r.item) rows) where
  sublist := latestUnseen_sublist _ [] rows
  once := by
    intro r hr
    refine List.count_eq_one_of_mem (nodup_names_latestUnseen _ [] rows) ?_
    exact mem_names_latestUnseen_iff.2 ⟨List.mem_map_of_mem hr, List.not_mem_nil⟩
  newest := fun _ hk _ hr hname => eq_or_of_mem_latestUnseen h hk hr hname

/-- Whether a row is kept can be told from the rows alone. -/
theorem KeepsNewest.mem_iff (h : KeepsNewest name rows kept) :
    r ∈ kept ↔ r ∈ rows ∧ ∀ s ∈ rows, name s.item = name r.item → s = r ∨ s.id < r.id := by
  refine ⟨fun hr => ⟨h.sublist.mem hr, h.newest r hr⟩, fun ⟨hr, hnewest⟩ => ?_⟩
  have hcount : 0 < (kept.map fun k => name k.item).count (name r.item) := by
    rw [h.once r hr]
    exact Nat.one_pos
  obtain ⟨k, hk, hname⟩ := List.mem_map.1 (List.count_pos_iff.1 hcount)
  -- The row that is kept of this name is newer, unless it is the same.
  rcases hnewest k (h.sublist.mem hk) hname with rfl | hlt
  · exact hk
  · rcases h.newest k hk r hr hname.symm with rfl | hgt
    · exact hk
    · exact absurd hgt hlt.asymm

/-- Rows with the newest ones first leave no choice of what to keep. -/
theorem KeepsNewest.unique (hrows : rows.Pairwise fun a b => b.id < a.id)
    (h : KeepsNewest name rows kept) (hother : KeepsNewest name rows other) : kept = other := by
  have hperm : kept.Perm other := by
    have hnodup : rows.Nodup := hrows.imp fun hlt heq => absurd (heq ▸ hlt) (lt_irrefl _)
    refine (List.perm_ext_iff_of_nodup (hnodup.sublist h.sublist)
      (hnodup.sublist hother.sublist)).2 fun r => ?_
    rw [h.mem_iff, hother.mem_iff]
  refine hperm.eq_of_pairwise (fun a b _ _ hab hba => ?_) (hrows.sublist h.sublist)
    (hrows.sublist hother.sublist)
  exact absurd hba hab.asymm

/-- What the latest of each name are does not depend on ids that nobody sees. -/
theorem latestPerName_item (name : α → String) (rows : List (Numbered α)) :
    latestPerName name (rows.map (·.item)) =
      (latestPerName (fun r => name r.item) rows).map (·.item) :=
  latestUnseen_map name Numbered.item [] rows

theorem exists_keepsNewest (name : α → String) (h : rows.Pairwise fun a b => b.id < a.id) :
    ∃ kept, (∀ other, KeepsNewest name rows other ↔ other = kept) ∧
      latestPerName name (rows.map (·.item)) = kept.map (·.item) := by
  have hkept := keepsNewest_latestPerName name h
  refine ⟨_, fun other => ⟨fun hother => hother.unique h hkept, ?_⟩, latestPerName_item name rows⟩
  rintro rfl
  exact hkept

end Numbered

/-! ## Reading a table -/

namespace Database

variable {α σ : Type}

/-- There is a connection, and on it the question for all rows of a table is answered. -/
def IsAnswered (db : Database σ) (kind : MetricKind) (s : σ) (answer : List Row) (t : σ) : Prop :=
  ∃ taken, db.acquire s = (.ok (), taken) ∧ db.send (.selectAll kind) taken = (.ok answer, t)

/-- Of a table that is read the newest row of every name is given, if all rows of the answer can be
decoded. If one of them cannot be, the reading fails, for the first of those. Without an answer it
fails as well. -/
structure ReadsNewest (db : Database σ) (kind : MetricKind) (decode : Row → Except Failure α)
    (name : α → String) (read : Exchange σ (List α)) : Prop where
  keeps : ∀ {s t : σ} {answer : List Row} {rows : List (Numbered α)},
    db.IsAnswered kind s answer t →
    List.Forall₂ (fun row r => decode row = .ok r.item) answer rows →
    (rows.Pairwise fun a b => b.id < a.id) →
    ∃ kept, (∀ other, KeepsNewest name rows other ↔ other = kept) ∧
      read s = (.ok (kept.map (·.item)), t)
  fails : ∀ {s t : σ} {answer : List Row}, db.IsAnswered kind s answer t →
    (∃ row ∈ answer, ∃ f, decode row = .error f) →
    ∃ before row behind f, answer = before ++ row :: behind ∧
      (∀ r ∈ before, ∃ a, decode r = .ok a) ∧ decode row = .error f ∧ read s = (.error f, t)
  unanswered : ∀ {s : σ}, (∀ answer t, ¬db.IsAnswered kind s answer t) →
    ∃ f t, read s = (.error f, t)

variable {db : Database σ} {operation : String} {kind : MetricKind}
  {decode : Row → Except Failure α} {name : α → String} {s t : σ} {answer : List Row}

theorem readTable_of_isAnswered (h : db.IsAnswered kind s answer t) :
    db.readTable operation kind decode name s =
      ((answer.mapM decode).map (latestPerName name), t) := by
  obtain ⟨taken, hacquire, hsend⟩ := h
  have htake : db.take PoolFault.poolFailure s = (.ok (), taken) := by
    simp [take, hacquire, Except.mapError]
  have hask : db.ask (ClientFault.queryFailure operation) (.selectAll kind) .ok taken =
      (.ok answer, t) := by
    rw [ask, hsend]
    rfl
  simp only [readTable, Exchange.bind_apply, htake, hask, conclude]
  cases answer.mapM decode <;> rfl

theorem readTable_of_not_isAnswered (h : ∀ answer t, ¬db.IsAnswered kind s answer t) :
    ∃ f t, db.readTable operation kind decode name s = (.error f, t) := by
  rcases hacquire : db.acquire s with ⟨fault | ⟨⟩, taken⟩
  · refine ⟨fault.poolFailure, taken, ?_⟩
    simp only [readTable, Exchange.bind_apply, take, hacquire, Except.mapError]
  · rcases hsend : db.send (.selectAll kind) taken with ⟨fault | answer, t⟩
    · refine ⟨fault.queryFailure operation, t, ?_⟩
      simp only [readTable, Exchange.bind_apply, take, hacquire, Except.mapError, ask, hsend]
      rfl
    · exact absurd ⟨taken, hacquire, hsend⟩ (h answer t)

/-- The first row that cannot be decoded, which is what the decoding of all rows fails for. -/
theorem exists_first_error (h : ∃ row ∈ answer, ∃ f, decode row = .error f) :
    ∃ before row behind f, answer = before ++ row :: behind ∧
      (∀ r ∈ before, ∃ a, decode r = .ok a) ∧ decode row = .error f ∧
      answer.mapM decode = .error f := by
  induction answer with
  | nil =>
      obtain ⟨row, hrow, -⟩ := h
      cases hrow
  | cons first rest ih =>
      rw [List.mapM_cons]
      cases hfirst : decode first with
      | error f =>
          exact ⟨[], first, rest, f, rfl, fun r hr => absurd hr List.not_mem_nil, hfirst, rfl⟩
      | ok a =>
          have hrest : ∃ row ∈ rest, ∃ f, decode row = .error f := by
            obtain ⟨row, hrow, f, hf⟩ := h
            rcases List.mem_cons.1 hrow with rfl | hrow
            · rw [hfirst] at hf
              cases hf
            · exact ⟨row, hrow, f, hf⟩
          obtain ⟨before, row, behind, f, rfl, hbefore, hrow, hmapM⟩ := ih hrest
          refine ⟨first :: before, row, behind, f, rfl, ?_, hrow, ?_⟩
          · exact List.forall_mem_cons.2 ⟨⟨a, hfirst⟩, hbefore⟩
          · rw [hmapM]
            rfl

theorem readsNewest_readTable (db : Database σ) (operation : String) (kind : MetricKind)
    (decode : Row → Except Failure α) (name : α → String) :
    db.ReadsNewest kind decode name (db.readTable operation kind decode name) where
  keeps := by
    intro s t answer rows hanswer hdecode hrows
    obtain ⟨kept, hkept, hlatest⟩ := exists_keepsNewest name hrows
    refine ⟨kept, hkept, ?_⟩
    rw [readTable_of_isAnswered hanswer, mapM_of_forall₂ hdecode, Except.map, hlatest]
  fails := by
    intro s t answer hanswer hbad
    obtain ⟨before, row, behind, f, hsplit, hbefore, hrow, hmapM⟩ := exists_first_error hbad
    refine ⟨before, row, behind, f, hsplit, hbefore, hrow, ?_⟩
    rw [readTable_of_isAnswered hanswer, hmapM, Except.map]
  unanswered := fun h => readTable_of_not_isAnswered h

/-- Let some rows stand with the newest ones first. The latest of each name are then some of these rows,
in the order in which they stand: one for every name, and it is the one with the greatest id. No other
list is like that, and to choose once more changes nothing. Whoever reads all counters or all gauges
is given these rows; a row that cannot be decoded is not left out, but makes the reading fail. -/
theorem reads_keepNewest (db : Database σ) :
    (∀ {α : Type} (name : α → String) (rows : List (Numbered α)),
      (rows.Pairwise fun a b => b.id < a.id) →
      ∃ kept, (∀ other, KeepsNewest name rows other ↔ other = kept) ∧
        latestPerName name (rows.map (·.item)) = kept.map (·.item)) ∧
    (∀ {α : Type} (name : α → String) (items : List α),
      latestPerName name (latestPerName name items) = latestPerName name items) ∧
    db.ReadsNewest .counter Row.counter Counter.name db.allCounters ∧
    db.ReadsNewest .gauge Row.gauge Gauge.name db.allGauges := by
  refine ⟨fun name rows h => exists_keepsNewest name h, latestPerName_latestPerName, ?_, ?_⟩
  · exact readsNewest_readTable db "postgres_get_counters" .counter Row.counter Counter.name
  · exact readsNewest_readTable db "postgres_get_gauges" .gauge Row.gauge Gauge.name

/-- Rows of counters, one name in two of them. -/
def repeatedCounters : List (Numbered Counter) := [⟨7, ⟨"hits", 5⟩⟩, ⟨4, ⟨"jobs", 1⟩⟩, ⟨2, ⟨"hits", 3⟩⟩]

/-- A row of the table of gauges that has no number. -/
def emptyGaugeRow : Row := [⟨"name", .text, .text [99, 112, 117]⟩, ⟨"value", .float8, .null⟩]

/-- A database whose table of counters has a name in two rows, and whose table of gauges has a row
without a number behind one that can be decoded. -/
def repeatedTables : Database Unit where
  acquire s := (.ok (), s)
  send
    | .selectAll .counter, s =>
        (.ok (repeatedCounters.map fun r => Tables.counterRow (r.item.name, r.item.value)), s)
    | .selectAll .gauge, s => (.ok [Tables.gaugeRow ("mem", ⟨0⟩), emptyGaugeRow], s)
    | _, s => (.ok [], s)
  abandon s := s
  close s := s

theorem reads_keepNewest_repeatedNames :
    repeatedTables.allCounters () = (.ok [⟨"hits", 5⟩, ⟨"jobs", 1⟩], ()) ∧
    ∃ f, repeatedTables.allGauges () = (.error f, ()) := by
  obtain ⟨-, -, hcounters, hgauges⟩ := reads_keepNewest repeatedTables
  constructor
  · have hdecode : List.Forall₂ (fun row r => Row.counter row = .ok (Numbered.item r))
        (repeatedCounters.map fun r => Tables.counterRow (r.item.name, r.item.value))
        repeatedCounters :=
      List.forall₂_map_left_iff.2 (List.forall₂_same.2 fun r _ => Tables.counter_counterRow _)
    have hkept : KeepsNewest Counter.name repeatedCounters [⟨7, ⟨"hits", 5⟩⟩, ⟨4, ⟨"jobs", 1⟩⟩] :=
      ⟨by decide +kernel, by decide +kernel, by decide +kernel⟩
    obtain ⟨kept, hunique, hread⟩ := hcounters.keeps ⟨(), rfl, rfl⟩ hdecode (by decide)
    rw [hread, ← (hunique _).1 hkept]
    rfl
  · have hempty : ∃ f, Row.gauge emptyGaugeRow = .error f := ⟨_, rfl⟩
    obtain ⟨_, _, _, f, -, -, -, hread⟩ := hgauges.fails ⟨(), rfl, rfl⟩
      ⟨emptyGaugeRow, List.mem_cons_of_mem _ List.mem_cons_self, hempty⟩
    exact ⟨f, hread⟩

end Database

end MetricLedger.Relational
