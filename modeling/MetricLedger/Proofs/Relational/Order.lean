import MetricLedger.Proofs.Relational.Schema

/-!
# The order of a list of migrations

A run follows the order of its list and passes over every migration that is not above the greatest
version at its start. A list in another order than that of the versions is run in its own order, and
once a run of it was cut short, what stands behind a greater version is never applied. Main statement:
`migrate_followsList`.
-/

namespace MetricLedger.Relational

/-! ## What is pending -/

/-- The versions of the migrations are positive, and no two are the same. -/
structure IsNumbered (ms : List Migration) : Prop where
  distinct : (ms.map (·.version)).Nodup
  positive : ∀ m ∈ ms, 0 < m.version

section Lists

variable {ms done now : List Migration} {m : Migration}

theorem pending_nothing (hms : IsNumbered ms) : pending [] ms = ms := by
  refine List.filter_eq_self.2 fun m hm => ?_
  have hgreatest : Schema.greatest (([] : List Migration).map Migration.row) = 0 := rfl
  rw [hgreatest, decide_eq_true_eq]
  exact hms.positive m hm

/-- What is above all that is done after a run was above all that was done before it. -/
theorem greatest_lt_of_append (hnow : now <+: pending done ms)
    (hm : Schema.greatest ((done ++ now).map Migration.row) < m.version) :
    Schema.greatest (done.map Migration.row) < m.version := by
  cases now with
  | nil => rwa [List.append_nil] at hm
  | cons k rest =>
      have hk : Schema.greatest (done.map Migration.row) < k.version :=
        greatest_lt_of_mem_pending (hnow.subset List.mem_cons_self)
      have hle : k.version ≤ Schema.greatest ((done ++ k :: rest).map Migration.row) :=
        version_le_greatest (List.mem_append_right _ List.mem_cons_self)
      exact hk.trans (hle.trans_lt hm)

/-- What is pending after a run is left of what was pending before it. -/
theorem pending_append (hnow : now <+: pending done ms) :
    pending (done ++ now) ms = pending (done ++ now) (pending done ms) := by
  rw [pending, pending, pending, List.filter_filter]
  refine List.filter_congr fun m _ => ?_
  rw [Bool.eq_iff_iff, Bool.and_eq_true, decide_eq_true_eq, decide_eq_true_eq]
  exact ⟨fun hm => ⟨hm, greatest_lt_of_append hnow hm⟩, And.left⟩

/-- A run keeps to the order of its list: what is done and what is pending stand in it one behind the
other. -/
theorem append_pending_sublist (hms : (done ++ pending done ms).Sublist ms)
    (hnow : now <+: pending done ms) :
    ((done ++ now) ++ pending (done ++ now) ms).Sublist ms := by
  rw [pending_append hnow]
  obtain ⟨rest, hrest⟩ := hnow
  have hnone : pending (done ++ now) now = [] := by
    refine List.filter_eq_nil_iff.2 fun m hm => ?_
    simpa using version_le_greatest (List.mem_append_right done hm)
  have hpending : pending (done ++ now) (pending done ms) = pending (done ++ now) rest := by
    rw [← hrest]
    exact (List.filter_append ..).trans (by rw [← pending, hnone, List.nil_append, pending])
  rw [hpending]
  rw [← hrest, ← List.append_assoc] at hms
  exact ((List.filter_sublist).append_left (done ++ now)).trans hms

/-- What is done and what is pending is the whole list exactly if nothing of it was passed over. -/
theorem append_pending_eq_iff (hms : (done ++ pending done ms).Sublist ms)
    (hdistinct : (ms.map (·.version)).Nodup) :
    done ++ pending done ms = ms ↔
      ∀ m ∈ ms, m.version ≤ Schema.greatest (done.map Migration.row) → m ∈ done := by
  constructor
  · intro heq m hm hle
    rw [← heq] at hm
    refine (List.mem_append.1 hm).resolve_right fun hpending => ?_
    exact absurd (greatest_lt_of_mem_pending hpending) (Int.not_lt.2 hle)
  · intro hall
    have hsubset : ms ⊆ done ++ pending done ms := by
      intro m hm
      by_cases hle : m.version ≤ Schema.greatest (done.map Migration.row)
      · exact List.mem_append_left _ (hall m hm hle)
      · exact List.mem_append_right _ (List.mem_filter.2 ⟨hm, by simpa using hle⟩)
    have hnodup : ms.Nodup := List.Nodup.of_map _ hdistinct
    exact hms.eq_of_length_le (hnodup.subperm hsubset).length_le

/-- Of ascending migrations none is ever passed over. -/
theorem append_pending_of_ascending (hms : IsAscending ms) (hdone : done <+: ms) :
    done ++ pending done ms = ms := by
  rw [pending_eq_drop hms hdone List.prefix_rfl]
  exact (List.prefix_append_drop hdone).symm

end Lists

/-! ## Histories of one list -/

section Histories

open Exchange Schema

variable {τ : Type} {server : Server τ} {tablePrefix : String} {ms done : List Migration}
  {view : τ → Holding Schema} {calm : τ → Prop}

/-- The turn runs a list as a whole. -/
def Turn.IsWhole (ms : List Migration) : Turn → Prop
  | .run list => list = ms
  | .restart => True

/-- What runs of one list can come to: what is done and what is pending stand in the order of the
list, and make up all of it if it is ascending. -/
structure Follows (ms done : List Migration) : Prop where
  sublist : (done ++ pending done ms).Sublist ms
  whole : IsAscending ms → done ++ pending done ms = ms

theorem follows_nothing (hms : IsNumbered ms) : Follows ms [] := by
  have hnothing : [] ++ pending [] ms = ms := pending_nothing hms
  exact ⟨by rw [hnothing], fun _ => hnothing⟩

theorem Follows.append {now : List Migration} (hdone : Follows ms done)
    (hnow : now <+: pending done ms) : Follows ms (done ++ now) where
  sublist := append_pending_sublist hdone.sublist hnow
  whole hascending := by
    refine append_pending_of_ascending hascending ?_
    have hprefix := (List.prefix_append_right_inj done).2 hnow
    rwa [hdone.whole hascending] at hprefix

theorem follows_afterTurns (hms : IsNumbered ms)
    (hserver : server.RunsMigrations tablePrefix ms view calm) (login : Login)
    {turns : List Turn} (hturns : ∀ turn ∈ turns, turn.IsWhole ms) {t : τ}
    (hnew : (view t).contents = empty) :
    ∃ done, Follows ms done ∧ IsReached tablePrefix view calm False done
      (afterTurns server login tablePrefix turns t) := by
  unfold afterTurns
  induction turns using List.reverseRecOn with
  | nil =>
      exact ⟨[], follows_nothing hms, empty, isAfter_empty tablePrefix,
        isIdle_fresh hnew False.elim⟩
  | append_singleton turns turn ih =>
      obtain ⟨done, hdone, hreached⟩ := ih fun turn hturn =>
        hturns turn (List.mem_append_left _ hturn)
      rw [List.foldl_append]
      have hturn := hturns turn (List.mem_append_right _ (List.mem_singleton.2 rfl))
      cases turn with
      | run list =>
          obtain rfl : list = ms := hturn
          simp only [List.foldl_cons, List.foldl_nil, Turn.next]
          rcases (ensures_migrate_pending hserver login (fun m hm => hm) hms.distinct).cases
              hreached with ⟨n, next, hrun, -, hnext⟩ | ⟨f, next, hrun, -, now, hnow, hnext⟩
          · rw [hrun]
            exact ⟨_, hdone.append List.prefix_rfl, hnext⟩
          · rw [hrun]
            exact ⟨_, hdone.append hnow, hnext⟩
      | restart =>
          obtain ⟨contents, hafter, hidle⟩ := hreached
          exact ⟨done, hdone, contents, hafter, isIdle_fresh hidle.contents False.elim⟩

/-- Every migration of the list is recorded and was applied exactly once. -/
def HoldsAll (tablePrefix : String) (ms : List Migration) (c : Schema) : Prop :=
  ∃ done, done.Perm ms ∧ c.IsAfter tablePrefix done

/-- A run that succeeds has applied every migration exactly if it has left none out. -/
theorem holdsAll_iff {c : Schema} (hdone : done.Sublist ms) (hc : c.IsAfter tablePrefix done) :
    HoldsAll tablePrefix ms c ↔ done = ms := by
  constructor
  · rintro ⟨all, hall, hcall⟩
    have hlength := congrArg List.length (hc.rows.symm.trans hcall.rows)
    rw [List.length_map, List.length_map, hall.length_eq] at hlength
    exact hdone.eq_of_length hlength
  · rintro rfl
    exact ⟨done, List.Perm.refl _, hc⟩

/-- After any history of runs of one list of migrations with versions of their own, each of which may
have been cut short anywhere, the next run applies, in the order of the list, those above all that are
done, up to the first mishap. If it succeeds, every migration of the list is applied exactly if none of
those that are not done stood below the greatest version. If the list is in the order of its versions,
this is always so, and every run is in the order of the versions. -/
theorem migrate_followsList (hms : IsNumbered ms)
    (hserver : server.RunsMigrations tablePrefix ms view calm) (login : Login)
    {turns : List Turn} (hturns : ∀ turn ∈ turns, turn.IsWhole ms) {t : τ}
    (hnew : (view t).contents = empty) :
    ∃ done, (done ++ pending done ms).Sublist ms ∧
      let σ := afterTurns server login tablePrefix turns t
      let run := (Pool.database server login tablePrefix).migrate tablePrefix ms σ
      (view σ.2).contents.IsAfter tablePrefix done ∧
        Advances tablePrefix view calm done (pending done ms) σ run ∧
        (∀ n, run.1 = .ok n → (HoldsAll tablePrefix ms (view run.2.2).contents ↔
          ∀ m ∈ ms, m.version ≤ greatest (done.map Migration.row) → m ∈ done)) ∧
        (IsAscending ms → (pending done ms).Pairwise (·.version < ·.version) ∧
          ∀ n, run.1 = .ok n → HoldsAll tablePrefix ms (view run.2.2).contents) := by
  obtain ⟨done, hdone, hreached⟩ := follows_afterTurns hms hserver login hturns hnew
  have hadvances := hreached.advances_pending hserver login (fun m hm => hm) hms.distinct
  refine ⟨done, hdone.sublist, hreached.isAfter, hadvances, fun n hn => ?_, fun hascending => ?_⟩
  · rw [holdsAll_iff hdone.sublist (hadvances.ok n hn).2]
    exact append_pending_eq_iff hdone.sublist hms.distinct
  · refine ⟨hascending.ascending.sublist ((List.sublist_append_right _ _).trans hdone.sublist),
      fun n hn => ?_⟩
    rw [holdsAll_iff hdone.sublist (hadvances.ok n hn).2]
    exact hdone.whole hascending

/-- Three migrations, the last two in the wrong order. -/
def unsortedMigrations : List Migration := [⟨1, "one", "A"⟩, ⟨3, "three", "C"⟩, ⟨2, "two", "B"⟩]

/-- A server that is asked for nothing but the three migrations. -/
def unsortedServer : Server (Holding Schema × Plan) :=
  plannedServer (fun c => (migrationStatements "m" unsortedMigrations).find? (·.command "m" = c))
    effect

theorem runsMigrations_unsortedServer :
    unsortedServer.RunsMigrations "m" unsortedMigrations Prod.fst (·.2 = []) := by
  have hdecode : ∀ s ∈ migrationStatements "m" unsortedMigrations,
      (migrationStatements "m" unsortedMigrations).find? (·.command "m" = s.command "m") = some s := by
    decide +kernel
  exact plannedServer_isTransactional hdecode

/-- A new database. The first run is refused the transaction of its third migration. -/
def cutStart : Holding Schema × Plan :=
  (⟨empty, .none⟩, List.replicate 10 none ++ [some (.database "40001", false)])

/-- The run after the one that was cut short applies nothing, and the second version is missing. -/
theorem migrate_followsList_cutStart :
    ∃ next, (Pool.database unsortedServer twoLogin "m").migrate "m" unsortedMigrations
        (afterTurns unsortedServer twoLogin "m" [.run unsortedMigrations] cutStart) = (.ok 0, next) ∧
      ¬HoldsAll "m" unsortedMigrations next.2.1.contents := by
  obtain ⟨done, -, hafter, hadvances, hiff, -⟩ := migrate_followsList (t := cutStart)
    ⟨by decide, by decide⟩ runsMigrations_unsortedServer twoLogin
    (by simp [Turn.IsWhole] : ∀ turn ∈ [Turn.run unsortedMigrations], _) rfl
  -- The history has come to the third version and to the end of the plan.
  obtain ⟨hrows, hplan⟩ :
      (afterTurns unsortedServer twoLogin "m" [.run unsortedMigrations] cutStart).2.1.contents.rows =
          [(1, "one"), (3, "three")] ∧
        (afterTurns unsortedServer twoLogin "m" [.run unsortedMigrations] cutStart).2.2 = [] := by
    decide +kernel
  have hdone : done.map Migration.row = [(1, "one"), (3, "three")] := hafter.rows.symm.trans hrows
  have hpending : pending done unsortedMigrations = [] := by
    rw [pending, hdone]
    decide +kernel
  rcases hresult : (Pool.database unsortedServer twoLogin "m").migrate "m" unsortedMigrations
    (afterTurns unsortedServer twoLogin "m" [.run unsortedMigrations] cutStart) with ⟨result, next⟩
  rw [hresult] at hadvances hiff
  obtain rfl : result = .ok 0 := by
    rw [show result = _ from (hadvances.calm hplan).1, hpending]
    rfl
  refine ⟨next, rfl, fun hall => ?_⟩
  have hmem := (hiff 0 rfl).1 hall ⟨2, "two", "B"⟩ (by decide) (by rw [hdone]; decide)
  have hrow := List.mem_map_of_mem (f := Migration.row) hmem
  rw [hdone] at hrow
  revert hrow
  decide

/-- From a new database the list is run in its own order. Once it was cut short in between, a
migration is missing for good, though the next run succeeds. -/
theorem unsortedList_passesOver :
    IsNumbered unsortedMigrations ∧
    unsortedServer.RunsMigrations "m" unsortedMigrations Prod.fst (·.2 = []) ∧
    ((Pool.database unsortedServer twoLogin "m").migrate "m" unsortedMigrations
        (Pool.fresh, ⟨empty, .none⟩, [])).2.2.1.contents =
      ⟨some [(1, "one"), (3, "three"), (2, "two")], ["A", "C", "B"]⟩ ∧
    ∃ next, (Pool.database unsortedServer twoLogin "m").migrate "m" unsortedMigrations
        (afterTurns unsortedServer twoLogin "m" [.run unsortedMigrations] cutStart) = (.ok 0, next) ∧
      next.2.1.contents = ⟨some [(1, "one"), (3, "three")], ["A", "C"]⟩ := by
  refine ⟨⟨by decide, by decide⟩, runsMigrations_unsortedServer, by decide +kernel, ?_⟩
  obtain ⟨hok, hcontents⟩ :
      ((Pool.database unsortedServer twoLogin "m").migrate "m" unsortedMigrations
          (afterTurns unsortedServer twoLogin "m" [.run unsortedMigrations] cutStart)).1.toOption =
          some 0 ∧
        ((Pool.database unsortedServer twoLogin "m").migrate "m" unsortedMigrations
          (afterTurns unsortedServer twoLogin "m" [.run unsortedMigrations] cutStart)).2.2.1.contents =
          ⟨some [(1, "one"), (3, "three")], ["A", "C"]⟩ := by
    decide +kernel
  rcases hresult : (Pool.database unsortedServer twoLogin "m").migrate "m" unsortedMigrations
    (afterTurns unsortedServer twoLogin "m" [.run unsortedMigrations] cutStart) with ⟨result, next⟩
  rw [hresult] at hok hcontents
  cases result with
  | error f => cases hok
  | ok n =>
      obtain rfl : n = 0 := by simpa [Except.toOption] using hok
      exact ⟨next, rfl, hcontents⟩

end Histories

end MetricLedger.Relational
