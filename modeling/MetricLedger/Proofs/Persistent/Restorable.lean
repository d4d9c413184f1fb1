import MetricLedger.Proofs.Ledger.Sums
import MetricLedger.Proofs.Persistent.Recovery

/-!
# Logs of sessions that restored or not

A session that is opened without restoring starts from nothing, but goes on with the same log. Main
statement: `opens_iff_sumsFit`, the log can be restored exactly if the deltas of all sessions, added up
in order, keep every counter within its bits.
-/

namespace MetricLedger

open Log

/-- A clean session whose ledger is restored from the log, or starts empty. -/
structure MixedSession extends CleanSession where
  restore : Bool

namespace MixedSession

/-- The ledger that the session starts from. -/
def start (s : MixedSession) (files : Files) (path : String) : Except Failure Ledger :=
  if s.restore then Persistent.restoreLedger files path else .ok .empty

/-- Opens the ledger, lets the session happen and closes the ledger. -/
def run (path : String) (past : Past) (s : MixedSession) : Except Failure Past :=
  match Persistent.openAt past.files path s.storeInterval s.restore s.moment with
  | (.error f, _) => .error f
  | (.ok p, opened) =>
      let (q, files) := p.moves opened s.moves
      match q.shutdown files with
      | (.error f, _) => .error f
      | (.ok _, q, files) => .ok ⟨files, q.ledger, past.applied ++ (s.effect p.ledger).1⟩

end MixedSession

/-- Some sessions one after the other. -/
def runMixed (path : String) (past : Past) (sessions : List MixedSession) : Except Failure Past :=
  sessions.foldlM (MixedSession.run path) past

variable {past next : Past} {path : String} {l : Ledger}

/-- The log holds the lines of all writes that were applied. -/
def Past.IsLogged (past : Past) (path : String) : Prop :=
  Ready past.files path (linesOf past.applied)

theorem Past.IsLogged.restoreLedger (h : past.IsLogged path) :
    Persistent.restoreLedger past.files path =
      (Ledger.empty.replay (encodable past.applied)).mapError Failure.aborted :=
  Persistent.restoreLedger_of_readFile (h.reads.trans (readContent_linesOf path past.applied))

theorem sumsFit_iff_exists_replay (records : List Record) :
    SumsFit records ↔ ∃ l, Ledger.empty.replay (encodable records) = .ok l := by
  rw [sumsFit_iff, ← Ledger.fits_encodable, Ledger.exists_replay_iff]

/-- A session is opened when the ledger it starts from is there. -/
theorem MixedSession.opens (h : past.IsLogged path) (s : MixedSession)
    (hstart : s.start past.files path = .ok l) :
    ∃ place tree, Persistent.openAt past.files path s.storeInterval s.restore s.moment =
        (.ok ⟨l, Pipeline.start (.ofInterval s.storeInterval) place s.moment, path, true⟩, tree) ∧
      tree.Holds path place (linesOf past.applied) := by
  obtain ⟨place, tree, hopen, hholds⟩ := h.opens
  refine ⟨place, tree, ?_, hholds⟩
  rw [start] at hstart
  simp only [Persistent.openAt, hstart, Pipeline.openAt, hopen]

/-- A session that is opened is closed, and its writes are logged behind those before. -/
theorem MixedSession.run_of_start (h : past.IsLogged path) (s : MixedSession) (htimer : s.HasTimer)
    (hstart : s.start past.files path = .ok l) :
    ∃ next, s.run path past = .ok next ∧ next.IsLogged path ∧
      next.applied = past.applied ++ (s.effect l).1 := by
  obtain ⟨place, tree, hopen, hholds⟩ := s.opens h hstart
  obtain ⟨q, files, summary, live, closed, hmoves, hshutdown, -, hready⟩ :=
    s.closes (l := l) hholds htimer
  rw [← linesOf_append] at hready
  exact ⟨⟨closed, live.ledger, past.applied ++ (s.effect l).1⟩,
    by simp only [run, hopen, hmoves, hshutdown], hready, rfl⟩

/-- A session that came to its end started from a ledger, and logged its writes. -/
theorem MixedSession.start_of_run (h : past.IsLogged path) (s : MixedSession) (htimer : s.HasTimer)
    (hrun : s.run path past = .ok next) :
    ∃ l, s.start past.files path = .ok l ∧ next.IsLogged path ∧
      next.applied = past.applied ++ (s.effect l).1 := by
  cases hstart : s.start past.files path with
  | ok l =>
      obtain ⟨next', hrun', hlogged, happlied⟩ := s.run_of_start h htimer hstart
      obtain rfl := Except.ok.inj (hrun.symm.trans hrun')
      exact ⟨l, rfl, hlogged, happlied⟩
  | error f =>
      rw [start] at hstart
      simp only [run, Persistent.openAt, hstart] at hrun
      cases hrun

/-- A session that restores opens exactly if the sums fit, and is refused otherwise. -/
theorem Past.IsLogged.openAt_restore (h : past.IsLogged path) (storeInterval now : Duration) :
    (SumsFit past.applied → ∃ p tree,
        Persistent.openAt past.files path storeInterval true now = (.ok p, tree)) ∧
      (¬SumsFit past.applied → ∃ name delta,
        Persistent.openAt past.files path storeInterval true now =
          (.error (.transaction (Ledger.overflow name delta)), past.files)) := by
  have hrestore := h.restoreLedger
  rw [sumsFit_iff_exists_replay]
  cases hreplay : Ledger.empty.replay (encodable past.applied) with
  | ok l =>
      refine ⟨fun _ => ?_, fun hnot => absurd ⟨l, rfl⟩ hnot⟩
      rw [hreplay] at hrestore
      obtain ⟨place, tree, hopen, -⟩ :=
        MixedSession.opens h ⟨⟨storeInterval, now, []⟩, true⟩ (l := l) hrestore
      exact ⟨_, tree, hopen⟩
  | error f =>
      refine ⟨fun hyes => ?_, fun _ => ?_⟩
      · obtain ⟨l, hl⟩ := hyes
        cases hl
      · obtain ⟨name, delta, rfl⟩ := Ledger.replay_error hreplay
        rw [hreplay] at hrestore
        refine ⟨name, delta, ?_⟩
        rw [Persistent.openAt, if_pos rfl, hrestore]
        rfl

/-- After a session that started from what its log leads to, the sums fit. -/
theorem MixedSession.sumsFit_of_replay {records : List Record} (s : CleanSession)
    (h : Ledger.empty.replay (encodable records) = .ok l) :
    SumsFit (records ++ (s.effect l).1) := by
  rw [sumsFit_iff_exists_replay, encodable_append, Ledger.replay_append_of h,
    Ledger.exists_replay_iff, Ledger.fits_encodable, ← Ledger.exists_replay_iff]
  exact ⟨_, Call.replay_effects (Persistent.calls s.moves) l⟩

theorem runMixed_singleton (path : String) (past : Past) (s : MixedSession) :
    runMixed path past [s] = s.run path past := by
  rw [runMixed, List.foldlM_cons]
  exact bind_pure _

/-- Sessions that came to their end came to the end of the first of them. -/
theorem runMixed_append_ok {first second : List MixedSession}
    (h : runMixed path past (first ++ second) = .ok next) :
    ∃ middle, runMixed path past first = .ok middle ∧ runMixed path middle second = .ok next := by
  have hbind : (runMixed path past first >>= fun m => runMixed path m second) = .ok next := by
    rw [← h]
    exact List.foldlM_append.symm
  cases hfirst : runMixed path past first with
  | error f =>
      rw [hfirst] at hbind
      cases hbind
  | ok middle =>
      rw [hfirst] at hbind
      exact ⟨middle, rfl, hbind⟩

/-- Sessions that do not restore are opened and closed whatever the log holds. -/
theorem runMixed_of_not_restore (h : past.IsLogged path) {sessions : List MixedSession}
    (htimers : ∀ s ∈ sessions, s.HasTimer) (hnone : ∀ s ∈ sessions, s.restore = false) :
    ∃ next, runMixed path past sessions = .ok next ∧ next.IsLogged path ∧
      next.applied = past.applied ++ sessions.flatMap fun s => (s.effect .empty).1 := by
  induction sessions generalizing past with
  | nil => exact ⟨past, rfl, h, by simp⟩
  | cons s sessions ih =>
      have hstart : s.start past.files path = .ok .empty := by
        rw [MixedSession.start, if_neg (by simp [hnone s List.mem_cons_self])]
      obtain ⟨middle, hs, hlogged, happlied⟩ :=
        s.run_of_start h (htimers s List.mem_cons_self) hstart
      obtain ⟨next, hrun, hlogged', happlied'⟩ :=
        ih hlogged (fun t ht => htimers t (List.mem_cons_of_mem s ht))
          fun t ht => hnone t (List.mem_cons_of_mem s ht)
      refine ⟨next, ?_, hlogged', ?_⟩
      · show (s.run path past >>= fun m => runMixed path m sessions) = _
        rw [hs]
        exact hrun
      · rw [happlied', happlied, List.flatMap_cons, List.append_assoc]

/-- However the sessions are opened, the log holds the lines of all writes that were applied. -/
theorem isLogged_of_runMixed (h : past.IsLogged path) {sessions : List MixedSession}
    (htimers : ∀ s ∈ sessions, s.HasTimer) (hrun : runMixed path past sessions = .ok next) :
    next.IsLogged path := by
  induction sessions generalizing past with
  | nil =>
      obtain rfl := Except.ok.inj hrun
      exact h
  | cons s sessions ih =>
      rw [← List.singleton_append] at hrun
      obtain ⟨middle, hs, hrest⟩ := runMixed_append_ok hrun
      rw [runMixed_singleton] at hs
      obtain ⟨l, -, hlogged, -⟩ := s.start_of_run h (htimers s List.mem_cons_self) hs
      exact ih hlogged (fun t ht => htimers t (List.mem_cons_of_mem s ht)) hrest

/-- A session that restores, or that finds an empty log, starts from what the log leads to. -/
theorem MixedSession.replay_of_start (h : past.IsLogged path) (s : MixedSession)
    (hstart : s.start past.files path = .ok l) (hs : s.restore = true ∨ past.applied = []) :
    Ledger.empty.replay (encodable past.applied) = .ok l := by
  by_cases hrestore : s.restore = true
  · rw [start, if_pos hrestore, h.restoreLedger] at hstart
    cases hreplay : Ledger.empty.replay (encodable past.applied) with
    | ok m =>
        rw [hreplay] at hstart
        exact hstart
    | error f =>
        rw [hreplay] at hstart
        cases hstart
  · rw [start, if_neg hrestore] at hstart
    rw [hs.resolve_left hrestore]
    exact hstart

theorem MixedSession.sumsFit_of_run (h : past.IsLogged path) (s : MixedSession)
    (htimer : s.HasTimer) (hrun : s.run path past = .ok next)
    (hs : s.restore = true ∨ past.applied = []) : SumsFit next.applied := by
  obtain ⟨l, hstart, -, happlied⟩ := s.start_of_run h htimer hrun
  rw [happlied]
  exact MixedSession.sumsFit_of_replay s.toCleanSession (s.replay_of_start h hstart hs)

/-- A session that does not restore starts in any case, and one that does if the sums fit. -/
theorem MixedSession.exists_start (h : past.IsLogged path) (s : MixedSession)
    (hfits : s.restore = true → SumsFit past.applied) :
    ∃ l, s.start past.files path = .ok l := by
  by_cases hrestore : s.restore = true
  · obtain ⟨l, hl⟩ := (sumsFit_iff_exists_replay _).1 (hfits hrestore)
    refine ⟨l, ?_⟩
    rw [start, if_pos hrestore, h.restoreLedger, hl]
    rfl
  · exact ⟨.empty, by rw [start, if_neg hrestore]⟩

/-- Sessions on a log that was not there at first leave the lines of all writes that were applied. The
next session that restores opens exactly if the deltas of all sessions, added up in order, keep every
counter within its bits, and else it is refused and leaves the log as it is; a session that does not
restore opens in any case. The sums fit after a session that restored, and after the first one. -/
theorem opens_iff_sumsFit {files tree : Files} {path : String} {place : Place}
    (hopen : Pipeline.openFile files path = (.ok place, tree)) (habsent : files.node? place = none)
    {sessions : List MixedSession} (htimers : ∀ s ∈ sessions, s.HasTimer) {past : Past}
    (hrun : runMixed path (.nothing files) sessions = .ok past) :
    bytesAt past.files path = linesOf past.applied ∧
      (∀ storeInterval now, (∃ p tree,
        Persistent.openAt past.files path storeInterval true now = (.ok p, tree)) ↔
          SumsFit past.applied) ∧
      (¬SumsFit past.applied → ∀ storeInterval now, ∃ name delta,
        Persistent.openAt past.files path storeInterval true now =
          (.error (.transaction (Ledger.overflow name delta)), past.files)) ∧
      (∀ s : MixedSession, s.HasTimer → (s.restore = true → SumsFit past.applied) →
        ∃ next, s.run path past = .ok next) ∧
      ∀ earlier s, sessions = earlier ++ [s] → s.restore = true ∨ earlier = [] →
        SumsFit past.applied := by
  have hnothing : (Past.nothing files).IsLogged path := ready_of_absent hopen habsent
  have hlogged := isLogged_of_runMixed hnothing htimers hrun
  refine ⟨hlogged.bytes, fun storeInterval now => ⟨fun hopens => ?_, fun hfits => ?_⟩,
    fun hfits storeInterval now => ?_, fun s htimer hfits => ?_, ?_⟩
  · obtain ⟨p, opened, hp⟩ := hopens
    by_contra hfits
    obtain ⟨name, delta, hrefused⟩ := (hlogged.openAt_restore storeInterval now).2 hfits
    rw [hrefused] at hp
    cases hp
  · exact (hlogged.openAt_restore storeInterval now).1 hfits
  · exact (hlogged.openAt_restore storeInterval now).2 hfits
  · obtain ⟨l, hstart⟩ := s.exists_start hlogged hfits
    obtain ⟨next, hnext, -⟩ := s.run_of_start hlogged htimer hstart
    exact ⟨next, hnext⟩
  · rintro earlier s rfl hs
    obtain ⟨middle, hearlier, hlast⟩ := runMixed_append_ok hrun
    rw [runMixed_singleton] at hlast
    have hmiddle := isLogged_of_runMixed hnothing
      (fun t ht => htimers t (List.mem_append_left _ ht)) hearlier
    refine s.sumsFit_of_run hmiddle (htimers s (by simp)) hlast (hs.imp_right ?_)
    rintro rfl
    obtain rfl := Except.ok.inj hearlier
    rfl

/-- Two sessions that do not restore: the counter that the first one fills is written again. -/
def fillingSessions : List MixedSession := [
  ⟨⟨⟨0⟩, ⟨0⟩, [.call (.write (.counter "a" 9223372036854775807))]⟩, false⟩,
  ⟨⟨⟨0⟩, ⟨0⟩, [.call (.write (.counter "a" 1))]⟩, false⟩]

theorem hasTimer_fillingSessions : ∀ s ∈ fillingSessions, s.HasTimer := by
  intro s hs
  simp only [fillingSessions, List.mem_cons, List.not_mem_nil, or_false] at hs
  rcases hs with rfl | rfl
  · show Pipeline.canShow _ = true
    decide
  · show Pipeline.canShow _ = true
    decide

theorem run_fillingSessions :
    ∃ past, runMixed "m" (.nothing .empty) fillingSessions = .ok past ∧ past.IsLogged "m" ∧
      past.applied = [.counter "a" 9223372036854775807, .counter "a" 1] := by
  have hfile : Pipeline.openFile .empty "m" =
      (.ok ["work", "m"], (Pipeline.openFile .empty "m").2) := Prod.ext (by cbv) rfl
  have hnothing : (Past.nothing .empty).IsLogged "m" := ready_of_absent hfile (by decide)
  exact runMixed_of_not_restore hnothing hasTimer_fillingSessions (by simp [fillingSessions])

/-- What both sessions wrote was accepted, and the log that they leave is refused. -/
theorem fillingSessions_not_restorable :
    ∃ past, runMixed "m" (.nothing .empty) fillingSessions = .ok past ∧
      ∀ storeInterval now p tree,
        Persistent.openAt past.files "m" storeInterval true now ≠ (.ok p, tree) := by
  obtain ⟨past, hrun, hlogged, happlied⟩ := run_fillingSessions
  refine ⟨past, hrun, fun storeInterval now p tree hopens => ?_⟩
  have hfits : ¬SumsFit past.applied := by
    intro hfits
    have hsum := hfits "a" past.applied List.prefix_rfl
    rw [happlied] at hsum
    exact absurd hsum (by decide)
  obtain ⟨name, delta, hrefused⟩ := (hlogged.openAt_restore storeInterval now).2 hfits
  rw [hrefused] at hopens
  cases hopens

/-- After the two sessions, the log is opened exactly if their sums fit. -/
theorem opens_iff_sumsFit_fillingSessions :
    ∃ past, runMixed "m" (.nothing .empty) fillingSessions = .ok past ∧
      bytesAt past.files "m" = linesOf past.applied ∧
      ((∃ p tree, Persistent.openAt past.files "m" ⟨0⟩ true ⟨0⟩ = (.ok p, tree)) ↔
        SumsFit [.counter "a" 9223372036854775807, .counter "a" 1]) := by
  have hfile : Pipeline.openFile .empty "m" =
      (.ok ["work", "m"], (Pipeline.openFile .empty "m").2) := Prod.ext (by cbv) rfl
  obtain ⟨past, hrun, -, happlied⟩ := run_fillingSessions
  obtain ⟨hbytes, hopens, -⟩ :=
    opens_iff_sumsFit hfile (by decide) hasTimer_fillingSessions hrun
  exact ⟨past, hrun, hbytes, happlied ▸ hopens ⟨0⟩ ⟨0⟩⟩

end MetricLedger
