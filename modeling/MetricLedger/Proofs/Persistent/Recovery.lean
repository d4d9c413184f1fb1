import Mathlib.Tactic
import MetricLedger.Proofs.Persistent.Calls

/-!
# Recovery over clean sessions

A ledger is opened from its log, used and closed, any number of times. Main statement: `recovery`,
every session leaves the log it found followed by the lines of the writes it applied, and the next
one starts with the counters of the last one and with the last finite number of every gauge.
-/

namespace MetricLedger

open Log

/-- A session: how its ledger is opened, and what happens to it before it is closed. -/
structure CleanSession where
  storeInterval : Duration
  /-- The moment of the opening. -/
  moment : Duration
  moves : List Persistent.Move

/-- What some sessions leave behind. -/
structure Past where
  files : Files
  /-- The ledger at the end of the last session. -/
  live : Ledger
  /-- The writes that the sessions applied, in order. -/
  applied : List Record

namespace CleanSession

/-- The clock can show the first tick of the session. -/
def HasTimer (s : CleanSession) : Prop :=
  Pipeline.canShow ⟨s.moment.nanos + s.storeInterval.nanos⟩ = true

/-- The writes that the calls of the session apply to a ledger, and the ledger after them. -/
def effect (s : CleanSession) (l : Ledger) : List Record × Ledger :=
  Call.effects (Persistent.calls s.moves) l

/-- Opens the ledger from its log, lets the session happen and closes the ledger. -/
def run (path : String) (past : Past) (s : CleanSession) : Except Failure Past :=
  match Persistent.openAt past.files path s.storeInterval true s.moment with
  | (.error f, _) => .error f
  | (.ok p, opened) =>
      let (q, files) := p.moves opened s.moves
      match q.shutdown files with
      | (.error f, _) => .error f
      | (.ok _, q, files) => .ok ⟨files, q.ledger, past.applied ++ (s.effect p.ledger).1⟩

end CleanSession

/-- Before the first session. -/
def Past.nothing (files : Files) : Past := ⟨files, .empty, []⟩

/-- Some sessions one after the other. -/
def runSessions (path : String) (past : Past) (sessions : List CleanSession) :
    Except Failure Past := sessions.foldlM (CleanSession.run path) past

namespace Persistent

/-! ## One session -/

/-- In a session the log accounts for the writes that were applied, and these lead to the ledger. -/
structure InSession (p : Persistent) (files : Files) (path : String) (base : List UInt8)
    (opened : Ledger) (applied : List Record) : Prop where
  log : p.log.Accounts files path base applied
  isOpen : p.log.isOpen = true
  running : p.log.stage = .running
  ledger : opened.replay applied = .ok p.ledger
  hasReport : p.hasReport = true

variable {p : Persistent} {files : Files} {path : String} {base : List UInt8} {opened : Ledger}
  {applied : List Record}

theorem InSession.call (h : p.InSession files path base opened applied) (c : Call) :
    (p.perform c).2.InSession files path base opened (applied ++ (c.effect p.ledger).1) := by
  have htakes : p.log.Takes := ⟨h.isOpen, by rw [h.running]; decide⟩
  have hlog := h.log.publishAll htakes (c.effect p.ledger).1
  rw [perform_of_isOpen h.isOpen]
  refine ⟨hlog, ?_, ?_, ?_, h.hasReport⟩
  · rw [Pipeline.publishAll_of_takes htakes]
    exact h.isOpen
  · rw [Pipeline.publishAll_of_takes htakes]
    exact h.running
  · rw [Ledger.replay_append_of h.ledger]
    exact Call.replay_effect c p.ledger

theorem InSession.work (h : p.InSession files path base opened applied)
    (step : Pipeline.Work) :
    (p.move files (.work step)).1.InSession (p.move files (.work step)).2 path base opened
      applied :=
  ⟨h.log.work step, (Pipeline.isOpen_work _ _ _).trans h.isOpen,
    (Pipeline.stage_work_of_isOpen h.isOpen step).trans h.running, h.ledger, h.hasReport⟩

/-- What happens in a session adds the writes of its calls to those applied before. -/
theorem InSession.moves (h : p.InSession files path base opened applied) (ms : List Move) :
    (p.moves files ms).1.InSession (p.moves files ms).2 path base opened
        (applied ++ (Call.effects (calls ms) p.ledger).1) ∧
      (p.moves files ms).1.ledger = (Call.effects (calls ms) p.ledger).2 := by
  induction ms generalizing p files applied with
  | nil =>
      refine ⟨?_, rfl⟩
      show p.InSession files path base opened (applied ++ [])
      rw [List.append_nil]
      exact h
  | cons m ms ih =>
      cases m with
      | call c =>
          obtain ⟨hrest, hledger⟩ := ih (h.call c)
          have hnext : (p.perform c).2.ledger = (c.effect p.ledger).2 := by
            rw [perform_of_isOpen h.isOpen]
          rw [hnext] at hrest hledger
          rw [List.append_assoc] at hrest
          exact ⟨hrest, hledger⟩
      | work step => exact ih (h.work step)

/-- A ledger that is closed after a session leaves the lines of all writes on the file. -/
theorem InSession.shutdown (h : p.InSession files path base opened applied) :
    ∃ summary q closed place, p.shutdown files = (.ok (some summary), q, closed) ∧
      q.ledger = p.ledger ∧ closed.Holds path place (base ++ linesOf applied) := by
  have hlog := h.log.close.settle
  have hstage : (p.log.close.2.settle files).1.stage = .finished :=
    Pipeline.stage_settle h.running rfl
  rcases hsettle : p.log.close.2.settle files with ⟨log, closed⟩
  rw [hsettle] at hlog hstage
  refine ⟨log.summary, ⟨p.ledger, log, p.path, false⟩, closed, log.writer.place, ?_, rfl,
    hlog.holds_of_finished hstage⟩
  have hclosed : p.closeQueue.takeReport = (true, ⟨p.ledger, p.log.close.2, p.path, false⟩) := by
    rw [takeReport, closeQueue, h.hasReport]
  have houtcome : log.outcome = some (.ok log.summary) := by rw [Pipeline.outcome, hstage]
  simp only [Persistent.shutdown, hclosed, if_true, settle, hsettle, houtcome]
  rfl

end Persistent

/-! ## Many sessions -/

/-- The log holds the lines of all writes that were applied, and these lead to the counters of the
last session. -/
structure Past.IsSound (past : Past) (path : String) : Prop where
  ready : Ready past.files path (linesOf past.applied)
  replays : ∃ l, Ledger.empty.replay (encodable past.applied) = .ok l ∧
    l.counters = past.live.counters

theorem readContent_linesOf (path : String) (records : List Record) :
    readContent path (linesOf records) = .ok (encodable records) :=
  readLines_linesOf path 1 records

theorem Past.isSound_nothing {files : Files} {path : String} (h : Ready files path []) :
    (Past.nothing files).IsSound path := ⟨h, .empty, rfl, rfl⟩

/-- A session that was opened on a log is closed, and leaves the lines of its writes behind it. -/
theorem CleanSession.closes {l : Ledger} {place : Place} {tree : Files} {path : String}
    {base : List UInt8} (s : CleanSession) (hholds : tree.Holds path place base)
    (htimer : s.HasTimer) :
    ∃ q files summary live closed,
      (⟨l, Pipeline.start (.ofInterval s.storeInterval) place s.moment, path, true⟩ :
        Persistent).moves tree s.moves = (q, files) ∧
      q.shutdown files = (.ok (some summary), live, closed) ∧ live.ledger = (s.effect l).2 ∧
      Ready closed path (base ++ linesOf (s.effect l).1) := by
  have hstage := Pipeline.stage_start place htimer
  have hsession : (⟨l, Pipeline.start (.ofInterval s.storeInterval) place s.moment, path,
      true⟩ : Persistent).InSession tree path base l [] :=
    ⟨Pipeline.accounts_start hholds, rfl, hstage, rfl, rfl⟩
  obtain ⟨hmoved, hlive⟩ := hsession.moves s.moves
  obtain ⟨summary, q, closed, place', hshutdown, hledger, hfile⟩ := hmoved.shutdown
  exact ⟨_, _, summary, q, closed, rfl, hshutdown, hledger.trans hlive, ready_of_holds hfile⟩

/-- What a session finds and leaves behind, if the log is sound. -/
theorem CleanSession.run_of_isSound {past : Past} {path : String} (h : past.IsSound path)
    (s : CleanSession) :
    ∃ p tree,
      Persistent.openAt past.files path s.storeInterval true s.moment = (.ok p, tree) ∧
      (∀ name, p.ledger.counters.get? name = past.live.counters.get? name) ∧
      (∀ name, p.ledger.gauges.get? name = lastFinite name past.applied) ∧
      (s.HasTimer → ∃ next, s.run path past = .ok next ∧ next.IsSound path ∧
        next.applied = past.applied ++ (s.effect p.ledger).1 ∧
        next.live = (s.effect p.ledger).2) := by
  obtain ⟨l, hreplay, hcounters⟩ := h.replays
  obtain ⟨place, tree, hopen, hholds⟩ := Persistent.openAt_of_ready h.ready
    (readContent_linesOf path past.applied) hreplay s.storeInterval s.moment
  refine ⟨_, tree, hopen, fun name => by rw [hcounters],
    Ledger.gauges_get?_replay_encodable hreplay, fun htimer => ?_⟩
  obtain ⟨q, files, summary, live, closed, hmoves, hshutdown, hlive, hready⟩ :=
    s.closes (l := l) hholds htimer
  rw [← linesOf_append] at hready
  have hrun : s.run path past =
      .ok ⟨closed, live.ledger, past.applied ++ (s.effect l).1⟩ := by
    simp only [run, hopen, hmoves, hshutdown]
  have heffect := Call.replay_effects (Persistent.calls s.moves) l
  obtain ⟨m, hm, hmc⟩ := Ledger.replay_encodable rfl heffect
  refine ⟨_, hrun, ⟨hready, m, ?_, ?_⟩, rfl, hlive⟩
  · rw [encodable_append, Ledger.replay_append_of hreplay]
    exact hm
  · rw [hmc, hlive]
    rfl

theorem runSessions_cons (path : String) (past : Past) (s : CleanSession)
    (sessions : List CleanSession) :
    runSessions path past (s :: sessions) =
      (s.run path past >>= fun next => runSessions path next sessions) := rfl

/-- However many sessions there are, all of them open and close and leave a sound log behind. -/
theorem runSessions_of_isSound {past : Past} {path : String} (h : past.IsSound path)
    {sessions : List CleanSession} (htimers : ∀ s ∈ sessions, s.HasTimer) :
    ∃ later, runSessions path past sessions = .ok later ∧ later.IsSound path := by
  induction sessions generalizing past with
  | nil => exact ⟨past, rfl, h⟩
  | cons s sessions ih =>
      obtain ⟨p, tree, -, -, -, hrun⟩ := s.run_of_isSound h
      obtain ⟨next, hnext, hsound, -, -⟩ := hrun (htimers s List.mem_cons_self)
      obtain ⟨later, hlater, hsound'⟩ := ih hsound fun t ht =>
        htimers t (List.mem_cons_of_mem s ht)
      refine ⟨later, ?_, hsound'⟩
      rw [runSessions_cons, hnext]
      exact hlater

/-- Recovery: after any number of sessions on a log that was not there at first, the log holds the
lines of all writes that were applied; the next session opens with the counters of the last one and
with the last finite number of every gauge, and leaves the log it found followed by the lines of its
own writes. -/
theorem recovery {files tree : Files} {path : String} {place : Place}
    (hopen : Pipeline.openFile files path = (.ok place, tree)) (habsent : files.node? place = none)
    {sessions : List CleanSession} (htimers : ∀ s ∈ sessions, s.HasTimer) :
    ∃ past, runSessions path (.nothing files) sessions = .ok past ∧
      bytesAt past.files path = linesOf past.applied ∧
      ∀ s : CleanSession, ∃ p tree,
        Persistent.openAt past.files path s.storeInterval true s.moment = (.ok p, tree) ∧
        (∀ name, p.ledger.counters.get? name = past.live.counters.get? name) ∧
        (∀ name, p.ledger.gauges.get? name = lastFinite name past.applied) ∧
        (s.HasTimer → ∃ next, s.run path past = .ok next ∧
          bytesAt next.files path = bytesAt past.files path ++ linesOf (s.effect p.ledger).1 ∧
          next.applied = past.applied ++ (s.effect p.ledger).1 ∧
          next.live = (s.effect p.ledger).2) := by
  have hnothing := Past.isSound_nothing (ready_of_absent hopen habsent)
  obtain ⟨past, hrun, hsound⟩ := runSessions_of_isSound hnothing htimers
  refine ⟨past, hrun, hsound.ready.bytes, fun s => ?_⟩
  obtain ⟨p, tree, hp, hcounters, hgauges, hnext⟩ := s.run_of_isSound hsound
  refine ⟨p, tree, hp, hcounters, hgauges, fun htimer => ?_⟩
  obtain ⟨next, hs, hsound', happlied, hlive⟩ := hnext htimer
  refine ⟨next, hs, ?_, happlied, hlive⟩
  rw [hsound'.ready.bytes, hsound.ready.bytes, happlied, linesOf_append]

/-- A session flushed after every record, one of whose two batches fails, and one flushed once in a
second. -/
def sampleSessions : List CleanSession := [
  ⟨⟨0⟩, ⟨0⟩, [
    .call (.write (.counter "a" 1)),
    .call (.batch [.ofRecord (.counter "a" 2), .fail (.invalidInput "no")]),
    .work .receive,
    .call (.batch [.ofRecord (.gauge "g" ⟨0x7FF0000000000000⟩), .ofRecord (.counter "b" 3)])]⟩,
  ⟨.ofSeconds 1, .ofSeconds 5, [.call (.write (.counter "a" 4)), .work .receive, .work .tick]⟩]

/-- Recovery over two sessions on a log in the working directory. -/
theorem recovery_sampleSessions :
    ∃ past, runSessions "m" (.nothing .empty) sampleSessions = .ok past ∧
      bytesAt past.files "m" = linesOf past.applied ∧
      ∃ p tree, Persistent.openAt past.files "m" ⟨0⟩ true (.ofSeconds 9) = (.ok p, tree) ∧
        ∀ name, p.ledger.gauges.get? name = lastFinite name past.applied := by
  have hopen : Pipeline.openFile .empty "m" =
      (.ok ["work", "m"], (Pipeline.openFile .empty "m").2) := Prod.ext (by cbv) rfl
  have htimers : ∀ s ∈ sampleSessions, s.HasTimer := by
    intro s hs
    simp only [sampleSessions, List.mem_cons, List.not_mem_nil, or_false] at hs
    rcases hs with rfl | rfl
    · show Pipeline.canShow _ = true
      decide
    · show Pipeline.canShow _ = true
      decide
  obtain ⟨past, hrun, hbytes, hnext⟩ := recovery hopen (by decide) htimers
  obtain ⟨p, tree, hp, -, hgauges, -⟩ := hnext ⟨⟨0⟩, .ofSeconds 9, []⟩
  exact ⟨past, hrun, hbytes, p, tree, hp, hgauges⟩

end MetricLedger
