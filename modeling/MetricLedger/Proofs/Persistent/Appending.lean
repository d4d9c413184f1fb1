import MetricLedger.Proofs.Log.Modes
import MetricLedger.Proofs.Log.Seam
import MetricLedger.Proofs.Persistent.Recovery

/-!
# Logs of other writers

A log that is read need not be the work of this program: its last line may end without a line break.
Main statement: `isRead_iff_isAppendable`, what a writer or a session leaves on such a log is read
exactly if nothing was put on it or its last line is blank space.
-/

namespace MetricLedger

open Log

variable {files tree : Files} {path : String} {base : List UInt8} {before : List Record}

/-- A writer that reports leaves a log that is read exactly if there was room for its lines. -/
theorem Log.Course.reads_of_outcome (hread : readContent path base = .ok before) {place : Place}
    (hholds : tree.Holds path place base) {mode : FlushMode} {now : Duration}
    {events : List Course.Event} {summary : Summary}
    (houtcome : ((Course.opened (.start mode place now) tree).run events).log.outcome =
      some (.ok summary)) :
    (encodable (Course.offered events) = [] ∨ IsAppendable base →
        readFile ((Course.opened (.start mode place now) tree).run events).files path =
          .ok (before ++ encodable (Course.offered events))) ∧
      (¬(encodable (Course.offered events) = [] ∨ IsAppendable base) → ∃ f,
        readFile ((Course.opened (.start mode place now) tree).run events).files path =
          .error (lineFailure path (splitLines base).length f)) := by
  obtain ⟨place', hleft⟩ := Course.holds_of_outcome hholds houtcome
  rw [readFile_of_holds hleft]
  exact readContent_append hread _

/-- A session that was opened on a log and closed leaves one that can be opened again exactly if
there was room for its lines. -/
theorem CleanSession.reopens (s : CleanSession) (htimer : s.HasTimer)
    (hready : Ready files path base) {p : Persistent}
    (hopen : Persistent.openAt files path s.storeInterval true s.moment = (.ok p, tree)) :
    ∃ next, s.run path (.nothing files) = .ok next ∧ ∀ storeInterval now,
      (∃ q reopened, Persistent.openAt next.files path storeInterval true now = (.ok q, reopened)) ↔
        encodable (s.effect p.ledger).1 = [] ∨ IsAppendable base := by
  obtain ⟨-, before, hread, hbefore⟩ := Persistent.restoreLedger_of_openAt hopen
  rw [hready.reads] at hread
  obtain ⟨place, tree', hopen', hholds⟩ :=
    Persistent.openAt_of_ready hready hread hbefore s.storeInterval s.moment
  obtain ⟨q, left, summary, live, closed, hmoves, hshutdown, -, hclosed⟩ :=
    s.closes (l := p.ledger) hholds htimer
  have hrun : s.run path (.nothing files) =
      .ok ⟨closed, live.ledger, [] ++ (s.effect p.ledger).1⟩ := by
    simp only [run, Past.nothing, hopen', hmoves, hshutdown]
  refine ⟨_, hrun, fun storeInterval now => ⟨fun hopens => ?_, fun hroom => ?_⟩⟩
  · by_contra hroom
    obtain ⟨f, hrefused⟩ := (readContent_append hread (s.effect p.ledger).1).2 hroom
    obtain ⟨q, reopened, hq⟩ := hopens
    obtain ⟨-, records, hrecords, -⟩ := Persistent.restoreLedger_of_openAt hq
    rw [hclosed.reads, hrefused] at hrecords
    cases hrecords
  · have hafter := (readContent_append hread (s.effect p.ledger).1).1 hroom
    have heffect := Call.replay_effects (Persistent.calls s.moves) p.ledger
    obtain ⟨m, hm, -⟩ := Ledger.replay_encodable rfl heffect
    obtain ⟨place', reopened, hq, -⟩ := Persistent.openAt_of_ready hclosed hafter
      ((Ledger.replay_append_of hbefore _).trans hm) storeInterval now
    exact ⟨_, reopened, hq⟩

/-- A log that is read can be opened in either mode, and the writer reports once the queue is closed.
What it leaves is read as what was read before, followed by the records offered that have a line,
exactly if there are none or only blank space of JSON stands behind the last line break; otherwise
the reader refuses the line that was the last one. A session on the log is closed in any case, and
what it leaves can be opened again under the same condition only. -/
theorem isRead_iff_isAppendable (hready : Ready files path base)
    (hread : readContent path base = .ok before) :
    (∀ mode now, ∃ place tree,
      Pipeline.openAt files path mode now = (.ok (.start mode place now), tree) ∧ ∀ events,
      let c := (Course.opened (.start mode place now) tree).run events
      ((Pipeline.start mode place now).stage ≠ .dead → c.log.isOpen = false →
        ∃ d summary, c.Works d ∧ d.log.outcome = some (.ok summary)) ∧
      ∀ summary, c.log.outcome = some (.ok summary) →
        (readFile c.files path = .ok (before ++ encodable (Course.offered events)) ↔
          encodable (Course.offered events) = [] ∨ IsAppendable base) ∧
        (¬(encodable (Course.offered events) = [] ∨ IsAppendable base) → ∃ f,
          readFile c.files path = .error (lineFailure path (splitLines base).length f))) ∧
      ∀ (s : CleanSession) p tree, s.HasTimer →
        Persistent.openAt files path s.storeInterval true s.moment = (.ok p, tree) →
        ∃ next, s.run path (.nothing files) = .ok next ∧ ∀ storeInterval now,
          (∃ q reopened,
            Persistent.openAt next.files path storeInterval true now = (.ok q, reopened)) ↔
              encodable (s.effect p.ledger).1 = [] ∨ IsAppendable base := by
  refine ⟨fun mode now => ?_, fun s p tree htimer hopen => s.reopens htimer hready hopen⟩
  obtain ⟨place, tree, hfile, hholds⟩ := hready.opens
  refine ⟨place, tree, by simp only [Pipeline.openAt, hfile], fun events => ?_⟩
  intro c
  refine ⟨fun hstage => Course.reports_of_closed (Course.alive_run hstage events),
    fun summary houtcome => ?_⟩
  obtain ⟨hroom, hnoRoom⟩ := Course.reads_of_outcome hread hholds houtcome
  refine ⟨⟨fun hreads => ?_, hroom⟩, hnoRoom⟩
  by_contra hnot
  obtain ⟨f, hrefused⟩ := hnoRoom hnot
  rw [hrefused] at hreads
  cases hreads

/-- The files with a log in the working directory. -/
def withLog (content : List UInt8) : Files := Files.empty.put ["work", "m"] (.file content)

theorem ready_withLog (content : List UInt8) : Ready (withLog content) "m" content := by
  have hholds : (withLog content).Holds "m" ["work", "m"] content := by
    refine ⟨?_, .inl ?_, ?_, rfl⟩
    · cbv
    · cbv
    · cbv
  exact ready_of_holds hholds

/-- One record is put on a log. -/
def samplePost : List Course.Event := [.dump (.counter "post" 1), .close]

theorem exists_outcome_samplePost (place : Place) (tree : Files) : ∃ more summary,
    ((Course.opened (.start .sync place ⟨0⟩) tree).run (samplePost ++ more)).log.outcome =
      some (.ok summary) := by
  have hstage : (Pipeline.start .sync place ⟨0⟩).stage ≠ .dead := by
    rw [← FlushMode.ofInterval_eq_sync_iff.2 rfl, Pipeline.stage_start place (by decide)]
    decide
  obtain ⟨d, summary, ⟨more, -, rfl⟩, houtcome⟩ := Course.reports_of_closed
    (Course.alive_run (c := Course.opened (.start .sync place ⟨0⟩) tree) hstage samplePost) rfl
  rw [← Course.run_append] at houtcome
  exact ⟨more, summary, houtcome⟩

/-- A log that ends with a line break has room. -/
theorem isRead_iff_isAppendable_samplePost :
    ∃ place tree more,
      Pipeline.openAt (withLog (linesOf [.counter "hits" 1])) "m" .sync ⟨0⟩ =
        (.ok (.start .sync place ⟨0⟩), tree) ∧
      readFile ((Course.opened (.start .sync place ⟨0⟩) tree).run (samplePost ++ more)).files "m" =
        .ok [.counter "hits" 1, .counter "post" 1] := by
  have hread : readContent "m" (linesOf [.counter "hits" 1]) = .ok [.counter "hits" 1] :=
    readContent_linesOf "m" [.counter "hits" 1]
  obtain ⟨hwriter, -⟩ := isRead_iff_isAppendable (ready_withLog _) hread
  obtain ⟨place, tree, hopen, hruns⟩ := hwriter .sync ⟨0⟩
  obtain ⟨more, summary, houtcome⟩ := exists_outcome_samplePost place tree
  obtain ⟨-, hreports⟩ := hruns (samplePost ++ more)
  have hroom := isAppendable_of_isComplete (isComplete_linesOf [.counter "hits" 1])
  exact ⟨place, tree, more, hopen, (hreports summary houtcome).1.2 (.inr hroom)⟩

/-- A log whose last line is a record without a line break. -/
def unendedLog : List UInt8 := Text.utf8Encode (Record.counter "hits" 1).text

/-- A session that writes one record. -/
def samplePostSession : CleanSession := ⟨⟨0⟩, ⟨0⟩, [.call (.write (.counter "post" 1))]⟩

/-- The log is read, and a ledger is opened from it; what is put on it is not read, and what a
session leaves is not opened. -/
theorem unendedLog_notAppended :
    readFile (withLog unendedLog) "m" = .ok [.counter "hits" 1] ∧
      (∃ place tree more summary,
        Pipeline.openAt (withLog unendedLog) "m" .sync ⟨0⟩ =
          (.ok (.start .sync place ⟨0⟩), tree) ∧
        ((Course.opened (.start .sync place ⟨0⟩) tree).run (samplePost ++ more)).log.outcome =
          some (.ok summary) ∧
        readFile ((Course.opened (.start .sync place ⟨0⟩) tree).run (samplePost ++ more)).files "m" ≠
          .ok [.counter "hits" 1, .counter "post" 1]) ∧
      ∃ p tree next,
        Persistent.openAt (withLog unendedLog) "m" ⟨0⟩ true ⟨0⟩ = (.ok p, tree) ∧
        samplePostSession.run "m" (.nothing (withLog unendedLog)) = .ok next ∧
        ∀ q reopened, Persistent.openAt next.files "m" ⟨0⟩ true ⟨0⟩ ≠ (.ok q, reopened) := by
  obtain ⟨hread, hroom⟩ := readContent_text "m" (r := .counter "hits" 1) rfl
  have hready := ready_withLog unendedLog
  refine ⟨hready.reads.trans hread, ?_, ?_⟩
  · obtain ⟨place, tree, hfile, hholds⟩ := hready.opens
    obtain ⟨more, summary, houtcome⟩ := exists_outcome_samplePost place tree
    obtain ⟨-, hnoRoom⟩ := Course.reads_of_outcome hread hholds houtcome
    obtain ⟨f, hrefused⟩ := hnoRoom (not_or.2 ⟨List.cons_ne_nil _ _, hroom⟩)
    refine ⟨place, tree, more, summary, by simp only [Pipeline.openAt, hfile], houtcome, ?_⟩
    rw [hrefused]
    rintro ⟨⟩
  · obtain ⟨place, tree, hopen, -⟩ := Persistent.openAt_of_ready hready hread rfl ⟨0⟩ ⟨0⟩
    have htimer : samplePostSession.HasTimer := by
      show Pipeline.canShow _ = true
      decide
    obtain ⟨next, hnext, hreopens⟩ := samplePostSession.reopens htimer hready hopen
    refine ⟨_, tree, next, hopen, hnext, fun q reopened hq => ?_⟩
    rcases (hreopens ⟨0⟩ ⟨0⟩).1 ⟨q, reopened, hq⟩ with hnil | happendable
    · dsimp only at hnil
      exact absurd hnil (by decide)
    · exact hroom happendable

end MetricLedger
