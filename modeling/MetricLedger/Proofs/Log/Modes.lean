import Mathlib
import MetricLedger.Proofs.Log.Track

/-!
# One log in both modes

The log that a pipeline leaves behind is told by what it found and by the records offered to it, not
by the mode and not by the order in which dumps, ticks and the steps of the writer come. Main
statement: `log_of_outcome`, which also counts what the writer reports.
-/

namespace MetricLedger.Log

namespace Course

/-! ## What the writer counts -/

/-- The flushes that the task still comes to, other than the one at the end. -/
def owed : Task → ℕ
  | .rest => 0
  | .busy _ .final => 0
  | .busy _ _ => 1

/-- A mode takes a round for each record, or one for each batch. -/
def roundsIn (records batches : ℕ) : FlushMode → ℕ
  | .sync => records
  | .interval _ => batches

/-- The rounds that were begun, other than the one at the end. -/
def rounds (c : Course) : ℕ := roundsIn (c.written ++ c.task.inHand).length c.batches c.log.mode

/-- The records that have no line. -/
def unencodable (records : List Record) : List Record := records.filter fun r => !r.isEncodable

theorem length_encodable_add (records : List Record) :
    (encodable records).length + (unencodable records).length = records.length :=
  (List.length_eq_length_filter_add Record.isEncodable).symm

/-- The summary tells what was written, if nothing was refused. -/
structure Tally (c : Course) : Prop where
  written : c.log.summary.written = (encodable c.written).length
  dropped : c.log.summary.dropped = (unencodable c.written).length
  flushes : c.log.summary.flushes + owed c.task =
    c.rounds + if c.log.stage = .finished then 1 else 0

variable {c : Course} {path : String} {base : List UInt8} {r : Record} {rest : List Record}
  {round : Round}

theorem Tally.congr {d : Course} (h : c.Tally) (hsummary : d.log.summary = c.log.summary)
    (hwritten : d.written = c.written) (hstage : d.log.stage = c.log.stage)
    (howed : owed d.task + c.rounds = owed c.task + d.rounds) : d.Tally := by
  have hflushes := h.flushes
  refine ⟨?_, ?_, ?_⟩
  · rw [hsummary, hwritten]
    exact h.written
  · rw [hsummary, hwritten]
    exact h.dropped
  · rw [hsummary, hstage]
    omega

theorem tally_opened {log : Pipeline} (files : Files) (h : log.summary = ⟨0, 0, 0⟩)
    (hstage : log.stage ≠ .finished) : (opened log files).Tally := by
  have hrounds : (opened log files).rounds = 0 := by
    show roundsIn 0 0 log.mode = 0
    cases log.mode <;> rfl
  refine ⟨by rw [opened, h]; rfl, by rw [opened, h]; rfl, ?_⟩
  rw [hrounds, show (opened log files).log = log from rfl, if_neg hstage, h]
  rfl

/-- A round is concluded when its flush was counted. -/
theorem tally_conclude (hwritten : c.log.summary.written = (encodable c.written).length)
    (hdropped : c.log.summary.dropped = (unencodable c.written).length)
    (hinHand : c.task.inHand = []) (hrunning : c.log.stage = .running)
    (hflushes : c.log.summary.flushes = c.rounds + if round = .final then 1 else 0) :
    (c.conclude round).Tally := by
  have hrounds : roundsIn (c.written ++ []).length c.batches c.log.mode = c.rounds := by
    rw [rounds, hinHand]
  have hstage : (if c.log.stage = .finished then 1 else 0) = 0 := by
    rw [hrunning]
    rfl
  cases round with
  | record => exact ⟨hwritten, hdropped, hflushes.trans (congrArg₂ (· + ·) hrounds hstage).symm⟩
  | tick => exact ⟨hwritten, hdropped, hflushes.trans (congrArg₂ (· + ·) hrounds hstage).symm⟩
  | last => exact ⟨hwritten, hdropped, hflushes.trans (congrArg₂ (· + ·) hrounds hstage).symm⟩
  | final => exact ⟨hwritten, hdropped, hflushes.trans (congrArg (· + 1) hrounds.symm)⟩

theorem Tally.takeBatch (h : c.Tally) (ht : c.Tracks path base) (hrest : c.task = .rest)
    (hrunning : c.log.stage = .running) (hround : round = .tick ∨ round = .last) :
    (c.takeBatch round).Tally := by
  have hinHand : c.task.inHand = [] := by rw [hrest]; rfl
  unfold Course.takeBatch
  split_ifs with hpending
  · apply tally_conclude h.written h.dropped hinHand hrunning
    have hflushes := h.flushes
    rw [hrest, hrunning] at hflushes
    rcases hround with rfl | rfl <;> simpa [owed] using hflushes
  · rw [List.isEmpty_iff] at hpending
    have hmode : c.log.mode ≠ .sync := fun hm => hpending (ht.waiting hm)
    refine h.congr rfl rfl rfl ?_
    cases hm : c.log.mode with
    | sync => exact absurd hm hmode
    | interval period =>
        rcases hround with rfl | rfl <;> simp [owed, rounds, roundsIn, hm, hrest] <;> omega

theorem Tally.begin (h : c.Tally) (ht : c.Tracks path base) (hrest : c.task = .rest)
    (work : Pipeline.Work) : (c.begin work).Tally := by
  rcases c.begin_cases work with ⟨hbegin, -⟩ |
    ⟨hrunning, ⟨r, queue, hqueue, -, ⟨hmode, hbegin⟩ | ⟨hmode, hbegin⟩⟩ | ⟨hmode, -, hbegin⟩ |
      ⟨hqueue, hopen, -, hbegin⟩⟩
  · rw [hbegin]
    exact h
  · rw [hbegin]
    refine h.congr rfl rfl rfl ?_
    simp [owed, rounds, roundsIn, hmode, hrest, Task.inHand]
    omega
  · rw [hbegin]
    exact h.congr rfl rfl rfl rfl
  · rw [hbegin]
    exact h.takeBatch ht hrest hrunning (.inl rfl)
  · rw [hbegin]
    exact h.takeBatch ht hrest hrunning (.inr rfl)

theorem Tally.write (h : c.Tally) (ht : c.Tracks path base)
    (htask : c.task = .busy (r :: rest) round) : (c.write r rest round).Tally := by
  obtain ⟨landed, onFile, inBuffer, hl⟩ := ht.landing
  obtain ⟨-, -, -, -, hsummary, -⟩ := hl.delivers.writeRecord r
  have hsame := Pipeline.sameQueue_writeRecord c.log c.files r
  have hflushes := h.flushes
  have hcount : (c.write r rest round).log.summary = Pipeline.Summary.count c.log.summary
    r.isEncodable := hsummary
  have hrounds : (c.write r rest round).rounds = c.rounds := by
    have hmode : (c.write r rest round).log.mode = c.log.mode := hsame.mode
    have hwritten : (c.write r rest round).written ++ (c.write r rest round).task.inHand =
        c.written ++ c.task.inHand := by
      show c.written ++ [r] ++ rest = _
      rw [htask, Task.inHand, List.append_assoc, List.singleton_append]
    rw [rounds, hmode, hwritten]
    rfl
  have howed : owed (c.write r rest round).task = owed c.task := by
    rw [htask]
    cases round <;> rfl
  have hstage : (c.write r rest round).log.stage = c.log.stage := hsame.stage
  refine ⟨?_, ?_, ?_⟩
  · show _ = (encodable (c.written ++ [r])).length
    rw [hcount, encodable_append, List.length_append, ← h.written]
    cases hr : r.isEncodable <;> simp [Pipeline.Summary.count, encodable, hr]
  · show _ = (unencodable (c.written ++ [r])).length
    rw [hcount, unencodable, List.filter_append, List.length_append, ← unencodable, ← h.dropped]
    cases hr : r.isEncodable <;> simp [Pipeline.Summary.count, hr]
  · rw [hrounds, howed, hstage, ← hflushes, hcount]
    cases r.isEncodable <;> rfl

theorem Tally.proceed (h : c.Tally) (ht : c.Tracks path base) : c.proceed.Tally := by
  unfold Course.proceed
  split
  next => exact h
  next r rest round htask =>
    unfold Course.proceedWith
    split_ifs
    · split
      next => exact h.congr rfl rfl rfl rfl
      next => exact h.write ht htask
    · exact h.write ht htask
  next round htask =>
    obtain ⟨landed, onFile, inBuffer, hl⟩ := ht.landing
    have hsummary : c.flush.log.summary =
      { c.log.summary with flushes := c.log.summary.flushes + 1 } := hl.delivers.summary_flush
    have hflushes := h.flushes
    have hrunning := (ht.busy _ _ htask).running
    have hinHand : c.flush.task.inHand = [] := by
      show c.task.inHand = []
      rw [htask]
      rfl
    refine tally_conclude ?_ ?_ hinHand hrunning ?_
    · rw [hsummary]
      exact h.written
    · rw [hsummary]
      exact h.dropped
    · rw [hsummary]
      show c.log.summary.flushes + 1 = c.rounds + _
      rw [htask, hrunning] at hflushes
      cases round <;> simp [owed] at hflushes ⊢ <;> omega

theorem Tally.step (h : c.Tally) (ht : c.Tracks path base) (e : Event) : (c.step e).Tally := by
  cases e with
  | dump r =>
      simp only [Course.step]
      rcases c.dump_cases r with ⟨-, hd⟩ | ⟨-, hd⟩
      · rw [hd]
        exact h.congr rfl rfl rfl rfl
      · rw [hd]
        exact h
  | close => exact h.congr rfl rfl rfl rfl
  | begin work =>
      simp only [Course.step]
      split
      next hrest => exact h.begin ht hrest work
      next => exact h
  | proceed => exact h.proceed ht

theorem tally_run (h : c.Tally) (ht : c.Tracks path base) (events : List Event) :
    (c.run events).Tally := by
  induction events generalizing c with
  | nil => exact h
  | cons e events ih => exact ih (h.step ht e) (ht.step e)

/-! ## The log that is left -/

theorem openAt_ok {files tree : Files} {mode : FlushMode} {now : Duration} {p : Pipeline}
    (h : Pipeline.openAt files path mode now = (.ok p, tree)) :
    ∃ place, Pipeline.openFile files path = (.ok place, tree) ∧ p = .start mode place now := by
  unfold Pipeline.openAt at h
  rcases hopen : Pipeline.openFile files path with ⟨_ | place, opened⟩
  · rw [hopen] at h
    cases h
  · rw [hopen] at h
    simp only [Prod.mk.injEq, Except.ok.injEq] at h
    exact ⟨place, by rw [h.2], h.1.symm⟩

/-- The invariants hold at every moment after the opening of a log. -/
theorem tracks_of_holds {files : Files} {place : Place} (h : files.Holds path place base)
    (mode : FlushMode) (now : Duration) :
    (opened (.start mode place now) files).Tracks path base ∧
      (opened (.start mode place now) files).Tally := by
  have hstage := Pipeline.stage_start_ne_finished mode place now
  refine ⟨tracks_opened ⟨⟨?_, rfl, rfl⟩, fun b hb => absurd hb List.not_mem_nil⟩ rfl rfl hstage,
    tally_opened files rfl hstage⟩
  rw [linesOf_nil, List.append_nil]
  exact h

theorem eq_of_outcome {summary : Summary} (h : c.log.outcome = some (.ok summary)) :
    c.log.stage = .finished ∧ summary = c.log.summary := by
  unfold Pipeline.outcome at h
  split at h
  · cases h
  next hstage => exact ⟨hstage, (Except.ok.inj (Option.some.inj h)).symm⟩
  · cases h

/-- Once the queue is closed the writer reports, unless it was stopped at its start. -/
theorem reports_of_closed (hstage : c.log.stage ≠ .dead) (hclosed : c.log.isOpen = false) :
    ∃ d summary, c.Works d ∧ d.log.outcome = some (.ok summary) := by
  obtain ⟨d, hd, hfinished⟩ := works_finished hclosed hstage
  exact ⟨d, d.log.summary, hd, by rw [Pipeline.outcome, hfinished]⟩

/-- A writer that has reported left the lines of all records that were dumped. -/
theorem Tracks.holds_of_finished (h : c.Tracks path base) (hfinished : c.log.stage = .finished) :
    c.written = c.dumped ∧ ∃ place, c.files.Holds path place (base ++ linesOf c.dumped) := by
  obtain ⟨hrest, -, hpending, hqueue⟩ := h.finished hfinished
  have hwritten : c.written = c.dumped := by
    rw [← h.dumped, received, hrest, hpending, hqueue]
    simp [Task.inHand]
  obtain ⟨landed, onFile, inBuffer, hl⟩ := h.landing
  have hall := hl.all_of_rest hrest
  rw [← hwritten]
  exact ⟨rfl, _, hall.delivers.carries.file⟩

theorem Tally.summary_of_finished (h : c.Tally) (ht : c.Tracks path base)
    (hfinished : c.log.stage = .finished) :
    c.log.summary = ⟨(encodable c.dumped).length, (unencodable c.dumped).length,
      roundsIn c.dumped.length c.batches c.log.mode + 1⟩ := by
  have hwritten := (ht.holds_of_finished hfinished).1
  have hrest := (ht.finished hfinished).1
  have hflushes := h.flushes
  rw [hrest, hfinished, if_pos rfl, rounds, hrest, hwritten] at hflushes
  have hcounts : c.log.summary =
      ⟨c.log.summary.written, c.log.summary.dropped, c.log.summary.flushes⟩ := rfl
  rw [hcounts, h.written, h.dropped, hwritten]
  congr 1
  simpa [owed, Task.inHand] using hflushes

/-- A writer that has reported never was stopped, so all that was offered was dumped. -/
theorem dumped_of_finished {p : Pipeline} {tree : Files} {events : List Event}
    (hopen : p.isOpen = true) (hfinished : ((opened p tree).run events).log.stage = .finished) :
    ((opened p tree).run events).dumped = offered events := by
  refine dumped_run ⟨hopen, fun hdead => ?_⟩ events
  rw [stage_run_of_dead (c := opened p tree) rfl hdead] at hfinished
  cases hfinished

/-- A writer that has reported left the lines of the records offered before the close. -/
theorem holds_of_outcome {tree : Files} {place : Place} (hholds : tree.Holds path place base)
    {mode : FlushMode} {now : Duration} {events : List Event} {summary : Summary}
    (houtcome : ((opened (.start mode place now) tree).run events).log.outcome =
      some (.ok summary)) :
    ∃ place', ((opened (.start mode place now) tree).run events).files.Holds path place'
      (base ++ linesOf (offered events)) := by
  have ht := tracks_run (tracks_of_holds hholds mode now).1 events
  obtain ⟨hfinished, -⟩ := eq_of_outcome houtcome
  rw [← dumped_of_finished rfl hfinished]
  exact (ht.holds_of_finished hfinished).2

/-- The report of a writer, and the log that it leaves. -/
theorem report_of_outcome {files tree : Files} {mode : FlushMode} {place : Place} {now : Duration}
    (hfile : Pipeline.openFile files path = (.ok place, tree))
    (hroom : files.node? place ≠ some .full) {events : List Event} {summary : Summary}
    (houtcome : ((opened (.start mode place now) tree).run events).log.outcome =
      some (.ok summary)) :
    bytesAt ((opened (.start mode place now) tree).run events).files path =
        files.bytesIn place ++ linesOf (offered events) ∧
      summary = ⟨(encodable (offered events)).length, (unencodable (offered events)).length,
        roundsIn (offered events).length
          ((opened (.start mode place now) tree).run events).batches mode + 1⟩ := by
  have hholds := holds_bytesIn_of_openFile hfile hroom
  obtain ⟨htracks, htally⟩ := tracks_of_holds hholds mode now
  obtain ⟨place', hleft⟩ := holds_of_outcome hholds houtcome
  obtain ⟨hfinished, rfl⟩ := eq_of_outcome houtcome
  have hsummary := (tally_run htally htracks events).summary_of_finished
    (tracks_run htracks events) hfinished
  rw [dumped_of_finished rfl hfinished, mode_run] at hsummary
  exact ⟨(ready_of_holds hleft).bytes, hsummary⟩

end Course

open Course in
/-- A log in either mode, and however dumps, ticks and the steps of the writer come one after the
other: the records dumped are written, in hand, waiting or in the queue, in this order; the writer
reports once the queue is closed; and then the log is what it was, followed by the lines of the
records offered before the close, which the report counts. So it is the same log in the other mode
and in another order. -/
theorem log_of_outcome {files tree : Files} {path : String} {mode : FlushMode} {now : Duration}
    {p : Pipeline} (hopen : Pipeline.openAt files path mode now = (.ok p, tree))
    (hroom : files.node? p.writer.place ≠ some .full) (events : List Event) :
    let c := (opened p tree).run events
    c.written ++ (c.task.inHand ++ c.log.pending) ++ c.log.queue = c.dumped ∧
      (p.stage ≠ .dead → c.dumped = offered events ∧ (c.log.isOpen = false →
        ∃ d summary, c.Works d ∧ d.log.outcome = some (.ok summary))) ∧
      ∀ summary, c.log.outcome = some (.ok summary) →
        bytesAt c.files path = files.bytesIn p.writer.place ++ linesOf (offered events) ∧
        summary.written = (encodable (offered events)).length ∧
        summary.dropped = (unencodable (offered events)).length ∧
        summary.written + summary.dropped = (offered events).length ∧
        summary.flushes = roundsIn (offered events).length c.batches mode + 1 ∧
        ∀ (mode' : FlushMode) (now' : Duration) (p' : Pipeline) (tree' : Files)
          (events' : List Event) (summary' : Summary),
          Pipeline.openAt files path mode' now' = (.ok p', tree') →
          ((opened p' tree').run events').log.outcome = some (.ok summary') →
          offered events' = offered events →
          bytesAt ((opened p' tree').run events').files path = bytesAt c.files path := by
  obtain ⟨place, hfile, rfl⟩ := openAt_ok hopen
  obtain ⟨htracks, -⟩ := tracks_of_holds (holds_bytesIn_of_openFile hfile hroom) mode now
  intro c
  refine ⟨?_, fun hstage => ⟨dumped_run ⟨rfl, hstage⟩ events,
    reports_of_closed (alive_run hstage events)⟩, fun summary houtcome => ?_⟩
  · have hdumped := (tracks_run htracks events).dumped
    rw [received, List.append_assoc _ _ (Pipeline.pending _)] at hdumped
    exact hdumped
  · obtain ⟨hbytes, rfl⟩ := report_of_outcome hfile hroom houtcome
    refine ⟨hbytes, rfl, rfl, length_encodable_add _, rfl, ?_⟩
    intro mode' now' p' tree' events' summary' hopen' houtcome' hoffered
    obtain ⟨place', hfile', rfl⟩ := openAt_ok hopen'
    obtain ⟨hplace, rfl⟩ : place = place' ∧ tree = tree' := by
      simpa using hfile.symm.trans hfile'
    rw [← hplace] at houtcome' ⊢
    obtain ⟨hbytes', -⟩ := report_of_outcome hfile hroom houtcome'
    rw [hbytes', hoffered]
    exact hbytes.symm

open Course in
/-- Three records, one of them without a line, in two batches. -/
def sampleEvents : List Event := [
  .dump (.counter "a" 1), .begin .receive, .dump (.gauge "g" ⟨0x7FF0000000000000⟩), .begin .tick,
  .proceed, .begin .receive, .dump (.counter "b" 2), .proceed, .begin .receive, .close]

open Course in
/-- A log in the working directory, whose writer goes on from `sampleEvents` to its end. -/
theorem log_of_outcome_sampleEvents :
    ∃ p tree more summary, Pipeline.openAt .empty "m" (.interval ⟨1⟩) ⟨0⟩ = (.ok p, tree) ∧
      ((opened p tree).run (sampleEvents ++ more)).log.outcome = some (.ok summary) ∧
      bytesAt ((opened p tree).run (sampleEvents ++ more)).files "m" =
        linesOf [.counter "a" 1, .counter "b" 2] ∧
      summary.written = 2 ∧ summary.dropped = 1 := by
  obtain ⟨tree, htree⟩ : ∃ tree, (Pipeline.openFile .empty "m").2 = tree := ⟨_, rfl⟩
  have hfile : Pipeline.openFile .empty "m" = (.ok ["work", "m"], tree) := Prod.ext (by cbv) htree
  have hopen : Pipeline.openAt .empty "m" (.interval ⟨1⟩) ⟨0⟩ =
      (.ok (.start (.interval ⟨1⟩) ["work", "m"] ⟨0⟩), tree) := by
    simp only [Pipeline.openAt, hfile]
  have hroom : Files.empty.node? ["work", "m"] ≠ some .full := by decide
  obtain ⟨-, hway, -⟩ := log_of_outcome hopen hroom sampleEvents
  obtain ⟨-, hreports⟩ := hway (by decide)
  have hclosed : ((opened (.start (.interval ⟨1⟩) ["work", "m"] ⟨0⟩) tree).run
      sampleEvents).log.isOpen = false := rfl
  obtain ⟨d, summary, ⟨more, -, rfl⟩, houtcome⟩ := hreports hclosed
  rw [← run_append] at houtcome
  obtain ⟨-, -, hreport⟩ := log_of_outcome hopen hroom (sampleEvents ++ more)
  obtain ⟨hbytes, hwritten, hdropped, -⟩ := hreport summary houtcome
  have hoffered : offered (sampleEvents ++ more) =
      [.counter "a" 1, .gauge "g" ⟨0x7FF0000000000000⟩, .counter "b" 2] := rfl
  rw [hoffered] at hbytes hwritten hdropped
  exact ⟨_, tree, more, summary, hopen, houtcome, hbytes, hwritten, hdropped⟩

end MetricLedger.Log
