import Mathlib.Tactic
import MetricLedger.Proofs.Persistent.Recovery
import MetricLedger.Proofs.Settings.StoreInterval

/-!
# Store intervals and the writer of a log

A store interval is taken from the settings whatever the clock says. A writer whose clock cannot show
the first tick has stopped before its first record, but calls are answered from the ledger and the
open queue alone. Main statement: `logs_iff_showsFirstTick`, the writes of a session are logged
exactly if the clock can show the first tick, and the answers are the same in any case.
-/

namespace MetricLedger

open Log

/-! ## The first tick -/

/-- The clock can show the moment that comes `n` seconds after another one. -/
def ShowsFirstTick (now : Duration) (n : ℕ) : Prop :=
  Pipeline.firstSecond + (now.seconds + n) ≤ Pipeline.lastSecond

instance (now : Duration) (n : ℕ) : Decidable (ShowsFirstTick now n) :=
  inferInstanceAs (Decidable (_ ≤ _))

theorem canShow_iff_showsFirstTick {now : Duration} {n : ℕ} :
    Pipeline.canShow ⟨now.nanos + (Duration.ofSeconds n).nanos⟩ = true ↔ ShowsFirstTick now n := by
  have hseconds : (now.nanos + n * Duration.perSecond) / Duration.perSecond = now.seconds + n :=
    Nat.add_mul_div_right now.nanos n (by decide)
  rw [Pipeline.canShow, decide_eq_true_iff, Duration.seconds, Duration.ofSeconds, hseconds,
    ShowsFirstTick]

/-! ## Answers -/

/-- What calls that are admitted answer one after the other. -/
def Call.answers : List Call → Ledger → List (Except Failure Unit)
  | [], _ => []
  | c :: calls, l => c.answer l :: answers calls (c.effect l).2

namespace Persistent

/-- What the calls among some moves are answered. -/
def answers (p : Persistent) (files : Files) : List Move → List (Except Failure Unit)
  | [] => []
  | .call c :: ms => (p.perform c).1 :: (p.perform c).2.answers files ms
  | .work step :: ms =>
      let (p, files) := p.move files (.work step)
      p.answers files ms

variable {p : Persistent} {files : Files}

theorem moves_cons (p : Persistent) (files : Files) (m : Move) (ms : List Move) :
    p.moves files (m :: ms) = (p.move files m).1.moves (p.move files m).2 ms := rfl

theorem isOpen_perform (h : p.log.isOpen = true) (c : Call) :
    (p.perform c).2.log.isOpen = true := by
  rw [perform_of_isOpen h]
  exact (Pipeline.isOpen_publishAll p.log _).trans h

/-- While the queue is open, the answers do not tell what becomes of the writer. -/
theorem answers_of_isOpen (h : p.log.isOpen = true) (files : Files) (ms : List Move) :
    p.answers files ms = Call.answers (calls ms) p.ledger := by
  induction ms generalizing p files with
  | nil => rfl
  | cons m ms ih =>
      cases m with
      | call c =>
          have hrest := ih (isOpen_perform h c) files
          have hperform := perform_of_isOpen h c
          rw [answers, hrest, hperform]
          rfl
      | work step => exact ih ((Pipeline.isOpen_work _ _ _).trans h) _

/-! ## A writer that stopped at its start -/

theorem perform_of_dead (h : p.log.isOpen = true) (hdead : p.log.stage = .dead) (c : Call) :
    p.perform c = (c.answer p.ledger, { p with ledger := (c.effect p.ledger).2 }) := by
  have hnot : ¬p.log.Takes := fun htakes => htakes.2 hdead
  rw [perform_of_isOpen h, Pipeline.publishAll_of_not_takes hnot]

/-- Whatever happens, the log of a writer that stopped stays as it is, and so do the files. -/
theorem moves_of_dead (h : p.log.isOpen = true) (hdead : p.log.stage = .dead) (files : Files)
    (ms : List Move) :
    p.moves files ms = ({ p with ledger := (Call.effects (calls ms) p.ledger).2 }, files) := by
  induction ms generalizing p with
  | nil => rfl
  | cons m ms ih =>
      cases m with
      | call c =>
          rw [moves_cons, move, perform_of_dead h hdead]
          exact ih h hdead
      | work step =>
          have houtcome : p.log.outcome = some (.error Pipeline.waitFailure) := by
            rw [Pipeline.outcome, hdead]
          have hstep : p.move files (.work step) = (p, files) := by
            rw [move, Pipeline.work_of_outcome houtcome]
          rw [moves_cons, hstep]
          exact ih h hdead

/-- The first who closes a ledger whose writer stopped is told so. -/
theorem shutdown_of_dead (hdead : p.log.stage = .dead) (hreport : p.hasReport = true)
    (files : Files) : ∃ q, p.shutdown files = (.error Pipeline.waitFailure, q, files) := by
  refine ⟨⟨p.ledger, p.log.close.2, p.path, false⟩, ?_⟩
  have hclosed : p.closeQueue.takeReport = (true, ⟨p.ledger, p.log.close.2, p.path, false⟩) := by
    rw [takeReport, closeQueue, hreport]
  have hstage : p.log.close.2.stage = .dead := hdead
  simp only [shutdown, hclosed, if_true, settle, Pipeline.settle, hstage, Pipeline.outcome]
  rfl

/-! ## Sessions -/

variable {tree : Files} {path : String} {storeInterval now : Duration} {restore : Bool}
  {base : List UInt8}

theorem isOpen_of_openAt (hopen : openAt files path storeInterval restore now = (.ok p, tree)) :
    p.log.isOpen = true := by
  obtain ⟨place, -, hlog, -⟩ := openAt_ok hopen
  rw [hlog]
  rfl

/-- A ledger whose writer lives begins a session. -/
theorem inSession_of_openAt
    (hopen : openAt files path storeInterval restore now = (.ok p, tree))
    (hholds : tree.Holds path p.log.writer.place base) (hstage : p.log.stage = .running) :
    p.InSession tree path base p.ledger [] := by
  obtain ⟨place, -, hlog, hreport⟩ := openAt_ok hopen
  refine ⟨?_, isOpen_of_openAt hopen, hstage, rfl, hreport⟩
  rw [hlog] at hholds ⊢
  exact Pipeline.accounts_start hholds

/-- A ledger is opened on a file with a store interval that is taken from the settings, and anything
happens to it. Its calls are answered from the ledger in any case. If the clock can show the first
tick, the writer lives, the log accounts for every write that was applied, and a shutdown comes back
well and leaves the lines of all of them behind what was on the file. If it cannot, the writer is
dead, the file stays as it was whatever was answered, and the shutdown fails. -/
theorem logs_iff_showsFirstTick (hinterval : IsConfigurable storeInterval)
    (hopen : openAt files path storeInterval restore now = (.ok p, tree))
    (hfile : tree.node? p.log.writer.place = some (.file base)) (ms : List Move) :
    ∃ n ≤ Text.maxUnsigned64, storeInterval = .ofSeconds n ∧ ∃ q left records,
      p.moves tree ms = (q, left) ∧ Call.effects (calls ms) p.ledger = (records, q.ledger) ∧
      p.answers tree ms = Call.answers (calls ms) p.ledger ∧
      (q.log.stage = .running ↔ ShowsFirstTick now n) ∧
      (ShowsFirstTick now n → q.log.Accounts left path base records ∧ ∃ summary r closed,
        q.shutdown left = (.ok (some summary), r, closed) ∧
          bytesAt closed path = base ++ linesOf records) ∧
      (¬ShowsFirstTick now n → q.log.stage = .dead ∧ bytesAt left path = base ∧
        ∃ r, q.shutdown left = (.error Pipeline.waitFailure, r, left)) := by
  obtain ⟨n, hn, rfl⟩ := isConfigurable_iff.1 hinterval
  obtain ⟨place, hplace, hlog, hreport⟩ := openAt_ok hopen
  have hholds : tree.Holds path p.log.writer.place base := by
    rw [hlog] at hfile ⊢
    exact holds_of_openFile hplace hfile
  have hisOpen := isOpen_of_openAt hopen
  have hanswers := answers_of_isOpen hisOpen tree ms
  have hstage : p.log.stage = if ShowsFirstTick now n then .running else .dead := by
    rw [hlog, Pipeline.stage_start_eq]
    simp only [canShow_iff_showsFirstTick]
  refine ⟨n, hn, rfl, ?_⟩
  by_cases hshows : ShowsFirstTick now n
  · rw [if_pos hshows] at hstage
    obtain ⟨hmoved, hledger⟩ := (inSession_of_openAt hopen hholds hstage).moves ms
    obtain ⟨summary, r, closed, place', hshutdown, -, hclosed⟩ := hmoved.shutdown
    exact ⟨_, _, _, rfl, Prod.ext rfl hledger.symm, hanswers, iff_of_true hmoved.running hshows,
      fun _ => ⟨hmoved.log, summary, r, closed, hshutdown, (ready_of_holds hclosed).bytes⟩,
      fun hnot => absurd hshows hnot⟩
  · rw [if_neg hshows] at hstage
    have hmoves := moves_of_dead hisOpen hstage tree ms
    obtain ⟨r, hshutdown⟩ := shutdown_of_dead
      (p := { p with ledger := (Call.effects (calls ms) p.ledger).2 }) hstage hreport tree
    refine ⟨_, _, _, hmoves, rfl, hanswers, iff_of_false ?_ hshows, fun h => absurd h hshows,
      fun _ => ⟨hstage, (ready_of_holds hholds).bytes, r, hshutdown⟩⟩
    rw [hstage]
    decide

/-- Two calls of a session, and the steps of a writer that flushes once in an interval. -/
def sampleMoves : List Move := [
  .call (.write (.counter "a" 1)), .work .receive,
  .call (.batch [.ofRecord (.counter "a" 2), .ofRecord (.counter "b" 3)]), .work .tick]

/-- With an interval of five minutes a session on a log that was not there is closed well, and leaves
its three records. -/
theorem logs_fiveMinutes :
    ∃ p tree q left summary r closed,
      openAt .empty "m" (.ofSeconds 300) true ⟨0⟩ = (.ok p, tree) ∧
      p.moves tree sampleMoves = (q, left) ∧ p.answers tree sampleMoves = [.ok (), .ok ()] ∧
      q.shutdown left = (.ok (some summary), r, closed) ∧
      bytesAt closed "m" = linesOf [.counter "a" 1, .counter "a" 2, .counter "b" 3] := by
  have hready := ready_of_absent openFile_sample (by decide)
  obtain ⟨place, tree, hp, hholds⟩ := openAt_of_ready hready rfl rfl (.ofSeconds 300) ⟨0⟩
  have hinterval : IsConfigurable (.ofSeconds 300) := isConfigurable_iff.2 ⟨300, by decide, rfl⟩
  obtain ⟨n, -, hn, q, left, records, hmoves, heffects, hanswers, -, hlogs, -⟩ :=
    logs_iff_showsFirstTick hinterval hp hholds.node sampleMoves
  obtain rfl : n = 300 := by
    have hseconds := congrArg Duration.seconds hn
    simpa [Duration.seconds_ofSeconds] using hseconds.symm
  obtain ⟨-, summary, r, closed, hshutdown, hbytes⟩ := hlogs (by decide)
  have hrecords : (Call.effects (calls sampleMoves) .empty).1 =
      [.counter "a" 1, .counter "a" 2, .counter "b" 3] := by cbv
  obtain rfl := hrecords.symm.trans (congrArg Prod.fst heffects)
  exact ⟨_, tree, q, left, summary, r, closed, hp, hmoves, hanswers.trans (by cbv), hshutdown,
    hbytes⟩

/-- The longest interval that is taken stops the writer: a write is answered well and is read, but the
shutdown fails and the file is empty. -/
theorem longestInterval_logsNothing :
    parseStoreInterval "18446744073709551615" = .ok (.ofSeconds Text.maxUnsigned64) ∧
    ∃ p tree q r,
      openAt .empty "m" (.ofSeconds Text.maxUnsigned64) true ⟨0⟩ = (.ok p, tree) ∧
      p.write (.counter "a" 1) = (.ok (), q) ∧ q.ledger.getCounter "a" = .ok ⟨"a", 1⟩ ∧
      q.shutdown tree = (.error Pipeline.waitFailure, r, tree) ∧ bytesAt tree "m" = [] := by
  refine ⟨by cbv, ?_⟩
  have hready := ready_of_absent openFile_sample (by decide)
  obtain ⟨place, tree, hp, hholds⟩ :=
    openAt_of_ready hready rfl rfl (.ofSeconds Text.maxUnsigned64) ⟨0⟩
  have hdead : (Pipeline.start (.ofInterval (.ofSeconds Text.maxUnsigned64)) place ⟨0⟩).stage =
      .dead := by
    rw [Pipeline.stage_start_eq]
    decide
  have hanswer : (Call.write (.counter "a" 1)).answer .empty = .ok () := by cbv
  have hread : ((Call.write (.counter "a" 1)).effect .empty).2.getCounter "a" = .ok ⟨"a", 1⟩ := by
    cbv
  have hwrite := perform_of_dead (p := ⟨.empty, _, "m", true⟩) rfl hdead (.write (.counter "a" 1))
  simp only [hanswer] at hwrite
  obtain ⟨r, hshutdown⟩ := shutdown_of_dead
    (p := ⟨((Call.write (.counter "a" 1)).effect .empty).2, _, "m", true⟩) hdead rfl tree
  exact ⟨_, tree, _, r, hp, hwrite, hread, hshutdown, (ready_of_holds hholds).bytes⟩

end Persistent

end MetricLedger
