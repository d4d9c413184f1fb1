import Mathlib
import MetricLedger.Persistent
import MetricLedger.Proofs.Batch.Atomicity
import MetricLedger.Proofs.Log.Delivery

/-!
# Calls on a ledger with its log

A call writes one record or runs a batch. What it applies is told by the ledger alone; while the
queue is open the same records go to the log, and once it is closed nothing is applied any more.
-/

namespace MetricLedger

/-- A call that writes. -/
inductive Call where
  | write (r : Record)
  | batch (ops : List Op)

namespace Call

/-- The writes that a call applies to a ledger, in order, and the ledger after them. A call that
fails applies none. -/
def effect : Call → Ledger → List Record × Ledger
  | .write r, l =>
      match l.apply r with
      | .ok m => ([r], m)
      | .error _ => ([], l)
  | .batch ops, l =>
      match Batch.performAll ops l with
      | (.ok _, records, m) => (records, m)
      | (.error _, _, _) => ([], l)

/-- What a call that is admitted answers. -/
def answer : Call → Ledger → Except Failure Unit
  | .write r, l =>
      match l.apply r with
      | .ok _ => .ok ()
      | .error f => .error f
  | .batch ops, l =>
      match Batch.performAll ops l with
      | (.ok _, _, _) => .ok ()
      | (.error f, _, _) => .error f.aborted

/-- The writes that calls apply one after the other, and the ledger after them. -/
def effects : List Call → Ledger → List Record × Ledger
  | [], l => ([], l)
  | c :: calls, l =>
      let (first, m) := c.effect l
      let (second, k) := effects calls m
      (first ++ second, k)

theorem effects_cons (c : Call) (calls : List Call) (l : Ledger) :
    effects (c :: calls) l =
      ((c.effect l).1 ++ (effects calls (c.effect l).2).1, (effects calls (c.effect l).2).2) := rfl

/-- What a call applies leads to the ledger after it. -/
theorem replay_effect (c : Call) (l : Ledger) : l.replay (c.effect l).1 = .ok (c.effect l).2 := by
  cases c with
  | write r =>
      cases h : l.apply r with
      | ok m =>
          simp only [effect, h]
          rw [Ledger.replay_cons_of h]
          rfl
      | error f =>
          simp only [effect, h]
          rfl
  | batch ops =>
      have hreplay := Batch.replay_performAll ops l
      rcases hperform : Batch.performAll ops l with ⟨result, records, m⟩
      rw [hperform] at hreplay
      cases result with
      | ok u =>
          simp only [effect, hperform]
          exact hreplay
      | error f =>
          simp only [effect, hperform]
          rfl

/-- A call that fails applies nothing. -/
theorem effect_of_answer_error {c : Call} {l : Ledger} {f : Failure}
    (h : c.answer l = .error f) : c.effect l = ([], l) := by
  cases c with
  | write r =>
      cases happly : l.apply r with
      | ok m => simp [answer, happly] at h
      | error f => simp only [effect, happly]
  | batch ops =>
      rcases hperform : Batch.performAll ops l with ⟨result, records, m⟩
      cases result with
      | ok u => simp [answer, hperform] at h
      | error f => simp only [effect, hperform]

/-- A batch that comes to its end has the records and the ledger that it carries then. -/
theorem batch_of_runOps_ok {ops : List Op} {l : Ledger} {b : Batch}
    (h : Batch.runOps ops (Batch.start l) = (.ok (), b)) :
    (batch ops).answer l = .ok () ∧ (batch ops).effect l = (b.records, b.ledger) := by
  obtain ⟨h1, h2, h3⟩ := Batch.runOps_eq_performAll ops (Batch.start l)
  rw [Batch.start_ledger] at h1 h2 h3
  rcases hperform : Batch.performAll ops l with ⟨result, records, m⟩
  rw [h, hperform] at h1 h2 h3
  obtain rfl : result = .ok () := h1.symm
  simp only [answer, effect, hperform, true_and]
  exact Prod.ext h2.symm h3.symm

/-- A batch that fails leads back to the ledger it started from. -/
theorem batch_of_runOps_error {ops : List Op} {l : Ledger} {b : Batch} {f : Failure}
    (h : Batch.runOps ops (Batch.start l) = (.error f, b)) :
    (batch ops).answer l = .error f.aborted ∧ b.rollback = l := by
  obtain ⟨h1, -, -⟩ := Batch.runOps_eq_performAll ops (Batch.start l)
  have hback := Batch.rollback_runOps ops (Batch.start l)
  rw [Batch.start_ledger] at h1
  rcases hperform : Batch.performAll ops l with ⟨result, records, m⟩
  rw [h, hperform] at h1
  rw [h] at hback
  obtain rfl : result = .error f := h1.symm
  simp only [answer, hperform, true_and]
  exact hback

theorem replay_effects (calls : List Call) (l : Ledger) :
    l.replay (effects calls l).1 = .ok (effects calls l).2 := by
  induction calls generalizing l with
  | nil => rfl
  | cons c calls ih =>
      rw [effects_cons]
      show l.replay ((c.effect l).1 ++ _) = _
      rw [Ledger.replay_append_of (replay_effect c l)]
      exact ih _

end Call

namespace Persistent

/-- A ledger that was opened has a pipeline that starts, and nobody has asked for its report. -/
theorem openAt_ok {files tree : Files} {path : String} {storeInterval now : Duration}
    {restore : Bool} {p : Persistent}
    (h : openAt files path storeInterval restore now = (.ok p, tree)) :
    ∃ place, Log.Pipeline.openFile files path = (.ok place, tree) ∧
      p.log = Log.Pipeline.start (.ofInterval storeInterval) place now ∧ p.hasReport = true := by
  unfold openAt Log.Pipeline.openAt at h
  split at h
  · cases h
  · rcases hfile : Log.Pipeline.openFile files path with ⟨result, opened⟩
    simp only [hfile] at h
    cases result with
    | error f => cases h
    | ok place =>
        simp only [Prod.mk.injEq, Except.ok.injEq] at h
        obtain ⟨rfl, rfl⟩ := h
        exact ⟨place, rfl, rfl, rfl⟩

/-- A log that is read leads to the ledger that its records lead to, unless one of them is refused. -/
theorem restoreLedger_of_readFile {files : Files} {path : String} {records : List Record}
    (h : Log.readFile files path = .ok records) :
    restoreLedger files path = (Ledger.empty.replay records).mapError Failure.aborted := by
  simp only [restoreLedger, h, bind, Except.bind]
  cases hreplay : Ledger.empty.replay records with
  | ok l =>
      rw [Batch.run_ofRecord hreplay]
      rfl
  | error f =>
      rw [Batch.run_ofRecord_error hreplay]
      rfl

/-- A ledger opened from its log is the one that the log leads to. -/
theorem restoreLedger_of_openAt {files tree : Files} {path : String}
    {storeInterval now : Duration} {p : Persistent}
    (h : openAt files path storeInterval true now = (.ok p, tree)) :
    restoreLedger files path = .ok p.ledger ∧ ∃ records,
      Log.readFile files path = .ok records ∧ Ledger.empty.replay records = .ok p.ledger := by
  have hrestore : restoreLedger files path = .ok p.ledger := by
    unfold openAt at h
    rw [if_pos rfl] at h
    cases hr : restoreLedger files path with
    | error f =>
        rw [hr] at h
        cases h
    | ok l =>
        rw [hr] at h
        simp only at h
        split at h
        · cases h
        · obtain ⟨hp, -⟩ := Prod.mk.inj h
          rw [← Except.ok.inj hp]
  refine ⟨hrestore, ?_⟩
  cases hread : Log.readFile files path with
  | error f => simp [restoreLedger, hread, bind, Except.bind] at hrestore
  | ok records =>
      refine ⟨records, rfl, ?_⟩
      rw [restoreLedger_of_readFile hread] at hrestore
      cases hreplay : Ledger.empty.replay records with
      | error f =>
          rw [hreplay] at hrestore
          cases hrestore
      | ok l =>
          rw [hreplay] at hrestore
          exact hrestore

/-- A log that reads and replays is opened with the ledger it leads to. -/
theorem openAt_of_ready {files : Files} {path : String} {content : List UInt8}
    {records : List Record} {l : Ledger} (hready : Log.Ready files path content)
    (hread : Log.readContent path content = .ok records)
    (hreplay : Ledger.empty.replay records = .ok l) (storeInterval now : Duration) :
    ∃ place tree,
      openAt files path storeInterval true now =
        (.ok ⟨l, Log.Pipeline.start (.ofInterval storeInterval) place now, path, true⟩, tree) ∧
      tree.Holds path place content := by
  obtain ⟨place, tree, hopen, hholds⟩ := hready.opens
  refine ⟨place, tree, ?_, hholds⟩
  have hrestore : restoreLedger files path = .ok l := by
    simp [restoreLedger, hready.reads, hread, Batch.run_ofRecord hreplay, bind, Except.bind]
  simp only [openAt, if_true, hrestore, Log.Pipeline.openAt, hopen]

/-- A new ledger that flushes every record to a file in the working directory. -/
def sample : Persistent := ⟨.empty, Log.Pipeline.start .sync ["work", "m"] ⟨0⟩, "m", true⟩

/-- The files after the opening of `sample`. -/
def sampleFiles : Files := (Log.Pipeline.openFile .empty "m").2

theorem openFile_sample : Log.Pipeline.openFile .empty "m" = (.ok ["work", "m"], sampleFiles) :=
  Prod.ext (by cbv) rfl

theorem openAt_sample : openAt .empty "m" ⟨0⟩ false ⟨0⟩ = (.ok sample, sampleFiles) := by
  simp only [openAt, Log.Pipeline.openAt, openFile_sample, Bool.false_eq_true, if_false]
  rfl

/-- What a call comes to. -/
def perform (p : Persistent) : Call → Except Failure Unit × Persistent
  | .write r => p.write r
  | .batch ops => p.runBatch ops

/-- While the queue is open, a call applies its writes and hands the same records to the log. -/
theorem perform_of_isOpen {p : Persistent} (h : p.log.isOpen = true) (c : Call) :
    p.perform c = (c.answer p.ledger,
      { p with
        ledger := (c.effect p.ledger).2
        log := p.log.publishAll (c.effect p.ledger).1 }) := by
  have hadmission : p.admission = .ok () := by rw [admission, if_pos h]
  cases c with
  | write r =>
      cases happly : p.ledger.apply r with
      | ok m =>
          simp only [perform, write, hadmission, Call.effect, Call.answer, happly]
          rfl
      | error f =>
          simp only [perform, write, hadmission, Call.effect, Call.answer, happly]
          rfl
  | batch ops =>
      have hrun := Batch.run_eq_performAll ops p.ledger
      rcases hperform : Batch.performAll ops p.ledger with ⟨result, records, m⟩
      rw [hperform] at hrun
      cases result with
      | ok u => simp only [perform, runBatch, hadmission, hrun, Call.effect, Call.answer, hperform]
      | error f =>
          simp only [perform, runBatch, hadmission, hrun, Call.effect, Call.answer, hperform]
          rfl

/-- Once the queue is closed, a call is refused and changes nothing. -/
theorem perform_of_closed {p : Persistent} (h : p.log.isOpen = false) (c : Call) :
    p.perform c = (.error closedFailure, p) := by
  have hadmission : p.admission = .error closedFailure := by
    rw [admission, if_neg (by simp [h])]
  cases c with
  | write r => simp only [perform, write, hadmission]
  | batch ops => simp only [perform, runBatch, hadmission]

/-! ## Calls and steps of the writer -/

/-- What happens to an open ledger: a call, or a step of the writer of its log. -/
inductive Move where
  | call (c : Call)
  | work (step : Log.Pipeline.Work)

/-- The calls among some moves. -/
def calls (moves : List Move) : List Call :=
  moves.filterMap fun
    | .call c => some c
    | .work _ => none

/-- A ledger and the files after a move. -/
def move (p : Persistent) (files : Files) : Move → Persistent × Files
  | .call c => ((p.perform c).2, files)
  | .work step =>
      let (log, files) := p.log.work files step
      ({ p with log }, files)

/-- A ledger and the files after some moves. -/
def moves (p : Persistent) (files : Files) (ms : List Move) : Persistent × Files :=
  ms.foldl (fun s m => s.1.move s.2 m) (p, files)

end Persistent

end MetricLedger
