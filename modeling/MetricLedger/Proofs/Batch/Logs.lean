import Mathlib.Tactic
import MetricLedger.Proofs.Batch.Atomicity
import MetricLedger.Proofs.Log.Delivery
import MetricLedger.Storage

/-!
# Writes and batches with any log

A ledger is written with a log at hand, which may refuse the writes and is given the record of every
write that is applied. The log may be the queue of a pipeline, or none at all. Main statements:
`Persistent.runBatch_eq` and `Storage.runBatch_memory_eq`, the batches of both backends in memory are
batches with their logs.
-/

namespace MetricLedger

/-- A log: it refuses writes or admits them, and is given one record after the other. -/
structure WriteLog (σ : Type) where
  admission : σ → Except Failure Unit
  append : σ → Record → σ

namespace WriteLog

variable {σ : Type} (log : WriteLog σ)

/-- The log after some records. -/
def appendAll (s : σ) (records : List Record) : σ := records.foldl log.append s

/-- The log admits writes, now and after any records. -/
def Admits (s : σ) : Prop := ∀ records, log.admission (log.appendAll s records) = .ok ()

/-- Applies one write to a ledger and gives it to the log, unless the log refuses it. -/
def write (r : Record) (l : Ledger) (s : σ) : Except Failure Unit × Ledger × σ :=
  match log.admission s with
  | .error f => (.error f, l, s)
  | .ok _ =>
      match l.apply r with
      | .error f => (.error f, l, s)
      | .ok m => (.ok (), m, log.append s r)

/-- Runs a batch on a ledger and gives the records of one that succeeds to the log, unless the log
refuses it. -/
def runBatch (ops : List Op) (l : Ledger) (s : σ) : Except Failure Unit × Ledger × σ :=
  match log.admission s with
  | .error f => (.error f, l, s)
  | .ok _ =>
      match Batch.run ops l with
      | (.error f, m) => (.error f, m, s)
      | (.ok records, m) => (.ok (), m, log.appendAll s records)

variable {log} {s : σ} {l m : Ledger} {r : Record} {ops : List Op} {f : Failure}

theorem appendAll_append (first second : List Record) :
    log.appendAll s (first ++ second) = log.appendAll (log.appendAll s first) second :=
  List.foldl_append

theorem Admits.admission (h : log.Admits s) : log.admission s = .ok () := h []

theorem Admits.appendAll (h : log.Admits s) (records : List Record) :
    log.Admits (log.appendAll s records) := fun more => by
  rw [← appendAll_append]
  exact h (records ++ more)

theorem write_of_ok (hlog : log.admission s = .ok ()) (h : l.apply r = .ok m) :
    log.write r l s = (.ok (), m, log.append s r) := by
  simp only [write, hlog, h]

theorem write_of_error (hlog : log.admission s = .ok ()) (h : l.apply r = .error f) :
    log.write r l s = (.error f, l, s) := by
  simp only [write, hlog, h]

/-- A write that is refused by the log fails as the log says, and changes nothing. -/
theorem write_of_refused (hlog : log.admission s = .error f) (r : Record) (l : Ledger) :
    log.write r l s = (.error f, l, s) := by
  simp only [write, hlog]

/-- A batch that is refused by the log fails as the log says, and changes nothing. -/
theorem runBatch_of_refused (hlog : log.admission s = .error f) (ops : List Op) (l : Ledger) :
    log.runBatch ops l s = (.error f, l, s) := by
  simp only [runBatch, hlog]

theorem runBatch_of_error (hlog : log.admission s = .ok ()) (h : Batch.run ops l = (.error f, m)) :
    log.runBatch ops l s = (.error f, m, s) := by
  simp only [runBatch, hlog, h]

theorem runBatch_of_ok (hlog : log.admission s = .ok ()) {records : List Record}
    (h : Batch.run ops l = (.ok records, m)) :
    log.runBatch ops l s = (.ok (), m, log.appendAll s records) := by
  simp only [runBatch, hlog, h]

/-! ## The logs of the backends -/

/-- The queue of a pipeline as a log. -/
def publisher : WriteLog Log.Pipeline where
  admission p := if p.isOpen then .ok () else .error Persistent.closedFailure
  append p r := (p.publish r).2

/-- No log. -/
def unlogged : WriteLog Unit where
  admission _ := .ok ()
  append _ _ := ()

/-- An open queue admits writes. -/
theorem admits_publisher {p : Log.Pipeline} (h : p.isOpen = true) : publisher.Admits p :=
  fun records => if_pos ((Log.Pipeline.isOpen_publishAll p records).trans h)

theorem admits_unlogged : unlogged.Admits () := fun _ => rfl

end WriteLog

open WriteLog (publisher unlogged admits_unlogged)

/-- A write of a ledger with its log is a write with the queue as the log. -/
theorem Persistent.write_eq (p : Persistent) (r : Record) :
    p.write r =
      let (result, ledger, log) := publisher.write r p.ledger p.log
      (result, { p with ledger, log }) := by
  have hlog : p.admission = publisher.admission p.log := rfl
  rw [Persistent.write, hlog, WriteLog.write]
  cases publisher.admission p.log with
  | error f => rfl
  | ok _ => cases p.ledger.apply r <;> rfl

/-- A batch of a ledger with its log is a batch with the queue as the log. -/
theorem Persistent.runBatch_eq (p : Persistent) (ops : List Op) :
    p.runBatch ops =
      let (result, ledger, log) := publisher.runBatch ops p.ledger p.log
      (result, { p with ledger, log }) := by
  have hlog : p.admission = publisher.admission p.log := rfl
  rw [Persistent.runBatch, hlog, WriteLog.runBatch]
  cases publisher.admission p.log with
  | error f => rfl
  | ok _ =>
      rcases Batch.run ops p.ledger with ⟨result, m⟩
      cases result <;> rfl

namespace Storage

variable {τ : Type} (server : Relational.Server τ)

/-- A batch of a ledger in memory is a batch without a log. -/
theorem runBatch_memory_eq (ops : List Op) (l : Ledger) (t : τ) :
    runBatch server ops (.memory l) t =
      let (result, m, _) := unlogged.runBatch ops l ()
      (result, .memory m, t) := by
  rcases hrun : Batch.run ops l with ⟨result, m⟩
  cases result <;>
    simp only [runBatch, WriteLog.runBatch, admits_unlogged.admission, hrun, Except.map]

end Storage

end MetricLedger
