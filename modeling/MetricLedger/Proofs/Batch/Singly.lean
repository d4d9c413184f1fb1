import Mathlib.Tactic
import MetricLedger.Proofs.Batch.Rollback
import MetricLedger.Proofs.Ledger.Sums

/-!
# Batches and single writes

Writes may be given to a ledger and its log one by one, or all in one batch. Main statement:
`runBatch_eq_writeAll`, with a log that admits writes both come to the same, except that a batch with
a write that is refused is not done at all; and what a batch of any operations gives to the log is
the writes that it answered well.
-/

namespace MetricLedger

namespace WriteLog

variable {σ : Type} (log : WriteLog σ)

/-- Gives records one by one to a ledger and its log, up to the first one that fails. -/
def writeAll : List Record → Ledger → σ → Except Failure Unit × Ledger × σ
  | [], l, s => (.ok (), l, s)
  | r :: records, l, s =>
      match log.write r l s with
      | (.ok _, m, t) => writeAll records m t
      | (.error f, m, t) => (.error f, m, t)

variable {log} {s t : σ} {l m : Ledger} {records first : List Record} {r : Record} {f : Failure}

/-- A write that is answered well is applied and given to the log. -/
theorem write_ok {u : Unit} (h : log.write r l s = (.ok u, m, t)) :
    l.apply r = .ok m ∧ t = log.append s r := by
  unfold write at h
  split at h
  · cases h
  · split at h
    · cases h
    next k happly =>
      cases h
      exact ⟨happly, rfl⟩

/-- Writes that are all answered well are a replay, and the log has their records. -/
theorem writeAll_ok {u : Unit} (h : log.writeAll records l s = (.ok u, m, t)) :
    l.replay records = .ok m ∧ t = log.appendAll s records := by
  induction records generalizing l s with
  | nil =>
      cases h
      exact ⟨rfl, rfl⟩
  | cons r records ih =>
      unfold writeAll at h
      split at h
      next u k s' hwrite =>
        obtain ⟨happly, rfl⟩ := write_ok hwrite
        obtain ⟨hreplay, rfl⟩ := ih h
        exact ⟨(Ledger.replay_cons_of happly records).trans hreplay, rfl⟩
      next => cases h

/-- A log that admits writes leaves it to the ledger whether a write is refused. -/
theorem write_error (hadmits : log.Admits s) (h : (log.write r l s).1 = .error f) :
    l.apply r = .error f := by
  cases happly : l.apply r with
  | ok m =>
      rw [write_of_ok hadmits.admission happly] at h
      cases h
  | error f' =>
      rw [write_of_error hadmits.admission happly] at h
      obtain rfl := Except.error.inj h
      rfl

theorem writeAll_of_refused (hlog : log.admission s = .error f) (r : Record) (records : List Record)
    (l : Ledger) : log.writeAll (r :: records) l s = (.error f, l, s) := by
  simp only [writeAll, write_of_refused hlog]

end WriteLog

namespace Persistent

/-- Gives records one by one to a ledger with its log, up to the first one that fails. -/
def writeAll (p : Persistent) : List Record → Except Failure Unit × Persistent
  | [] => (.ok (), p)
  | r :: records =>
      match p.write r with
      | (.ok _, q) => q.writeAll records
      | (.error f, q) => (.error f, q)

theorem writeAll_eq (p : Persistent) (records : List Record) :
    p.writeAll records =
      let (result, ledger, log) := WriteLog.publisher.writeAll records p.ledger p.log
      (result, { p with ledger, log }) := by
  induction records generalizing p with
  | nil => rfl
  | cons r records ih =>
      rw [writeAll, WriteLog.writeAll, write_eq]
      rcases WriteLog.publisher.write r p.ledger p.log with ⟨result, m, t⟩
      cases result with
      | ok u => exact ih _
      | error f => rfl

end Persistent

namespace Batch

/-- The records among some writes that were answered well. -/
def accepted (writes : List (Record × Except Failure Unit)) : List Record :=
  writes.filterMap fun w =>
    match w.2 with
    | .ok _ => some w.1
    | .error _ => none

/-- An operation adds to a batch the writes that it was answered well. -/
theorem records_runOp (op : Op) (b : Batch) :
    (runOp op b).2.records = b.records ++ accepted (writesOf op b) := by
  induction op generalizing b with
  | done result => exact (List.append_nil _).symm
  | suspend op ih => exact ih b
  | write r next ih =>
      cases happly : b.ledger.apply r with
      | ok m =>
          simp only [runOp, writesOf, write_of_ok happly]
          refine (ih _ _).trans ?_
          simp [records, accepted]
      | error f =>
          simp only [runOp, writesOf, write_of_error happly]
          exact ih _ _

/-- A batch that comes to a good end has the writes that its operations were answered well. -/
theorem records_runOps {ops : List Op} {b c : Batch} (h : runOps ops b = (.ok (), c)) :
    c.records = b.records ++ (runs ops b).flatMap fun run => accepted run.writes := by
  induction ops generalizing b with
  | nil =>
      cases h
      exact (List.append_nil _).symm
  | cons op ops ih =>
      have hop := records_runOp op b
      rcases hrun : runOp op b with ⟨result, d⟩
      rw [hrun] at hop
      cases result with
      | error f =>
          rw [runOps_cons_of_error hrun] at h
          cases h
      | ok u =>
          rw [runOps_cons_of_ok hrun] at h
          rw [ih h, hop, runs_cons_of_ok hrun, List.flatMap_cons, List.append_assoc]

/-- Operations that all come to a good end are a batch that does. -/
theorem runOps_of_runs_ok {ops : List Op} {b : Batch}
    (h : ∀ run ∈ runs ops b, run.result = .ok ()) : ∃ c, runOps ops b = (.ok (), c) := by
  obtain hgood | ⟨before, op, after, c, f, d, rfl, hbefore, hfailed⟩ := runOps_cases ops b
  · exact hgood
  · have hlast := (runOps_of_failed hbefore hfailed after).2
    have hresult := h ⟨writesOf op c, .error f⟩ (by rw [hlast]; simp)
    cases hresult

/-- Records that are replayed up to one that is refused are a batch that ends with this one. -/
theorem length_runs_ofRecord {first rest : List Record} {b : Batch} {m : Ledger} {r : Record}
    {f : Failure} (hfirst : b.ledger.replay first = .ok m) (hr : m.apply r = .error f) :
    (runs ((first ++ r :: rest).map Op.ofRecord) b).length = first.length + 1 := by
  induction first generalizing b with
  | nil =>
      obtain rfl := Except.ok.inj hfirst
      have hrun : runOp (.ofRecord r) b = (.error f, b) := by
        simp only [runOp, Op.ofRecord, write_of_error hr]
      rw [List.nil_append, List.map_cons, runs_cons_of_error hrun]
      rfl
  | cons q first ih =>
      obtain ⟨k, hq, hk⟩ := Ledger.replay_cons_ok hfirst
      have hrun : runOp (.ofRecord q) b =
          (.ok (), ⟨k, Undo.of b.ledger q :: b.journal, q :: b.applied⟩) := by
        simp only [runOp, Op.ofRecord, write_of_ok hq]
      rw [List.cons_append, List.map_cons, runs_cons_of_ok hrun, List.length_cons, ih hk,
        List.length_cons]

theorem run_of_runOps_ok {ops : List Op} {l : Ledger} {c : Batch}
    (h : runOps ops (start l) = (.ok (), c)) : run ops l = (.ok c.records, c.ledger) := by
  simp only [run, h]

end Batch

namespace WriteLog

variable {σ : Type} {log : WriteLog σ} {s t : σ} {l m : Ledger}

/-- Writes that are all answered well one by one are a batch that is answered well. -/
theorem runBatch_of_writeAll_ok (hadmits : log.Admits s) {records : List Record}
    (hall : log.writeAll records l s = (.ok (), m, t)) :
    log.runBatch (records.map Op.ofRecord) l s = (.ok (), m, t) := by
  obtain ⟨hreplay, rfl⟩ := writeAll_ok hall
  exact runBatch_of_ok hadmits.admission (Batch.run_ofRecord hreplay)

/-- If the first of some writes that fails is at some position, the batch of them runs up to it. -/
theorem runBatch_of_write_error (hadmits : log.Admits s) {first rest : List Record} {r : Record}
    {f : Failure} (hfirst : log.writeAll first l s = (.ok (), m, t))
    (hr : (log.write r m t).1 = .error f) :
    (Batch.runs ((first ++ r :: rest).map Op.ofRecord) (.start l)).length = first.length + 1 ∧
      log.runBatch ((first ++ r :: rest).map Op.ofRecord) l s = (.error (.transaction f), l, s) := by
  obtain ⟨hreplay, rfl⟩ := writeAll_ok hfirst
  have happly := write_error (hadmits.appendAll first) hr
  have hrefused : l.replay (first ++ r :: rest) = .error f := by
    rw [Ledger.replay_append_of hreplay, Ledger.replay_cons, happly]
    rfl
  obtain ⟨name, delta, -, rfl, -⟩ := Ledger.apply_error happly
  exact ⟨Batch.length_runs_ofRecord hreplay happly,
    runBatch_of_error hadmits.admission (Batch.run_ofRecord_error hrefused)⟩

/-- A batch of any operations that all come to a good end gives to the log the writes that were
answered well, in order, and these lead from the ledger before it to the one after it. -/
theorem runBatch_of_runs_ok (hadmits : log.Admits s) {ops : List Op}
    (hops : ∀ run ∈ Batch.runs ops (.start l), run.result = .ok ()) : ∃ records m,
      records = ((Batch.runs ops (.start l)).flatMap fun run => Batch.accepted run.writes) ∧
      log.runBatch ops l s = (.ok (), m, log.appendAll s records) ∧ l.replay records = .ok m := by
  obtain ⟨c, hc⟩ := Batch.runOps_of_runs_ok hops
  have hrun := Batch.run_of_runOps_ok hc
  have hrecords := Batch.records_runOps hc
  rw [Batch.start_records, List.nil_append] at hrecords
  exact ⟨c.records, c.ledger, hrecords, runBatch_of_ok hadmits.admission hrun,
    Batch.replay_run hrun⟩

end WriteLog

/-- A batch and the same writes one by one, with a log that admits writes. Writes that are all
answered well one by one are a batch that is answered well, with the same ledger and the same log
after it. If the first one that is refused is at some position, the batch runs up to it, fails with
the same failure, wrapped once, and leaves the ledger and the log as they were. A batch of any
operations that all come to a good end gives to the log the writes that were answered well, in order,
and these lead from the ledger before it to the one after it. So it is for a ledger with its log, as
long as the queue is open. A log that refuses writes refuses a batch and the first of some writes
alike, with its own failure. -/
theorem runBatch_eq_writeAll {σ : Type} (log : WriteLog σ) (s : σ) (l : Ledger) :
    (log.Admits s →
      (∀ records m t, log.writeAll records l s = (.ok (), m, t) →
        t = log.appendAll s records ∧
          log.runBatch (records.map Op.ofRecord) l s = (.ok (), m, t)) ∧
      (∀ first r rest m t f, log.writeAll first l s = (.ok (), m, t) →
        (log.write r m t).1 = .error f →
        (Batch.runs ((first ++ r :: rest).map Op.ofRecord) (.start l)).length = first.length + 1 ∧
          log.runBatch ((first ++ r :: rest).map Op.ofRecord) l s =
            (.error (.transaction f), l, s)) ∧
      ∀ ops, (∀ run ∈ Batch.runs ops (.start l), run.result = .ok ()) → ∃ records m,
        records = ((Batch.runs ops (.start l)).flatMap fun run => Batch.accepted run.writes) ∧
        log.runBatch ops l s = (.ok (), m, log.appendAll s records) ∧
        l.replay records = .ok m) ∧
    (∀ f, log.admission s = .error f →
      (∀ ops, log.runBatch ops l s = (.error f, l, s)) ∧
      ∀ r records, log.writeAll (r :: records) l s = (.error f, l, s)) ∧
    ∀ p : Persistent, p.log.isOpen = true →
      (∀ records q, p.writeAll records = (.ok (), q) →
        q.log = p.log.publishAll records ∧ p.runBatch (records.map Op.ofRecord) = (.ok (), q)) ∧
      (∀ first r rest q f, p.writeAll first = (.ok (), q) → (q.write r).1 = .error f →
        p.runBatch ((first ++ r :: rest).map Op.ofRecord) = (.error (.transaction f), p)) ∧
      ∀ ops, (∀ run ∈ Batch.runs ops (.start p.ledger), run.result = .ok ()) → ∃ records q,
        records = ((Batch.runs ops (.start p.ledger)).flatMap fun run =>
          Batch.accepted run.writes) ∧
        p.runBatch ops = (.ok (), q) ∧ q.log = p.log.publishAll records ∧
        p.ledger.replay records = .ok q.ledger := by
  refine ⟨fun hadmits => ⟨fun records m t hall => ⟨(WriteLog.writeAll_ok hall).2,
      WriteLog.runBatch_of_writeAll_ok hadmits hall⟩,
      fun first r rest m t f hfirst hr => WriteLog.runBatch_of_write_error hadmits hfirst hr,
      fun ops hops => WriteLog.runBatch_of_runs_ok hadmits hops⟩,
    fun f hlog => ⟨fun ops => WriteLog.runBatch_of_refused hlog ops l,
      fun r records => WriteLog.writeAll_of_refused hlog r records l⟩,
    fun p hopen => ?_⟩
  have hadmits := WriteLog.admits_publisher hopen
  refine ⟨fun records q hall => ?_, fun first r rest q f hfirst hr => ?_, fun ops hops => ?_⟩
  · rcases hlogged : WriteLog.publisher.writeAll records p.ledger p.log with ⟨result, m, t⟩
    rw [Persistent.writeAll_eq, hlogged] at hall
    cases hall
    rw [Persistent.runBatch_eq, WriteLog.runBatch_of_writeAll_ok hadmits hlogged]
    exact ⟨(WriteLog.writeAll_ok hlogged).2, rfl⟩
  · rcases hlogged : WriteLog.publisher.writeAll first p.ledger p.log with ⟨result, m, t⟩
    rw [Persistent.writeAll_eq, hlogged] at hfirst
    cases hfirst
    rw [Persistent.write_eq] at hr
    rw [Persistent.runBatch_eq, (WriteLog.runBatch_of_write_error hadmits hlogged hr).2]
  · obtain ⟨records, m, hrecords, hrun, hreplay⟩ := WriteLog.runBatch_of_runs_ok hadmits hops
    refine ⟨records, ⟨m, p.log.publishAll records, p.path, p.hasReport⟩, hrecords, ?_, rfl, hreplay⟩
    rw [Persistent.runBatch_eq, hrun]
    rfl

/-- On a closed queue a single write and a batch of it fail in the same way: the failure of the batch
is not wrapped. A batch of no writes fails as well. -/
theorem closedQueue_notWrapped :
    (Persistent.sample.closeQueue.write (.counter "a" 1)).1 = .error Persistent.closedFailure ∧
      Persistent.sample.closeQueue.runBatch [.ofRecord (.counter "a" 1)] =
        (.error Persistent.closedFailure, Persistent.sample.closeQueue) ∧
      Persistent.closedFailure ≠ .transaction Persistent.closedFailure ∧
      Persistent.sample.closeQueue.writeAll [] = (.ok (), Persistent.sample.closeQueue) ∧
      (Persistent.sample.closeQueue.runBatch []).1 = .error Persistent.closedFailure :=
  ⟨rfl, rfl, by decide, rfl, rfl⟩

/-- An operation that fills a counter, is refused a further delta and goes on with a gauge. -/
def fillingOp : Op := .regardless ([.counter "a" 9223372036854775807, .counter "a" 1,
  .gauge "g" ⟨0x3FF0000000000000⟩].map Op.ofRecord)

/-- A batch of the same writes fails and changes nothing; the operation gives two of them to the
log. -/
theorem runBatch_fillingOp :
    Persistent.sample.runBatch ([.counter "a" 9223372036854775807, .counter "a" 1,
        .gauge "g" ⟨0x3FF0000000000000⟩].map Op.ofRecord) =
      (.error (.transaction (Ledger.overflow "a" 1)), Persistent.sample) ∧
    ∃ q, Persistent.sample.runBatch [fillingOp] = (.ok (), q) ∧
      q.log.queue = [.counter "a" 9223372036854775807, .gauge "g" ⟨0x3FF0000000000000⟩] := by
  obtain ⟨-, -, hpersistent⟩ :=
    runBatch_eq_writeAll WriteLog.publisher Persistent.sample.log .empty
  obtain ⟨-, hrefused, hops⟩ := hpersistent Persistent.sample rfl
  have hruns : Batch.runs [fillingOp] (.start Persistent.sample.ledger) =
      [⟨[(.counter "a" 9223372036854775807, .ok ()),
        (.counter "a" 1, .error (Ledger.overflow "a" 1)),
        (.gauge "g" ⟨0x3FF0000000000000⟩, .ok ())], .ok ()⟩] := by cbv
  obtain ⟨records, q, rfl, hrun, hlog, -⟩ := hops [fillingOp] (by rw [hruns]; simp)
  rw [hruns] at hlog
  refine ⟨hrefused [.counter "a" 9223372036854775807] (.counter "a" 1)
    [.gauge "g" ⟨0x3FF0000000000000⟩] _ _ (by cbv) (by cbv), q, hrun, ?_⟩
  rw [hlog]
  rfl

end MetricLedger
