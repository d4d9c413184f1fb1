import Mathlib.Tactic
import MetricLedger.Batch
import MetricLedger.Proofs.Ledger.Replay

/-!
# What a batch comes to

A batch that ends is its operations performed one after the other, or nothing at all: the notes it
takes on the way leave no trace. Main statements: `run_eq_performAll` and `replay_run`, a batch that
succeeds is the replay of the records it gives back.
-/

namespace MetricLedger

/-! ## Operations without a journal -/

/-- Performs an operation on a ledger itself: its result, the records that were accepted, in order,
and the ledger they lead to. -/
def Op.perform : Op → Ledger → Except Failure Unit × List Record × Ledger
  | .done result, l => (result, [], l)
  | .suspend op, l => op.perform l
  | .write r next, l =>
      match l.apply r with
      | .ok m =>
          let (result, records, k) := (next (.ok ())).perform m
          (result, r :: records, k)
      | .error f => (next (.error f)).perform l

namespace Batch

/-- Performs operations one after the other, up to the first one that fails. -/
def performAll : List Op → Ledger → Except Failure Unit × List Record × Ledger
  | [], l => (.ok (), [], l)
  | op :: ops, l =>
      match op.perform l with
      | (.ok _, first, m) =>
          let (result, second, k) := performAll ops m
          (result, first ++ second, k)
      | (.error f, records, m) => (.error f, records, m)

@[simp] theorem start_ledger (l : Ledger) : (start l).ledger = l := rfl

@[simp] theorem start_records (l : Ledger) : (start l).records = [] := rfl

theorem write_of_ok {b : Batch} {r : Record} {m : Ledger} (h : b.ledger.apply r = .ok m) :
    b.write r = (.ok (), ⟨m, Undo.of b.ledger r :: b.journal, r :: b.applied⟩) := by
  rw [write, h]

theorem write_of_error {b : Batch} {r : Record} {f : Failure} (h : b.ledger.apply r = .error f) :
    b.write r = (.error f, b) := by
  rw [write, h]

/-- What an operation does to a batch is what it does to the ledger of the batch. -/
theorem runOp_eq_perform (op : Op) (b : Batch) :
    (runOp op b).1 = (op.perform b.ledger).1 ∧
      (runOp op b).2.records = b.records ++ (op.perform b.ledger).2.1 ∧
      (runOp op b).2.ledger = (op.perform b.ledger).2.2 := by
  induction op generalizing b with
  | done result => exact ⟨rfl, (List.append_nil _).symm, rfl⟩
  | suspend op ih => exact ih b
  | write r next ih =>
      cases h : b.ledger.apply r with
      | ok m =>
          obtain ⟨h1, h2, h3⟩ := ih (.ok ()) ⟨m, Undo.of b.ledger r :: b.journal, r :: b.applied⟩
          simp only [runOp, write_of_ok h, Op.perform, h]
          refine ⟨h1, h2.trans ?_, h3⟩
          simp [records]
      | error f =>
          simp only [runOp, write_of_error h, Op.perform, h]
          exact ih (.error f) b

theorem runOps_eq_performAll (ops : List Op) (b : Batch) :
    (runOps ops b).1 = (performAll ops b.ledger).1 ∧
      (runOps ops b).2.records = b.records ++ (performAll ops b.ledger).2.1 ∧
      (runOps ops b).2.ledger = (performAll ops b.ledger).2.2 := by
  induction ops generalizing b with
  | nil => exact ⟨rfl, (List.append_nil _).symm, rfl⟩
  | cons op ops ih =>
      obtain ⟨h1, h2, h3⟩ := runOp_eq_perform op b
      unfold runOps performAll
      rcases hrun : runOp op b with ⟨result, b'⟩
      rcases hperform : op.perform b.ledger with ⟨result', records, m⟩
      rw [hrun, hperform] at h1 h2 h3
      obtain rfl : result = result' := h1
      obtain rfl : b'.ledger = m := h3
      cases result with
      | ok u =>
          obtain ⟨i1, i2, i3⟩ := ih b'
          refine ⟨i1, ?_, i3⟩
          rw [i2, h2, List.append_assoc]
      | error f => exact ⟨rfl, h2, rfl⟩

/-- A batch is its operations performed one after the other, or nothing at all. -/
theorem run_eq_performAll (ops : List Op) (l : Ledger) :
    run ops l =
      match performAll ops l with
      | (.ok _, records, m) => (.ok records, m)
      | (.error f, _, _) => (.error f.aborted, l) := by
  obtain ⟨h1, h2, h3⟩ := runOps_eq_performAll ops (start l)
  have hback := rollback_runOps ops (start l)
  unfold run
  rcases hrun : runOps ops (start l) with ⟨result, b⟩
  rcases hperform : performAll ops l with ⟨result', records, m⟩
  rw [hrun] at h1 h2 h3 hback
  rw [start_ledger, hperform] at h1 h2 h3
  obtain rfl : result = result' := h1
  obtain rfl : b.ledger = m := h3
  cases result with
  | ok u => exact Prod.ext (congrArg Except.ok h2) rfl
  | error f => exact Prod.ext rfl hback

/-! ## Batches and replays -/

theorem replay_perform (op : Op) (l : Ledger) :
    l.replay (op.perform l).2.1 = .ok (op.perform l).2.2 := by
  induction op generalizing l with
  | done result => rfl
  | suspend op ih => exact ih l
  | write r next ih =>
      cases h : l.apply r with
      | ok m =>
          simp only [Op.perform, h]
          rw [Ledger.replay_cons_of h]
          exact ih (.ok ()) m
      | error f =>
          simp only [Op.perform, h]
          exact ih (.error f) l

theorem replay_performAll (ops : List Op) (l : Ledger) :
    l.replay (performAll ops l).2.1 = .ok (performAll ops l).2.2 := by
  induction ops generalizing l with
  | nil => rfl
  | cons op ops ih =>
      have hfirst := replay_perform op l
      unfold performAll
      rcases hperform : op.perform l with ⟨result, records, m⟩
      rw [hperform] at hfirst
      cases result with
      | ok u =>
          show l.replay (records ++ (performAll ops m).2.1) = .ok (performAll ops m).2.2
          rw [Ledger.replay_append_of hfirst]
          exact ih m
      | error f => exact hfirst

/-- A batch that succeeds is the replay of the records it gives back. -/
theorem replay_run {ops : List Op} {l m : Ledger} {records : List Record}
    (h : run ops l = (.ok records, m)) : l.replay records = .ok m := by
  have hreplay := replay_performAll ops l
  rw [run_eq_performAll] at h
  rcases hperform : performAll ops l with ⟨result, written, k⟩
  rw [hperform] at h hreplay
  cases result with
  | ok u =>
      obtain ⟨h1, rfl⟩ := Prod.mk.inj h
      obtain rfl := Except.ok.inj h1
      exact hreplay
  | error f => cases h

/-- A batch that fails changes nothing. -/
theorem run_error {ops : List Op} {l m : Ledger} {f : Failure} (h : run ops l = (.error f, m)) :
    m = l := by
  rw [run_eq_performAll] at h
  rcases hperform : performAll ops l with ⟨result, written, k⟩
  rw [hperform] at h
  cases result with
  | ok u => cases h
  | error f => exact (Prod.mk.inj h).2.symm

/-- A log that can be replayed is a batch that succeeds. -/
theorem run_ofRecord {l m : Ledger} {records : List Record} (h : l.replay records = .ok m) :
    run (records.map Op.ofRecord) l = (.ok records, m) := by
  have hperform : performAll (records.map Op.ofRecord) l = (.ok (), records, m) := by
    induction records generalizing l with
    | nil =>
        obtain rfl := Except.ok.inj h
        rfl
    | cons r records ih =>
        obtain ⟨k, hr, hk⟩ := Ledger.replay_cons_ok h
        simp [performAll, Op.ofRecord, Op.perform, hr, ih hk]
  rw [run_eq_performAll, hperform]

/-- A log that cannot be replayed is a batch that fails, and says why. -/
theorem run_ofRecord_error {l : Ledger} {records : List Record} {f : Failure}
    (h : l.replay records = .error f) :
    run (records.map Op.ofRecord) l = (.error f.aborted, l) := by
  have hperform : ∃ written m,
      performAll (records.map Op.ofRecord) l = (.error f, written, m) := by
    induction records generalizing l with
    | nil => cases h
    | cons r records ih =>
        rw [Ledger.replay_cons] at h
        cases hr : l.apply r with
        | error f' =>
            rw [hr] at h
            obtain rfl := Except.error.inj h
            exact ⟨[], l, by simp [performAll, Op.ofRecord, Op.perform, hr]⟩
        | ok k =>
            rw [hr] at h
            obtain ⟨written, m, hrest⟩ := ih h
            exact ⟨r :: written, m, by simp [performAll, Op.ofRecord, Op.perform, hr, hrest]⟩
  obtain ⟨written, m, hperform⟩ := hperform
  rw [run_eq_performAll, hperform]

end Batch

end MetricLedger
