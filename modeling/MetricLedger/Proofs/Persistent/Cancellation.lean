import Mathlib
import MetricLedger.Proofs.Persistent.Calls

/-!
# Batches that are given up

A batch whose caller goes away in the middle takes nothing back. Main statements:
`runBatchUntil_isWhole_iff`, such a batch leaves everything or nothing behind exactly if its writes up
to that moment have changed nothing, and `runBatchUntil_notWhole`, this can fail.
-/

namespace MetricLedger

namespace Batch

/-! ## Up to the moment of giving up -/

/-- What every write of an operation keeps, the operation keeps, whenever it is given up. -/
theorem runOpUntil_of_write {P : Batch → Prop} (hwrite : ∀ b r, P b → P (b.write r).2) (op : Op)
    (patience : ℕ) {b : Batch} (h : P b) : P (runOpUntil op patience b).2 := by
  induction op generalizing patience b with
  | done result => exact h
  | suspend op ih =>
      cases patience with
      | zero => exact h
      | succ patience => exact ih patience h
  | write r next ih => exact ih _ patience (hwrite b r h)

theorem runOpsUntil_of_write {P : Batch → Prop} (hwrite : ∀ b r, P b → P (b.write r).2)
    (ops : List Op) (patience : ℕ) {b : Batch} (h : P b) : P (runOpsUntil ops patience b).2 := by
  induction ops generalizing patience b with
  | nil => exact h
  | cons op ops ih =>
      have hfirst := runOpUntil_of_write hwrite op patience h
      unfold runOpsUntil
      split
      next hrun =>
        rw [hrun] at hfirst
        exact ih _ hfirst
      next hrun =>
        rw [hrun] at hfirst
        exact hfirst
      next hrun =>
        rw [hrun] at hfirst
        exact hfirst

/-- The notes of a batch that was given up would lead back to the ledger before it. -/
theorem rollback_runOpsUntil (ops : List Op) (patience : ℕ) (b : Batch) :
    (runOpsUntil ops patience b).2.rollback = b.rollback :=
  runOpsUntil_of_write (fun c r hc => (rollback_write c r).trans hc) ops patience
    (P := fun c => c.rollback = b.rollback) rfl

/-- The writes of a batch up to the moment of giving up lead to the ledger at that moment. -/
theorem replay_runOpsUntil {l : Ledger} {b : Batch} (h : l.replay b.records = .ok b.ledger)
    (ops : List Op) (patience : ℕ) :
    l.replay (runOpsUntil ops patience b).2.records =
      .ok (runOpsUntil ops patience b).2.ledger := by
  refine runOpsUntil_of_write (P := fun c => l.replay c.records = .ok c.ledger) ?_ ops patience h
  intro c r hc
  cases happly : c.ledger.apply r with
  | ok m =>
      have hrecords : (c.write r).2.records = c.records ++ [r] := by
        rw [write_of_ok happly]
        exact List.reverse_cons
      rw [hrecords, Ledger.replay_append_of hc, Ledger.replay_cons_of happly, write_of_ok happly]
      rfl
  | error f =>
      rw [write_of_error happly]
      exact hc

/-! ## Batches that are not given up -/

theorem runOp_of_runOpUntil {op : Op} {patience left : ℕ} {b c : Batch}
    {result : Except Failure Unit} (h : runOpUntil op patience b = (some (result, left), c)) :
    runOp op b = (result, c) := by
  induction op generalizing patience b with
  | done result =>
      cases h
      rfl
  | suspend op ih =>
      cases patience with
      | zero => cases h
      | succ patience => exact ih h
  | write r next ih => exact ih _ h

theorem runOps_of_runOpsUntil {ops : List Op} {patience : ℕ} {b c : Batch}
    {result : Except Failure Unit} (h : runOpsUntil ops patience b = (some result, c)) :
    runOps ops b = (result, c) := by
  induction ops generalizing patience b with
  | nil =>
      cases h
      rfl
  | cons op ops ih =>
      unfold runOpsUntil at h
      unfold runOps
      split at h
      next hrun =>
        rw [runOp_of_runOpUntil hrun]
        exact ih h
      next hrun =>
        rw [runOp_of_runOpUntil hrun]
        cases h
        rfl
      next => cases h

/-- A batch whose caller is patient enough is run to its end. -/
theorem run_of_runUntil {ops : List Op} {patience : ℕ} {l m : Ledger}
    {result : Except Failure (List Record)} (h : runUntil ops patience l = (some result, m)) :
    run ops l = (result, m) := by
  unfold runUntil at h
  unfold run
  split at h
  next hrun =>
    rw [runOps_of_runOpsUntil hrun]
    cases h
    rfl
  next hrun =>
    rw [runOps_of_runOpsUntil hrun]
    cases h
    rfl
  next => cases h

/-- The ledger of a batch that is given up is the one that its writes so far have led to. -/
theorem ledger_of_runUntil {ops : List Op} {patience : ℕ} {l m : Ledger}
    (h : runUntil ops patience l = (none, m)) :
    (runOpsUntil ops patience (start l)).2.ledger = m := by
  unfold runUntil at h
  split at h
  next => cases h
  next => cases h
  next hrun =>
    rw [hrun]
    exact (Prod.mk.inj h).2

end Batch

namespace Persistent

/-! ## Everything or nothing -/

/-- A batch has left nothing behind, or all its writes, with their records in the queue. -/
def IsWhole (ops : List Op) (p q : Persistent) : Prop :=
  q = p ∨ ∃ records m, Batch.run ops p.ledger = (.ok records, m) ∧
    q = { p with ledger := m, log := { p.log with queue := p.log.queue ++ records } }

/-- A batch that is given up hands nothing to the log. -/
theorem runBatchUntil_none {p : Persistent} {ops : List Op} {patience : ℕ}
    (h : (p.runBatchUntil ops patience).1 = none) :
    ∃ m, Batch.runUntil ops patience p.ledger = (none, m) ∧
      (p.runBatchUntil ops patience).2 = { p with ledger := m } := by
  unfold runBatchUntil at h ⊢
  cases hadmission : p.admission with
  | error f =>
      rw [hadmission] at h
      cases h
  | ok u =>
      rw [hadmission] at h
      simp only at h ⊢
      rcases hrun : Batch.runUntil ops patience p.ledger with ⟨result, m⟩
      rw [hrun] at h
      cases result with
      | none => exact ⟨m, rfl, rfl⟩
      | some result => cases result <;> cases h

/-- A batch that is not given up leaves nothing behind, or everything. -/
theorem isWhole_of_ne_none {p : Persistent} (halive : p.log.stage ≠ .dead) {ops : List Op}
    {patience : ℕ} (h : (p.runBatchUntil ops patience).1 ≠ none) :
    IsWhole ops p (p.runBatchUntil ops patience).2 := by
  unfold runBatchUntil admission at h ⊢
  by_cases hopen : p.log.isOpen = true
  · rw [if_pos hopen] at h ⊢
    simp only at h ⊢
    rcases hrun : Batch.runUntil ops patience p.ledger with ⟨result, m⟩
    rw [hrun] at h
    cases result with
    | none => exact absurd rfl h
    | some result =>
        have hfull := Batch.run_of_runUntil hrun
        cases result with
        | ok records =>
            refine .inr ⟨records, m, hfull, ?_⟩
            simp only [Log.Pipeline.publishAll_of_takes ⟨hopen, halive⟩]
        | error f =>
            obtain rfl := Batch.run_error hfull
            exact .inl rfl
  · rw [if_neg hopen]
    exact .inl rfl

/-- A batch leaves everything or nothing behind exactly if, in case it is given up, its writes so far
have changed nothing. Nothing of a batch that is given up is logged; its notes would lead back, but
nobody follows them. -/
theorem runBatchUntil_isWhole_iff {p : Persistent} (halive : p.log.stage ≠ .dead) (ops : List Op)
    (patience : ℕ) :
    (IsWhole ops p (p.runBatchUntil ops patience).2 ↔
      ((p.runBatchUntil ops patience).1 = none →
        (p.runBatchUntil ops patience).2.ledger = p.ledger)) ∧
    ((p.runBatchUntil ops patience).1 = none →
      (p.runBatchUntil ops patience).2.log = p.log ∧
      ∃ b, (Batch.runOpsUntil ops patience (Batch.start p.ledger)).2 = b ∧
        (p.runBatchUntil ops patience).2.ledger = b.ledger ∧
        p.ledger.replay b.records = .ok b.ledger ∧ b.rollback = p.ledger) := by
  refine ⟨⟨fun hwhole hnone => ?_, fun hsame => ?_⟩, fun hnone => ?_⟩
  · obtain ⟨m, -, hleft⟩ := runBatchUntil_none hnone
    rw [hleft] at hwhole ⊢
    rcases hwhole with hp | ⟨records, k, hrun, hp⟩
    · exact congrArg Persistent.ledger hp
    · -- Nothing was logged, so only a batch without a write could have left everything behind.
      have hqueue : p.log.queue = p.log.queue ++ records :=
        congrArg (fun q : Persistent => q.log.queue) hp
      obtain rfl : records = [] := List.append_right_eq_self.1 hqueue.symm
      have hledger : m = k := congrArg Persistent.ledger hp
      have hreplay := Batch.replay_run hrun
      rw [hledger]
      exact (Except.ok.inj hreplay).symm
  · by_cases hnone : (p.runBatchUntil ops patience).1 = none
    · have hledger := hsame hnone
      obtain ⟨m, -, hleft⟩ := runBatchUntil_none hnone
      rw [hleft] at hledger ⊢
      obtain rfl : m = p.ledger := hledger
      exact .inl rfl
    · exact isWhole_of_ne_none halive hnone
  · obtain ⟨m, hrun, hleft⟩ := runBatchUntil_none hnone
    rw [hleft]
    exact ⟨rfl, _, rfl, (Batch.ledger_of_runUntil hrun).symm, Batch.replay_runOpsUntil rfl ops patience,
      Batch.rollback_runOpsUntil ops patience _⟩

/-- A batch of one operation, which waits after its write. -/
def lingeringBatch : List Op := [.write (.counter "a" 1) fun _ => .suspend (.done (.ok ()))]

/-- A batch that is not given up, since its caller waits once. -/
theorem runBatchUntil_isWhole_lingering :
    IsWhole lingeringBatch sample (sample.runBatchUntil lingeringBatch 1).2 := by
  have halive : sample.log.stage ≠ .dead := by decide
  refine (runBatchUntil_isWhole_iff halive lingeringBatch 1).1.2 fun hnone => ?_
  cases hnone

/-- The write of a batch that was given up stays in the ledger, without a record in the log. -/
theorem runBatchUntil_notWhole :
    (sample.runBatchUntil lingeringBatch 0).1 = none ∧
      (sample.runBatchUntil lingeringBatch 0).2.ledger.counters.get? "a" = some 1 ∧
      (sample.runBatchUntil lingeringBatch 0).2.log.queue = [] ∧
      ¬IsWhole lingeringBatch sample (sample.runBatchUntil lingeringBatch 0).2 := by
  refine ⟨rfl, by cbv, rfl, ?_⟩
  rintro (hp | ⟨records, m, hrun, hp⟩)
  · have hget := congrArg (fun q : Persistent => q.ledger.counters.get? "a") hp
    have hone : (sample.runBatchUntil lingeringBatch 0).2.ledger.counters.get? "a" = some 1 := by
      cbv
    exact absurd (hone.symm.trans hget) (by decide)
  · have hqueue := congrArg (fun q : Persistent => q.log.queue) hp
    have hrecords : records = [.counter "a" 1] := by
      have hfirst := congrArg Prod.fst hrun
      exact (Except.ok.inj hfirst).symm
    rw [hrecords] at hqueue
    cases hqueue

end Persistent

end MetricLedger
