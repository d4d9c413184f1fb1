import Mathlib.Tactic
import MetricLedger.Proofs.Batch.Logs
import MetricLedger.Proofs.Persistent.Calls

/-!
# Batches that fail

What the operations of a batch do is a list of runs: every operation that was run, with its writes,
the answer to each of them and its own result. Main statements: `Batch.runs_areOfBatch`, what comes of
a batch is what comes of the operations that have a run; `runBatch_of_failed`, a batch one of whose
operations fails has run none of those behind it, and leaves the ledger and the log as they were.
-/

namespace MetricLedger

/-- One run of an operation: the writes it asked for with their answers, and its result. -/
structure Op.Run where
  writes : List (Record × Except Failure Unit)
  result : Except Failure Unit

namespace Batch

/-- The writes that an operation asks for in a batch, with their answers. -/
def writesOf : Op → Batch → List (Record × Except Failure Unit)
  | .done _, _ => []
  | .suspend op, b => writesOf op b
  | .write r next, b =>
      let (result, b) := b.write r
      (r, result) :: writesOf (next result) b

/-- The runs of the operations of a batch, up to the first one that fails. -/
def runs : List Op → Batch → List Op.Run
  | [], _ => []
  | op :: ops, b =>
      match runOp op b with
      | (.ok u, c) => ⟨writesOf op b, .ok u⟩ :: runs ops c
      | (.error f, _) => [⟨writesOf op b, .error f⟩]

variable {op : Op} {ops : List Op} {b c : Batch} {f : Failure}

theorem runOps_cons_of_ok {u : Unit} (h : runOp op b = (.ok u, c)) (ops : List Op) :
    runOps (op :: ops) b = runOps ops c := by
  simp only [runOps, h]

theorem runs_cons_of_ok {u : Unit} (h : runOp op b = (.ok u, c)) (ops : List Op) :
    runs (op :: ops) b = ⟨writesOf op b, .ok u⟩ :: runs ops c := by
  simp only [runs, h]

theorem runOps_cons_of_error (h : runOp op b = (.error f, c)) (ops : List Op) :
    runOps (op :: ops) b = (.error f, c) := by
  simp only [runOps, h]

theorem runs_cons_of_error (h : runOp op b = (.error f, c)) (ops : List Op) :
    runs (op :: ops) b = [⟨writesOf op b, .error f⟩] := by
  simp only [runs, h]

/-- Either all operations come to a good end, or one of them is the first that does not. -/
theorem runOps_cases (ops : List Op) (b : Batch) :
    (∃ c, runOps ops b = (.ok (), c)) ∨
    ∃ before op after c f d, ops = before ++ op :: after ∧ runOps before b = (.ok (), c) ∧
      runOp op c = (.error f, d) := by
  induction ops generalizing b with
  | nil => exact .inl ⟨b, rfl⟩
  | cons op ops ih =>
      rcases hop : runOp op b with ⟨f | u, c⟩
      · exact .inr ⟨[], op, ops, b, f, c, rfl, rfl, hop⟩
      · obtain ⟨d, hd⟩ | ⟨before, op', after, d, f, e, rfl, hbefore, hfailed⟩ := ih c
        · exact .inl ⟨d, (runOps_cons_of_ok hop ops).trans hd⟩
        · exact .inr ⟨op :: before, op', after, d, f, e, rfl,
            (runOps_cons_of_ok hop before).trans hbefore, hfailed⟩

/-- Operations that come to a good end leave their batch to those behind them. -/
theorem runOps_append_of_ok {before : List Op} (hbefore : runOps before b = (.ok (), c))
    (ops : List Op) : runOps (before ++ ops) b = runOps ops c ∧
      runs (before ++ ops) b = runs before b ++ runs ops c := by
  induction before generalizing b with
  | nil =>
      cases hbefore
      exact ⟨rfl, rfl⟩
  | cons op before ih =>
      rcases hop : runOp op b with ⟨f | u, d⟩
      · rw [runOps_cons_of_error hop] at hbefore
        cases hbefore
      · rw [runOps_cons_of_ok hop] at hbefore
        obtain ⟨hops, hruns⟩ := ih hbefore
        rw [List.cons_append, runOps_cons_of_ok hop, runs_cons_of_ok hop, runs_cons_of_ok hop, hruns]
        exact ⟨hops, rfl⟩

/-- The first operation that fails is the last one of its batch, whatever stands behind it. -/
theorem runOps_of_failed {before : List Op} (hbefore : runOps before b = (.ok (), c))
    {d : Batch} (hfailed : runOp op c = (.error f, d)) (after : List Op) :
    runOps (before ++ op :: after) b = (.error f, d) ∧
      runs (before ++ op :: after) b = runs before b ++ [⟨writesOf op c, .error f⟩] := by
  obtain ⟨hops, hruns⟩ := runOps_append_of_ok hbefore (op :: after)
  rw [hops, hruns, runOps_cons_of_error hfailed, runs_cons_of_error hfailed]
  exact ⟨rfl, rfl⟩

/-- Operations that come to a good end are all run, each to a good end. -/
theorem runs_of_ok (h : runOps ops b = (.ok (), c)) :
    (runs ops b).length = ops.length ∧ ∀ run ∈ runs ops b, run.result = .ok () := by
  induction ops generalizing b with
  | nil => exact ⟨rfl, fun run hrun => nomatch hrun⟩
  | cons op ops ih =>
      rcases hop : runOp op b with ⟨f | u, d⟩
      · rw [runOps_cons_of_error hop] at h
        cases h
      · rw [runOps_cons_of_ok hop] at h
        obtain ⟨hlength, hall⟩ := ih h
        rw [runs_cons_of_ok hop]
        exact ⟨by rw [List.length_cons, hlength, List.length_cons],
          List.forall_mem_cons.2 ⟨rfl, hall⟩⟩

/-- The runs are those of the batch: each of them is that of the operation in its place, at the batch
which the operations before it leave, and what comes of the batch is what comes of the operations
that have a run. -/
theorem runs_areOfBatch (ops : List Op) (b : Batch) :
    (∀ i run, (runs ops b)[i]? = some run → ∃ op c, ops[i]? = some op ∧
      runOps (ops.take i) b = (.ok (), c) ∧ run = ⟨writesOf op c, (runOp op c).1⟩) ∧
    runOps ops b = runOps (ops.take (runs ops b).length) b ∧
    (runOps ops b).1 = (((runs ops b).getLast?).map Op.Run.result).getD (.ok ()) := by
  induction ops generalizing b with
  | nil => exact ⟨fun i run hrun => (nomatch hrun), rfl, rfl⟩
  | cons op ops ih =>
      have hfirst : ∃ op' c, (op :: ops)[0]? = some op' ∧ runOps ((op :: ops).take 0) b = (.ok (), c) ∧
          (⟨writesOf op b, (runOp op b).1⟩ : Op.Run) = ⟨writesOf op' c, (runOp op' c).1⟩ :=
        ⟨op, b, rfl, rfl, rfl⟩
      rcases hop : runOp op b with ⟨f | u, c⟩
      · rw [hop] at hfirst
        rw [runs_cons_of_error hop, runOps_cons_of_error hop]
        refine ⟨fun i run hrun => ?_, (runOps_cons_of_error hop []).symm, rfl⟩
        obtain ⟨rfl, rfl⟩ : i = 0 ∧ ⟨writesOf op b, .error f⟩ = run := by
          cases i <;> simp_all
        exact hfirst
      · rw [hop] at hfirst
        obtain ⟨hplaces, htaken, hend⟩ := ih c
        rw [runs_cons_of_ok hop, runOps_cons_of_ok hop]
        refine ⟨fun i run hrun => ?_, ?_, ?_⟩
        · cases i with
          | zero =>
              obtain rfl := Option.some.inj hrun
              exact hfirst
          | succ i =>
              obtain ⟨op', d, hplace, hbefore, hrun⟩ := hplaces i run hrun
              exact ⟨op', d, hplace, (runOps_cons_of_ok hop _).trans hbefore, hrun⟩
        · exact htaken.trans (runOps_cons_of_ok hop _).symm
        · rw [hend, List.getLast?_cons]
          cases (runs ops c).getLast? <;> rfl

/-- A batch that ends with a failure is undone. -/
theorem run_of_runOps_error {l : Ledger} (h : runOps ops (start l) = (.error f, c)) :
    run ops l = (.error f.aborted, l) := by
  have hback := rollback_runOps ops (start l)
  rw [h] at hback
  simp only [run, h]
  exact Prod.ext rfl hback

end Batch

/-- Rollback: an operation of a batch fails where those before it have come to a good end. The batch
then comes to what this operation comes to, whatever stands behind it: the runs are one for each
operation up to it. With every log that admits writes the batch fails with the failure of that
operation, wrapped once, and the ledger and the log are what they were before; so it is for a ledger
in memory and for one with its log. -/
theorem runBatch_of_failed {before : List Op} {op : Op} {l : Ledger} {b c : Batch} {f : Failure}
    (hbefore : Batch.runOps before (.start l) = (.ok (), b))
    (hfailed : Batch.runOp op b = (.error f, c)) (after : List Op) :
    (∀ others, Batch.runOps (before ++ op :: others) (.start l) = (.error f, c)) ∧
    (∃ earlier, Batch.runs (before ++ op :: after) (.start l) =
        earlier ++ [⟨Batch.writesOf op b, .error f⟩] ∧
      earlier.length = before.length ∧ ∀ run ∈ earlier, run.result = .ok ()) ∧
    ∃ g, (∀ source, f = .transaction source → g = f) ∧
      ((∀ source, f ≠ .transaction source) → g = .transaction f) ∧
      (∀ {σ : Type} (log : WriteLog σ) (s : σ), log.admission s = .ok () →
        log.runBatch (before ++ op :: after) l s = (.error g, l, s)) ∧
      (∀ {τ : Type} (server : Relational.Server τ) (t : τ),
        Storage.runBatch server (before ++ op :: after) (.memory l) t = (.error g, .memory l, t)) ∧
      ∀ p : Persistent, p.ledger = l → p.log.isOpen = true →
        p.runBatch (before ++ op :: after) = (.error g, p) := by
  have hends (others : List Op) := Batch.runOps_of_failed hbefore hfailed others
  obtain ⟨hlength, hgood⟩ := Batch.runs_of_ok hbefore
  have hlogged {σ : Type} (log : WriteLog σ) (s : σ) (hlog : log.admission s = .ok ()) :
      log.runBatch (before ++ op :: after) l s = (.error f.aborted, l, s) :=
    WriteLog.runBatch_of_error hlog (Batch.run_of_runOps_error (hends after).1)
  refine ⟨fun others => (hends others).1, ⟨_, (hends after).2, hlength, hgood⟩, f.aborted, ?_, ?_,
    hlogged, fun server t => ?_, ?_⟩
  · rintro source rfl
    rfl
  · intro hf
    cases f with
    | transaction source => exact absurd rfl (hf source)
    | _ => rfl
  · rw [Storage.runBatch_memory_eq, hlogged WriteLog.unlogged () rfl]
  · rintro p rfl hopen
    rw [Persistent.runBatch_eq, hlogged WriteLog.publisher p.log
      (WriteLog.admits_publisher hopen).admission]

/-- A full counter and a gauge. -/
def filledLedger : Ledger :=
  ⟨Table.empty.insert "a" 9223372036854775807, Table.empty.insert "g" ⟨0x3FF0000000000000⟩⟩

/-- A batch that writes a gauge twice, adds a counter, goes on after a delta that is refused, and is
then given up with the failure of another batch. -/
def givenUpOps : List Op := [
  .inTurn [.ofRecord (.gauge "g" ⟨0x4000000000000000⟩), .ofRecord (.counter "b" 1)],
  .regardless [.ofRecord (.counter "a" 1), .ofRecord (.gauge "g" ⟨0x7FF8000000000000⟩)],
  .fail (.transaction (.invalidInput "no")), .ofRecord (.counter "c" 1)]

/-- Three of the four operations are run, the batch comes to what these three come to, and the ledger
and its log are as before. -/
theorem runBatch_givenUpOps :
    Batch.runOps givenUpOps (.start filledLedger) =
        Batch.runOps (givenUpOps.take 3) (.start filledLedger) ∧
      (Batch.runs givenUpOps (.start filledLedger)).length = 3 ∧
      (⟨filledLedger, Persistent.sample.log, "m", true⟩ : Persistent).runBatch givenUpOps =
        (.error (.transaction (.invalidInput "no")),
          ⟨filledLedger, Persistent.sample.log, "m", true⟩) := by
  have hbefore : Batch.runOps (givenUpOps.take 2) (.start filledLedger) =
      (.ok (), (Batch.runOps (givenUpOps.take 2) (.start filledLedger)).2) := by cbv
  obtain ⟨hends, ⟨earlier, hruns, hlength, -⟩, g, hwrapped, -, -, -, hpersistent⟩ :=
    runBatch_of_failed hbefore (rfl : Batch.runOp (.fail (.transaction (.invalidInput "no"))) _ = _)
      [.ofRecord (.counter "c" 1)]
  obtain rfl := hwrapped _ rfl
  refine ⟨(hends [.ofRecord (.counter "c" 1)]).trans (hends []).symm, ?_, hpersistent _ rfl rfl⟩
  exact (congrArg List.length hruns).trans (by rw [List.length_append, hlength]; rfl)

end MetricLedger
