import Mathlib.Tactic
import MetricLedger.Proofs.Concurrent.Machine

/-!
# Callers and the log

What callers do to the log is to put records into its queue and to close it. Main statements:
`Queues.run`, the queue holds the last of the records that it took, and `Delivers.run`, the others
are on their way to the file in their order.
-/

namespace MetricLedger.Concurrent

open Log

variable {s t : Concurrent} {i : ℕ} {path : String} {base : List UInt8}

theorem append_of_takes (h : s.store.log.Takes) (r : Record) :
    s.append r =
      { s with
        store := { s.store with log := { s.store.log with queue := s.store.log.queue ++ [r] } }
        taken := s.taken ++ [r] } := by
  simp only [append, Pipeline.publish_of_takes h, if_true]

theorem append_of_not_takes (h : ¬s.store.log.Takes) (r : Record) :
    s.append r = { s with discarded := s.discarded ++ [r] } := by
  simp only [append, Pipeline.publish_of_not_takes h, Bool.false_eq_true, if_false]

/-! ## What a step changes in the log -/

/-- All that a step can do to the log, the files and the records that the queue took. -/
inductive LogStep (s t : Concurrent) : Prop where
  | same (log : t.store.log = s.store.log) (files : t.files = s.files) (taken : t.taken = s.taken)
  | append (r : Record) (log : t.store.log = (s.append r).store.log) (files : t.files = s.files)
      (taken : t.taken = (s.append r).taken)
  | close (log : t.store.log = s.store.log.close.2) (files : t.files = s.files)
      (taken : t.taken = s.taken)
  | work (w : Pipeline.Work) (log : t.store.log = (s.store.log.work s.files w).1)
      (files : t.files = (s.store.log.work s.files w).2) (taken : t.taken = s.taken)

theorem logStep_advance (s : Concurrent) (i : ℕ) : LogStep s (s.advance i) := by
  rcases s.advance_cases i with heq | ⟨request, old, -, hcase⟩
  · rw [heq]
    exact .same rfl rfl rfl
  rcases hcase with ⟨t, phase, hsame, heq, -, -⟩ | ⟨r, records, -, heq⟩ | ⟨-, -, heq⟩ |
    ⟨t, hsame, -, heq⟩ | ⟨-, heq⟩ | ⟨result, -, -, heq⟩
  · rw [heq]
    exact .same hsame.log hsame.files hsame.taken
  · rw [heq]
    exact .append r rfl rfl rfl
  · rw [heq]
    exact .close rfl rfl rfl
  · rw [heq]
    exact .same hsame.log hsame.files hsame.taken
  · rw [heq]
    exact .same rfl rfl rfl
  · rw [heq]
    exact .same rfl rfl rfl

theorem logStep_step (s : Concurrent) (t : Step) : LogStep s (s.step t) := by
  cases t with
  | come i request =>
      simp only [step]
      split_ifs <;> exact .same rfl rfl rfl
  | advance i => exact s.logStep_advance i
  | leave i =>
      simp only [step, leave]
      split <;> exact .same rfl rfl rfl
  | tear i =>
      simp only [step, tear]
      split <;> exact .same rfl rfl rfl
  | work w => exact .work w rfl rfl rfl

/-! ## The queue -/

/-- The queue holds the last of the records that it took. -/
def Queues (s : Concurrent) : Prop := ∃ received, s.taken = received ++ s.store.log.queue

theorem Queues.step (h : Queues s) (t : Step) : Queues (s.step t) := by
  obtain ⟨received, htaken⟩ := h
  cases s.logStep_step t with
  | same hlog _ heq => exact ⟨received, by rw [heq, hlog, htaken]⟩
  | append r hlog _ heq =>
      unfold Queues
      rw [heq, hlog]
      by_cases htakes : s.store.log.Takes
      · rw [append_of_takes htakes]
        exact ⟨received, by rw [htaken, List.append_assoc]⟩
      · rw [append_of_not_takes htakes]
        exact ⟨received, htaken⟩
  | close hlog _ heq => exact ⟨received, by rw [heq, hlog, htaken]; rfl⟩
  | work w hlog _ heq =>
      obtain ⟨front, hfront⟩ := Pipeline.queue_work s.store.log s.files w
      exact ⟨received ++ front, by rw [heq, hlog, htaken, hfront, List.append_assoc]⟩

theorem Queues.run (h : Queues s) (steps : List Step) : Queues (s.run steps) :=
  run_of_step (fun _ t _ hs => hs.step t) h

/-! ## The file -/

/-- The records that the queue took are on their way to the file. -/
def Delivers (s : Concurrent) (path : String) (base : List UInt8) : Prop :=
  s.store.log.Accounts s.files path base s.taken

/-- No step loses a record that the queue took. -/
theorem Delivers.step (h : s.Delivers path base) (t : Step) : (s.step t).Delivers path base := by
  unfold Delivers
  cases s.logStep_step t with
  | same hlog hfiles heq =>
      rw [hlog, hfiles, heq]
      exact h
  | append r hlog hfiles heq =>
      rw [hlog, hfiles, heq]
      by_cases htakes : s.store.log.Takes
      · have hpublished := Pipeline.Accounts.publishAll h htakes [r]
        rw [Pipeline.publishAll_of_takes htakes] at hpublished
        rw [append_of_takes htakes]
        exact hpublished
      · rw [append_of_not_takes htakes]
        exact h
  | close hlog hfiles heq =>
      rw [hlog, hfiles, heq]
      exact Pipeline.Accounts.close h
  | work w hlog hfiles heq =>
      rw [hlog, hfiles, heq]
      exact Pipeline.Accounts.work h w

theorem Delivers.run (h : s.Delivers path base) (steps : List Step) :
    (s.run steps).Delivers path base :=
  run_of_step (P := fun u => u.Delivers path base) (fun _ t _ hs => hs.step t) h

/-- A writer that stopped at its start stays stopped. -/
theorem dead_step (h : s.store.log.stage = .dead) (t : Step) :
    (s.step t).store.log.stage = .dead := by
  cases s.logStep_step t with
  | same hlog =>
      rw [hlog]
      exact h
  | append r hlog =>
      rw [hlog]
      exact (Pipeline.publish_keeps s.store.log r).2.1.trans h
  | close hlog =>
      rw [hlog]
      exact h
  | work w hlog =>
      have houtcome : s.store.log.outcome = some (.error Pipeline.waitFailure) := by
        rw [Pipeline.outcome, h]
      rw [hlog, Pipeline.work_of_outcome houtcome w]
      exact h

theorem dead_run (h : s.store.log.stage = .dead) (steps : List Step) :
    (s.run steps).store.log.stage = .dead :=
  run_of_step (P := fun u => u.store.log.stage = .dead) (fun _ t _ hs => dead_step hs t) h

end MetricLedger.Concurrent
