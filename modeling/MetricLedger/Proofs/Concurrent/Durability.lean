import Mathlib
import MetricLedger.Proofs.Concurrent.Order

/-!
# What a shutdown promises

A shutdown that waits for the report of the writer comes back when all records are on the file. One
that finds the report gone comes back at once, whether the writer is finished or not. Main
statements: `shutdown_isDurable_iff`, the records are on the file exactly when the writer is
finished, and `shutdown_ahead_of_writer`, a shutdown can come back before that.
-/

namespace MetricLedger.Concurrent

open Log

/-- The writer is finished, and behind its first content the file holds the lines of every call that
has answered well, in one piece. -/
structure IsDurable (s : Concurrent) (path : String) (base : List UInt8) : Prop where
  finished : s.store.log.stage = .finished
  written : ∀ i c, s.callers i = some ⟨.call c, .answered (.ok ())⟩ →
    ∃ v ∈ s.visits, v.caller = i ∧ v.records = (c.effect v.before.ledger).1 ∧
      ∃ earlier later, bytesAt s.files path =
        base ++ linesOf earlier ++ linesOf v.records ++ linesOf later

variable {first : Snapshot} {s : Concurrent} {path : String} {base : List UInt8}

/-- A writer that is finished has written all that was answered well. -/
theorem Delivers.isDurable (h : s.Delivers path base) (horder : Orderly first s)
    (hstage : s.store.log.stage = .finished) : s.IsDurable path base := by
  refine ⟨hstage, fun i c hi => ?_⟩
  have hclosed := (Pipeline.Accounts.finished h hstage).1
  have hbytes := (ready_of_holds (Pipeline.Accounts.holds_of_finished h hstage)).bytes
  obtain ⟨last, hchain, hlast⟩ := horder.chain_of_closed hclosed
  obtain ⟨v, hv, hcaller, hrequest, hresult⟩ := horder.recorded i _ _ hi
  obtain ⟨-, later, hlater⟩ := hchain.split horder.lawful hv
  refine ⟨v, hv, hcaller, ((horder.lawful v hv).of_ok hrequest hresult).1, v.before.taken, later, ?_⟩
  rw [hbytes, ← hlast, hlater, linesOf_append, linesOf_append]
  simp only [List.append_assoc]

/-- What the file holds are the first of the records that the queue took. -/
theorem Delivers.bytesAt_eq (h : s.Delivers path base) :
    ∃ onFile left, s.taken = onFile ++ left ∧ bytesAt s.files path = base ++ linesOf onFile := by
  obtain ⟨onFile, inBuffer, hdelivers, hlists, -⟩ := Pipeline.Accounts.delivery h
  refine ⟨onFile, inBuffer ++ s.store.log.pending ++ s.store.log.queue, ?_,
    (ready_of_holds hdelivers.carries.file).bytes⟩
  rw [← hlists]
  simp only [List.append_assoc]

/-- A ledger that was opened on a file delivers its records there. -/
theorem delivers_opened {files tree : Files} {storeInterval now : Duration} {restore : Bool}
    {p : Persistent}
    (hopen : Persistent.openAt files path storeInterval restore now = (.ok p, tree))
    (hfile : tree.node? p.log.writer.place = some (.file base)) :
    (opened p tree).Delivers path base := by
  obtain ⟨place, hplace, hlog, -⟩ := Persistent.openAt_ok hopen
  unfold Delivers
  rw [hlog] at hfile
  simp only [opened, hlog]
  exact Pipeline.accounts_start (holds_of_openFile hplace hfile)

/-- A shutdown that was told that all is well has the report of a writer that is finished, or came
back without one since another shutdown has got it. -/
theorem ReportOnce.reported_ok (h : ReportOnce s) {i : ℕ} {request : Request}
    {summary : Option Summary} (hi : s.callers i = some ⟨request, .reported (.ok summary)⟩)
    (hstage : s.store.log.stage ≠ .finished) :
    summary = none ∧ ∃ j phase, j ≠ i ∧ s.callers j = some ⟨.shutdown, phase⟩ ∧
      (phase = .awaiting ∨ phase = .gone true ∨ ∃ f, phase = .reported (.error f)) := by
  have hoften {j : ℕ} {q : Request} {x : Summary}
      (hj : s.callers j = some ⟨q, .reported (.ok (some x))⟩) : False := by
    obtain ⟨hnone, -⟩ | ⟨outcome, houtcome, hresult⟩ := h.told j q _ hj
    · cases hnone
    · cases hs : s.store.log.stage with
      | running =>
          rw [Pipeline.outcome, hs] at houtcome
          cases houtcome
      | finished => exact hstage hs
      | dead =>
          rw [Pipeline.outcome, hs] at houtcome
          obtain rfl := Option.some.inj houtcome
          cases hresult
  cases summary with
  | some x => exact (hoften hi).elim
  | none =>
      obtain ⟨-, hgone⟩ | ⟨outcome, -, hresult⟩ := h.told i request _ hi
      · obtain ⟨j, q, phase, hj, hphase⟩ := h.asked hgone
        obtain ⟨rfl, -⟩ := h.closing j q phase hj (Phase.isClosing_of_hasReport hphase)
        refine ⟨rfl, j, phase, ?_, hj, ?_⟩
        · rintro rfl
          rw [hi] at hj
          cases hj
          cases hphase
        · unfold Phase.hasReport at hphase
          split at hphase
          · exact .inl rfl
          · exact (hoften hj).elim
          · exact .inr (.inr ⟨_, rfl⟩)
          · exact .inr (.inl rfl)
          · cases hphase
      · cases outcome with
        | ok x => cases hresult
        | error f => cases hresult

/-- When a shutdown has come back well, all that was answered well is on the file exactly if the
writer is finished. If it is not, the shutdown came back without a report, since another one has got
it: that one still waits, has gone away, or was told that the writer had stopped. Even then the file
holds the first of the records that were taken. -/
theorem shutdown_isDurable_iff {files tree : Files} {storeInterval now : Duration} {restore : Bool}
    {p : Persistent}
    (hopen : Persistent.openAt files path storeInterval restore now = (.ok p, tree))
    (hfile : tree.node? p.log.writer.place = some (.file base))
    {steps : List Step} (hsteps : TearsNothing steps) (hs : (opened p tree).run steps = s)
    {i : ℕ} {summary : Option Summary}
    (hi : s.callers i = some ⟨.shutdown, .reported (.ok summary)⟩) :
    (s.IsDurable path base ↔ s.store.log.stage = .finished) ∧
    (s.store.log.stage ≠ .finished →
      summary = none ∧ ∃ j phase, j ≠ i ∧ s.callers j = some ⟨.shutdown, phase⟩ ∧
        (phase = .awaiting ∨ phase = .gone true ∨ ∃ f, phase = .reported (.error f))) ∧
    ∃ onFile left, s.taken = onFile ++ left ∧ bytesAt s.files path = base ++ linesOf onFile := by
  obtain ⟨place, -, hlog, hreport⟩ := Persistent.openAt_ok hopen
  have hdelivers := (delivers_opened hopen hfile).run steps
  have honce := (reportOnce_opened tree hreport).run steps
  rw [hs] at hdelivers honce
  refine ⟨⟨IsDurable.finished, fun hstage => ?_⟩, honce.reported_ok hi, hdelivers.bytesAt_eq⟩
  have halive : p.log.stage = .running := by
    cases hp : p.log.stage with
    | running => rfl
    | finished =>
        rw [hlog] at hp
        exact absurd hp (Pipeline.stage_start_ne_finished _ _ _)
    | dead =>
        have hdead := dead_run (s := opened p tree) hp steps
        rw [hs, hstage] at hdead
        cases hdead
  have horder := orderly_run hopen halive hsteps
  rw [hs] at horder
  exact hdelivers.isDurable horder hstage

/-- The shutdown of `sampleSchedule` comes back after the writer, and the one write that was answered
well is on the file. -/
theorem shutdown_isDurable_sampleSchedule :
    ∃ s summary, (opened .sample Persistent.sampleFiles).run
        (sampleSchedule ++ [.work .finish, .advance 2]) = s ∧
      s.callers 2 = some ⟨.shutdown, .reported (.ok (some summary))⟩ ∧ s.IsDurable "m" [] := by
  have htears : TearsNothing (sampleSchedule ++ [.work .finish, .advance 2]) := by
    intro i hi
    simp [sampleSchedule] at hi
  have hempty : Persistent.sampleFiles.node? Persistent.sample.log.writer.place = some (.file []) := by cbv
  have hreported : ∃ summary, ((opened .sample Persistent.sampleFiles).run
      (sampleSchedule ++ [.work .finish, .advance 2])).callers 2 =
        some ⟨.shutdown, .reported (.ok (some summary))⟩ := ⟨_, rfl⟩
  obtain ⟨summary, htwo⟩ := hreported
  obtain ⟨hdurable, -, -⟩ := shutdown_isDurable_iff Persistent.openAt_sample hempty htears rfl htwo
  exact ⟨_, summary, rfl, htwo, hdurable.2 rfl⟩

/-- A write is answered, a shutdown waits for the writer, and another one comes. -/
def hurriedSchedule (meanwhile : List Step) : List Step :=
  [.come 0 (.call (.write (.counter "a" 1))), .advance 0, .advance 0, .advance 0, .advance 0,
    .advance 0, .advance 0, .come 1 .shutdown, .advance 1, .advance 1, .advance 1, .advance 1] ++
  meanwhile ++ [.come 2 .shutdown, .advance 2, .advance 2, .advance 2, .advance 2]

/-- A shutdown comes back well ahead of the writer, whether the one before it still waits or has gone
away: the write that was answered before both of them is not on the file. -/
theorem shutdown_ahead_of_writer :
    ∃ s t, (opened .sample Persistent.sampleFiles).run (hurriedSchedule []) = s ∧
      (opened .sample Persistent.sampleFiles).run (hurriedSchedule [.leave 1]) = t ∧
      (s.callers 0 = some ⟨.call (.write (.counter "a" 1)), .answered (.ok ())⟩ ∧
        s.callers 2 = some ⟨.shutdown, .reported (.ok none)⟩ ∧ bytesAt s.files "m" = [] ∧
        ¬s.IsDurable "m" []) ∧
      t.callers 0 = some ⟨.call (.write (.counter "a" 1)), .answered (.ok ())⟩ ∧
      t.callers 2 = some ⟨.shutdown, .reported (.ok none)⟩ ∧ bytesAt t.files "m" = [] ∧
      ¬t.IsDurable "m" [] := by
  refine ⟨_, _, rfl, rfl, ⟨rfl, rfl, by cbv, fun hs => ?_⟩, rfl, rfl, by cbv, fun ht => ?_⟩
  · exact absurd hs.finished (by decide)
  · exact absurd ht.finished (by decide)

/-- A new ledger whose clock cannot show the first tick. -/
def stoppedLedger : Persistent :=
  ⟨.empty, Pipeline.start (.interval (.ofSeconds (2 ^ 64 - 1))) ["work", "m"] ⟨0⟩, "m", true⟩

/-- A writer that stopped at its start is told of once: the first shutdown fails, and the next one
comes back well although the answered write is not on the file. -/
theorem shutdown_after_stopped_writer :
    Persistent.openAt .empty "m" (.ofSeconds (2 ^ 64 - 1)) false ⟨0⟩ =
        (.ok stoppedLedger, Persistent.sampleFiles) ∧
      ∃ s, (opened stoppedLedger Persistent.sampleFiles).run (hurriedSchedule [.advance 1]) = s ∧
      s.callers 0 = some ⟨.call (.write (.counter "a" 1)), .answered (.ok ())⟩ ∧
      s.callers 1 = some ⟨.shutdown, .reported (.error Pipeline.waitFailure)⟩ ∧
      s.callers 2 = some ⟨.shutdown, .reported (.ok none)⟩ ∧ bytesAt s.files "m" = [] := by
  have hopen : Pipeline.openFile .empty "m" = (.ok ["work", "m"], Persistent.sampleFiles) :=
    Prod.ext (by cbv) rfl
  have hmode : FlushMode.ofInterval (.ofSeconds (2 ^ 64 - 1)) =
      .interval (.ofSeconds (2 ^ 64 - 1)) := by decide
  refine ⟨?_, _, rfl, ?_, ?_, ?_, ?_⟩
  · simp only [Persistent.openAt, Pipeline.openAt, hopen, hmode, Bool.false_eq_true, if_false]
    rfl
  · cbv
  · cbv
  · cbv
  · cbv

end MetricLedger.Concurrent
