import Mathlib.Tactic
import MetricLedger.Proofs.Concurrent.Machine

/-!
# Who gets the report

The report of the writer is given away once. Main statements: `ReportOnce.run`, whatever the schedule,
at most one shutdown has got it, and `GotReport.run`, whoever has got it keeps it.
-/

namespace MetricLedger.Concurrent

open Log

/-- The caller has, or had, the right to the report of the writer. -/
def GotReport (s : Concurrent) (i : ℕ) : Prop :=
  ∃ request phase, s.callers i = some ⟨request, phase⟩ ∧ phase.hasReport = true

/-- The report is with the ledger or with one shutdown, and what a shutdown was told is true. -/
structure ReportOnce (s : Concurrent) : Prop where
  closing : ∀ i request phase, s.callers i = some ⟨request, phase⟩ → phase.isClosing = true →
    request = .shutdown ∧ s.store.log.isOpen = false
  unasked : s.store.hasReport = true → ∀ i, ¬s.GotReport i
  asked : s.store.hasReport = false → ∃ i, s.GotReport i
  one : ∀ i j, s.GotReport i → s.GotReport j → i = j
  told : ∀ i request result, s.callers i = some ⟨request, .reported result⟩ →
    (result = .ok none ∧ s.store.hasReport = false) ∨
      ∃ outcome, s.store.log.outcome = some outcome ∧ result = some <$> outcome

theorem reportOnce_opened {p : Persistent} (files : Files) (h : p.hasReport = true) :
    ReportOnce (opened p files) where
  closing := fun i request phase hi => by cases hi
  unasked := fun _ i ⟨request, phase, hi, _⟩ => by cases hi
  asked := fun hf => absurd (h.symm.trans hf) (by decide)
  one := fun i j ⟨request, phase, hi, _⟩ => by cases hi
  told := fun i request result hi => by cases hi

variable {s t : Concurrent} {i : ℕ} {request : Request} {phase : Phase}

theorem gotReport_iff (hcaller : s.callers i = some ⟨request, phase⟩) :
    s.GotReport i ↔ phase.hasReport = true := by
  refine ⟨?_, fun h => ⟨request, phase, hcaller, h⟩⟩
  rintro ⟨q, ph, hi, hph⟩
  rw [hcaller] at hi
  cases hi
  exact hph

theorem gotReport_put_self : (s.put i request phase).GotReport i ↔ phase.hasReport = true := by
  have hcaller : (s.put i request phase).callers i = some ⟨request, phase⟩ := by
    rw [put_callers, if_pos rfl]
  exact gotReport_iff hcaller

theorem gotReport_put_of_ne {j : ℕ} (hj : j ≠ i) :
    (s.put i request phase).GotReport j ↔ s.GotReport j := by
  unfold GotReport
  rw [put_callers, if_neg hj]

/-- A caller that keeps its share of the report changes nobody's. -/
theorem gotReport_put_iff (hcallers : t.callers = s.callers)
    (hshare : phase.hasReport = true ↔ s.GotReport i) (j : ℕ) :
    (t.put i request phase).GotReport j ↔ s.GotReport j := by
  have hsame : t.GotReport j ↔ s.GotReport j := by
    unfold GotReport
    rw [hcallers]
  by_cases hj : j = i
  · obtain rfl := hj
    exact gotReport_put_self.trans hshare
  · exact (gotReport_put_of_ne hj).trans hsame

/-- The queue stays closed, and the writer stays at its end. -/
structure Settled (s t : Concurrent) : Prop where
  isOpen : s.store.log.isOpen = false → t.store.log.isOpen = false
  outcome : ∀ result, s.store.log.outcome = some result → t.store.log.outcome = some result

theorem SameLog.settled (h : SameLog s t) : Settled s t := by
  refine ⟨?_, ?_⟩
  · rw [h.log]
    exact id
  · rw [h.log]
    exact fun _ => id

/-- A caller goes on, and keeps its share of the report. -/
theorem ReportOnce.put (h : ReportOnce s) (hcallers : t.callers = s.callers)
    (hreport : t.store.hasReport = s.store.hasReport) (hsettled : Settled s t)
    (hshare : phase.hasReport = true ↔ s.GotReport i)
    (hclosing : phase.isClosing = true → request = .shutdown ∧ t.store.log.isOpen = false)
    (htold : ∀ result, phase = .reported result →
      ∃ outcome, t.store.log.outcome = some outcome ∧ result = some <$> outcome) :
    ReportOnce (t.put i request phase) := by
  have hgot (j : ℕ) : (t.put i request phase).GotReport j ↔ s.GotReport j :=
    gotReport_put_iff hcallers hshare j
  refine ⟨?_, ?_, ?_, ?_, ?_⟩
  · intro j q ph hj hph
    rcases put_callers_eq_some hj with ⟨-, rfl, rfl⟩ | ⟨-, hj⟩
    · exact hclosing hph
    · rw [hcallers] at hj
      obtain ⟨hq, hopen⟩ := h.closing j q ph hj hph
      exact ⟨hq, hsettled.isOpen hopen⟩
  · intro ht j hj
    exact h.unasked (hreport ▸ ht) j ((hgot j).1 hj)
  · intro ht
    obtain ⟨j, hj⟩ := h.asked (hreport ▸ ht)
    exact ⟨j, (hgot j).2 hj⟩
  · intro j k hj hk
    exact h.one j k ((hgot j).1 hj) ((hgot k).1 hk)
  · intro j q result hj
    rcases put_callers_eq_some hj with ⟨-, rfl, hphase⟩ | ⟨-, hj⟩
    · exact .inr (htold result hphase.symm)
    · rw [hcallers] at hj
      rcases h.told j q result hj with ⟨rfl, hf⟩ | ⟨outcome, ho, rfl⟩
      · exact .inl ⟨rfl, hreport.trans hf⟩
      · exact .inr ⟨outcome, hsettled.outcome outcome ho, rfl⟩

/-- A call goes on; it has nothing to do with the report. -/
theorem ReportOnce.putCall (h : ReportOnce s) {old : Phase}
    (hcaller : s.callers i = some ⟨request, old⟩) (hold : old.isClosing = false)
    (hcallers : t.callers = s.callers) (hreport : t.store.hasReport = s.store.hasReport)
    (hsettled : Settled s t) (hphase : phase.isClosing = false) :
    ReportOnce (t.put i request phase) := by
  refine h.put hcallers hreport hsettled ⟨fun hr => ?_, fun hr => ?_⟩ (fun hc => ?_) ?_
  · rw [Phase.isClosing_of_hasReport hr] at hphase
    cases hphase
  · rw [Phase.isClosing_of_hasReport ((gotReport_iff hcaller).1 hr)] at hold
    cases hold
  · rw [hphase] at hc
    cases hc
  · rintro result rfl
    cases hphase

/-- A shutdown goes on, and keeps its share of the report. -/
theorem ReportOnce.putShutdown (h : ReportOnce s) {old : Phase}
    (hcaller : s.callers i = some ⟨request, old⟩) (hold : old.isClosing = true)
    (hcallers : t.callers = s.callers) (hreport : t.store.hasReport = s.store.hasReport)
    (hsettled : Settled s t) (hshare : phase.hasReport = old.hasReport)
    (htold : ∀ result, phase = .reported result →
      ∃ outcome, t.store.log.outcome = some outcome ∧ result = some <$> outcome) :
    ReportOnce (t.put i request phase) := by
  refine h.put hcallers hreport hsettled ?_ (fun _ => ?_) htold
  · rw [hshare]
    exact (gotReport_iff hcaller).symm
  · obtain ⟨hq, hopen⟩ := h.closing i request old hcaller hold
    exact ⟨hq, hsettled.isOpen hopen⟩

/-- A shutdown asks for the report, and gets it if nobody has got it yet. -/
theorem ReportOnce.ask (h : ReportOnce s) (hcaller : s.callers i = some ⟨request, .asking⟩) :
    ReportOnce (s.ask i request) := by
  obtain ⟨hq, hopen⟩ := h.closing i request .asking hcaller rfl
  have hclosing (j : ℕ) (q : Request) (ph new : Phase)
      (hj : ({ s with store := s.store.takeReport.2 }.put i request new).callers j =
        some ⟨q, ph⟩) (hph : ph.isClosing = true) :
      q = .shutdown ∧ s.store.log.isOpen = false := by
    rcases put_callers_eq_some hj with ⟨-, rfl, -⟩ | ⟨-, hj⟩
    · exact ⟨hq, hopen⟩
    · exact h.closing j q ph hj hph
  have htold (j : ℕ) (q : Request) (result : Except Failure (Option Summary))
      (hj : s.callers j = some ⟨q, .reported result⟩) :
      (result = .ok none ∧ s.store.takeReport.2.hasReport = false) ∨
        ∃ outcome, s.store.log.outcome = some outcome ∧ result = some <$> outcome := by
    rcases h.told j q result hj with ⟨rfl, -⟩ | hr
    · exact .inl ⟨rfl, rfl⟩
    · exact .inr hr
  unfold Concurrent.ask
  cases hasked : s.store.hasReport with
  | true =>
      have hnobody := h.unasked hasked
      have hgot (j : ℕ) : ({ s with store := s.store.takeReport.2 }.put i request
          .awaiting).GotReport j ↔ j = i := by
        by_cases hj : j = i
        · exact ⟨fun _ => hj, fun _ => hj ▸ gotReport_put_self.2 rfl⟩
        · exact ⟨fun hr => absurd ((gotReport_put_of_ne hj).1 hr) (hnobody j),
            fun hji => absurd hji hj⟩
      simp only [Persistent.takeReport, hasked, if_true]
      refine ⟨fun j q ph hj => hclosing j q ph _ hj, (fun hf => by cases hf),
        fun _ => ⟨i, (hgot i).2 rfl⟩, fun j k hj hk => ((hgot j).1 hj).trans ((hgot k).1 hk).symm,
        ?_⟩
      intro j q result hj
      rcases put_callers_eq_some hj with ⟨-, -, hphase⟩ | ⟨-, hj⟩
      · cases hphase
      · exact htold j q result hj
  | false =>
      have hshare : (Phase.reported (.ok none)).hasReport = true ↔ s.GotReport i :=
        (gotReport_iff hcaller).symm
      have hgot (j : ℕ) : ({ s with store := s.store.takeReport.2 }.put i request
          (.reported (.ok none))).GotReport j ↔ s.GotReport j := gotReport_put_iff rfl hshare j
      simp only [Persistent.takeReport, hasked, Bool.false_eq_true, if_false]
      obtain ⟨k, hk⟩ := h.asked hasked
      refine ⟨fun j q ph hj => hclosing j q ph _ hj, (fun hf => by cases hf),
        fun _ => ⟨k, (hgot k).2 hk⟩, fun j k hj hk => h.one j k ((hgot j).1 hj) ((hgot k).1 hk), ?_⟩
      intro j q result hj
      rcases put_callers_eq_some hj with ⟨-, -, hphase⟩ | ⟨-, hj⟩
      · obtain rfl := Phase.reported.inj hphase
        exact .inl ⟨rfl, rfl⟩
      · exact htold j q result hj

theorem settled_append (s : Concurrent) (r : Record) : Settled s (s.append r) := by
  refine ⟨fun h => ?_, fun result h => ?_⟩
  · exact (Pipeline.publish_keeps s.store.log r).1.trans h
  · exact (Pipeline.publish_keeps s.store.log r).2.2.trans h

theorem ReportOnce.advance (h : ReportOnce s) (i : ℕ) : ReportOnce (s.advance i) := by
  rcases s.advance_cases i with heq | ⟨request, old, hcaller, hcase⟩
  · rw [heq]
    exact h
  rcases hcase with ⟨t, phase, hsame, heq, hold, hphase⟩ | ⟨r, records, rfl, heq⟩ |
    ⟨rfl, rfl, heq⟩ | ⟨t, hsame, rfl, heq⟩ | ⟨rfl, heq⟩ | ⟨result, rfl, houtcome, heq⟩
  · rw [heq]
    exact h.putCall hcaller hold hsame.callers hsame.hasReport hsame.settled hphase
  · rw [heq]
    exact h.putCall hcaller rfl rfl rfl (s.settled_append r) rfl
  · rw [heq]
    refine h.put rfl rfl ⟨fun _ => rfl, fun _ => id⟩ (gotReport_iff hcaller).symm
      (fun _ => ⟨rfl, rfl⟩) ?_
    intro result hresult
    cases hresult
  · rw [heq]
    refine h.putShutdown hcaller rfl hsame.callers hsame.hasReport hsame.settled rfl ?_
    intro result hresult
    cases hresult
  · rw [heq]
    exact h.ask hcaller
  · rw [heq]
    refine h.putShutdown hcaller rfl rfl rfl ⟨id, fun _ => id⟩ ?_ ?_
    · cases result <;> rfl
    · intro reported hreported
      obtain rfl := Phase.reported.inj hreported
      exact ⟨result, houtcome, rfl⟩

theorem ReportOnce.leave (h : ReportOnce s) (i : ℕ) : ReportOnce (s.leave i) := by
  have hnone {ph : Phase} (hph : ∀ result, ph ≠ .reported result) (result)
      (hresult : ph = .reported result) :
      ∃ outcome, s.store.log.outcome = some outcome ∧ result = some <$> outcome :=
    absurd hresult (hph result)
  unfold Concurrent.leave
  split
  next hcaller => exact h.putCall hcaller rfl rfl rfl ⟨id, fun _ => id⟩ rfl
  next hcaller =>
    exact h.putShutdown hcaller rfl rfl rfl ⟨id, fun _ => id⟩ rfl (hnone fun _ => Phase.noConfusion)
  next hcaller =>
    exact h.putShutdown hcaller rfl rfl rfl ⟨id, fun _ => id⟩ rfl (hnone fun _ => Phase.noConfusion)
  next => exact h

theorem ReportOnce.tear (h : ReportOnce s) (i : ℕ) : ReportOnce (s.tear i) := by
  unfold Concurrent.tear
  split
  next request _ _ _ _ hcaller =>
    have hput : ReportOnce ({ s with lock := none }.put i request (.gone false)) :=
      h.putCall hcaller rfl rfl rfl ⟨id, fun _ => id⟩ rfl
    exact hput
  next => exact h

theorem ReportOnce.come (h : ReportOnce s) (hcaller : s.callers i = none) :
    ReportOnce (s.put i request .waiting) := by
  refine h.put rfl rfl ⟨id, fun _ => id⟩ ⟨fun hr => ?_, ?_⟩ (fun hc => ?_) ?_
  · cases hr
  · rintro ⟨q, ph, hi, -⟩
    rw [hcaller] at hi
    cases hi
  · cases hc
  · intro result hresult
    cases hresult

theorem ReportOnce.work (h : ReportOnce s) (w : Pipeline.Work) : ReportOnce (s.work w) := by
  refine ⟨?_, h.unasked, h.asked, h.one, ?_⟩
  · intro j q ph hj hph
    obtain ⟨hq, hopen⟩ := h.closing j q ph hj hph
    exact ⟨hq, (Pipeline.isOpen_work s.store.log s.files w).trans hopen⟩
  · intro j q result hj
    rcases h.told j q result hj with hnone | ⟨outcome, ho, rfl⟩
    · exact .inl hnone
    · refine .inr ⟨outcome, ?_, rfl⟩
      show (s.store.log.work s.files w).1.outcome = some outcome
      rw [Pipeline.work_of_outcome ho w]
      exact ho

/-- No step gives the report away a second time. -/
theorem ReportOnce.step (h : ReportOnce s) (t : Step) : ReportOnce (s.step t) := by
  cases t with
  | come i request =>
      simp only [Concurrent.step]
      split_ifs with hcaller
      · exact h.come (Option.isNone_iff_eq_none.1 hcaller)
      · exact h
  | advance i => exact h.advance i
  | leave i => exact h.leave i
  | tear i => exact h.tear i
  | work w => exact h.work w

theorem ReportOnce.run (h : ReportOnce s) (steps : List Step) : ReportOnce (s.run steps) :=
  run_of_step (fun _ t _ hs => hs.step t) h

/-! ## Once and for all -/

/-- A caller that goes on does not lose the report, its own or that of another one. -/
theorem GotReport.put {j : ℕ} (h : s.GotReport j) (hcallers : t.callers = s.callers) {old : Phase}
    (hcaller : s.callers i = some ⟨request, old⟩)
    (hkeep : old.hasReport = true → phase.hasReport = true) :
    (t.put i request phase).GotReport j := by
  by_cases hji : j = i
  · obtain rfl := hji
    exact gotReport_put_self.2 (hkeep ((gotReport_iff hcaller).1 h))
  · obtain ⟨q, ph, hj, hph⟩ := h
    refine (gotReport_put_of_ne hji).2 ⟨q, ph, ?_, hph⟩
    rw [hcallers]
    exact hj

theorem GotReport.advance {j : ℕ} (h : s.GotReport j) (i : ℕ) : (s.advance i).GotReport j := by
  rcases s.advance_cases i with heq | ⟨request, old, hcaller, hcase⟩
  · rw [heq]
    exact h
  rcases hcase with ⟨t, phase, hsame, heq, hold, -⟩ | ⟨r, records, rfl, heq⟩ |
    ⟨-, rfl, heq⟩ | ⟨t, hsame, rfl, heq⟩ | ⟨rfl, heq⟩ | ⟨result, rfl, -, heq⟩
  · rw [heq]
    refine h.put hsame.callers hcaller fun hr => ?_
    rw [Phase.isClosing_of_hasReport hr] at hold
    cases hold
  · rw [heq]
    refine h.put rfl hcaller fun hr => ?_
    cases hr
  · rw [heq]
    refine h.put rfl hcaller fun hr => ?_
    cases hr
  · rw [heq]
    refine h.put hsame.callers hcaller fun hr => ?_
    cases hr
  · rw [heq]
    refine h.put rfl hcaller fun hr => ?_
    cases hr
  · rw [heq]
    refine h.put rfl hcaller fun _ => ?_
    cases result <;> rfl

/-- Whoever has got the report keeps it. -/
theorem GotReport.step {j : ℕ} (h : s.GotReport j) (t : Step) : (s.step t).GotReport j := by
  cases t with
  | come i request =>
      simp only [Concurrent.step]
      split_ifs with hcaller
      · obtain ⟨q, ph, hj, hph⟩ := h
        refine (gotReport_put_of_ne ?_).2 ⟨q, ph, hj, hph⟩
        rintro rfl
        rw [hj] at hcaller
        cases hcaller
      · exact h
  | advance i => exact h.advance i
  | leave i =>
      simp only [Concurrent.step, Concurrent.leave]
      split
      next hcaller => exact h.put rfl hcaller fun hr => by cases hr
      next hcaller => exact h.put rfl hcaller fun hr => by cases hr
      next hcaller => exact h.put rfl hcaller fun _ => rfl
      next => exact h
  | tear i =>
      simp only [Concurrent.step, Concurrent.tear]
      split
      next request _ _ _ _ hcaller =>
        have hput : ({ s with lock := none }.put i request (.gone false)).GotReport j :=
          h.put rfl hcaller fun hr => by cases hr
        exact hput
      next => exact h
  | work w => exact h

theorem GotReport.run {j : ℕ} (h : s.GotReport j) (steps : List Step) :
    (s.run steps).GotReport j :=
  run_of_step (P := fun u => u.GotReport j) (fun _ t _ hs => hs.step t) h

end MetricLedger.Concurrent
