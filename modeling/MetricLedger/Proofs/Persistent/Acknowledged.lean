import Mathlib.Tactic
import MetricLedger.Proofs.Ledger.Account
import MetricLedger.Proofs.Persistent.Interval

/-!
# What is left of the writes that were answered well

A session on a log that was not there is closed well, and the log is opened again. Main statement:
`keepsGauge_iff_isFinite`, every counter reads as the sum of the deltas that were answered well, and a
gauge reads as the last number written to it exactly if that number is finite: the ledger takes every
number, the log drops the others, and the last finite one comes back.
-/

namespace MetricLedger

open Log

/-! ## Numbers that are kept -/

/-- The numbers are the same, or neither of them is a number. -/
def Binary64.Agrees (x y : Binary64) : Prop := x = y ∨ x.isNaN = true ∧ y.isNaN = true

theorem Binary64.not_isNaN_of_isFinite {x : Binary64} (h : x.isFinite = true) :
    ¬x.isNaN = true := by
  simp only [isFinite, decide_eq_true_eq] at h
  simp only [isNaN, decide_eq_true_eq]
  omega

/-- A finite number agrees with finite numbers only. -/
theorem Binary64.Agrees.isFinite {x y : Binary64} (h : x.Agrees y) (hx : x.isFinite = true) :
    y.isFinite = true := by
  obtain rfl | ⟨hnan, -⟩ := h
  · exact hx
  · exact absurd hnan (not_isNaN_of_isFinite hx)

theorem isFinite_of_lastFinite {name : String} {records : List Record} {value : Binary64}
    (h : lastFinite name records = some value) : value.isFinite = true :=
  (List.mem_filter.1 (List.mem_of_getLast? h)).2

/-- The last number is the last finite one if it is finite. -/
theorem lastFinite_of_getLast? {name : String} {records : List Record} {value : Binary64}
    (h : (gaugeWrites name records).getLast? = some value) (hvalue : value.isFinite = true) :
    lastFinite name records = some value := by
  obtain ⟨earlier, hwrites⟩ := List.getLast?_eq_some_iff.1 h
  rw [lastFinite, hwrites, List.filter_append, List.filter_singleton, hvalue, cond_true,
    List.getLast?_append]
  rfl

/-- The last finite number agrees with the last number exactly if the last number is finite. -/
theorem lastFinite_agrees_iff {name : String} {records : List Record} {value : Binary64}
    (h : (gaugeWrites name records).getLast? = some value) :
    (∃ kept, lastFinite name records = some kept ∧ kept.Agrees value) ↔ value.isFinite = true := by
  constructor
  · rintro ⟨kept, hkept, hagrees⟩
    exact hagrees.isFinite (isFinite_of_lastFinite hkept)
  · intro hvalue
    exact ⟨value, lastFinite_of_getLast? h hvalue, .inl rfl⟩

/-! ## Accounts of sessions -/

namespace Ledger

variable {l : Ledger} {account : List Record}

/-- A call enters into the account what it applies to the ledger. -/
theorem Carries.account_eq (h : l.Carries account) (c : Call) :
    c.account account = (c.answer l, account ++ (c.effect l).1) := by
  cases c with
  | write r =>
      obtain ⟨hjudge, m, happly, -⟩ | ⟨f, hjudge, happly⟩ := h.apply r
      · simp only [Call.account, Call.answer, Call.effect, hjudge, happly]
      · simp only [Call.account, Call.answer, Call.effect, hjudge, happly, List.append_nil]
  | batch ops =>
      obtain ⟨hresult, -⟩ := h.performAll ops
      rcases hperform : Batch.performAll ops l with ⟨result, records, m⟩
      rw [hperform] at hresult
      cases result with
      | ok u => simp only [Call.account, Call.answer, Call.effect, hresult, hperform]
      | error f =>
          simp only [Call.account, Call.answer, Call.effect, hresult, hperform, List.append_nil]

theorem Carries.accounts_eq (h : l.Carries account) (calls : List Call) :
    Call.accounts calls account =
        (Call.answers calls l, account ++ (Call.effects calls l).1) ∧
      (Call.effects calls l).2.Carries (account ++ (Call.effects calls l).1) := by
  induction calls generalizing l account with
  | nil =>
      refine ⟨?_, ?_⟩
      · rw [Call.accounts, Call.effects, List.append_nil]
        rfl
      · show l.Carries (account ++ [])
        rw [List.append_nil]
        exact h
  | cons c calls ih =>
      have hnext : (c.effect l).2.Carries (account ++ (c.effect l).1) := by
        have hcall := (h.call c).2
        rw [h.account_eq c] at hcall
        exact hcall
      obtain ⟨haccounts, hcarries⟩ := ih hnext
      rw [Call.effects_cons, ← List.append_assoc]
      refine ⟨?_, hcarries⟩
      simp only [Call.accounts, h.account_eq c, haccounts, Call.answers]

end Ledger

namespace Persistent

variable {files tree left closed : Files} {path : String} {storeInterval now : Duration}
  {restore : Bool} {p q r : Persistent} {summary : Option Summary}

/-- A ledger that is opened on a log that is not there is empty. -/
theorem ledger_of_absent (hopen : openAt files path storeInterval restore now = (.ok p, tree))
    (habsent : files.node? p.log.writer.place = none) : p.ledger = .empty := by
  obtain ⟨place, hplace, hlog, -⟩ := openAt_ok hopen
  cases restore with
  | true =>
      have hready : Ready files path [] := by
        rw [hlog] at habsent
        exact ready_of_absent hplace habsent
      obtain ⟨-, records, hread, hreplay⟩ := restoreLedger_of_openAt hopen
      have hnone : Except.ok records = .ok [] := hread.symm.trans hready.reads
      obtain rfl := Except.ok.inj hnone
      exact (Except.ok.inj hreplay).symm
  | false =>
      simp only [openAt, Pipeline.openAt, hplace, Bool.false_eq_true, if_false, Prod.mk.injEq,
        Except.ok.injEq] at hopen
      rw [← hopen.1]

/-- A session on a log that was not there, if it is closed well, leaves the lines of the writes it
applied. -/
theorem ready_of_shutdown (hopen : openAt files path storeInterval restore now = (.ok p, tree))
    (habsent : files.node? p.log.writer.place = none) {ms : List Move}
    (hmoves : p.moves tree ms = (q, left))
    (hclose : q.shutdown left = (.ok summary, r, closed)) :
    Ready closed path (linesOf (Call.effects (calls ms) .empty).1) := by
  have hledger := ledger_of_absent hopen habsent
  obtain ⟨place, hplace, hlog, hreport⟩ := openAt_ok hopen
  have hholds : tree.Holds path p.log.writer.place [] := by
    rw [hlog] at habsent ⊢
    exact (openFile_of_absent hplace habsent).1
  cases hstage : p.log.stage with
  | finished =>
      rw [hlog] at hstage
      exact absurd hstage (Pipeline.stage_start_ne_finished _ _ _)
  | dead =>
      -- a writer that stopped is not closed well
      have hdead := moves_of_dead (isOpen_of_openAt hopen) hstage tree ms
      obtain ⟨hq, hleft⟩ := Prod.mk.inj (hmoves.symm.trans hdead)
      obtain ⟨r', hshutdown⟩ := shutdown_of_dead
        (p := { p with ledger := (Call.effects (calls ms) p.ledger).2 }) hstage hreport tree
      rw [hq, hleft, hshutdown] at hclose
      cases hclose
  | running =>
      obtain ⟨hmoved, -⟩ := (inSession_of_openAt hopen hholds hstage).moves ms
      rw [hmoves, hledger] at hmoved
      obtain ⟨summary', r', closed', place', hshutdown, -, hclosed⟩ := hmoved.shutdown
      rw [hshutdown] at hclose
      cases hclose
      exact ready_of_holds hclosed

/-- The ledger that a log of lines leads to has the counters of the one that was logged, and the last
finite number of every gauge. -/
theorem openAt_of_carries {l : Ledger} {records : List Record}
    (hready : Ready files path (linesOf records)) (h : l.Carries records)
    (storeInterval now : Duration) :
    ∃ p tree, openAt files path storeInterval true now = (.ok p, tree) ∧
      (∀ name, p.ledger.getCounter name = l.getCounter name) ∧
      ∀ name, p.ledger.getGauge name =
        (lastFinite name records).elim (.error (.notFound .gauge name))
          fun value => .ok ⟨name, value⟩ := by
  obtain ⟨m, hreplay, hcounters⟩ := Ledger.replay_encodable rfl h
  obtain ⟨place, tree, hopen, -⟩ :=
    openAt_of_ready hready (readContent_linesOf path records) hreplay storeInterval now
  refine ⟨_, tree, hopen, fun name => ?_, fun name => ?_⟩
  · rw [Ledger.getCounter, Ledger.getCounter, hcounters]
  · rw [Ledger.getGauge, Ledger.gauges_get?_replay_encodable hreplay]
    cases lastFinite name records <;> rfl

/-- A ledger is opened on a log that is not there, anything happens to it, and it is closed well. The
account of its calls is what they were answered. The log opens again: every counter that was
incremented reads as the sum of its deltas, and every gauge as the last finite number written to it.
So a gauge reads as the last number written to it exactly if that number is finite, and otherwise an
older one comes back, or none. -/
theorem keepsGauge_iff_isFinite
    (hopen : openAt files path storeInterval restore now = (.ok p, tree))
    (habsent : files.node? p.log.writer.place = none) (ms : List Move)
    (hmoves : p.moves tree ms = (q, left))
    (hclose : q.shutdown left = (.ok summary, r, closed)) :
    ∃ account, Call.accounts (calls ms) [] = (p.answers tree ms, account) ∧
      ∀ storeInterval' now', ∃ p' reopened,
        openAt closed path storeInterval' true now' = (.ok p', reopened) ∧
        (∀ name, (∃ w ∈ account, Ledger.Increments name w) → ∃ value,
          p'.ledger.getCounter name = .ok ⟨name, value⟩ ∧ value.toInt = total name account) ∧
        (∀ name, p'.ledger.getGauge name =
          (lastFinite name account).elim (.error (.notFound .gauge name))
            fun value => .ok ⟨name, value⟩) ∧
        ∀ name value, (gaugeWrites name account).getLast? = some value →
          ((∃ kept, p'.ledger.getGauge name = .ok ⟨name, kept⟩ ∧ kept.Agrees value) ↔
            value.isFinite = true) := by
  have hledger := ledger_of_absent hopen habsent
  have hready := ready_of_shutdown hopen habsent hmoves hclose
  obtain ⟨haccounts, hcarries⟩ := Ledger.carries_empty.accounts_eq (calls ms)
  rw [List.nil_append] at haccounts hcarries
  refine ⟨(Call.effects (calls ms) .empty).1, ?_, fun storeInterval' now' => ?_⟩
  · rw [haccounts, answers_of_isOpen (isOpen_of_openAt hopen), hledger]
  obtain ⟨p', reopened, hp', hcounters, hgauges⟩ :=
    openAt_of_carries hready hcarries storeInterval' now'
  refine ⟨p', reopened, hp', fun name hmem => ?_, hgauges, fun name value hlast => ?_⟩
  · rw [hcounters]
    exact hcarries.getCounter_of_increments hmem
  · rw [← lastFinite_agrees_iff hlast, hgauges name]
    cases lastFinite name (Call.effects (calls ms) .empty).1 <;> simp

/-- A session on a log that was not there is opened and closed well. -/
theorem exists_shutdown (ms : List Move) :
    ∃ p tree q left summary r closed,
      openAt .empty "m" ⟨0⟩ true ⟨0⟩ = (.ok p, tree) ∧
      Files.empty.node? p.log.writer.place = none ∧ p.moves tree ms = (q, left) ∧
      q.ledger = (Call.effects (calls ms) .empty).2 ∧
      q.shutdown left = (.ok (some summary), r, closed) := by
  have hp : openAt .empty "m" ⟨0⟩ true ⟨0⟩ = (.ok sample, sampleFiles) := by
    have hrestore : restoreLedger .empty "m" = .ok .empty :=
      restoreLedger_of_readFile (ready_of_absent openFile_sample (by decide)).reads
    simp only [openAt, Pipeline.openAt, openFile_sample, hrestore, if_true]
    rfl
  have hholds := (openFile_of_absent openFile_sample (by decide)).1
  have hstage : sample.log.stage = .running := by decide
  obtain ⟨hmoved, hledger⟩ := (inSession_of_openAt hp hholds hstage).moves ms
  obtain ⟨summary, r, closed, -, hshutdown, -⟩ := hmoved.shutdown
  exact ⟨_, _, _, _, summary, r, closed, hp, by decide, rfl, hledger, hshutdown⟩

/-- Two gauges are written, and then again together with a counter, one of them with no number. -/
def overwritingMoves : List Move := [
  .call (.write (.gauge "g" ⟨0x3FF0000000000000⟩)), .work .receive,
  .call (.write (.gauge "h" ⟨0x3FF0000000000000⟩)),
  .call (.batch [.ofRecord (.gauge "g" ⟨0x7FF8000000000000⟩), .ofRecord (.counter "a" 2),
    .ofRecord (.gauge "h" ⟨0x4000000000000000⟩)])]

/-- After the calls are answered well and the ledger is closed well, the gauge that has a number now
reads as that number and the counter as its delta. -/
theorem keepsGauge_overwritingMoves :
    ∃ p tree q left summary r closed p' reopened value,
      openAt .empty "m" ⟨0⟩ true ⟨0⟩ = (.ok p, tree) ∧
      p.moves tree overwritingMoves = (q, left) ∧
      p.answers tree overwritingMoves = [.ok (), .ok (), .ok ()] ∧
      q.shutdown left = (.ok (some summary), r, closed) ∧
      openAt closed "m" ⟨0⟩ true ⟨0⟩ = (.ok p', reopened) ∧
      p'.ledger.getCounter "a" = .ok ⟨"a", value⟩ ∧ value.toInt = 2 ∧
      ∃ kept, p'.ledger.getGauge "h" = .ok ⟨"h", kept⟩ ∧ kept.Agrees ⟨0x4000000000000000⟩ := by
  obtain ⟨p, tree, q, left, summary, r, closed, hp, habsent, hmoves, -, hclose⟩ :=
    exists_shutdown overwritingMoves
  obtain ⟨account, haccount, hkeeps⟩ :=
    keepsGauge_iff_isFinite hp habsent overwritingMoves hmoves hclose
  obtain ⟨p', reopened, hp', hcounters, -, hgauges⟩ := hkeeps ⟨0⟩ ⟨0⟩
  have hall : Call.accounts (calls overwritingMoves) [] = ([.ok (), .ok (), .ok ()],
      [.gauge "g" ⟨0x3FF0000000000000⟩, .gauge "h" ⟨0x3FF0000000000000⟩,
        .gauge "g" ⟨0x7FF8000000000000⟩, .counter "a" 2, .gauge "h" ⟨0x4000000000000000⟩]) := by
    cbv
  obtain ⟨hanswers, rfl⟩ := Prod.mk.inj (haccount.symm.trans hall)
  obtain ⟨value, hvalue, hsum⟩ := hcounters "a" ⟨.counter "a" 2, by simp, 2, rfl⟩
  have hkept := (hgauges "h" ⟨0x4000000000000000⟩ (by cbv)).2 (by decide)
  exact ⟨p, tree, q, left, summary, r, closed, p', reopened, value, hp, hmoves, hanswers, hclose,
    hp', hvalue, hsum.trans (by cbv), hkept⟩

/-- After the calls are answered well and the ledger is closed well, the gauge that was no number any
more reads as the number that it had before. -/
theorem overwrittenGauge_reappears :
    ∃ p tree q left summary r closed p' reopened,
      openAt .empty "m" ⟨0⟩ true ⟨0⟩ = (.ok p, tree) ∧
      p.moves tree overwritingMoves = (q, left) ∧
      p.answers tree overwritingMoves = [.ok (), .ok (), .ok ()] ∧
      q.ledger.getGauge "g" = .ok ⟨"g", ⟨0x7FF8000000000000⟩⟩ ∧
      q.shutdown left = (.ok (some summary), r, closed) ∧
      openAt closed "m" ⟨0⟩ true ⟨0⟩ = (.ok p', reopened) ∧
      p'.ledger.getGauge "g" = .ok ⟨"g", ⟨0x3FF0000000000000⟩⟩ := by
  obtain ⟨p, tree, q, left, summary, r, closed, hp, habsent, hmoves, hlive, hclose⟩ :=
    exists_shutdown overwritingMoves
  have hanswers : p.answers tree overwritingMoves = [.ok (), .ok (), .ok ()] := by
    rw [answers_of_isOpen (isOpen_of_openAt hp), ledger_of_absent hp habsent]
    cbv
  have hready := ready_of_shutdown hp habsent hmoves hclose
  obtain ⟨p', reopened, hp', -, hgauges⟩ :=
    openAt_of_carries hready (Call.replay_effects (calls overwritingMoves) .empty) ⟨0⟩ ⟨0⟩
  have hlast : lastFinite "g" (Call.effects (calls overwritingMoves) .empty).1 =
      some ⟨0x3FF0000000000000⟩ := by cbv
  refine ⟨p, tree, q, left, summary, r, closed, p', reopened, hp, hmoves, hanswers, ?_, hclose, hp',
    ?_⟩
  · rw [hlive]
    cbv
  · rw [hgauges, hlast]
    rfl

end Persistent

end MetricLedger
