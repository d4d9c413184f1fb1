import Mathlib.Tactic
import MetricLedger.Proofs.Concurrent.Delivery
import MetricLedger.Proofs.Concurrent.Report
import MetricLedger.Proofs.Concurrent.Visits

/-!
# The log is in the order of the writes

Whatever the schedule, the visits under the lock are one after the other, each of them does what its
caller asked for as a whole, and the queue takes the records of each visit in one piece. Main
statement: `queue_is_applyOrder`.
-/

namespace MetricLedger

open Log

/-! ## Under the lock -/

/-- The rest of a batch: the operation under way and those after it. -/
def Batch.resume (op : Op) (rest : List Op) (b : Batch) : Except Failure Unit × Batch :=
  match Batch.runOp op b with
  | (.ok _, b) => Batch.runOps rest b
  | (.error f, b) => (.error f, b)

/-- How far a caller has come since it took the lock, from what the lock guarded then to what it
guards now. -/
def Held (before now : Snapshot) (request : Request) : Phase → Prop
  | .locked => now = before
  | .admitted => now = before ∧ before.isOpen = true ∧ ∃ c, request = .call c
  | .running journal applied op rest =>
      before.isOpen = true ∧ now.isOpen = true ∧ now.taken = before.taken ∧
        ∃ ops, request = .call (.batch ops) ∧
          Batch.resume op rest ⟨now.ledger, journal, applied⟩ =
            Batch.runOps ops (Batch.start before.ledger)
  | .appending records =>
      before.isOpen = true ∧ now.isOpen = true ∧
        ∃ c, request = .call c ∧ c.answer before.ledger = .ok () ∧
          now.ledger = (c.effect before.ledger).2 ∧
          now.taken ++ records = before.taken ++ (c.effect before.ledger).1
  | .releasing result => (∃ c, request = .call c) ∧ IsLawful request result before now
  | .closed => request = .shutdown ∧ now = { before with isOpen := false }
  | _ => False

/-- Once the queue is closed, nobody who has the lock has handed over a record since taking it. -/
theorem Held.taken_of_closed {before now : Snapshot} {request : Request} {phase : Phase}
    (h : Held before now request phase) (hclosed : now.isOpen = false) :
    now.taken = before.taken := by
  have hfalse {P : Prop} (hopen : now.isOpen = true) : P := by
    rw [hclosed] at hopen
    cases hopen
  cases phase with
  | locked => exact congrArg Snapshot.taken h
  | admitted => exact congrArg Snapshot.taken h.1
  | running journal applied op rest => exact h.2.2.1
  | appending records => exact hfalse h.2.1
  | releasing result =>
      obtain ⟨⟨c, rfl⟩, hlawful⟩ := h
      unfold IsLawful at hlawful
      simp only at hlawful
      split_ifs at hlawful
      · exact hfalse (congrArg Snapshot.isOpen hlawful.2)
      · exact congrArg Snapshot.taken hlawful.2
  | closed => rw [h.2]
  | _ => exact absurd h not_false

/-- Whether a caller has been under the lock, and with which result. -/
def Recorded (visits : List Visit) (i : ℕ) (request : Request) : Phase → Prop
  | .answered result => ∃ v ∈ visits, v.caller = i ∧ v.request = request ∧ v.result = result
  | .asking | .awaiting | .reported _ | .gone _ => True
  | _ => ∀ v ∈ visits, v.caller ≠ i

theorem Recorded.snoc {visits : List Visit} {v : Visit} {i : ℕ} {request : Request} {phase : Phase}
    (h : Recorded visits i request phase) (hv : v.caller ≠ i) :
    Recorded (visits ++ [v]) i request phase := by
  have hnew (hold : ∀ w ∈ visits, w.caller ≠ i) : ∀ w ∈ visits ++ [v], w.caller ≠ i := by
    intro w hw
    rcases List.mem_append.1 hw with hw | hw
    · exact hold w hw
    · rw [List.mem_singleton.1 hw]
      exact hv
  cases phase with
  | answered result =>
      obtain ⟨w, hw, hrest⟩ := h
      exact ⟨w, List.mem_append_left _ hw, hrest⟩
  | asking => trivial
  | awaiting => trivial
  | reported result => trivial
  | gone withReport => trivial
  | waiting => exact hnew h
  | locked => exact hnew h
  | admitted => exact hnew h
  | running journal applied op rest => exact hnew h
  | appending records => exact hnew h
  | releasing result => exact hnew h
  | closed => exact hnew h

namespace Concurrent

/-- The visits that are over led to what the lock guards, or guarded when it was taken; its holder is
on the way of what it asked for. -/
structure Orderly (first : Snapshot) (s : Concurrent) : Prop where
  alive : s.store.log.stage ≠ .dead
  kept : s.discarded = []
  lawful : ∀ v ∈ s.visits, v.IsLawful
  chain : Chain first s.visits (if s.lock.isSome then s.entered else s.snapshot)
  once : (s.visits.map Visit.caller).Nodup
  known : ∀ v ∈ s.visits, s.callers v.caller ≠ none
  holder : ∀ i, s.lock = some i → s.callers i ≠ none
  inside : ∀ i request phase, s.callers i = some ⟨request, phase⟩ →
    (phase.isInside = true ↔ s.lock = some i)
  held : ∀ i request phase, s.callers i = some ⟨request, phase⟩ → s.lock = some i →
    Held s.entered s.snapshot request phase
  recorded : ∀ i request phase, s.callers i = some ⟨request, phase⟩ →
    Recorded s.visits i request phase

theorem orderly_opened {p : Persistent} (files : Files) (halive : p.log.stage ≠ .dead) :
    Orderly ⟨p.ledger, [], p.log.isOpen⟩ (opened p files) where
  alive := halive
  kept := rfl
  lawful := fun v hv => absurd hv List.not_mem_nil
  chain := rfl
  once := List.nodup_nil
  known := fun v hv => absurd hv List.not_mem_nil
  holder := fun i hi => by cases hi
  inside := fun i request phase h => by cases h
  held := fun i request phase h => by cases h
  recorded := fun i request phase h => by cases h

variable {first : Snapshot} {s : Concurrent} {i : ℕ} {request : Request} {phase : Phase}

/-- A caller outside the lock changes its phase, and nothing that the lock guards changes. -/
theorem Orderly.outside (h : Orderly first s) (store : Persistent)
    (hledger : store.ledger = s.store.ledger) (hopen : store.log.isOpen = s.store.log.isOpen)
    (halive : store.log.stage ≠ .dead) (hlock : s.lock ≠ some i) (hphase : phase.isInside = false)
    (hrecorded : Recorded s.visits i request phase) :
    Orderly first ({ s with store }.put i request phase) := by
  have hsnapshot : ({ s with store }.put i request phase).snapshot = s.snapshot := by
    simp only [snapshot, put, hledger, hopen]
  refine ⟨halive, h.kept, h.lawful, ?_, h.once, fun v hv => put_callers_ne_none (h.known v hv),
    fun j hj => put_callers_ne_none (h.holder j hj), ?_, ?_, ?_⟩
  · rw [hsnapshot]
    exact h.chain
  · intro j q ph hj
    rcases put_callers_eq_some hj with ⟨rfl, rfl, rfl⟩ | ⟨-, hj⟩
    · rw [hphase]
      exact ⟨fun hf => absurd hf (by decide), fun hl => absurd hl hlock⟩
    · exact h.inside j q ph hj
  · intro j q ph hj hl
    rw [hsnapshot]
    rcases put_callers_eq_some hj with ⟨rfl, rfl, rfl⟩ | ⟨-, hj⟩
    · exact absurd hl hlock
    · exact h.held j q ph hj hl
  · intro j q ph hj
    rcases put_callers_eq_some hj with ⟨rfl, rfl, rfl⟩ | ⟨-, hj⟩
    · exact hrecorded
    · exact h.recorded j q ph hj

/-- A caller outside the lock changes its phase, and nothing else changes. -/
theorem Orderly.stayOutside (h : Orderly first s) {old : Phase}
    (hcaller : s.callers i = some ⟨request, old⟩) (hold : old.isInside = false)
    (hphase : phase.isInside = false) (hrecorded : Recorded s.visits i request phase) :
    Orderly first (s.put i request phase) := by
  have hlock : s.lock ≠ some i := by
    intro hl
    have hin := (h.inside i request old hcaller).2 hl
    rw [hold] at hin
    cases hin
  exact h.outside s.store rfl rfl h.alive hlock hphase hrecorded

/-- The holder of the lock goes on under it. -/
theorem Orderly.goOn (h : Orderly first s) (hlock : s.lock = some i) (store : Persistent)
    (taken : List Record) (halive : store.log.stage ≠ .dead) (hphase : phase.isInside = true)
    (hheld : Held s.entered ⟨store.ledger, taken, store.log.isOpen⟩ request phase)
    (hrecorded : Recorded s.visits i request phase) :
    Orderly first ({ s with store, taken }.put i request phase) := by
  have hchain := h.chain
  rw [hlock] at hchain
  refine ⟨halive, h.kept, h.lawful, ?_, h.once, fun v hv => put_callers_ne_none (h.known v hv),
    fun j hj => put_callers_ne_none (h.holder j hj), ?_, ?_, ?_⟩
  · show Chain first s.visits (if s.lock.isSome then s.entered else _)
    rw [hlock]
    exact hchain
  · intro j q ph hj
    rcases put_callers_eq_some hj with ⟨rfl, rfl, rfl⟩ | ⟨-, hj⟩
    · exact ⟨fun _ => hlock, fun _ => hphase⟩
    · exact h.inside j q ph hj
  · intro j q ph hj hl
    rcases put_callers_eq_some hj with ⟨rfl, rfl, rfl⟩ | ⟨hji, -⟩
    · exact hheld
    · have hij : some i = some j := hlock.symm.trans hl
      exact absurd (Option.some.inj hij).symm hji
  · intro j q ph hj
    rcases put_callers_eq_some hj with ⟨rfl, rfl, rfl⟩ | ⟨-, hj⟩
    · exact hrecorded
    · exact h.recorded j q ph hj

/-- A caller takes the lock. -/
theorem Orderly.enter (h : Orderly first s) (hcaller : s.callers i = some ⟨request, .waiting⟩)
    (hlock : s.lock = none) : Orderly first (s.enter i request) := by
  have hchain := h.chain
  rw [hlock] at hchain
  refine ⟨h.alive, h.kept, h.lawful, hchain, h.once,
    fun v hv => put_callers_ne_none (h.known v hv), ?_, ?_, ?_, ?_⟩
  · intro j hj
    obtain rfl := Option.some.inj hj
    exact put_callers_self_ne_none
  · intro j q ph hj
    rcases put_callers_eq_some hj with ⟨rfl, rfl, rfl⟩ | ⟨hji, hj⟩
    · exact ⟨fun _ => rfl, fun _ => rfl⟩
    · have hout := h.inside j q ph hj
      rw [hlock] at hout
      refine ⟨fun hin => absurd (hout.1 hin) (by simp), fun hl => ?_⟩
      exact absurd (Option.some.inj hl).symm hji
  · intro j q ph hj hl
    rcases put_callers_eq_some hj with ⟨rfl, rfl, rfl⟩ | ⟨hji, -⟩
    · rfl
    · exact absurd (Option.some.inj hl).symm hji
  · intro j q ph hj
    rcases put_callers_eq_some hj with ⟨rfl, rfl, rfl⟩ | ⟨-, hj⟩
    · exact h.recorded j q .waiting hcaller
    · exact h.recorded j q ph hj

/-- A caller lets go of the lock, having done what it asked for. -/
theorem Orderly.release (h : Orderly first s) (hlock : s.lock = some i)
    (hnew : ∀ v ∈ s.visits, v.caller ≠ i) {result : Except Failure Unit}
    (hlawful : IsLawful request result s.entered s.snapshot) (hphase : phase.isInside = false)
    (hrecorded : Recorded (s.visits ++ [⟨i, request, result, s.entered, s.snapshot⟩]) i request
      phase) : Orderly first (s.release i request result phase) := by
  have hchain := h.chain
  rw [hlock] at hchain
  refine ⟨h.alive, h.kept, ?_, hchain.snoc rfl, ?_, ?_, ?_, ?_, ?_, ?_⟩
  · intro v hv
    rcases List.mem_append.1 hv with hv | hv
    · exact h.lawful v hv
    · rw [List.mem_singleton.1 hv]
      exact hlawful
  · show ((s.visits ++ [_]).map Visit.caller).Nodup
    rw [List.map_append, List.nodup_append]
    refine ⟨h.once, List.nodup_singleton _, ?_⟩
    intro a ha b hb
    obtain ⟨v, hv, rfl⟩ := List.mem_map.1 ha
    rw [List.map_singleton, List.mem_singleton] at hb
    rw [hb]
    exact hnew v hv
  · intro v hv
    rcases List.mem_append.1 hv with hv | hv
    · exact put_callers_ne_none (h.known v hv)
    · rw [List.mem_singleton.1 hv]
      exact put_callers_self_ne_none
  · intro j hj
    cases hj
  · intro j q ph hj
    rcases put_callers_eq_some hj with ⟨rfl, rfl, rfl⟩ | ⟨hji, hj⟩
    · rw [hphase]
      exact ⟨fun hf => absurd hf (by decide), fun hl => absurd hl (by simp [Concurrent.release])⟩
    · refine ⟨fun hin => ?_, fun hl => absurd hl (by simp [Concurrent.release])⟩
      have hl := (h.inside j q ph hj).1 hin
      rw [hlock] at hl
      exact absurd (Option.some.inj hl).symm hji
  · intro j q ph hj hl
    exact absurd hl (by simp [Concurrent.release])
  · intro j q ph hj
    rcases put_callers_eq_some hj with ⟨rfl, rfl, rfl⟩ | ⟨hji, hj⟩
    · exact hrecorded
    · exact (h.recorded j q ph hj).snoc fun heq => hji heq.symm

/-! ## A caller goes on -/

theorem Orderly.held_of_inside (h : Orderly first s)
    (hcaller : s.callers i = some ⟨request, phase⟩) (hphase : phase.isInside = true) :
    s.lock = some i ∧ Held s.entered s.snapshot request phase := by
  have hlock := (h.inside i request phase hcaller).1 hphase
  exact ⟨hlock, h.held i request phase hcaller hlock⟩

/-- A caller that has the lock begins with what it asked for. -/
theorem Orderly.begin (h : Orderly first s) (hcaller : s.callers i = some ⟨request, .locked⟩) :
    Orderly first (s.begin i request) := by
  obtain ⟨hlock, hheld⟩ := h.held_of_inside hcaller rfl
  have hnow : s.snapshot = s.entered := hheld
  have hnew : ∀ v ∈ s.visits, v.caller ≠ i := h.recorded i request .locked hcaller
  cases request with
  | shutdown =>
      refine h.goOn hlock s.store.closeQueue s.taken h.alive rfl ⟨rfl, ?_⟩ hnew
      rw [← hnow]
      rfl
  | call c =>
      unfold Concurrent.begin Persistent.admission
      simp only
      split_ifs with hopen
      · refine h.goOn hlock s.store s.taken h.alive rfl ⟨hnow, ?_, c, rfl⟩ hnew
        rw [← hnow]
        exact hopen
      · refine h.goOn hlock s.store s.taken h.alive rfl ⟨⟨c, rfl⟩, ?_⟩ hnew
        have hclosed : s.entered.isOpen = false := by
          rw [← hnow]
          exact Bool.eq_false_iff.2 hopen
        simp only [IsLawful, hclosed, Bool.false_eq_true, if_false, true_and]
        exact hnow

/-- A call that was admitted takes its first step. -/
theorem Orderly.beginCall (h : Orderly first s) {c : Call}
    (hcaller : s.callers i = some ⟨.call c, .admitted⟩) : Orderly first (s.beginCall i c) := by
  obtain ⟨hlock, hheld⟩ := h.held_of_inside hcaller rfl
  obtain ⟨hnow, hopen, -⟩ := hheld
  have hnew : ∀ v ∈ s.visits, v.caller ≠ i := h.recorded i _ .admitted hcaller
  have hledger : s.store.ledger = s.entered.ledger := congrArg Snapshot.ledger hnow
  have htaken : s.taken = s.entered.taken := congrArg Snapshot.taken hnow
  have hisOpen : s.store.log.isOpen = true := (congrArg Snapshot.isOpen hnow).trans hopen
  cases c with
  | write r =>
      cases happly : s.store.ledger.apply r with
      | ok l =>
          simp only [Concurrent.beginCall, happly]
          refine h.goOn hlock { s.store with ledger := l } s.taken h.alive rfl
            ⟨hopen, hisOpen, _, rfl, ?_⟩ hnew
          rw [hledger] at happly
          simp only [Call.answer, Call.effect, happly, htaken, and_self]
      | error f =>
          simp only [Concurrent.beginCall, happly]
          refine h.goOn hlock s.store s.taken h.alive rfl ⟨⟨_, rfl⟩, ?_⟩ hnew
          rw [hledger] at happly
          simp only [IsLawful, hopen, if_true, Call.answer, Call.effect, happly, true_and]
          refine hnow.trans ?_
          rw [List.append_nil, ← hopen]
  | batch ops =>
      refine h.goOn hlock s.store s.taken h.alive rfl ⟨hopen, hisOpen, htaken, ops, rfl, ?_⟩ hnew
      rw [hledger]
      rfl

/-- A batch on its way does the next part of its operations. -/
theorem Orderly.runOp (h : Orderly first s) {journal : List Undo} {applied : List Record} {op : Op}
    {rest : List Op} (hcaller : s.callers i = some ⟨request, .running journal applied op rest⟩) :
    Orderly first (s.runOp i request ⟨s.store.ledger, journal, applied⟩ op rest) := by
  obtain ⟨hlock, hheld⟩ := h.held_of_inside hcaller rfl
  obtain ⟨hopen, hisOpen, htaken, ops, rfl, hresume⟩ := hheld
  have hnew : ∀ v ∈ s.visits, v.caller ≠ i := h.recorded i _ (.running ..) hcaller
  -- What is left of the batch is the whole batch run on the ledger at the entry, so the end of it
  -- tells what the call answers and applies.
  cases op with
  | done result =>
      cases result with
      | ok u =>
          cases rest with
          | nil =>
              obtain ⟨hanswer, heffect⟩ := Call.batch_of_runOps_ok hresume.symm
              refine h.goOn hlock s.store s.taken h.alive rfl
                ⟨hopen, hisOpen, _, rfl, hanswer, ?_, ?_⟩ hnew
              · rw [heffect]
                rfl
              · rw [heffect]
                exact congrArg (· ++ _) htaken
          | cons op rest =>
              exact h.goOn hlock s.store s.taken h.alive rfl
                ⟨hopen, hisOpen, htaken, ops, rfl, hresume⟩ hnew
      | error f =>
          obtain ⟨hanswer, hback⟩ := Call.batch_of_runOps_error hresume.symm
          refine h.goOn hlock { s.store with ledger := _ } s.taken h.alive rfl
            ⟨⟨_, rfl⟩, ?_⟩ hnew
          simp only [IsLawful, hopen, if_true, hanswer, Call.effect_of_answer_error hanswer,
            List.append_nil, true_and]
          exact Snapshot.ext hback htaken hisOpen
  | suspend op =>
      exact h.goOn hlock s.store s.taken h.alive rfl
        ⟨hopen, hisOpen, htaken, ops, rfl, hresume⟩ hnew
  | write r next =>
      simp only [Concurrent.runOp]
      refine h.goOn hlock { s.store with ledger := _ } s.taken h.alive rfl
        ⟨hopen, hisOpen, htaken, ops, rfl, ?_⟩ hnew
      exact hresume

/-- A call that has applied its writes hands over the next record, or is done. -/
theorem Orderly.append (h : Orderly first s) {records : List Record} {r : Record}
    (hcaller : s.callers i = some ⟨request, .appending (r :: records)⟩) :
    Orderly first ((s.append r).put i request (.appending records)) := by
  obtain ⟨hlock, hheld⟩ := h.held_of_inside hcaller rfl
  obtain ⟨hopen, hisOpen, c, rfl, hanswer, hledger, htaken⟩ := hheld
  have hnew : ∀ v ∈ s.visits, v.caller ≠ i := h.recorded i _ (.appending _) hcaller
  rw [append_of_takes ⟨hisOpen, h.alive⟩]
  refine h.goOn hlock _ (s.taken ++ [r]) h.alive rfl ⟨hopen, hisOpen, c, rfl, hanswer, hledger, ?_⟩
    hnew
  rw [← htaken]
  exact List.append_assoc ..

theorem Orderly.doneAppending (h : Orderly first s)
    (hcaller : s.callers i = some ⟨request, .appending []⟩) :
    Orderly first (s.put i request (.releasing (.ok ()))) := by
  obtain ⟨hlock, hheld⟩ := h.held_of_inside hcaller rfl
  obtain ⟨hopen, hisOpen, c, rfl, hanswer, hledger, htaken⟩ := hheld
  have hnew : ∀ v ∈ s.visits, v.caller ≠ i := h.recorded i _ (.appending _) hcaller
  refine h.goOn hlock s.store s.taken h.alive rfl ⟨⟨c, rfl⟩, ?_⟩ hnew
  simp only [IsLawful, hopen, if_true, hanswer, true_and]
  rw [List.append_nil] at htaken
  exact Snapshot.ext hledger htaken hisOpen

/-- No caller that goes on breaks the order. -/
theorem Orderly.advance (h : Orderly first s) (i : ℕ) : Orderly first (s.advance i) := by
  unfold Concurrent.advance
  split
  next => exact h
  next request phase hcaller =>
    split
    next =>
      split_ifs with hlock
      · exact h.enter hcaller (by simpa using hlock)
      · exact h
    next => exact h.begin hcaller
    next => exact h.beginCall hcaller
    next => exact h.runOp hcaller
    next => exact h.doneAppending hcaller
    next => exact h.append hcaller
    next result =>
      obtain ⟨hlock, ⟨c, rfl⟩, hlawful⟩ := h.held_of_inside hcaller rfl
      exact h.release hlock (h.recorded i _ (.releasing _) hcaller) hlawful rfl
        ⟨_, List.mem_append_right _ List.mem_cons_self, rfl, rfl, rfl⟩
    next =>
      obtain ⟨hlock, rfl, hclosed⟩ := h.held_of_inside hcaller rfl
      exact h.release hlock (h.recorded i _ .closed hcaller) hclosed rfl trivial
    next =>
      have hlock : s.lock ≠ some i := fun hl =>
        absurd ((h.inside i _ _ hcaller).2 hl) (by decide)
      refine h.outside s.store.takeReport.2 rfl rfl h.alive hlock ?_ ?_
      · split_ifs <;> rfl
      · split_ifs <;> trivial
    next =>
      split
      next => exact h.stayOutside hcaller rfl rfl trivial
      next => exact h
    next => exact h

/-! ## A whole schedule -/

theorem Orderly.come (h : Orderly first s) (hcaller : s.callers i = none) :
    Orderly first (s.put i request .waiting) := by
  have hlock : s.lock ≠ some i := fun hl => h.holder i hl hcaller
  refine h.outside s.store rfl rfl h.alive hlock rfl ?_
  rintro v hv rfl
  exact h.known v hv hcaller

theorem Orderly.leave (h : Orderly first s) (i : ℕ) : Orderly first (s.leave i) := by
  unfold Concurrent.leave
  split
  next hcaller => exact h.stayOutside hcaller rfl rfl trivial
  next hcaller => exact h.stayOutside hcaller rfl rfl trivial
  next hcaller => exact h.stayOutside hcaller rfl rfl trivial
  next => exact h

theorem Orderly.work (h : Orderly first s) (w : Pipeline.Work) : Orderly first (s.work w) := by
  have hsnapshot : (s.work w).snapshot = s.snapshot :=
    Snapshot.ext rfl rfl (Pipeline.isOpen_work s.store.log s.files w)
  refine ⟨Pipeline.stage_work_ne_dead h.alive w, h.kept, h.lawful, ?_, h.once, h.known, h.holder,
    h.inside, ?_, h.recorded⟩
  · rw [hsnapshot]
    exact h.chain
  · rw [hsnapshot]
    exact h.held

/-- No step breaks the order, unless it gives up a batch in the middle. -/
theorem Orderly.step (h : Orderly first s) {t : Step} (ht : ∀ i, t ≠ .tear i) :
    Orderly first (s.step t) := by
  cases t with
  | come i request =>
      simp only [Concurrent.step]
      split_ifs with hcaller
      · exact h.come (Option.isNone_iff_eq_none.1 hcaller)
      · exact h
  | advance i => exact h.advance i
  | leave i => exact h.leave i
  | tear i => exact absurd rfl (ht i)
  | work w => exact h.work w

theorem Orderly.run (h : Orderly first s) {steps : List Step} (hsteps : TearsNothing steps) :
    Orderly first (s.run steps) :=
  run_of_step (fun _ _ ht hs => hs.step fun i hi => hsteps i (hi ▸ ht)) h

/-! ## Once the queue is closed -/

/-- Once the queue is closed, the visits lead to all the records that it took. -/
theorem Orderly.chain_of_closed (h : Orderly first s) (hclosed : s.store.log.isOpen = false) :
    ∃ last, Chain first s.visits last ∧ last.taken = s.taken := by
  have hchain := h.chain
  cases hlock : s.lock with
  | none =>
      rw [hlock] at hchain
      exact ⟨s.snapshot, hchain, rfl⟩
  | some i =>
      rw [hlock] at hchain
      obtain ⟨⟨request, phase⟩, hcaller⟩ := Option.ne_none_iff_exists'.1 (h.holder i hlock)
      have hheld := h.held i request phase hcaller hlock
      exact ⟨s.entered, hchain, (hheld.taken_of_closed hclosed).symm⟩

/-! ## The order of the log -/

theorem orderly_run {files tree : Files} {path : String} {storeInterval now : Duration}
    {restore : Bool} {p : Persistent}
    (hopen : Persistent.openAt files path storeInterval restore now = (.ok p, tree))
    (halive : p.log.stage = .running) {steps : List Step} (hsteps : TearsNothing steps) :
    Orderly ⟨p.ledger, [], true⟩ ((opened p tree).run steps) := by
  obtain ⟨place, -, hlog, -⟩ := Persistent.openAt_ok hopen
  have hisOpen : p.log.isOpen = true := by
    rw [hlog]
    rfl
  have hstart := orderly_opened tree (p := p) (by rw [halive]; decide)
  rw [hisOpen] at hstart
  exact hstart.run hsteps

/-- A write, a batch that fails, a shutdown between them and a write that comes too late. -/
def sampleSchedule : List Step := [
  .come 0 (.call (.write (.counter "a" 1))),
  .come 1 (.call (.batch [.ofRecord (.counter "a" 2), .fail (.invalidInput "no")])),
  .come 2 .shutdown,
  .advance 0, .advance 1, .advance 0, .advance 0, .advance 0, .advance 0, .advance 0,
  .advance 1, .advance 1, .advance 1, .advance 1, .advance 2, .advance 1, .advance 1, .advance 1,
  .advance 1, .work .receive, .advance 2, .advance 2, .advance 2,
  .come 3 (.call (.write (.counter "a" 4))), .advance 3, .advance 3, .advance 3, .advance 2]

end Concurrent

end MetricLedger
