import Mathlib.Tactic
import MetricLedger.Proofs.Persistent.Calls

/-!
# Many callers

Writes, batches and shutdowns on one ledger, with one lock between them. A step takes one caller a
little further, or lets the writer of the log work; a list of steps is a schedule. Besides the state
itself, the records that the queue took and the visits under the lock are written down.
-/

namespace MetricLedger

open Log

/-- What a caller asks for. -/
inductive Request where
  | call (c : Call)
  | shutdown

/-- How far a caller is. -/
inductive Phase where
  /-- Waits for the lock. -/
  | waiting
  /-- Has the lock. -/
  | locked
  /-- Has the lock, and the queue was open. -/
  | admitted
  /-- Inside a batch: its notes, its records so far, the operation under way and those after it. -/
  | running (journal : List Undo) (applied : List Record) (op : Op) (rest : List Op)
  /-- Has applied its writes; these records are still to be handed to the queue. -/
  | appending (records : List Record)
  /-- Is done, and about to let go of the lock. -/
  | releasing (result : Except Failure Unit)
  /-- Has closed the queue, and is about to let go of the lock. -/
  | closed
  /-- A write or a batch is over. -/
  | answered (result : Except Failure Unit)
  /-- A shutdown is about to ask for the report of the writer. -/
  | asking
  /-- A shutdown waits for the report. -/
  | awaiting
  /-- A shutdown is over. -/
  | reported (result : Except Failure (Option Summary))
  /-- The caller has gone away while it waited, perhaps with the right to the report. -/
  | gone (withReport : Bool)

namespace Phase

/-- The caller has the lock. -/
def isInside : Phase → Bool
  | .locked | .admitted | .running .. | .appending _ | .releasing _ | .closed => true
  | _ => false

/-- The caller is a shutdown, and has closed the queue. -/
def isClosing : Phase → Bool
  | .closed | .asking | .awaiting | .reported _ | .gone true => true
  | _ => false

/-- The caller has, or had, the right to the report of the writer. -/
def hasReport : Phase → Bool
  | .awaiting | .reported (.ok (some _)) | .reported (.error _) | .gone true => true
  | _ => false

theorem isClosing_of_hasReport {phase : Phase} (h : phase.hasReport = true) :
    phase.isClosing = true := by
  unfold hasReport at h
  split at h
  · rfl
  · rfl
  · rfl
  · rfl
  · cases h

end Phase

/-- A caller: what it asks for, and how far it is. -/
structure Caller where
  request : Request
  phase : Phase

/-- What the lock guards, and what the queue has taken. -/
@[ext] structure Snapshot where
  ledger : Ledger
  taken : List Record
  isOpen : Bool

/-- A stay under the lock that is over. -/
structure Visit where
  caller : ℕ
  request : Request
  result : Except Failure Unit
  before : Snapshot
  after : Snapshot

/-- A ledger with its log, the files and all callers. -/
structure Concurrent where
  store : Persistent
  files : Files
  lock : Option ℕ
  callers : ℕ → Option Caller
  /-- The records that the queue has taken since the opening, in order. -/
  taken : List Record
  /-- The records that were applied but not taken by the queue. -/
  discarded : List Record
  /-- What the lock guarded when it was taken last. -/
  entered : Snapshot
  /-- The visits under the lock that are over, in order. -/
  visits : List Visit

namespace Concurrent

/-- A ledger that was just opened, before any caller came. -/
def opened (p : Persistent) (files : Files) : Concurrent where
  store := p
  files
  lock := none
  callers _ := none
  taken := []
  discarded := []
  entered := ⟨p.ledger, [], p.log.isOpen⟩
  visits := []

/-- What the lock guards now. -/
def snapshot (s : Concurrent) : Snapshot := ⟨s.store.ledger, s.taken, s.store.log.isOpen⟩

/-- The state with a caller in a phase. -/
def put (s : Concurrent) (i : ℕ) (request : Request) (phase : Phase) : Concurrent :=
  { s with callers := Function.update s.callers i (some ⟨request, phase⟩) }

/-- The state with another ledger. -/
def withLedger (s : Concurrent) (ledger : Ledger) : Concurrent :=
  { s with store := { s.store with ledger } }

/-! ## Steps -/

/-- A caller takes the lock. -/
def enter (s : Concurrent) (i : ℕ) (request : Request) : Concurrent :=
  { s.put i request .locked with lock := some i, entered := s.snapshot }

/-- A caller lets go of the lock, and its visit is written down. -/
def release (s : Concurrent) (i : ℕ) (request : Request) (result : Except Failure Unit)
    (phase : Phase) : Concurrent :=
  { s.put i request phase with
    lock := none
    visits := s.visits ++ [⟨i, request, result, s.entered, s.snapshot⟩] }

/-- A record is handed to the queue. -/
def append (s : Concurrent) (r : Record) : Concurrent :=
  let (isTaken, log) := s.store.log.publish r
  { s with
    store := { s.store with log }
    taken := if isTaken then s.taken ++ [r] else s.taken
    discarded := if isTaken then s.discarded else s.discarded ++ [r] }

/-- A batch on its way does the next part of its operations. -/
def runOp (s : Concurrent) (i : ℕ) (request : Request) (b : Batch) : Op → List Op → Concurrent
  | .done (.ok _), [] => s.put i request (.appending b.records)
  | .done (.ok _), op :: rest => s.put i request (.running b.journal b.applied op rest)
  | .done (.error f), _ =>
      (s.withLedger b.rollback).put i request (.releasing (.error f.aborted))
  | .suspend op, rest => s.put i request (.running b.journal b.applied op rest)
  | .write r next, rest =>
      let (result, b) := b.write r
      (s.withLedger b.ledger).put i request (.running b.journal b.applied (next result) rest)

/-- A call that was admitted takes its first step. -/
def beginCall (s : Concurrent) (i : ℕ) : Call → Concurrent
  | .write r =>
      match s.store.ledger.apply r with
      | .ok l => (s.withLedger l).put i (.call (.write r)) (.appending [r])
      | .error f => s.put i (.call (.write r)) (.releasing (.error f))
  | .batch ops => s.put i (.call (.batch ops)) (.running [] [] (.done (.ok ())) ops)

/-- A caller that has the lock begins with what it asked for. -/
def begin (s : Concurrent) (i : ℕ) : Request → Concurrent
  | .shutdown => { s.put i .shutdown .closed with store := s.store.closeQueue }
  | .call c =>
      match s.store.admission with
      | .ok _ => s.put i (.call c) .admitted
      | .error f => s.put i (.call c) (.releasing (.error f))

/-- A shutdown asks for the report of the writer; without the right to it, it is over. -/
def ask (s : Concurrent) (i : ℕ) (request : Request) : Concurrent :=
  let (asked, store) := s.store.takeReport
  { s with store }.put i request (if asked then .awaiting else .reported (.ok none))

/-- A caller goes one step further, if it can. -/
def advance (s : Concurrent) (i : ℕ) : Concurrent :=
  match s.callers i with
  | none => s
  | some ⟨request, phase⟩ =>
      match phase, request with
      | .waiting, _ => if s.lock.isNone then s.enter i request else s
      | .locked, _ => s.begin i request
      | .admitted, .call c => s.beginCall i c
      | .running journal applied op rest, _ =>
          s.runOp i request ⟨s.store.ledger, journal, applied⟩ op rest
      | .appending [], _ => s.put i request (.releasing (.ok ()))
      | .appending (r :: records), _ => (s.append r).put i request (.appending records)
      | .releasing result, _ => s.release i request result (.answered result)
      | .closed, _ => s.release i request (.ok ()) .asking
      | .asking, _ => s.ask i request
      | .awaiting, _ =>
          match s.store.log.outcome with
          | some result => s.put i request (.reported (some <$> result))
          | none => s
      | _, _ => s

/-- A caller that waits outside the lock goes away. -/
def leave (s : Concurrent) (i : ℕ) : Concurrent :=
  match s.callers i with
  | some ⟨request, .waiting⟩ => s.put i request (.gone false)
  | some ⟨request, .asking⟩ => s.put i request (.gone false)
  | some ⟨request, .awaiting⟩ => s.put i request (.gone true)
  | _ => s

/-- The caller of a batch goes away while an operation of it waits; the lock becomes free. -/
def tear (s : Concurrent) (i : ℕ) : Concurrent :=
  match s.callers i with
  | some ⟨request, .running _ _ (.suspend _) _⟩ =>
      { s.put i request (.gone false) with lock := none }
  | _ => s

/-- The writer of the log takes a step. -/
def work (s : Concurrent) (step : Pipeline.Work) : Concurrent :=
  let (log, files) := s.store.log.work s.files step
  { s with store := { s.store with log }, files }

/-- A step of a schedule. -/
inductive Step where
  /-- A caller comes, if there is none of its number yet. -/
  | come (i : ℕ) (request : Request)
  | advance (i : ℕ)
  | leave (i : ℕ)
  | tear (i : ℕ)
  | work (step : Pipeline.Work)

/-- The state after a step. -/
def step (s : Concurrent) : Step → Concurrent
  | .come i request => if (s.callers i).isNone then s.put i request .waiting else s
  | .advance i => s.advance i
  | .leave i => s.leave i
  | .tear i => s.tear i
  | .work w => s.work w

/-- The state after a schedule. -/
def run (s : Concurrent) (steps : List Step) : Concurrent := steps.foldl step s

/-- No batch is given up in the middle. -/
def TearsNothing (steps : List Step) : Prop := ∀ i, Step.tear i ∉ steps

/-! ## Laws -/

/-- What every step of a schedule keeps, the schedule keeps. -/
theorem run_of_step {P : Concurrent → Prop} {steps : List Step}
    (hstep : ∀ s, ∀ t ∈ steps, P s → P (s.step t)) {s : Concurrent} (h : P s) :
    P (s.run steps) := by
  induction steps generalizing s with
  | nil => exact h
  | cons t steps ih =>
      exact ih (fun u v hv => hstep u v (List.mem_cons_of_mem t hv))
        (hstep s t List.mem_cons_self h)

theorem put_callers (s : Concurrent) (i j : ℕ) (request : Request) (phase : Phase) :
    (s.put i request phase).callers j =
      if j = i then some ⟨request, phase⟩ else s.callers j := by
  simp only [put, Function.update_apply]

/-- After a caller is put into a phase, it is in that phase and the others are where they were. -/
theorem put_callers_eq_some {s : Concurrent} {i j : ℕ} {request q : Request} {phase ph : Phase}
    (h : (s.put i request phase).callers j = some ⟨q, ph⟩) :
    (j = i ∧ q = request ∧ ph = phase) ∨ (j ≠ i ∧ s.callers j = some ⟨q, ph⟩) := by
  rw [put_callers] at h
  split_ifs at h with hji
  · obtain ⟨hq, hph⟩ : request = q ∧ phase = ph := by simpa using h
    exact .inl ⟨hji, hq.symm, hph.symm⟩
  · exact .inr ⟨hji, h⟩

theorem put_callers_self_ne_none {s : Concurrent} {i : ℕ} {request : Request} {phase : Phase} :
    (s.put i request phase).callers i ≠ none := by
  rw [put_callers, if_pos rfl]
  exact Option.some_ne_none _

theorem put_callers_ne_none {s : Concurrent} {i j : ℕ} {request : Request} {phase : Phase}
    (h : s.callers j ≠ none) : (s.put i request phase).callers j ≠ none := by
  rw [put_callers]
  split_ifs
  · simp
  · exact h

/-! ## What a step changes -/

/-- An operation of a batch changes the ledger, and the caller stays a call. -/
theorem runOp_eq_put (s : Concurrent) (i : ℕ) (request : Request) (b : Batch) (op : Op)
    (rest : List Op) :
    ∃ ledger phase, s.runOp i request b op rest = (s.withLedger ledger).put i request phase ∧
      phase.isClosing = false := by
  cases op with
  | done result =>
      cases result with
      | ok u =>
          cases rest with
          | nil => exact ⟨s.store.ledger, _, rfl, rfl⟩
          | cons op rest => exact ⟨s.store.ledger, _, rfl, rfl⟩
      | error f => exact ⟨b.rollback, _, rfl, rfl⟩
  | suspend op => exact ⟨s.store.ledger, _, rfl, rfl⟩
  | write r next => exact ⟨_, _, rfl, rfl⟩

theorem beginCall_eq_put (s : Concurrent) (i : ℕ) (c : Call) :
    ∃ ledger phase, s.beginCall i c = (s.withLedger ledger).put i (.call c) phase ∧
      phase.isClosing = false := by
  cases c with
  | write r =>
      unfold beginCall
      simp only
      split
      next l _ => exact ⟨l, _, rfl, rfl⟩
      next => exact ⟨s.store.ledger, _, rfl, rfl⟩
  | batch ops => exact ⟨s.store.ledger, _, rfl, rfl⟩

/-- The callers, the report, the log and the files are the same. -/
structure SameLog (s t : Concurrent) : Prop where
  callers : t.callers = s.callers
  hasReport : t.store.hasReport = s.store.hasReport
  log : t.store.log = s.store.log
  files : t.files = s.files
  taken : t.taken = s.taken

theorem sameLog_withLedger (s : Concurrent) (ledger : Ledger) : SameLog s (s.withLedger ledger) :=
  ⟨rfl, rfl, rfl, rfl, rfl⟩

/-- All that a caller that goes on can do to the callers and to the log. -/
theorem advance_cases (s : Concurrent) (i : ℕ) :
    s.advance i = s ∨ ∃ request old, s.callers i = some ⟨request, old⟩ ∧
      ((∃ t phase, SameLog s t ∧ s.advance i = t.put i request phase ∧ old.isClosing = false ∧
          phase.isClosing = false) ∨
        (∃ r records, old = .appending (r :: records) ∧
          s.advance i = (s.append r).put i request (.appending records)) ∨
        (request = .shutdown ∧ old = .locked ∧
          s.advance i = { s with store := s.store.closeQueue }.put i request .closed) ∨
        (∃ t, SameLog s t ∧ old = .closed ∧ s.advance i = t.put i request .asking) ∨
        (old = .asking ∧ s.advance i = s.ask i request) ∨
        (∃ result, old = .awaiting ∧ s.store.log.outcome = some result ∧
          s.advance i = s.put i request (.reported (some <$> result)))) := by
  unfold advance
  split
  next => exact .inl rfl
  next request phase hcaller =>
    split
    next =>
      split_ifs
      · exact .inr ⟨_, _, hcaller, .inl ⟨{ s with lock := some i, entered := s.snapshot }, _,
          ⟨rfl, rfl, rfl, rfl, rfl⟩, rfl, rfl, rfl⟩⟩
      · exact .inl rfl
    next =>
      refine .inr ⟨_, _, hcaller, ?_⟩
      cases request with
      | shutdown => exact .inr (.inr (.inl ⟨rfl, rfl, rfl⟩))
      | call c =>
          unfold begin
          simp only
          split
          · exact .inl ⟨s, .admitted, ⟨rfl, rfl, rfl, rfl, rfl⟩, rfl, rfl, rfl⟩
          · exact .inl ⟨s, .releasing _, ⟨rfl, rfl, rfl, rfl, rfl⟩, rfl, rfl, rfl⟩
    next c =>
      obtain ⟨ledger, phase, hput, hphase⟩ := s.beginCall_eq_put i c
      exact .inr ⟨_, _, hcaller, .inl ⟨_, _, s.sameLog_withLedger ledger, hput, rfl, hphase⟩⟩
    next journal applied op rest =>
      obtain ⟨ledger, phase, hput, hphase⟩ :=
        s.runOp_eq_put i request ⟨s.store.ledger, journal, applied⟩ op rest
      exact .inr ⟨_, _, hcaller, .inl ⟨_, _, s.sameLog_withLedger ledger, hput, rfl, hphase⟩⟩
    next => exact .inr ⟨_, _, hcaller, .inl ⟨s, _, ⟨rfl, rfl, rfl, rfl, rfl⟩, rfl, rfl, rfl⟩⟩
    next r records => exact .inr ⟨_, _, hcaller, .inr (.inl ⟨r, records, rfl, rfl⟩)⟩
    next result =>
      exact .inr ⟨_, _, hcaller, .inl ⟨{ s with
        lock := none
        visits := s.visits ++ [⟨i, request, result, s.entered, s.snapshot⟩] }, _,
        ⟨rfl, rfl, rfl, rfl, rfl⟩, rfl, rfl, rfl⟩⟩
    next =>
      exact .inr ⟨_, _, hcaller, .inr (.inr (.inr (.inl ⟨{ s with
        lock := none
        visits := s.visits ++ [⟨i, request, .ok (), s.entered, s.snapshot⟩] },
        ⟨rfl, rfl, rfl, rfl, rfl⟩, rfl, rfl⟩)))⟩
    next => exact .inr ⟨_, _, hcaller, .inr (.inr (.inr (.inr (.inl ⟨rfl, rfl⟩))))⟩
    next =>
      split
      next result houtcome =>
        exact .inr ⟨_, _, hcaller, .inr (.inr (.inr (.inr (.inr ⟨result, rfl, houtcome, rfl⟩))))⟩
      next => exact .inl rfl
    next => exact .inl rfl

end Concurrent

end MetricLedger
