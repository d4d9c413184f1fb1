import Mathlib.Tactic
import MetricLedger.Proofs.Ledger.Sums
import MetricLedger.Proofs.Persistent.Calls
import MetricLedger.Storage

/-!
# The account of a ledger in memory

An account is the list of the writes that were applied, and nothing else: a delta is taken exactly if
the sum of all deltas of its counter stays within 64 bits, a number of a gauge always, and a batch that
fails leaves the account as it was. Main statement: `memory_keepsAccount`, a storage in memory answers
every call as the account has it, and what is read from it are the sums and the last numbers of the
account.
-/

namespace MetricLedger

/-! ## Accounts -/

/-- What becomes of a write after those of an account. -/
def judge (account : List Record) : Record → Except Failure Unit
  | .counter name delta =>
      if IsCounterValue (total name account + delta.toInt) then .ok ()
      else .error (Ledger.overflow name delta)
  | .gauge .. => .ok ()

/-- An operation of a batch on an account: its result, and the account after it. -/
def Op.account : Op → List Record → Except Failure Unit × List Record
  | .done result, account => (result, account)
  | .suspend op, account => op.account account
  | .write r next, account =>
      match judge account r with
      | .ok _ => (next (.ok ())).account (account ++ [r])
      | .error f => (next (.error f)).account account

/-- Operations one after the other on an account, up to the first one that fails. -/
def Batch.accountAll : List Op → List Record → Except Failure Unit × List Record
  | [], account => (.ok (), account)
  | op :: ops, account =>
      match op.account account with
      | (.ok _, account) => accountAll ops account
      | (.error f, account) => (.error f, account)

namespace Call

/-- A call on an account: its answer, and the account after it. A call that fails enters nothing. -/
def account : Call → List Record → Except Failure Unit × List Record
  | .write r, account =>
      match judge account r with
      | .ok _ => (.ok (), account ++ [r])
      | .error f => (.error f, account)
  | .batch ops, account =>
      match Batch.accountAll ops account with
      | (.ok _, after) => (.ok (), after)
      | (.error f, _) => (.error f.aborted, account)

/-- Calls one after the other on an account: their answers, and the account after them. -/
def accounts : List Call → List Record → List (Except Failure Unit) × List Record
  | [], account => ([], account)
  | c :: calls, account =>
      let (answer, account) := c.account account
      let (answers, account) := accounts calls account
      (answer :: answers, account)

end Call

namespace Ledger

variable {l m : Ledger} {account records : List Record}

/-! ## What an account tells of the ledger -/

theorem counterOrZero_replay (h : l.replay records = .ok m) (name : String) :
    (m.counterOrZero name).toInt = (l.counterOrZero name).toInt + total name records := by
  induction records generalizing l with
  | nil =>
      obtain rfl := Except.ok.inj h
      rw [total_nil, add_zero]
  | cons r records ih =>
      obtain ⟨k, hr, hk⟩ := replay_cons_ok h
      rw [ih hk, counterOrZero_apply hr, total_cons, add_assoc]

/-- The record adds to the counter. -/
def Increments (name : String) (r : Record) : Prop := ∃ delta, r = .counter name delta

theorem isSome_counters_apply {r : Record} (h : l.apply r = .ok m) (name : String) :
    (m.counters.get? name).isSome ↔ (l.counters.get? name).isSome ∨ Increments name r := by
  cases r with
  | gauge n value =>
      obtain rfl := Except.ok.inj h
      simp [Increments]
  | counter n delta =>
      simp only [apply] at h
      split at h
      next sum _ =>
        obtain rfl := Except.ok.inj h
        rw [Table.get?_insert]
        by_cases hn : name = n
        · simp [hn, Increments]
        · simp [hn, Increments, Ne.symm hn]
      next => cases h

theorem isSome_counters_replay (h : l.replay records = .ok m) (name : String) :
    (m.counters.get? name).isSome ↔
      (l.counters.get? name).isSome ∨ ∃ r ∈ records, Increments name r := by
  induction records generalizing l with
  | nil =>
      obtain rfl := Except.ok.inj h
      simp
  | cons r records ih =>
      obtain ⟨k, hr, hk⟩ := replay_cons_ok h
      rw [ih hk, isSome_counters_apply hr, or_assoc, List.exists_mem_cons_iff]

/-- The ledger is the one that an account leads to. -/
def Carries (l : Ledger) (account : List Record) : Prop := empty.replay account = .ok l

theorem carries_empty : empty.Carries [] := rfl

theorem Carries.toInt_counterOrZero (h : l.Carries account) (name : String) :
    (l.counterOrZero name).toInt = total name account := by
  rw [counterOrZero_replay h]
  exact zero_add _

/-- The sum of the deltas of a counter is the value of a counter. -/
theorem Carries.isCounterValue (h : l.Carries account) (name : String) :
    IsCounterValue (total name account) := by
  rw [← h.toInt_counterOrZero name]
  exact isCounterValue_toInt _

theorem Carries.getCounter_eq_notFound_iff (h : l.Carries account) (name : String) :
    l.getCounter name = .error (.notFound .counter name) ↔ ¬∃ r ∈ account, Increments name r := by
  have hsome := isSome_counters_replay h name
  have hnone : (empty.counters.get? name).isSome = false := rfl
  rw [hnone] at hsome
  unfold getCounter
  cases hget : l.counters.get? name with
  | none => simpa [hget] using hsome
  | some value => simpa [hget] using hsome

/-- A counter that was incremented reads as the sum of its deltas. -/
theorem Carries.getCounter_of_increments (h : l.Carries account) {name : String}
    (hmem : ∃ r ∈ account, Increments name r) :
    ∃ value, l.getCounter name = .ok ⟨name, value⟩ ∧ value.toInt = total name account := by
  have hsum := h.toInt_counterOrZero name
  have hsome := (isSome_counters_replay h name).2 (.inr hmem)
  obtain ⟨value, hget⟩ := Option.isSome_iff_exists.1 hsome
  refine ⟨value, by rw [getCounter, hget], ?_⟩
  rw [← hsum, counterOrZero, hget]
  rfl

/-- A gauge reads as the last number written to it. -/
theorem Carries.getGauge_eq (h : l.Carries account) (name : String) :
    l.getGauge name = ((gaugeWrites name account).getLast?).elim
      (.error (.notFound .gauge name)) fun value => .ok ⟨name, value⟩ := by
  have hget := gauges_get?_replay h name
  have hnone : empty.gauges.get? name = none := rfl
  rw [hnone, Option.or_none] at hget
  rw [getGauge, hget]
  cases (gaugeWrites name account).getLast? <;> rfl

/-! ## Lists of all metrics -/

theorem nodup_names_allCounters (l : Ledger) : (l.allCounters.map Counter.name).Nodup := by
  rw [allCounters, List.map_map]
  exact l.counters.nodup_names

theorem nodup_names_allGauges (l : Ledger) : (l.allGauges.map Gauge.name).Nodup := by
  rw [allGauges, List.map_map]
  exact l.gauges.nodup_names

theorem mem_allCounters_iff (l : Ledger) (c : Counter) :
    c ∈ l.allCounters ↔ l.getCounter c.name = .ok c := by
  have hmem : c ∈ l.allCounters ↔ (c.name, c.value) ∈ l.counters.entries := by
    simp only [allCounters, List.mem_map]
    exact ⟨fun ⟨e, he, hc⟩ => hc ▸ he, fun he => ⟨_, he, rfl⟩⟩
  rw [hmem, Table.mem_entries_iff, getCounter]
  obtain ⟨name, value⟩ := c
  cases l.counters.get? name <;> simp

theorem mem_allGauges_iff (l : Ledger) (g : Gauge) :
    g ∈ l.allGauges ↔ l.getGauge g.name = .ok g := by
  have hmem : g ∈ l.allGauges ↔ (g.name, g.value) ∈ l.gauges.entries := by
    simp only [allGauges, List.mem_map]
    exact ⟨fun ⟨e, he, hg⟩ => hg ▸ he, fun he => ⟨_, he, rfl⟩⟩
  rw [hmem, Table.mem_entries_iff, getGauge]
  obtain ⟨name, value⟩ := g
  cases l.gauges.get? name <;> simp

/-! ## The ledger keeps the account -/

/-- A write is taken or refused as the account has it. -/
theorem Carries.apply (h : l.Carries account) (r : Record) :
    (judge account r = .ok () ∧ ∃ m, l.apply r = .ok m ∧ m.Carries (account ++ [r])) ∨
      ∃ f, judge account r = .error f ∧ l.apply r = .error f := by
  cases happly : l.apply r with
  | ok m =>
      have hm : m.Carries (account ++ [r]) := by
        rw [Carries, replay_append_of h, replay_cons_of happly]
        rfl
      refine .inl ⟨?_, m, rfl, hm⟩
      cases r with
      | gauge n value => rfl
      | counter n delta =>
          have hsum := hm.isCounterValue n
          rw [total_append, total_cons, total_nil, addend, if_pos rfl, add_zero] at hsum
          exact if_pos hsum
  | error f =>
      obtain ⟨n, delta, rfl, rfl, hvalue⟩ := apply_error happly
      rw [h.toInt_counterOrZero n] at hvalue
      exact .inr ⟨_, if_neg hvalue, rfl⟩

theorem Carries.perform (h : l.Carries account) (op : Op) :
    op.account account = ((op.perform l).1, account ++ (op.perform l).2.1) ∧
      (op.perform l).2.2.Carries (account ++ (op.perform l).2.1) := by
  induction op generalizing l account with
  | done result =>
      simp only [Op.account, Op.perform, List.append_nil, true_and]
      exact h
  | suspend op ih => exact ih h
  | write r next ih =>
      obtain ⟨hjudge, m, happly, hm⟩ | ⟨f, hjudge, happly⟩ := h.apply r
      · obtain ⟨hresult, hcarries⟩ := ih (.ok ()) hm
        rw [List.append_assoc, List.singleton_append] at hresult hcarries
        simp only [Op.account, Op.perform, hjudge, happly]
        exact ⟨hresult, hcarries⟩
      · simp only [Op.account, Op.perform, hjudge, happly]
        exact ih (.error f) h

theorem Carries.performAll (h : l.Carries account) (ops : List Op) :
    Batch.accountAll ops account =
        ((Batch.performAll ops l).1, account ++ (Batch.performAll ops l).2.1) ∧
      (Batch.performAll ops l).2.2.Carries (account ++ (Batch.performAll ops l).2.1) := by
  induction ops generalizing l account with
  | nil =>
      simp only [Batch.accountAll, Batch.performAll, List.append_nil, true_and]
      exact h
  | cons op ops ih =>
      obtain ⟨hresult, hcarries⟩ := h.perform op
      unfold Batch.accountAll Batch.performAll
      rcases hperform : op.perform l with ⟨result, first, m⟩
      rw [hperform] at hresult hcarries
      rw [hresult]
      cases result with
      | error f => exact ⟨rfl, hcarries⟩
      | ok u =>
          obtain ⟨hrest, hm⟩ := ih hcarries
          rw [List.append_assoc] at hrest hm
          exact ⟨hrest, hm⟩

/-- A call is answered as the account has it, and leads to the ledger that the account leads to. -/
theorem Carries.call (h : l.Carries account) (c : Call) :
    (c.account account).1 = c.answer l ∧ (c.effect l).2.Carries (c.account account).2 := by
  cases c with
  | write r =>
      obtain ⟨hjudge, m, happly, hm⟩ | ⟨f, hjudge, happly⟩ := h.apply r
      · simp only [Call.account, Call.answer, Call.effect, hjudge, happly, true_and]
        exact hm
      · simp only [Call.account, Call.answer, Call.effect, hjudge, happly, true_and]
        exact h
  | batch ops =>
      obtain ⟨hresult, hcarries⟩ := h.performAll ops
      rcases hperform : Batch.performAll ops l with ⟨result, records, m⟩
      rw [hperform] at hresult hcarries
      cases result with
      | ok u =>
          simp only [Call.account, Call.answer, Call.effect, hresult, hperform, true_and]
          exact hcarries
      | error f =>
          simp only [Call.account, Call.answer, Call.effect, hresult, hperform, true_and]
          exact h

end Ledger

/-! ## Storages in memory -/

namespace Storage

variable {τ : Type} (server : Relational.Server τ)

/-- A call on a storage. -/
def perform (s : Storage) (t : τ) : Call → Except Failure Unit × Storage × τ
  | .write r => s.write server r t
  | .batch ops => s.runBatch server ops t

/-- Calls on a storage one after the other: their answers, and what they leave. -/
def performAll : List Call → Storage → τ → List (Except Failure Unit) × Storage × τ
  | [], s, t => ([], s, t)
  | c :: calls, s, t =>
      let (answer, s, t) := s.perform server t c
      let (answers, s, t) := performAll calls s t
      (answer :: answers, s, t)

theorem perform_memory (l : Ledger) (t : τ) (c : Call) :
    perform server (.memory l) t c = (c.answer l, .memory (c.effect l).2, t) := by
  cases c with
  | write r =>
      cases happly : l.apply r <;>
        simp only [perform, write, Call.answer, Call.effect, happly]
  | batch ops =>
      have hrun := Batch.run_eq_performAll ops l
      rcases hperform : Batch.performAll ops l with ⟨result, records, m⟩
      rw [hperform] at hrun
      cases result with
      | ok u =>
          simp only [perform, runBatch, hrun, Call.answer, Call.effect, hperform]
          rfl
      | error f =>
          simp only [perform, runBatch, hrun, Call.answer, Call.effect, hperform]
          rfl

theorem performAll_memory {l : Ledger} {account : List Record} (h : l.Carries account) (t : τ)
    (calls : List Call) :
    ∃ m, performAll server calls (.memory l) t =
        ((Call.accounts calls account).1, .memory m, t) ∧
      m.Carries (Call.accounts calls account).2 := by
  induction calls generalizing l account with
  | nil => exact ⟨l, rfl, h⟩
  | cons c calls ih =>
      obtain ⟨hanswer, hcarries⟩ := h.call c
      obtain ⟨m, hrest, hm⟩ := ih hcarries
      refine ⟨m, ?_, hm⟩
      simp only [performAll, perform_memory, hrest, Call.accounts, hanswer]

/-- Whatever calls were made on a new storage in memory, each was answered as the account has it. A
counter is not found exactly if the account has no delta of it, and otherwise reads as the sum of its
deltas, which is within 64 bits; a gauge reads as the last number that the account has of it. All
counters and all gauges are those that can be read, each once. A further increment fails exactly if
it would lead the sum out of 64 bits, and then changes nothing. -/
theorem memory_keepsAccount (t : τ) (calls : List Call) :
    ∃ answers account s, Call.accounts calls [] = (answers, account) ∧
      performAll server calls (.memory .empty) t = (answers, s, t) ∧
      (∀ name,
        (s.getCounter server name t = (.error (.notFound .counter name), s, t) ↔
          ¬∃ r ∈ account, Ledger.Increments name r) ∧
        IsCounterValue (total name account) ∧
        ((∃ r ∈ account, Ledger.Increments name r) → ∃ value,
          s.getCounter server name t = (.ok ⟨name, value⟩, s, t) ∧
            value.toInt = total name account)) ∧
      (∀ name, s.getGauge server name t =
        (((gaugeWrites name account).getLast?).elim (.error (.notFound .gauge name))
          fun value => .ok ⟨name, value⟩, s, t)) ∧
      (∃ counters, s.allCounters server t = (.ok counters, s, t) ∧
        (counters.map Counter.name).Nodup ∧
        ∀ c, c ∈ counters ↔ s.getCounter server c.name t = (.ok c, s, t)) ∧
      (∃ gauges, s.allGauges server t = (.ok gauges, s, t) ∧
        (gauges.map Gauge.name).Nodup ∧
        ∀ g, g ∈ gauges ↔ s.getGauge server g.name t = (.ok g, s, t)) ∧
      ∀ name delta,
        ((∃ f, (s.write server (.counter name delta) t).1 = .error f) ↔
          ¬IsCounterValue (total name account + delta.toInt)) ∧
        ∀ f, (s.write server (.counter name delta) t).1 = .error f →
          s.write server (.counter name delta) t = (.error (Ledger.overflow name delta), s, t) := by
  obtain ⟨l, hperform, hl⟩ := performAll_memory server Ledger.carries_empty t calls
  refine ⟨_, _, .memory l, rfl, hperform, fun name => ⟨?_, hl.isCounterValue name, fun hmem => ?_⟩,
    fun name => ?_, ?_, ?_, fun name delta => ?_⟩
  · rw [← hl.getCounter_eq_notFound_iff name]
    simp [getCounter, read]
  · obtain ⟨value, hget, hvalue⟩ := hl.getCounter_of_increments hmem
    exact ⟨value, by simp [getCounter, read, hget], hvalue⟩
  · simp [getGauge, read, hl.getGauge_eq name]
  · refine ⟨l.allCounters, rfl, l.nodup_names_allCounters, fun c => ?_⟩
    rw [l.mem_allCounters_iff]
    simp [getCounter, read]
  · refine ⟨l.allGauges, rfl, l.nodup_names_allGauges, fun g => ?_⟩
    rw [l.mem_allGauges_iff]
    simp [getGauge, read]
  · have hsum : judge (Call.accounts calls []).2 (.counter name delta) = .ok () ↔
        IsCounterValue (total name (Call.accounts calls []).2 + delta.toInt) := by
      rw [judge]
      split_ifs with hvalue <;> simp [hvalue]
    obtain ⟨hjudge, m, happly, -⟩ | ⟨f, hjudge, happly⟩ := hl.apply (.counter name delta)
    · simp only [write, happly]
      exact ⟨by simpa using hsum.1 hjudge, by simp⟩
    · have hf : f = Ledger.overflow name delta := by
        obtain ⟨n, d, hr, rfl, -⟩ := Ledger.apply_error happly
        cases hr
        rfl
      simp only [write, happly, ← hsum, hjudge, hf]
      simp

end Storage

end MetricLedger
