import Mathlib.Tactic
import MetricLedger.Ledger

/-!
# Replaying what was written

What a replay leads to, told by the records alone, and what becomes of it when the records without a
line are left out. Main statement: `replay_encodable`.
-/

namespace MetricLedger

/-- The records that have a line. -/
def encodable (records : List Record) : List Record := records.filter Record.isEncodable

@[simp] theorem encodable_nil : encodable [] = [] := rfl

theorem encodable_append (first second : List Record) :
    encodable (first ++ second) = encodable first ++ encodable second := List.filter_append ..

/-- The number that a record writes to a gauge. -/
def gaugeWrite? (name : String) : Record → Option Binary64
  | .gauge n value => if n = name then some value else none
  | .counter .. => none

/-- The numbers written to a gauge, in order. -/
def gaugeWrites (name : String) (records : List Record) : List Binary64 :=
  records.filterMap (gaugeWrite? name)

/-- The last finite number written to a gauge. -/
def lastFinite (name : String) (records : List Record) : Option Binary64 :=
  ((gaugeWrites name records).filter Binary64.isFinite).getLast?

@[simp] theorem gaugeWrites_nil (name : String) : gaugeWrites name [] = [] := rfl

theorem gaugeWrites_cons (name : String) (r : Record) (records : List Record) :
    gaugeWrites name (r :: records) =
      (gaugeWrite? name r).toList ++ gaugeWrites name records := by
  rw [gaugeWrites, List.filterMap_cons]
  cases gaugeWrite? name r <;> rfl

/-- Without the records that have no line, a gauge loses the numbers that are not finite. -/
theorem gaugeWrites_encodable (name : String) (records : List Record) :
    gaugeWrites name (encodable records) = (gaugeWrites name records).filter Binary64.isFinite := by
  induction records with
  | nil => rfl
  | cons r records ih =>
      rw [gaugeWrites_cons, List.filter_append, ← ih]
      cases r with
      | counter n delta => rfl
      | gauge n value =>
          by_cases hv : value.isFinite = true <;> by_cases hn : n = name <;>
            simp [encodable, gaugeWrites, gaugeWrite?, Record.isEncodable, hv, hn]

namespace Ledger

/-! ## One write -/

/-- A write of a gauge sets it and changes nothing else. -/
theorem gauges_get?_apply {l m : Ledger} {r : Record} (h : l.apply r = .ok m) (name : String) :
    m.gauges.get? name = (gaugeWrite? name r).or (l.gauges.get? name) := by
  cases r with
  | counter n delta =>
      simp only [apply] at h
      split at h
      next sum _ =>
        obtain rfl := Except.ok.inj h
        rfl
      next => cases h
  | gauge n value =>
      obtain rfl := Except.ok.inj h
      simp only [gaugeWrite?, Table.get?_insert]
      by_cases hn : n = name
      · simp [hn]
      · simp [hn, Ne.symm hn]

/-- Whether a write is taken, and what it makes of the counters, depends on the counters only. -/
theorem apply_of_counters_eq {l l' m : Ledger} {r : Record} (hc : l'.counters = l.counters)
    (h : l.apply r = .ok m) : ∃ m', l'.apply r = .ok m' ∧ m'.counters = m.counters := by
  cases r with
  | counter n delta =>
      simp only [apply, counterOrZero, hc] at h ⊢
      split at h
      next sum hs =>
        obtain rfl := Except.ok.inj h
        exact ⟨_, rfl, rfl⟩
      next => cases h
  | gauge n value =>
      obtain rfl := Except.ok.inj h
      exact ⟨_, rfl, hc⟩

/-- A write without a line leaves the counters as they are. -/
theorem counters_of_not_isEncodable {l m : Ledger} {r : Record} (hr : r.isEncodable = false)
    (h : l.apply r = .ok m) : m.counters = l.counters := by
  cases r with
  | counter n delta => simp [Record.isEncodable] at hr
  | gauge n value =>
      obtain rfl := Except.ok.inj h
      rfl

/-! ## Many writes -/

theorem replay_cons_ok {l m : Ledger} {r : Record} {records : List Record}
    (h : l.replay (r :: records) = .ok m) :
    ∃ k, l.apply r = .ok k ∧ k.replay records = .ok m := by
  rw [replay_cons] at h
  cases hr : l.apply r with
  | error f =>
      rw [hr] at h
      cases h
  | ok k =>
      rw [hr] at h
      exact ⟨k, rfl, h⟩

theorem replay_cons_of {l k : Ledger} {r : Record} (h : l.apply r = .ok k)
    (records : List Record) : l.replay (r :: records) = k.replay records := by
  rw [replay_cons, h]
  rfl

theorem replay_append_of {l k : Ledger} {first : List Record} (h : l.replay first = .ok k)
    (second : List Record) : l.replay (first ++ second) = k.replay second := by
  rw [replay_append, h]
  rfl

/-- What can be replayed can be replayed in part. -/
theorem replay_of_append {l m : Ledger} {first second : List Record}
    (h : l.replay (first ++ second) = .ok m) :
    ∃ k, l.replay first = .ok k ∧ k.replay second = .ok m := by
  rw [replay_append] at h
  cases hfirst : l.replay first with
  | error f =>
      rw [hfirst] at h
      cases h
  | ok k =>
      rw [hfirst] at h
      exact ⟨k, rfl, h⟩

/-- A gauge holds the number written to it last. -/
theorem gauges_get?_replay {l m : Ledger} {records : List Record}
    (h : l.replay records = .ok m) (name : String) :
    m.gauges.get? name = (gaugeWrites name records).getLast?.or (l.gauges.get? name) := by
  induction records generalizing l with
  | nil =>
      obtain rfl := Except.ok.inj h
      rfl
  | cons r records ih =>
      obtain ⟨k, hr, hk⟩ := replay_cons_ok h
      have hlast : (gaugeWrite? name r).toList.getLast? = gaugeWrite? name r := by
        cases gaugeWrite? name r <;> rfl
      rw [ih hk, gauges_get?_apply hr, gaugeWrites_cons, List.getLast?_append, hlast,
        Option.or_assoc]

/-- The records that have a line lead to the same counters as all of them. -/
theorem replay_encodable {l l' m : Ledger} {records : List Record}
    (hc : l'.counters = l.counters) (h : l.replay records = .ok m) :
    ∃ m', l'.replay (encodable records) = .ok m' ∧ m'.counters = m.counters := by
  induction records generalizing l l' with
  | nil =>
      obtain rfl := Except.ok.inj h
      exact ⟨l', rfl, hc⟩
  | cons r records ih =>
      obtain ⟨k, hr, hk⟩ := replay_cons_ok h
      cases hencodable : r.isEncodable with
      | true =>
          obtain ⟨k', hr', hc'⟩ := apply_of_counters_eq hc hr
          obtain ⟨m', hm', hcm⟩ := ih hc' hk
          refine ⟨m', ?_, hcm⟩
          rw [encodable, List.filter_cons_of_pos hencodable, replay_cons_of hr']
          exact hm'
      | false =>
          have hc' : l'.counters = k.counters := by
            rw [hc, counters_of_not_isEncodable hencodable hr]
          obtain ⟨m', hm', hcm⟩ := ih hc' hk
          refine ⟨m', ?_, hcm⟩
          rw [encodable, List.filter_cons_of_neg (by simp [hencodable])]
          exact hm'

/-- The records that have a line lead, from nothing, to the last finite number of every gauge. -/
theorem gauges_get?_replay_encodable {m : Ledger} {records : List Record}
    (h : empty.replay (encodable records) = .ok m) (name : String) :
    m.gauges.get? name = lastFinite name records := by
  rw [gauges_get?_replay h, gaugeWrites_encodable, lastFinite]
  exact Option.or_none

end Ledger

end MetricLedger
