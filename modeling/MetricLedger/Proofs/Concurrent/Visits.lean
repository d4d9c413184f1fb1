import Mathlib.Tactic
import MetricLedger.Proofs.Concurrent.Machine

/-!
# Visits under the lock

A visit that does what its caller asked for hands over its records in one piece. Main statement:
`Chain.replay`, visits that follow each other hand over their records in order, and these lead from
the ledger before the first visit to the ledger after the last one.
-/

namespace MetricLedger

/-- What a caller may have done between taking the lock and letting go of it: a call has applied all
its writes and handed over all its records, or has changed nothing; a shutdown has closed the queue. -/
def IsLawful (request : Request) (result : Except Failure Unit) (before after : Snapshot) : Prop :=
  match request with
  | .shutdown => after = { before with isOpen := false }
  | .call c =>
      if before.isOpen then
        result = c.answer before.ledger ∧
          after = ⟨(c.effect before.ledger).2, before.taken ++ (c.effect before.ledger).1, true⟩
      else result = .error Persistent.closedFailure ∧ after = before

namespace Visit

/-- The visit did what was asked for. -/
def IsLawful (v : Visit) : Prop := MetricLedger.IsLawful v.request v.result v.before v.after

/-- The records that the visit handed to the queue. -/
def records (v : Visit) : List Record :=
  match v.request with
  | .shutdown => []
  | .call c => if v.before.isOpen then (c.effect v.before.ledger).1 else []

/-- The records of a visit are put behind those taken before, and lead to the ledger after it. -/
theorem IsLawful.replay {v : Visit} (h : v.IsLawful) :
    v.after.taken = v.before.taken ++ v.records ∧
      v.before.ledger.replay v.records = .ok v.after.ledger := by
  unfold IsLawful MetricLedger.IsLawful at h
  unfold records
  cases hrequest : v.request with
  | shutdown =>
      rw [hrequest] at h
      simp only at h
      rw [h]
      exact ⟨(List.append_nil _).symm, rfl⟩
  | call c =>
      rw [hrequest] at h
      simp only at h ⊢
      split_ifs at h ⊢ with hopen
      · rw [h.2]
        exact ⟨rfl, Call.replay_effect c _⟩
      · rw [h.2]
        exact ⟨(List.append_nil _).symm, rfl⟩

/-- A call that answered well handed over all its records. -/
theorem IsLawful.of_ok {v : Visit} (h : v.IsLawful) {c : Call} (hrequest : v.request = .call c)
    (hresult : v.result = .ok ()) :
    v.records = (c.effect v.before.ledger).1 ∧ v.after.ledger = (c.effect v.before.ledger).2 := by
  unfold IsLawful MetricLedger.IsLawful at h
  rw [hrequest, hresult] at h
  simp only at h
  split_ifs at h with hopen
  · rw [records, hrequest]
    simp only [hopen, if_true, h.2, and_self]
  · cases h.1

/-- A call that failed or was refused changed nothing. -/
theorem IsLawful.of_error {v : Visit} (h : v.IsLawful) {c : Call} (hrequest : v.request = .call c)
    {f : Failure} (hresult : v.result = .error f) : v.after = v.before := by
  unfold IsLawful MetricLedger.IsLawful at h
  rw [hrequest, hresult] at h
  simp only at h
  split_ifs at h with hopen
  · rw [h.2, Call.effect_of_answer_error h.1.symm, List.append_nil, ← hopen]
  · exact h.2

end Visit

/-- The visits lead from one snapshot to another, each starting where the one before ended. -/
def Chain : Snapshot → List Visit → Snapshot → Prop
  | first, [], last => first = last
  | first, v :: visits, last => v.before = first ∧ Chain v.after visits last

theorem Chain.snoc {first mid : Snapshot} {visits : List Visit} (h : Chain first visits mid)
    {v : Visit} (hv : v.before = mid) : Chain first (visits ++ [v]) v.after := by
  induction visits generalizing first with
  | nil =>
      obtain rfl : first = mid := h
      exact ⟨hv, rfl⟩
  | cons w visits ih => exact ⟨h.1, ih h.2⟩

/-- The records of a chain of visits are taken in order, and lead from its first ledger to its last. -/
theorem Chain.replay {first last : Snapshot} {visits : List Visit} (h : Chain first visits last)
    (hlawful : ∀ v ∈ visits, v.IsLawful) :
    last.taken = first.taken ++ visits.flatMap Visit.records ∧
      first.ledger.replay (visits.flatMap Visit.records) = .ok last.ledger := by
  induction visits generalizing first with
  | nil =>
      obtain rfl : first = last := h
      exact ⟨(List.append_nil _).symm, rfl⟩
  | cons v visits ih =>
      obtain ⟨rfl, hrest⟩ := h
      obtain ⟨htaken, hledger⟩ := (hlawful v List.mem_cons_self).replay
      obtain ⟨htaken', hledger'⟩ := ih hrest fun w hw => hlawful w (List.mem_cons_of_mem v hw)
      rw [List.flatMap_cons]
      refine ⟨?_, ?_⟩
      · rw [htaken', htaken, List.append_assoc]
      · rw [Ledger.replay_append_of hledger]
        exact hledger'

/-- A visit of a chain stands where the records before it lead, and its records follow them. -/
theorem Chain.split {first last : Snapshot} {visits : List Visit} (h : Chain first visits last)
    (hlawful : ∀ v ∈ visits, v.IsLawful) {v : Visit} (hv : v ∈ visits) :
    (∃ earlier, v.before.taken = first.taken ++ earlier ∧
      first.ledger.replay earlier = .ok v.before.ledger) ∧
      ∃ later, last.taken = v.before.taken ++ v.records ++ later := by
  induction visits generalizing first with
  | nil => exact absurd hv List.not_mem_nil
  | cons w visits ih =>
      have hrest : ∀ u ∈ visits, u.IsLawful := fun u hu => hlawful u (List.mem_cons_of_mem w hu)
      obtain ⟨rfl, hchain⟩ := h
      obtain ⟨htaken, hledger⟩ := (hlawful w List.mem_cons_self).replay
      rcases List.mem_cons.1 hv with rfl | hv
      · refine ⟨⟨[], (List.append_nil _).symm, rfl⟩, ?_⟩
        exact ⟨_, (hchain.replay hrest).1.trans (by rw [htaken])⟩
      · obtain ⟨⟨earlier, hbefore, hreplay⟩, hlater⟩ := ih hchain hrest hv
        refine ⟨⟨w.records ++ earlier, ?_, ?_⟩, hlater⟩
        · rw [hbefore, htaken, List.append_assoc]
        · rw [Ledger.replay_append_of hledger]
          exact hreplay

end MetricLedger
