import MetricLedger.Proofs.Ledger.Replay

/-!
# Which logs can be replayed

A replay adds up the deltas of every counter, and is refused as soon as one of the sums leaves the 64
bits of a counter. Main statement: `exists_replay_iff`.
-/

namespace MetricLedger

/-- What a record adds to a counter. -/
def addend (name : String) : Record → ℤ
  | .counter n delta => if n = name then delta.toInt else 0
  | .gauge .. => 0

/-- What records add to a counter. -/
def total (name : String) (records : List Record) : ℤ := (records.map (addend name)).sum

@[simp] theorem total_nil (name : String) : total name [] = 0 := rfl

@[simp] theorem total_cons (name : String) (r : Record) (records : List Record) :
    total name (r :: records) = addend name r + total name records := List.sum_cons

theorem total_append (name : String) (first second : List Record) :
    total name (first ++ second) = total name first + total name second := by
  rw [total, List.map_append, List.sum_append]
  rfl

/-- The number is the value of a counter. -/
def IsCounterValue (n : ℤ) : Prop := Int64.minValue.toInt ≤ n ∧ n ≤ Int64.maxValue.toInt

instance (n : ℤ) : Decidable (IsCounterValue n) := inferInstanceAs (Decidable (_ ∧ _))

theorem isCounterValue_toInt (x : Int64) : IsCounterValue x.toInt := by
  refine ⟨Int64.minValue_le_toInt x, ?_⟩
  have hle := Int64.toInt_le x
  have hmax : Int64.maxValue.toInt = 9223372036854775807 := by decide
  omega

theorem exists_counterValue? {n : ℤ} (h : IsCounterValue n) :
    ∃ x, counterValue? n = some x := ⟨_, if_pos h⟩

/-- Added up in order, the deltas of the records keep every counter of the ledger within its bits. -/
def Ledger.Fits (l : Ledger) (records : List Record) : Prop :=
  ∀ name earlier, earlier <+: records →
    IsCounterValue ((l.counterOrZero name).toInt + total name earlier)

/-- The running sums of the deltas of every counter, from the first record on, are counter values. -/
def SumsFit (records : List Record) : Prop :=
  ∀ name earlier, earlier <+: records → IsCounterValue (total name earlier)

theorem sumsFit_iff {records : List Record} : SumsFit records ↔ Ledger.empty.Fits records := by
  have hzero (name : String) : (Ledger.empty.counterOrZero name).toInt = 0 := rfl
  simp only [SumsFit, Ledger.Fits, hzero, zero_add]

namespace Ledger

variable {l k m : Ledger} {r : Record} {records : List Record}

theorem fits_congr (h : l.counters = m.counters) : l.Fits records ↔ m.Fits records := by
  simp only [Fits, counterOrZero, h]

theorem counterOrZero_apply (h : l.apply r = .ok k) (name : String) :
    (k.counterOrZero name).toInt = (l.counterOrZero name).toInt + addend name r := by
  cases r with
  | gauge n value =>
      obtain rfl := Except.ok.inj h
      exact (add_zero _).symm
  | counter n delta =>
      simp only [apply] at h
      split at h
      next sum hsum =>
        obtain rfl := Except.ok.inj h
        simp only [counterOrZero, Table.get?_insert, addend]
        by_cases hn : name = n
        · rw [if_pos hn, if_pos hn.symm, hn]
          exact toInt_of_counterValue? hsum
        · rw [if_neg hn, if_neg (Ne.symm hn), add_zero]
      next => cases h

/-- After a write that is taken, the others have to fit. -/
theorem fits_cons_iff (h : l.apply r = .ok k) : l.Fits (r :: records) ↔ k.Fits records := by
  constructor
  · intro hl name earlier hearlier
    have hsum := hl name (r :: earlier) (List.cons_prefix_cons.2 ⟨rfl, hearlier⟩)
    rw [total_cons, ← add_assoc, ← counterOrZero_apply h] at hsum
    exact hsum
  · intro hk name earlier hearlier
    cases earlier with
    | nil =>
        rw [total_nil, add_zero]
        exact isCounterValue_toInt _
    | cons r' earlier =>
        obtain ⟨rfl, hrest⟩ := List.cons_prefix_cons.1 hearlier
        rw [total_cons, ← add_assoc, ← counterOrZero_apply h]
        exact hk name earlier hrest

/-- A write is refused only since the sum is no counter value. -/
theorem apply_error {f : Failure} (h : l.apply r = .error f) :
    ∃ name delta, r = .counter name delta ∧ f = overflow name delta ∧
      ¬IsCounterValue ((l.counterOrZero name).toInt + delta.toInt) := by
  cases r with
  | gauge n value => cases h
  | counter n delta =>
      simp only [apply] at h
      split at h
      next => cases h
      next hnone =>
        refine ⟨n, delta, rfl, (Except.error.inj h).symm, fun hvalue => ?_⟩
        obtain ⟨x, hx⟩ := exists_counterValue? hvalue
        rw [hx] at hnone
        cases hnone

theorem not_fits_of_error {f : Failure} (h : l.apply r = .error f) : ¬l.Fits (r :: records) := by
  obtain ⟨name, delta, rfl, -, hvalue⟩ := apply_error h
  intro hl
  apply hvalue
  have hsum := hl name [.counter name delta] (List.cons_prefix_cons.2 ⟨rfl, List.nil_prefix⟩)
  simpa [addend] using hsum

/-- Records can be replayed exactly if the running sums of their deltas are counter values. -/
theorem exists_replay_iff : (∃ m, l.replay records = .ok m) ↔ l.Fits records := by
  induction records generalizing l with
  | nil =>
      refine ⟨fun _ name earlier hearlier => ?_, fun _ => ⟨l, rfl⟩⟩
      rw [List.prefix_nil.1 hearlier, total_nil, add_zero]
      exact isCounterValue_toInt _
  | cons r records ih =>
      cases hr : l.apply r with
      | error f =>
          refine iff_of_false ?_ (not_fits_of_error hr)
          rintro ⟨m, hm⟩
          rw [replay_cons, hr] at hm
          cases hm
      | ok k => rw [fits_cons_iff hr, ← ih, replay_cons_of hr]

/-- A replay is refused only since a counter would leave its bits. -/
theorem replay_error {f : Failure} (h : l.replay records = .error f) :
    ∃ name delta, f = overflow name delta := by
  induction records generalizing l with
  | nil => cases h
  | cons r records ih =>
      rw [replay_cons] at h
      cases hr : l.apply r with
      | error f' =>
          rw [hr] at h
          obtain ⟨name, delta, -, hf, -⟩ := apply_error hr
          exact ⟨name, delta, (Except.error.inj h).symm.trans hf⟩
      | ok k =>
          rw [hr] at h
          exact ih h

/-- The records without a line do not count. -/
theorem fits_encodable : l.Fits (encodable records) ↔ l.Fits records := by
  induction records generalizing l with
  | nil => rfl
  | cons r records ih =>
      cases hencodable : r.isEncodable with
      | true =>
          rw [encodable, List.filter_cons_of_pos hencodable]
          cases hr : l.apply r with
          | error f => exact iff_of_false (not_fits_of_error hr) (not_fits_of_error hr)
          | ok k => rw [fits_cons_iff hr, fits_cons_iff hr]; exact ih
      | false =>
          rw [encodable, List.filter_cons_of_neg (by simp [hencodable])]
          cases hr : l.apply r with
          | error f =>
              obtain ⟨name, delta, rfl, -⟩ := apply_error hr
              cases hencodable
          | ok k =>
              rw [fits_cons_iff hr, ← fits_congr (counters_of_not_isEncodable hencodable hr).symm]
              exact ih

end Ledger

end MetricLedger
