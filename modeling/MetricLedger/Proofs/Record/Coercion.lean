import MetricLedger.Proofs.Binary64.Whole
import MetricLedger.Record.Coercion

/-!
# Values of counters

A JSON value is taken as the value of a counter by three tests one after the other, the last of which
compares and converts double precision numbers. Main statement: `coerceCounter_isExact`, together they
take the numbers whose exact value is a whole number of 64 bits, and as that value.
-/

namespace MetricLedger

/-! ## The range of a counter -/

theorem isFinite_counterBound : counterBound.isFinite = true := by decide

theorem units_counterBound : Binary64.units counterBound.magnitude = 2 ^ 63 * Binary64.unitsOfOne := by
  -- The number of units of one is too large to be computed with: it stays behind a variable.
  obtain ⟨u, hu⟩ : ∃ u, u = 1074 := ⟨_, rfl⟩
  have hmagnitude : counterBound.magnitude = (11 + u) * 2 ^ 52 + 2 ^ 52 := by
    rw [hu]
    decide
  have hpow : 2 ^ 52 * 2 ^ 11 = 2 ^ 63 := rfl
  rw [hmagnitude, Binary64.units_scale_add (by decide) (.inr le_rfl), Binary64.unitsOfOne_eq hu,
    Nat.pow_add, ← Nat.mul_assoc, hpow]

theorem value_counterBound : counterBound.value = 2 ^ 63 := by
  have hnegative : counterBound.negative = false := by decide
  rw [Binary64.value, units_counterBound, hnegative, Nat.cast_mul,
    mul_div_cancel_right₀ _ Binary64.unitsOfOne_pos.ne']
  norm_num [Binary64.signed]

/-- The bounds of the range are a number of units of one each, the lower one in it and the upper one
past it. -/
theorem isCounterNumber_iff {x : Binary64} : isCounterNumber x = true ↔
    x.isFinite = true ∧ x.fract.isZero = true ∧ -2 ^ 63 ≤ x.value ∧ x.value < 2 ^ 63 := by
  have hbound := isFinite_counterBound
  have hneg : counterBound.neg.isFinite = true := (Binary64.isFinite_neg _).trans hbound
  simp only [isCounterNumber, Bool.and_eq_true, and_assoc]
  refine and_congr_right fun hx => and_congr_right fun _ => and_congr ?_ ?_
  · rw [Binary64.le_iff hneg hx, Binary64.value_neg, value_counterBound]
  · rw [Binary64.lt_iff hx hbound, value_counterBound]

/-- What a number that passes the tests is converted to. -/
theorem value_eq_toInt_toInt64 {x : Binary64} (h : isCounterNumber x = true) :
    x.value = x.toInt64.toInt := by
  obtain ⟨hx, hwhole, hlow, hhigh⟩ := isCounterNumber_iff.1 h
  obtain ⟨n, hn⟩ : ∃ n, x.wholePart = n := ⟨_, rfl⟩
  have hvalue : x.value = n := (Binary64.value_eq_iff hx).2 ⟨hwhole, hn⟩
  rw [hvalue] at hlow hhigh
  have hlow' : -2 ^ 63 ≤ n := by exact_mod_cast hlow
  have hhigh' : n < 2 ^ 63 := by exact_mod_cast hhigh
  rw [Binary64.toInt_toInt64 hx (hn ▸ hlow') (hn ▸ hhigh'), hn, hvalue]

/-- A number whose value is one of a counter passes the tests. -/
theorem isCounterNumber_of_value_eq {x : Binary64} (hx : x.isFinite = true) {n : Int64}
    (h : x.value = n.toInt) : isCounterNumber x = true := by
  obtain ⟨hwhole, -⟩ := (Binary64.value_eq_iff hx).1 h
  have hlow : -2 ^ 63 ≤ n.toInt := Int64.le_toInt n
  have hhigh : n.toInt < 2 ^ 63 := Int64.toInt_lt n
  rw [isCounterNumber_iff, h]
  exact ⟨hx, hwhole, by exact_mod_cast hlow, by exact_mod_cast hhigh⟩

/-! ## The tests -/

theorem counterValue?_eq_some_iff {n : ℤ} {x : Int64} : counterValue? n = some x ↔ n = x.toInt := by
  constructor
  · exact fun h => (toInt_of_counterValue? h).symm
  · rintro rfl
    exact counterValue?_toInt x

theorem coerceCounter_whole_iff {n : ℤ} {x : Int64} :
    coerceCounter (.number (.whole n)) = .ok x ↔ n = x.toInt := by
  rw [← counterValue?_eq_some_iff, coerceCounter]
  cases counterValue? n <;> simp

theorem coerceCounter_real_iff {d : Binary64} {x : Int64} :
    coerceCounter (.number (.real d)) = .ok x ↔ d.isFinite = true ∧ d.value = x.toInt := by
  have hcoerce : coerceCounter (.number (.real d)) = .ok x ↔
      isCounterNumber d = true ∧ d.toInt64 = x := by
    rw [coerceCounter]
    split <;> simp [*]
  rw [hcoerce]
  constructor
  · rintro ⟨h, rfl⟩
    exact ⟨(isCounterNumber_iff.1 h).1, value_eq_toInt_toInt64 h⟩
  · rintro ⟨hx, h⟩
    have htest := isCounterNumber_of_value_eq hx h
    refine ⟨htest, Int64.toInt_inj.1 ?_⟩
    rw [value_eq_toInt_toInt64 htest, Int.cast_inj] at h
    exact h

namespace Json.Value

/-- The exact value of a JSON value, if it is a number. -/
def exactValue? : Value → Option ℚ
  | .number (.whole n) => some n
  | .number (.real x) => if x.isFinite then some x.value else none
  | _ => none

end Json.Value

theorem coerceCounter_eq_ok_iff_exactValue {v : Json.Value} {n : Int64} :
    coerceCounter v = .ok n ↔ v.exactValue? = some (n.toInt : ℚ) := by
  cases v with
  | number x =>
      cases x with
      | whole z =>
          rw [coerceCounter_whole_iff, Json.Value.exactValue?, Option.some_inj, Int.cast_inj]
      | real d =>
          rw [coerceCounter_real_iff, Json.Value.exactValue?]
          split <;> simp [*]
  | _ => simp [coerceCounter, Json.Value.exactValue?]

/-- Every failure is the one of this operation, with what is wrong about the value. -/
theorem coerceCounter_ok_or_error (v : Json.Value) : (∃ n, coerceCounter v = .ok n) ∨
    ∃ cause, coerceCounter v = .error (.serialization "coerce_counter_value" cause) := by
  unfold coerceCounter
  split
  · split
    · exact .inl ⟨_, rfl⟩
    · exact .inr ⟨_, rfl⟩
  · split
    · exact .inl ⟨_, rfl⟩
    · exact .inr ⟨_, rfl⟩
  · exact .inr ⟨_, rfl⟩

theorem exists_toInt_eq_iff {z : ℤ} :
    (∃ n : Int64, n.toInt = z) ↔ -2 ^ 63 ≤ z ∧ z ≤ 2 ^ 63 - 1 := by
  constructor
  · rintro ⟨n, rfl⟩
    have hlow : -2 ^ 63 ≤ n.toInt := Int64.le_toInt n
    have hhigh : n.toInt < 2 ^ 63 := Int64.toInt_lt n
    omega
  · rintro ⟨hlow, hhigh⟩
    exact ⟨Int64.ofInt z, Int64.toInt_ofInt_of_le hlow (by omega)⟩

/-- A JSON value is a value of a counter exactly if it is a number whose exact value, the one that is
stored and not the text it was read from, is a whole number of 64 bits. The counter gets that number:
what the last test accepts is neither cut off nor rounded by the conversion after it. -/
theorem coerceCounter_isExact (v : Json.Value) :
    (∀ n : Int64, coerceCounter v = .ok n ↔ v.exactValue? = some (n.toInt : ℚ)) ∧
    ((∃ n, coerceCounter v = .ok n) ↔
      ∃ z : ℤ, v.exactValue? = some (z : ℚ) ∧ -2 ^ 63 ≤ z ∧ z ≤ 2 ^ 63 - 1) ∧
    ((¬ ∃ z : ℤ, v.exactValue? = some (z : ℚ) ∧ -2 ^ 63 ≤ z ∧ z ≤ 2 ^ 63 - 1) →
      ∃ cause, coerceCounter v = .error (.serialization "coerce_counter_value" cause)) ∧
    (∀ x, v = .number (.real x) → isCounterNumber x = true →
      coerceCounter v = .ok x.toInt64 ∧ (x.toInt64.toInt : ℚ) = x.value) ∧
    (∀ x : Binary64, v = .number (.real x) → x.isZero = true → coerceCounter v = .ok 0) := by
  have hok : (∃ n, coerceCounter v = .ok n) ↔
      ∃ z : ℤ, v.exactValue? = some (z : ℚ) ∧ -2 ^ 63 ≤ z ∧ z ≤ 2 ^ 63 - 1 := by
    simp only [coerceCounter_eq_ok_iff_exactValue, ← exists_toInt_eq_iff]
    constructor
    · rintro ⟨n, hn⟩
      exact ⟨n.toInt, hn, n, rfl⟩
    · rintro ⟨_, hz, n, rfl⟩
      exact ⟨n, hz⟩
  refine ⟨fun n => coerceCounter_eq_ok_iff_exactValue, hok, fun hnone => ?_, ?_, ?_⟩
  · exact (coerceCounter_ok_or_error v).resolve_left (mt hok.1 hnone)
  · rintro x rfl hx
    have hvalue := value_eq_toInt_toInt64 hx
    have hfinite := (isCounterNumber_iff.1 hx).1
    exact ⟨coerceCounter_real_iff.2 ⟨hfinite, hvalue⟩, hvalue.symm⟩
  · rintro x rfl hx
    rw [coerceCounter_real_iff, Binary64.value_of_isZero hx]
    exact ⟨Binary64.isFinite_of_isZero hx, rfl⟩

/-- The bound is the first number past the range, and its opposite the last one in it. -/
example : isCounterNumber counterBound = false ∧ isCounterNumber counterBound.neg = true := by
  decide +kernel

end MetricLedger
