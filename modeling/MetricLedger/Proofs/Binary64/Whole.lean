import MetricLedger.Binary64.Conversion
import MetricLedger.Proofs.Binary64.Nearest

/-!
# Order and whole parts

The order of the bits is the order of the exact values, and the numbers without a fraction are those
whose value is a whole number. Main statements: `le_iff`, `lt_iff` and `value_eq_iff`, and `toInt_toInt64`,
a whole part that fits into 64 bits is converted as itself.
-/

namespace MetricLedger.Binary64

variable {x y : Binary64}

/-! ## Units -/

theorem units_lt_units_succ (m : ℕ) : units m < units (m + 1) := by
  have hsum := scale_mul_add_significand m
  have hlt := significand_lt m
  have hfull : scale m = 0 ∨ 2 ^ 52 ≤ significand m := by
    unfold scale significand
    split <;> omega
  have hsucc : units (m + 1) = (significand m + 1) * 2 ^ scale m := by
    rw [← units_scale_add (by omega) (by omega), ← Nat.add_assoc]
    exact congrArg (fun n => units (n + 1)) hsum.symm
  rw [hsucc, units]
  exact Nat.mul_lt_mul_of_pos_right (Nat.lt_succ_self _) (Nat.two_pow_pos _)

/-- A greater magnitude has more units. -/
theorem units_strictMono : StrictMono units := strictMono_nat_of_lt_succ units_lt_units_succ

theorem units_zero : units 0 = 0 := rfl

/-- Units are rounded to zero only where there are none. -/
theorem nearest_units_eq_zero_iff {u : ℕ} : nearest u unitsOfOne = 0 ↔ u = 0 := by
  have hpos : 0 < unitsOfOne := Nat.cast_pos.1 unitsOfOne_pos
  constructor
  · intro h
    -- Zero would be no nearer to the units than the least positive number is.
    have hone : units 1 = 1 := rfl
    have hle := abs_units_nearest_le u hpos 1
    rw [h, units_zero, hone, Nat.zero_mul, Nat.one_mul] at hle
    by_contra hu
    have hmul : unitsOfOne ≤ u * unitsOfOne := Nat.le_mul_of_pos_left _ (Nat.pos_of_ne_zero hu)
    rw [abs_of_nonpos (by push_cast; omega), abs_of_nonpos (by push_cast; omega)] at hle
    omega
  · rintro rfl
    exact nearest_mul_unitsOfOne hpos (by rw [units_zero])

/-! ## Order -/

/-- The exact value in units. -/
def signedUnits (x : Binary64) : ℤ :=
  if x.negative then -(units x.magnitude : ℤ) else units x.magnitude

theorem value_eq (x : Binary64) : x.value = x.signedUnits / unitsOfOne := by
  unfold value signedUnits signed
  split
  · push_cast
    ring
  · rfl

theorem value_le_value_iff : x.value ≤ y.value ↔ x.signedUnits ≤ y.signedUnits := by
  rw [value_eq, value_eq, div_le_div_iff_of_pos_right unitsOfOne_pos, Int.cast_le]

theorem rank_le_rank_iff : x.rank ≤ y.rank ↔ x.signedUnits ≤ y.signedUnits := by
  have hle := units_strictMono.le_iff_le (a := x.magnitude) (b := y.magnitude)
  have hge := units_strictMono.le_iff_le (a := y.magnitude) (b := x.magnitude)
  have hx := units_strictMono.le_iff_le (a := x.magnitude) (b := 0)
  have hy := units_strictMono.le_iff_le (a := y.magnitude) (b := 0)
  rw [units_zero] at hx hy
  unfold rank signedUnits
  split <;> split <;> omega

theorem isNaN_of_isFinite (h : x.isFinite = true) : x.isNaN = false := by
  simp only [isFinite, isNaN, decide_eq_true_eq, decide_eq_false_iff_not] at h ⊢
  omega

theorem le_iff (hx : x.isFinite = true) (hy : y.isFinite = true) :
    x.le y = true ↔ x.value ≤ y.value := by
  rw [value_le_value_iff, ← rank_le_rank_iff, le, isNaN_of_isFinite hx, isNaN_of_isFinite hy]
  simp

theorem lt_iff (hx : x.isFinite = true) (hy : y.isFinite = true) :
    x.lt y = true ↔ x.value < y.value := by
  rw [← not_le, value_le_value_iff, ← rank_le_rank_iff, not_le, lt, isNaN_of_isFinite hx,
    isNaN_of_isFinite hy]
  simp

theorem magnitude_lt (x : Binary64) : x.magnitude < 2 ^ 63 := Nat.mod_lt _ (by decide)

theorem isFinite_neg (x : Binary64) : x.neg.isFinite = x.isFinite := by
  rw [isFinite, neg, magnitude_ofMagnitude x.magnitude_lt, isFinite]

theorem value_neg (x : Binary64) : x.neg.value = -x.value := by
  rw [value, neg, magnitude_ofMagnitude x.magnitude_lt, negative_ofMagnitude x.magnitude_lt, value]
  generalize (units x.magnitude / unitsOfOne : ℚ) = v
  cases x.negative <;> simp [signed]

theorem magnitude_of_isZero (h : x.isZero = true) : x.magnitude = 0 := of_decide_eq_true h

theorem isFinite_of_isZero (h : x.isZero = true) : x.isFinite = true := by
  rw [isFinite, magnitude_of_isZero h]
  decide

/-- Both zeros have the value zero. -/
theorem value_of_isZero (h : x.isZero = true) : x.value = 0 := by
  rw [value, magnitude_of_isZero h, units_zero, Nat.cast_zero, zero_div, signed, neg_zero, ite_self]

/-! ## Whole parts -/

/-- What is past a whole number is rounded to a number below one. -/
theorem nearest_fractUnits_lt (m : ℕ) : nearest (fractUnits m) unitsOfOne < 2 ^ 63 := by
  have hpos : 0 < unitsOfOne := Nat.cast_pos.1 unitsOfOne_pos
  obtain ⟨n, hn⟩ : ∃ n, n = 1021 := ⟨_, rfl⟩
  have hone : unitsOfOne = 2 ^ (53 + n) := unitsOfOne_eq (by omega)
  have hlt : fractUnits m < 2 ^ (53 + n) := hone ▸ Nat.mod_lt _ hpos
  have hle := nearest_le hpos (Nat.mul_lt_mul_of_pos_right hlt hpos)
  omega

/-- A number has no fraction exactly if its units make up whole ones. -/
theorem fract_isZero_iff_dvd (hx : x.isFinite = true) :
    x.fract.isZero = true ↔ unitsOfOne ∣ units x.magnitude := by
  rw [fract, if_pos hx, isZero, magnitude_ofMagnitude (nearest_fractUnits_lt _),
    decide_eq_true_eq, nearest_units_eq_zero_iff, fractUnits, Nat.dvd_iff_mod_eq_zero]

theorem value_eq_wholePart_of_dvd (h : unitsOfOne ∣ units x.magnitude) :
    x.value = x.wholePart := by
  have hdiv : ((units x.magnitude / unitsOfOne : ℕ) : ℚ) = units x.magnitude / unitsOfOne :=
    Nat.cast_div h unitsOfOne_pos.ne'
  rw [value, ← hdiv, wholePart, signed]
  generalize units x.magnitude / unitsOfOne = q
  split <;> simp

/-- A number of a whole value is a whole number of units of one. -/
theorem dvd_of_value_eq {n : ℤ} (h : x.value = n) : unitsOfOne ∣ units x.magnitude := by
  have habs : (units x.magnitude : ℚ) / unitsOfOne = n.natAbs := calc
    (units x.magnitude : ℚ) / unitsOfOne = |x.value| :=
      (abs_signed _ (div_nonneg (Nat.cast_nonneg _) unitsOfOne_pos.le)).symm
    _ = n.natAbs := by rw [h, Nat.cast_natAbs, Int.cast_abs]
  refine ⟨n.natAbs, ?_⟩
  rw [div_eq_iff unitsOfOne_pos.ne', ← Nat.cast_mul, Nat.cast_inj] at habs
  rw [habs, Nat.mul_comm]

/-- The numbers without a fraction are those whose value is a whole number, their whole part. -/
theorem value_eq_iff (hx : x.isFinite = true) {n : ℤ} :
    x.value = n ↔ x.fract.isZero = true ∧ x.wholePart = n := by
  rw [fract_isZero_iff_dvd hx]
  constructor
  · intro h
    have hdvd := dvd_of_value_eq h
    refine ⟨hdvd, ?_⟩
    rw [value_eq_wholePart_of_dvd hdvd, Int.cast_inj] at h
    exact h
  · rintro ⟨hdvd, rfl⟩
    exact value_eq_wholePart_of_dvd hdvd

/-- A whole part that fits into 64 bits is not cut off. -/
theorem toInt_toInt64 (hx : x.isFinite = true) (hlow : -2 ^ 63 ≤ x.wholePart)
    (hhigh : x.wholePart < 2 ^ 63) : x.toInt64.toInt = x.wholePart := by
  have hmin : Int64.minValue.toInt = -2 ^ 63 := rfl
  have hmax : Int64.maxValue.toInt = 2 ^ 63 - 1 := rfl
  have hclamp : max Int64.minValue.toInt (min x.wholePart Int64.maxValue.toInt) = x.wholePart := by
    omega
  rw [toInt64, isNaN_of_isFinite hx, if_neg (by decide), hclamp]
  exact Int64.toInt_ofInt_of_le hlow hhigh

end MetricLedger.Binary64
