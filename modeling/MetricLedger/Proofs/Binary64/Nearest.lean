import MetricLedger.Proofs.Binary64.Decimal

/-!
# The nearest double precision number

The exact value of a number, and what rounding does to a value. Main statement:
`abs_value_sub_le`, no number is nearer to a fraction than the one that the fraction is rounded to.
-/

namespace MetricLedger.Binary64

/-! ## Magnitudes -/

/-- No whole number is nearer to a quotient than its rounding. -/
theorem abs_roundHalfEven_le (num : ℕ) {den : ℕ} (h : 0 < den) (t : ℕ) :
    |((roundHalfEven num den * den : ℕ) : ℤ) - num| ≤ |((t * den : ℕ) : ℤ) - num| := by
  obtain ⟨hlow, hhigh⟩ := roundHalfEven_le num h
  generalize roundHalfEven num den = q at *
  rw [Int.abs_eq_natAbs, Int.abs_eq_natAbs]
  rcases lt_trichotomy t q with hlt | rfl | hlt
  · have hstep : t * den + den ≤ q * den := by
      rw [← Nat.succ_mul]
      exact Nat.mul_le_mul_right den hlt
    omega
  · exact le_rfl
  · have hstep : q * den + den ≤ t * den := by
      rw [← Nat.succ_mul]
      exact Nat.mul_le_mul_right den hlt
    omega

/-- A quotient below a whole number is not rounded above it. -/
theorem roundHalfEven_le_of_lt {num den t : ℕ} (h : num < t * den) : roundHalfEven num den ≤ t := by
  have hden : 0 < den := Nat.pos_of_mul_pos_left (Nat.zero_lt_of_lt h)
  obtain ⟨hlow, -⟩ := roundHalfEven_le num hden
  by_contra hq
  have := Nat.mul_le_mul_right den (Nat.lt_of_not_le hq)
  rw [Nat.succ_mul] at this
  omega

/-- A quotient from a whole number on is not rounded below it. -/
theorem le_roundHalfEven {num den t : ℕ} (hden : 0 < den) (h : t * den ≤ num) :
    t ≤ roundHalfEven num den := by
  obtain ⟨-, hhigh⟩ := roundHalfEven_le num hden
  by_contra hq
  have := Nat.mul_le_mul_right den (Nat.lt_of_not_le hq)
  rw [Nat.succ_mul] at this
  omega

/-- The magnitude that a scale and a significand of at most 53 bits make up; below 52 bits the scale
is zero. -/
theorem units_scale_add {k q : ℕ} (hq : q ≤ 2 ^ 53) (hk : k = 0 ∨ 2 ^ 52 ≤ q) :
    units (k * 2 ^ 52 + q) = q * 2 ^ k := by
  unfold units significand scale
  by_cases hsmall : q < 2 ^ 52
  · obtain rfl : k = 0 := by omega
    have hdiv : (0 * 2 ^ 52 + q) / 2 ^ 52 = 0 := by omega
    rw [if_pos (by omega), hdiv]
    simp
  · have hlarge : ¬k * 2 ^ 52 + q < 2 ^ 52 := by omega
    rw [if_neg hlarge]
    rcases hq.lt_or_eq with hlt | rfl
    · have hdiv : (k * 2 ^ 52 + q) / 2 ^ 52 - 1 = k := by omega
      have hmod : 2 ^ 52 + (k * 2 ^ 52 + q) % 2 ^ 52 = q := by omega
      rw [hdiv, hmod]
    -- A significand that is rounded up to 54 bits carries into the scale.
    · have hdiv : (k * 2 ^ 52 + 2 ^ 53) / 2 ^ 52 - 1 = k + 1 := by omega
      have hmod : 2 ^ 52 + (k * 2 ^ 52 + 2 ^ 53) % 2 ^ 52 = 2 ^ 52 := by omega
      rw [hdiv, hmod, Nat.pow_succ 2 k, Nat.pow_succ 2 52]
      ring

theorem significand_lt (m : ℕ) : significand m < 2 ^ 53 := by
  unfold significand
  split <;> omega

/-- With its excess taken off, a value has 53 bits, or fewer if nothing is taken off. -/
theorem excess_bounds (w : ℕ) :
    w < 2 ^ (53 + excess w) ∧ (excess w = 0 ∨ 2 ^ (52 + excess w) ≤ w) := by
  unfold excess
  by_cases h0 : w = 0
  · subst h0
    exact ⟨Nat.two_pow_pos _, .inl rfl⟩
  · refine ⟨(Nat.log2_lt h0).1 (by omega), ?_⟩
    by_cases hsmall : Nat.log2 w ≤ 52
    · exact .inl (by omega)
    · exact .inr ((Nat.le_log2 h0).1 (by omega))

/-- With its excess taken off, a fraction is rounded to 53 bits, or to the least number of 54. -/
theorem roundHalfEven_excess_le (num : ℕ) {den : ℕ} (h : 0 < den) :
    roundHalfEven num (den * 2 ^ excess (num / den)) ≤ 2 ^ 53 := by
  apply roundHalfEven_le_of_lt
  obtain ⟨hlt, -⟩ := excess_bounds (num / den)
  generalize excess (num / den) = k at *
  rw [Nat.div_lt_iff_lt_mul h, Nat.pow_add] at hlt
  rwa [Nat.mul_comm den, ← Nat.mul_assoc]

/-- The scale of a fraction grows with its size. -/
theorem nearest_le {num den n : ℕ} (h : 0 < den) (hn : num * unitsOfOne < 2 ^ (53 + n) * den) :
    nearest num den ≤ (n + 2) * 2 ^ 52 := by
  simp only [nearest]
  have hround := roundHalfEven_excess_le (num * unitsOfOne) h
  have hexcess : excess (num * unitsOfOne / den) ≤ n := by
    rw [← Nat.div_lt_iff_lt_mul h] at hn
    obtain ⟨-, hzero | hfull⟩ := excess_bounds (num * unitsOfOne / den)
    · omega
    · have := (Nat.pow_lt_pow_iff_right (by decide)).1 (hfull.trans_lt hn)
      omega
  generalize excess (num * unitsOfOne / den) = k at *
  omega

/-- No magnitude is nearer to a fraction than the one it is rounded to. -/
theorem abs_units_nearest_le (num : ℕ) {den : ℕ} (h : 0 < den) (m : ℕ) :
    |((units (nearest num den) * den : ℕ) : ℤ) - (num * unitsOfOne : ℕ)| ≤
      |((units m * den : ℕ) : ℤ) - (num * unitsOfOne : ℕ)| := by
  simp only [nearest]
  generalize num * unitsOfOne = a
  have hq53 := roundHalfEven_excess_le a h
  obtain ⟨-, hfull⟩ := excess_bounds (a / den)
  generalize excess (a / den) = k at *
  have hden : 0 < den * 2 ^ k := Nat.mul_pos h (Nat.two_pow_pos k)
  have hround := abs_roundHalfEven_le a hden
  have hfull' : k = 0 ∨ 2 ^ 52 * (den * 2 ^ k) ≤ a := by
    rw [Nat.le_div_iff_mul_le h, Nat.pow_add] at hfull
    rwa [Nat.mul_comm den, ← Nat.mul_assoc]
  have hq52 := hfull'.imp_right (le_roundHalfEven hden)
  generalize roundHalfEven a (den * 2 ^ k) = q at *
  have hscaled (t : ℕ) : t * 2 ^ k * den = t * (den * 2 ^ k) := by
    rw [Nat.mul_assoc, Nat.mul_comm (2 ^ k)]
  rw [units_scale_add hq53 hq52, hscaled]
  obtain hscale | hscale := le_or_gt k (scale m)
  -- A magnitude of no lesser scale is a multiple of the same power of two.
  · have hunits : units m = significand m * 2 ^ (scale m - k) * 2 ^ k := by
      rw [units, Nat.mul_assoc, ← Nat.pow_add, Nat.sub_add_cancel hscale]
    rw [hunits, hscaled]
    exact hround _
  -- A magnitude of a lesser scale does not exceed the least one of this scale, and that one does
  -- not exceed the fraction.
  · have hbelow : 2 ^ 52 * (den * 2 ^ k) ≤ a := hfull'.resolve_left (by omega)
    have hunits : units m ≤ 2 ^ 52 * 2 ^ k := calc
      units m ≤ 2 ^ 53 * 2 ^ (k - 1) :=
        Nat.mul_le_mul (significand_lt m).le (Nat.pow_le_pow_right (by decide) (by omega))
      _ = 2 ^ 52 * 2 ^ k := by
        rw [← Nat.pow_add, ← Nat.pow_add]
        congr 1
        omega
    have hmul := Nat.mul_le_mul_right den hunits
    rw [hscaled] at hmul
    refine (hround (2 ^ 52)).trans ?_
    rw [Int.abs_eq_natAbs, Int.abs_eq_natAbs]
    omega

/-- A whole number of more than 53 bits is rounded to a multiple of a power of two. -/
theorem nearest_whole {w k : ℕ} (hlow : 2 ^ 52 * 2 ^ k ≤ w) (hhigh : w < 2 ^ 53 * 2 ^ k) :
    nearest w 1 = (k + 1074) * 2 ^ 52 + roundHalfEven w (2 ^ k) := by
  obtain ⟨u, hu⟩ : ∃ u, u = 1074 := ⟨_, rfl⟩
  have hpow : 0 < 2 ^ k := Nat.two_pow_pos k
  have hlog : Nat.log2 (w * unitsOfOne) = 52 + k + u := by
    have hw : w ≠ 0 := by omega
    rw [unitsOfOne_eq hu, Nat.log2_eq_iff (Nat.mul_ne_zero hw (Nat.two_pow_pos u).ne')]
    constructor
    · rw [Nat.pow_add, Nat.pow_add]
      exact Nat.mul_le_mul_right _ hlow
    · have hwide : 52 + k + u + 1 = 53 + k + u := by omega
      rw [hwide, Nat.pow_add, Nat.pow_add]
      exact Nat.mul_lt_mul_of_pos_right hhigh (Nat.two_pow_pos u)
  have hexcess : excess (w * unitsOfOne / 1) = k + u := by
    rw [Nat.div_one, excess, hlog]
    omega
  have hround : roundHalfEven (w * unitsOfOne) (1 * 2 ^ (k + u)) = roundHalfEven w (2 ^ k) := by
    rw [unitsOfOne_eq hu, Nat.one_mul, Nat.pow_add, Nat.mul_comm w, Nat.mul_comm (2 ^ k),
      roundHalfEven_mul_mul (Nat.two_pow_pos u)]
  simp only [nearest, hexcess, hround]
  rw [hu]

theorem units_nearest_whole {w k : ℕ} (hlow : 2 ^ 52 * 2 ^ k ≤ w) (hhigh : w < 2 ^ 53 * 2 ^ k) :
    units (nearest w 1) = roundHalfEven w (2 ^ k) * 2 ^ k * unitsOfOne := by
  obtain ⟨u, hu⟩ : ∃ u, u = 1074 := ⟨_, rfl⟩
  have hfull := le_roundHalfEven (Nat.two_pow_pos k) hlow
  rw [nearest_whole hlow hhigh, ← hu, unitsOfOne_eq hu,
    units_scale_add (roundHalfEven_le_of_lt hhigh) (.inr hfull), Nat.pow_add, Nat.mul_assoc]

/-- The power of two that takes a whole number down to 53 bits. -/
theorem exists_scale {w : ℕ} (h : 2 ^ 52 ≤ w) : ∃ k, 2 ^ 52 * 2 ^ k ≤ w ∧ w < 2 ^ 53 * 2 ^ k := by
  have hw : w ≠ 0 := by omega
  have hlog : 52 ≤ Nat.log2 w := (Nat.le_log2 hw).2 h
  refine ⟨Nat.log2 w - 52, ?_, ?_⟩
  · rw [← Nat.pow_add]
    exact (Nat.le_log2 hw).1 (by omega)
  · rw [← Nat.pow_add]
    exact (Nat.log2_lt hw).1 (by omega)

/-- Just above `2 ^ 63` the whole numbers are rounded to multiples of `2 ^ 11`. -/
theorem two_pow_63_lt_roundHalfEven_iff {w k : ℕ} (hlow : 2 ^ 52 * 2 ^ k ≤ w)
    (hhigh : w < 2 ^ 53 * 2 ^ k) (hw : 2 ^ 63 < w) :
    2 ^ 63 < roundHalfEven w (2 ^ k) * 2 ^ k ↔ 2 ^ 63 + 1024 < w := by
  obtain hk | rfl | hk := lt_trichotomy k 11
  · have hpow : 2 ^ k ≤ 2 ^ 10 := Nat.pow_le_pow_right (by decide) (by omega)
    omega
  · simp only [roundHalfEven]
    split_ifs <;> omega
  · have hpow : 2 ^ 12 ≤ 2 ^ k := Nat.pow_le_pow_right (by decide) hk
    have hround := Nat.mul_le_mul_right (2 ^ k) (le_roundHalfEven (Nat.two_pow_pos k) hlow)
    omega

/-! ## Exact values -/

/-- A value with a sign. -/
def signed (negative : Bool) (v : ℚ) : ℚ := if negative then -v else v

/-- The exact value of a finite number. -/
def value (x : Binary64) : ℚ := signed x.negative (units x.magnitude / unitsOfOne)

theorem abs_signed (negative : Bool) {v : ℚ} (hv : 0 ≤ v) : |signed negative v| = v := by
  cases negative
  · exact abs_of_nonneg hv
  · exact (abs_neg v).trans (abs_of_nonneg hv)

theorem abs_signed_sub_signed (negative : Bool) (v w : ℚ) :
    |signed negative v - signed negative w| = |v - w| := by
  cases negative
  · rfl
  · rw [signed, signed, if_pos rfl, if_pos rfl, neg_sub_neg, abs_sub_comm]

/-- Values of the same sign are the nearer ones. -/
theorem abs_sub_le_abs_signed_sub {v w : ℚ} (hv : 0 ≤ v) (hw : 0 ≤ w) (negative other : Bool) :
    |v - w| ≤ |signed other v - signed negative w| := by
  calc |v - w| = |(|signed other v| - |signed negative w|)| := by
        rw [abs_signed other hv, abs_signed negative hw]
    _ ≤ |signed other v - signed negative w| := abs_abs_sub_abs_le_abs_sub _ _

theorem unitsOfOne_pos : (0 : ℚ) < unitsOfOne := by
  obtain ⟨u, hu⟩ : ∃ u, u = 1074 := ⟨_, rfl⟩
  rw [unitsOfOne_eq hu]
  exact Nat.cast_pos.2 (Nat.two_pow_pos u)

theorem value_ofMagnitude {negative : Bool} {m : ℕ} (hm : m < infinityMagnitude) :
    (ofMagnitude negative m).value = signed negative (units m / unitsOfOne) := by
  have hm' : m < 2 ^ 63 := hm.trans (by decide)
  rw [value, magnitude_ofMagnitude hm', negative_ofMagnitude hm']

theorem isFinite_ofMagnitude {negative : Bool} {m : ℕ} (hm : m < infinityMagnitude) :
    (ofMagnitude negative m).isFinite = true := by
  rw [isFinite, magnitude_ofMagnitude (hm.trans (by decide))]
  exact decide_eq_true hm

/-- A whole number of 64 bits is rounded to a finite number. -/
theorem isFinite_ofInt {n : ℤ} (h : n.natAbs ≤ 2 ^ 64) : (ofInt n).isFinite = true := by
  refine isFinite_ofMagnitude ?_
  obtain ⟨u, hu⟩ : ∃ u, u = 1074 := ⟨_, rfl⟩
  have hunits : n.natAbs * unitsOfOne < 2 ^ (53 + (12 + u)) * 1 := by
    rw [unitsOfOne_eq hu, Nat.mul_one, ← Nat.add_assoc, Nat.pow_add]
    exact Nat.mul_lt_mul_of_pos_right (by omega) (Nat.two_pow_pos u)
  have hle := nearest_le Nat.one_pos hunits
  rw [infinityMagnitude_eq]
  omega

/-- No number is nearer to a fraction with a sign than the one it is rounded to. -/
theorem abs_value_sub_le {num den : ℕ} (h : 0 < den) (negative : Bool)
    (hm : nearest num den < infinityMagnitude) (y : Binary64) :
    |(ofMagnitude negative (nearest num den)).value - signed negative (num / den)| ≤
      |y.value - signed negative (num / den)| := by
  have hden : (0 : ℚ) < den := Nat.cast_pos.2 h
  have hunits (m : ℕ) : |(units m / unitsOfOne - num / den : ℚ)| =
      (|((units m * den : ℕ) : ℤ) - (num * unitsOfOne : ℕ)| : ℤ) / (unitsOfOne * den) := by
    rw [div_sub_div _ _ unitsOfOne_pos.ne' hden.ne', abs_div,
      abs_of_pos (mul_pos unitsOfOne_pos hden)]
    push_cast
    rw [mul_comm (unitsOfOne : ℚ) num]
  calc |(ofMagnitude negative (nearest num den)).value - signed negative (num / den)|
      = |(units (nearest num den) / unitsOfOne - num / den : ℚ)| := by
        rw [value_ofMagnitude hm, abs_signed_sub_signed]
    _ ≤ |(units y.magnitude / unitsOfOne - num / den : ℚ)| := by
        rw [hunits, hunits]
        refine div_le_div_of_nonneg_right ?_ (mul_pos unitsOfOne_pos hden).le
        exact Int.cast_le.2 (abs_units_nearest_le num h y.magnitude)
    _ ≤ |y.value - signed negative (num / den)| :=
        abs_sub_le_abs_signed_sub (div_nonneg (Nat.cast_nonneg _) unitsOfOne_pos.le)
          (div_nonneg (Nat.cast_nonneg _) hden.le) negative y.negative

/-- A fraction that is the value of a finite number is rounded to its magnitude. -/
theorem nearest_eq_magnitude {num den : ℕ} (h : 0 < den) {negative : Bool} {y : Binary64}
    (hy : y.value = signed negative (num / den)) : nearest num den = y.magnitude := by
  have hden : (0 : ℚ) < den := Nat.cast_pos.2 h
  have habs : (units y.magnitude / unitsOfOne : ℚ) = num / den := by
    rw [← abs_signed y.negative (div_nonneg (Nat.cast_nonneg _) unitsOfOne_pos.le),
      ← abs_signed negative (div_nonneg (Nat.cast_nonneg num) hden.le), ← hy]
    rfl
  rw [div_eq_div_iff unitsOfOne_pos.ne' hden.ne', ← Nat.cast_mul, ← Nat.cast_mul,
    Nat.cast_inj] at habs
  exact nearest_mul_unitsOfOne h habs.symm

/-- The value that a whole number of more than 53 bits is rounded to. -/
theorem value_nearest_whole {w k : ℕ} (hlow : 2 ^ 52 * 2 ^ k ≤ w) (hhigh : w < 2 ^ 53 * 2 ^ k)
    {negative : Bool} (hm : nearest w 1 < infinityMagnitude) :
    (ofMagnitude negative (nearest w 1)).value =
      signed negative (roundHalfEven w (2 ^ k) * 2 ^ k : ℕ) := by
  rw [value_ofMagnitude hm, units_nearest_whole hlow hhigh, Nat.cast_mul _ unitsOfOne,
    mul_div_cancel_right₀ _ unitsOfOne_pos.ne']

/-! ## Decimals -/

theorem decimal_eq_div (digits : ℕ) (e : ℤ) :
    (digits * 10 ^ e : ℚ) = (digits * 10 ^ e.toNat : ℕ) / (10 ^ (-e).toNat : ℕ) := by
  rw [eq_div_iff (Nat.cast_ne_zero.2 (Nat.pow_pos (by decide)).ne')]
  push_cast
  rw [mul_assoc, ← zpow_natCast, ← zpow_natCast, ← zpow_add₀ (by norm_num)]
  congr 2
  omega

/-- No number is nearer to a decimal than the one that it is read as. -/
theorem abs_value_sub_decimal_le {digits : ℕ} {e : ℤ} {m : ℕ} (h : ofDecimal? digits e = some m)
    (negative : Bool) (y : Binary64) :
    |(ofMagnitude negative m).value - signed negative (digits * 10 ^ e)| ≤
      |y.value - signed negative (digits * 10 ^ e)| := by
  rw [ofDecimal?_eq_finite?, finite?] at h
  split_ifs at h with hm
  rw [decimal_eq_div, ← Option.some.inj h]
  exact abs_value_sub_le (Nat.pow_pos (by decide)) negative hm y

/-- A decimal that is the value of a finite number is read as its magnitude. -/
theorem ofDecimal?_eq_magnitude {digits : ℕ} {e : ℤ} {negative : Bool} {y : Binary64}
    (hfinite : y.isFinite = true) (hy : y.value = signed negative (digits * 10 ^ e)) :
    ofDecimal? digits e = some y.magnitude := by
  rw [decimal_eq_div] at hy
  have hnearest : nearestDecimal digits e = y.magnitude :=
    nearest_eq_magnitude (Nat.pow_pos (by decide)) hy
  rw [ofDecimal?_eq_finite?, hnearest, finite?, if_pos (of_decide_eq_true hfinite)]

end MetricLedger.Binary64
