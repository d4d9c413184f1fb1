import MetricLedger.Proofs.Binary64.Nearest
import MetricLedger.Proofs.Json.Numeral

/-!
# What numerals are kept as

The exact value that a numeral stands for, and the value that it is kept as: its own if it is written
as a whole number that fits into 64 bits, and the one of the nearest double precision number
otherwise. Main statements: `Numeral.kept?_eq_some_iff` and `Numeral.keepsCounters_iff`.
-/

namespace MetricLedger.Json

/-! ## Values -/

/-- The value of the digits behind a point. -/
def Digits.fractionValue (ds : Digits) : ℚ := digitsValue ds.chars / 10 ^ ds.chars.length

namespace Numeral

/-- The exact value of a numeral. -/
def value (n : Numeral) : ℚ :=
  Binary64.signed n.negative
    ((digitsValue n.whole + (n.fraction.map Digits.fractionValue).getD 0) * 10 ^ n.power)

end Numeral

/-- The exact value of a literal. -/
def Literal.value (l : Literal) : ℚ := Binary64.signed l.negative (l.digits * 10 ^ l.exponent)

theorem Numeral.literal_value (n : Numeral) : n.literal.value = n.value := by
  have h10 : (10 : ℚ) ≠ 0 := by norm_num
  unfold Literal.value Numeral.value Numeral.literal
  refine congrArg (Binary64.signed n.negative) ?_
  cases n.fraction with
  | none => simp
  | some ds =>
      simp only [Option.map_some, Option.getD_some, digitsValue_append, Digits.fractionValue,
        zpow_sub₀ h10, zpow_natCast]
      push_cast
      field_simp

/-! ## What literals are kept as -/

/-- A number as literals are kept: a whole number that fits into 64 bits, with a sign or without, or
a finite number. -/
def Number.IsKept : Number → Prop
  | .whole n => n.natAbs ≤ 2 ^ 64
  | .real x => x.isFinite = true

namespace Literal

variable {l : Literal}

theorem isFinite_of_real? {x : Binary64} (h : l.real? = some x) : x.isFinite = true := by
  obtain ⟨m, hm, rfl⟩ := Option.map_eq_some_iff.1 h
  rw [Binary64.ofDecimal?_eq_finite?, Binary64.finite?] at hm
  split_ifs at hm with hfinite
  rw [Option.some.inj hm] at hfinite
  exact Binary64.isFinite_ofMagnitude hfinite

theorem natAbs_le_of_whole? {n : ℤ} (h : l.whole? = some n) : n.natAbs ≤ 2 ^ 64 := by
  unfold whole? Text.maxUnsigned64 Text.maxSigned64 at h
  split_ifs at h <;> obtain rfl := Option.some.inj h <;> omega

theorem isKept_of_number {n : Number} (h : l.number = .ok n) : n.IsKept := by
  unfold number at h
  split at h
  next hwhole =>
    obtain rfl := Except.ok.inj h
    exact natAbs_le_of_whole? hwhole
  next =>
    split at h
    next hreal =>
      obtain rfl := Except.ok.inj h
      exact isFinite_of_real? hreal
    next => cases h

end Literal

/-! ## What numerals are kept as -/

/-- The exact value of a number that was read. -/
def Number.value : Number → ℚ
  | .whole n => n
  | .real x => x.value

namespace Numeral

/-- The numeral is written without a fraction and without an exponent. -/
def isPlain (n : Numeral) : Bool := n.fraction.isNone && n.exponent.isNone

/-- The numeral is a whole number of 64 bits, with a sign or without, and written as one. -/
def IsShort (n : Numeral) : Prop :=
  n.isPlain = true ∧ -2 ^ 63 ≤ n.value ∧ n.value ≤ 2 ^ 64 - 1

instance (n : Numeral) : Decidable n.IsShort := inferInstanceAs (Decidable (_ ∧ _ ∧ _))

/-- The value of the numeral is that of a double precision number. -/
def IsDouble (n : Numeral) : Prop := ∃ x : Binary64, x.isFinite = true ∧ x.value = n.value

/-- The double precision number that the numeral is rounded to, or nothing if that is infinite. -/
def rounded? (n : Numeral) : Option Binary64 := n.literal.real?

/-- The value that the numeral is kept as. -/
def kept? (n : Numeral) : Option ℚ :=
  if n.IsShort then some n.value else n.rounded?.map Binary64.value

variable {n : Numeral}

/-- The literal of a numeral without fraction and exponent. -/
theorem literal_of_isPlain (h : n.isPlain = true) :
    n.literal = ⟨n.negative, digitsValue n.whole, 0, true⟩ := by
  simp only [isPlain, Bool.and_eq_true, Option.isNone_iff_eq_none] at h
  simp [literal, power, h.1, h.2]

theorem value_of_isPlain (h : n.isPlain = true) :
    n.value = Binary64.signed n.negative (digitsValue n.whole) := by
  rw [← literal_value, literal_of_isPlain h, Literal.value, zpow_zero, mul_one]

theorem isShort_iff_of_negative (h : n.isPlain = true) (hneg : n.negative = true) :
    n.IsShort ↔ digitsValue n.whole ≤ 2 ^ 63 := by
  rw [IsShort, value_of_isPlain h, hneg, Binary64.signed, if_pos rfl]
  have hcast : (digitsValue n.whole : ℚ) ≤ 2 ^ 63 ↔ digitsValue n.whole ≤ 2 ^ 63 := by
    exact_mod_cast Iff.rfl
  have hpos : (0 : ℚ) ≤ digitsValue n.whole := Nat.cast_nonneg _
  rw [← hcast]
  constructor
  · rintro ⟨-, hlow, -⟩
    linarith
  · exact fun hle => ⟨h, by linarith, by linarith⟩

theorem isShort_iff_of_nonneg (h : n.isPlain = true) (hneg : n.negative = false) :
    n.IsShort ↔ digitsValue n.whole < 2 ^ 64 := by
  rw [IsShort, value_of_isPlain h, hneg, Binary64.signed, if_neg (by decide)]
  have hcast : (digitsValue n.whole + 1 : ℚ) ≤ 2 ^ 64 ↔ digitsValue n.whole < 2 ^ 64 := by
    exact_mod_cast Iff.rfl
  have hpos : (0 : ℚ) ≤ digitsValue n.whole := Nat.cast_nonneg _
  rw [← hcast]
  constructor
  · rintro ⟨-, -, hhigh⟩
    linarith
  · exact fun hle => ⟨h, by linarith, by linarith⟩

theorem whole?_of_nonneg (h : n.isPlain = true) (hneg : n.negative = false) :
    n.literal.whole? = if n.IsShort then some (digitsValue n.whole : ℤ) else none := by
  have hle : digitsValue n.whole ≤ Text.maxUnsigned64 ↔ digitsValue n.whole < 2 ^ 64 :=
    Nat.lt_succ_iff.symm
  simp only [literal_of_isPlain h, Literal.whole?, hneg, isShort_iff_of_nonneg h hneg, hle,
    Bool.not_true, Bool.not_false, Bool.false_eq_true, if_false, if_true]

/-- Minus zero is kept in double precision, which keeps its sign. -/
theorem whole?_of_negative (h : n.isPlain = true) (hneg : n.negative = true) :
    n.literal.whole? =
      if 0 < digitsValue n.whole ∧ n.IsShort then some (-(digitsValue n.whole : ℤ)) else none := by
  have hle : digitsValue n.whole ≤ Text.maxSigned64 + 1 ↔ digitsValue n.whole ≤ 2 ^ 63 := Iff.rfl
  simp only [literal_of_isPlain h, Literal.whole?, hneg, isShort_iff_of_negative h hneg, hle,
    Bool.not_true, Bool.false_eq_true, if_false]

theorem whole?_of_not_isShort (h : ¬n.IsShort) : n.literal.whole? = none := by
  cases hplain : n.isPlain with
  | false =>
      have hwhole : n.literal.whole = false := hplain
      simp [Literal.whole?, hwhole]
  | true =>
      cases hneg : n.negative with
      | false => rw [whole?_of_nonneg hplain hneg, if_neg h]
      | true => rw [whole?_of_negative hplain hneg, if_neg (h ·.2)]

/-- A numeral that is kept in double precision is a number exactly if it is rounded to one. -/
theorem number_of_not_isShort (h : ¬n.IsShort) {m : Number} :
    n.literal.number = .ok m ↔ ∃ x, n.rounded? = some x ∧ m = .real x := by
  rw [Literal.number, whole?_of_not_isShort h, ← rounded?]
  cases n.rounded? with
  | none => simp
  | some x => simp [eq_comm]

theorem number_of_isShort (h : n.IsShort) :
    ∃ m, n.literal.number = .ok m ∧ m.value = n.value := by
  have hplain := h.1
  rw [value_of_isPlain hplain, Literal.number]
  cases hneg : n.negative with
  | false =>
      rw [whole?_of_nonneg hplain hneg, if_pos h]
      exact ⟨_, rfl, by simp [Number.value, Binary64.signed]⟩
  | true =>
      rw [whole?_of_negative hplain hneg]
      by_cases hzero : digitsValue n.whole = 0
      · have hreal : n.literal.real? = some (Binary64.ofMagnitude true 0) := by
          rw [literal_of_isPlain hplain, hneg, hzero]
          rfl
        have hunits : Binary64.units 0 = 0 := by decide
        rw [if_neg (by omega), hreal, hzero]
        refine ⟨_, rfl, ?_⟩
        rw [Number.value, Binary64.value_ofMagnitude (by decide), hunits, Nat.cast_zero, zero_div]
      · rw [if_pos ⟨Nat.pos_of_ne_zero hzero, h⟩]
        exact ⟨_, rfl, by simp [Number.value, Binary64.signed]⟩

/-- The number that a numeral is read as has the value that the numeral is kept as. -/
theorem kept?_eq_some_iff {v : ℚ} :
    n.kept? = some v ↔ ∃ m, n.literal.number = .ok m ∧ m.value = v := by
  unfold kept?
  split
  next h =>
    obtain ⟨m, hm, hvalue⟩ := number_of_isShort h
    rw [Option.some_inj, hm]
    constructor
    · rintro rfl
      exact ⟨m, rfl, hvalue⟩
    · rintro ⟨m', hm', rfl⟩
      rw [← Except.ok.inj hm', hvalue]
  next h =>
    simp only [Option.map_eq_some_iff, number_of_not_isShort h]
    constructor
    · rintro ⟨x, hx, rfl⟩
      exact ⟨_, ⟨x, hx, rfl⟩, rfl⟩
    · rintro ⟨_, ⟨x, hx, rfl⟩, rfl⟩
      exact ⟨x, hx, rfl⟩

/-- No double precision number is nearer to the numeral than what it is kept as. -/
theorem abs_kept?_sub_le {v : ℚ} (h : n.kept? = some v) (x : Binary64) :
    |v - n.value| ≤ |x.value - n.value| := by
  unfold kept? at h
  split at h
  next => 
    rw [← Option.some.inj h, sub_self, abs_zero]
    exact abs_nonneg _
  next =>
    obtain ⟨d, hd, rfl⟩ := Option.map_eq_some_iff.1 h
    obtain ⟨m, hm, rfl⟩ := Option.map_eq_some_iff.1 hd
    rw [← literal_value]
    exact Binary64.abs_value_sub_decimal_le hm _ x

theorem kept?_eq_value_iff : n.kept? = some n.value ↔ n.IsShort ∨ n.IsDouble := by
  constructor
  · intro h
    unfold kept? at h
    split at h
    next hshort => exact .inl hshort
    next =>
      obtain ⟨x, hx, hvalue⟩ := Option.map_eq_some_iff.1 h
      exact .inr ⟨x, Literal.isFinite_of_real? hx, hvalue⟩
  · rintro (hshort | ⟨x, hx, hvalue⟩)
    · exact if_pos hshort
    · have hkept : ∃ v, n.kept? = some v := by
        unfold kept?
        split
        next => exact ⟨_, rfl⟩
        next =>
          rw [← literal_value] at hvalue
          rw [rounded?, Literal.real?, Binary64.ofDecimal?_eq_magnitude hx hvalue]
          exact ⟨_, rfl⟩
      -- What is at least as near as the value itself is the value.
      obtain ⟨v, hv⟩ := hkept
      have hnear := abs_kept?_sub_le hv x
      rw [hvalue, sub_self, abs_zero, abs_nonpos_iff, sub_eq_zero] at hnear
      rw [hv, hnear]

/-- The numeral of a whole number. -/
def ofInt (z : ℤ) : Numeral where
  negative := decide (z < 0)
  whole := Text.decimal z.natAbs
  isWhole := isWhole_decimal z.natAbs
  fraction := none
  exponent := none

theorem value_ofInt (z : ℤ) : (ofInt z).value = z := by
  rw [value_of_isPlain rfl]
  simp only [ofInt, digitsValue_decimal, Binary64.signed, decide_eq_true_eq]
  split_ifs with h
  · rw [Nat.cast_natAbs, abs_of_neg h]
    simp
  · rw [Nat.cast_natAbs, abs_of_nonneg (not_lt.1 h)]

/-! ## Numerals that are kept as counter values -/

/-- The numeral is kept as the value of a counter exactly if that is its own value. -/
def KeepsCounters (n : Numeral) : Prop :=
  ∀ x : Int64, n.kept? = some (x.toInt : ℚ) ↔ n.value = x.toInt

theorem keepsCounters_iff :
    n.KeepsCounters ↔
      n.IsShort ∨ n.IsDouble ∨ ∀ x : Int64, n.kept? ≠ some (x.toInt : ℚ) ∧ n.value ≠ x.toInt := by
  rw [← or_assoc, ← kept?_eq_value_iff]
  constructor
  · intro h
    by_cases hkept : n.kept? = some n.value
    · exact .inl hkept
    · refine .inr fun x => ⟨fun hx => hkept ?_, fun hx => hkept ?_⟩
      · rw [hx, (h x).1 hx]
      · rw [(h x).2 hx, hx]
  · rintro (hkept | hneither) x
    · rw [hkept, Option.some_inj]
    · exact ⟨fun hx => absurd hx (hneither x).1, fun hx => absurd hx (hneither x).2⟩

theorem ne_toInt_of_lt_abs {v : ℚ} (h : 2 ^ 63 < |v|) (x : Int64) : v ≠ x.toInt := by
  rintro rfl
  have hlow : -2 ^ 63 ≤ x.toInt := Int64.minValue_le_toInt x
  have hhigh : x.toInt < 2 ^ 63 := Int64.toInt_lt x
  have habs : |(x.toInt : ℚ)| ≤ 2 ^ 63 := by
    rw [abs_le]
    exact ⟨by exact_mod_cast hlow, by exact_mod_cast hhigh.le⟩
  exact absurd h (not_lt.2 habs)

/-- What a whole number that is too great for 64 bits is kept as. -/
theorem kept?_of_large (hplain : n.isPlain = true) (hshort : ¬n.IsShort) {k : ℕ}
    (hlow : 2 ^ 52 * 2 ^ k ≤ digitsValue n.whole) (hhigh : digitsValue n.whole < 2 ^ 53 * 2 ^ k)
    {v : ℚ} :
    n.kept? = some v ↔
      Binary64.nearest (digitsValue n.whole) 1 < Binary64.infinityMagnitude ∧
      v = Binary64.signed n.negative
        (Binary64.roundHalfEven (digitsValue n.whole) (2 ^ k) * 2 ^ k : ℕ) := by
  have hnearest : Binary64.nearestDecimal (digitsValue n.whole) 0 =
      Binary64.nearest (digitsValue n.whole) 1 := by
    simp [Binary64.nearestDecimal]
  rw [kept?, if_neg hshort, rounded?, literal_of_isPlain hplain, Literal.real?,
    Binary64.ofDecimal?_eq_finite?, hnearest, Binary64.finite?]
  split_ifs with hm
  · rw [← Binary64.value_nearest_whole hlow hhigh hm]
    simp [hm, eq_comm]
  · simp [hm]

theorem lt_digitsValue_of_not_isShort (hplain : n.isPlain = true) (hshort : ¬n.IsShort) :
    2 ^ 63 < digitsValue n.whole ∧ (n.negative = false → 2 ^ 64 ≤ digitsValue n.whole) := by
  cases hneg : n.negative with
  | false =>
      rw [isShort_iff_of_nonneg hplain hneg] at hshort
      omega
  | true =>
      rw [isShort_iff_of_negative hplain hneg] at hshort
      exact ⟨by omega, nofun⟩

/-- Just below the least counter value, a whole number is kept as that one. -/
theorem kept?_of_just_below (hplain : n.isPlain = true) (hneg : n.negative = true)
    (hlow : 2 ^ 63 < digitsValue n.whole) (hhigh : digitsValue n.whole ≤ 2 ^ 63 + 1024) :
    n.kept? = some (Int64.minValue.toInt : ℚ) := by
  have hshort : ¬n.IsShort := by
    rw [isShort_iff_of_negative hplain hneg]
    omega
  have hlow' : 2 ^ 52 * 2 ^ 11 ≤ digitsValue n.whole := by omega
  have hhigh' : digitsValue n.whole < 2 ^ 53 * 2 ^ 11 := by omega
  have hround : Binary64.roundHalfEven (digitsValue n.whole) (2 ^ 11) = 2 ^ 52 := by
    simp only [Binary64.roundHalfEven]
    split_ifs <;> omega
  have hmin : Int64.minValue.toInt = -2 ^ 63 := by decide
  rw [kept?_of_large hplain hshort hlow' hhigh', Binary64.nearest_whole hlow' hhigh', hround, hneg,
    hmin]
  exact ⟨by decide, by norm_num [Binary64.signed]⟩

theorem kept?_ne_of_far (hplain : n.isPlain = true) (hshort : ¬n.IsShort)
    (hfar : 2 ^ 63 + 1024 < digitsValue n.whole) (x : Int64) :
    n.kept? ≠ some (x.toInt : ℚ) := by
  obtain ⟨k, hlow, hhigh⟩ := Binary64.exists_scale (w := digitsValue n.whole) (by omega)
  have hround := (Binary64.two_pow_63_lt_roundHalfEven_iff hlow hhigh (by omega)).2 hfar
  intro hx
  refine ne_toInt_of_lt_abs ?_ x ((kept?_of_large hplain hshort hlow hhigh).1 hx).2.symm
  rw [Binary64.abs_signed _ (Nat.cast_nonneg _)]
  exact_mod_cast hround

/-- Of the numerals without fraction and exponent, only those just below the least counter value are
kept as another counter value. -/
theorem keepsCounters_iff_of_isPlain (hplain : n.isPlain = true) :
    n.KeepsCounters ↔ ¬(-2 ^ 63 - 1024 ≤ n.value ∧ n.value < -2 ^ 63) := by
  by_cases hshort : n.IsShort
  · exact iff_of_true (keepsCounters_iff.2 (.inl hshort)) fun h => absurd hshort.2.1 (not_le.2 h.2)
  obtain ⟨hwide, hnonneg⟩ := lt_digitsValue_of_not_isShort hplain hshort
  have hwide' : (2 ^ 63 : ℚ) < digitsValue n.whole := by exact_mod_cast hwide
  have hvalue (x : Int64) : n.value ≠ x.toInt := by
    refine ne_toInt_of_lt_abs ?_ x
    rwa [value_of_isPlain hplain, Binary64.abs_signed _ (Nat.cast_nonneg _)]
  have hkeeps : n.KeepsCounters ↔ ∀ x : Int64, n.kept? ≠ some (x.toInt : ℚ) :=
    forall_congr' fun x => by simp [hvalue x]
  rw [hkeeps]
  cases hneg : n.negative with
  | false =>
      have hfar := kept?_ne_of_far hplain hshort (by have := hnonneg hneg; omega)
      refine iff_of_true hfar fun h => ?_
      rw [value_of_isPlain hplain, hneg, Binary64.signed, if_neg (by decide)] at h
      linarith
  | true =>
      rw [value_of_isPlain hplain, hneg, Binary64.signed, if_pos rfl]
      obtain hnear | hfar := le_or_gt (digitsValue n.whole) (2 ^ 63 + 1024)
      · have hnear' : (digitsValue n.whole : ℚ) ≤ 2 ^ 63 + 1024 := by exact_mod_cast hnear
        refine iff_of_false (fun h => ?_) fun h => h ⟨by linarith, by linarith⟩
        exact h _ (kept?_of_just_below hplain hneg hwide hnear)
      · have hfar' : (2 ^ 63 + 1024 : ℚ) < digitsValue n.whole := by exact_mod_cast hfar
        refine iff_of_true (kept?_ne_of_far hplain hshort hfar) fun h => ?_
        linarith

end Numeral

end MetricLedger.Json
