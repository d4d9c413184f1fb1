import Mathlib.Tactic
import MetricLedger.Binary64.Shortest

/-!
# Decimals of the same value

The magnitude that a decimal is read as depends on its value only, not on how many zeros it is
written with: the shortcuts for values far out of range agree with the rounding they save.
-/

namespace MetricLedger.Binary64

/-! ## Rounding depends on the quotient -/

theorem roundHalfEven_mul_mul {k : ℕ} (hk : 0 < k) (num den : ℕ) :
    roundHalfEven (k * num) (k * den) = roundHalfEven num den := by
  have h1 : 2 * (k * (num % den)) < k * den ↔ 2 * (num % den) < den := by
    rw [Nat.mul_left_comm]
    exact Nat.mul_lt_mul_left hk
  have h2 : k * den < 2 * (k * (num % den)) ↔ den < 2 * (num % den) := by
    rw [Nat.mul_left_comm]
    exact Nat.mul_lt_mul_left hk
  simp only [roundHalfEven, Nat.mul_div_mul_left num den hk, Nat.mul_mod_mul_left, h1, h2]

theorem nearest_mul_mul {k : ℕ} (hk : 0 < k) (num den : ℕ) :
    nearest (k * num) (k * den) = nearest num den := by
  simp only [nearest, Nat.mul_assoc, Nat.mul_div_mul_left (num * unitsOfOne) den hk]
  rw [roundHalfEven_mul_mul hk]

/-- Equal fractions have the same nearest magnitude. -/
theorem nearest_congr {num den num' den' : ℕ} (h : 0 < den) (h' : 0 < den')
    (e : num * den' = num' * den) : nearest num den = nearest num' den' := by
  calc nearest num den = nearest (den' * num) (den' * den) := (nearest_mul_mul h' _ _).symm
    _ = nearest (den * num') (den * den') := by
        rw [Nat.mul_comm den' num, e, Nat.mul_comm num' den, Nat.mul_comm den' den]
    _ = nearest num' den' := nearest_mul_mul h _ _

/-! ## Values far out of range -/

theorem pow_three_mul_le (n : ℕ) : 2 ^ (3 * n) ≤ 10 ^ n := by
  rw [Nat.pow_mul]
  exact Nat.pow_le_pow_left (by decide) n

theorem infinityMagnitude_eq : infinityMagnitude = 2047 * 2 ^ 52 := by decide

theorem unitsOfOne_eq {n : ℕ} (hn : n = 1074) : unitsOfOne = 2 ^ n := by
  exact hn ▸ unitsOfOne.eq_1

/-- A value that exceeds every finite number has no finite nearest magnitude. -/
theorem infinityMagnitude_le_nearest {digits n : ℕ} (h0 : digits ≠ 0)
    (h : farTooLarge digits (.ofNat n) = true) :
    infinityMagnitude ≤ nearest (digits * 10 ^ n) 1 := by
  have hlog : 1100 < Nat.log2 digits + 3 * n := by
    simp only [farTooLarge, decide_eq_true_eq, Int.ofNat_eq_natCast] at h
    omega
  obtain ⟨u, hu⟩ : ∃ u, u = 1074 := ⟨_, rfl⟩
  have hlow : 2 ^ (Nat.log2 digits + 3 * n + u) ≤ digits * 10 ^ n * unitsOfOne := by
    rw [unitsOfOne_eq hu, Nat.pow_add, Nat.pow_add]
    exact Nat.mul_le_mul_right _ (Nat.mul_le_mul (Nat.log2_self_le h0) (pow_three_mul_le n))
  have hne : digits * 10 ^ n * unitsOfOne ≠ 0 := by
    have := Nat.two_pow_pos (Nat.log2 digits + 3 * n + u)
    omega
  have hwide : Nat.log2 digits + 3 * n + u ≤ Nat.log2 (digits * 10 ^ n * unitsOfOne) :=
    (Nat.le_log2 hne).2 hlow
  have hk : 2047 ≤ excess (digits * 10 ^ n * unitsOfOne / 1) := by
    rw [excess, Nat.div_one]
    omega
  rw [infinityMagnitude_eq]
  exact le_trans (Nat.mul_le_mul_right _ hk) (Nat.le_add_right _ _)

/-- A value far below one unit is nearest to zero. -/
theorem nearest_eq_zero {digits n : ℕ} (h0 : digits ≠ 0)
    (h : farTooSmall digits (.negSucc n) = true) : nearest digits (10 ^ (n + 1)) = 0 := by
  have hlog : Nat.log2 digits + 1100 < 3 * (n + 1) := by
    simp only [farTooSmall, decide_eq_true_eq, Int.negSucc_eq] at h
    omega
  obtain ⟨u, hu⟩ : ∃ u, u = 1074 := ⟨_, rfl⟩
  have hhigh : 2 * (digits * unitsOfOne) < 10 ^ (n + 1) := by
    have h1 : digits < 2 ^ (Nat.log2 digits + 1) := (Nat.log2_lt h0).1 (Nat.lt_succ_self _)
    calc 2 * (digits * unitsOfOne) ≤ 2 * (2 ^ (Nat.log2 digits + 1) * 2 ^ u) := by
          rw [unitsOfOne_eq hu]
          exact Nat.mul_le_mul_left 2 (Nat.mul_le_mul_right _ h1.le)
      _ = 2 ^ (Nat.log2 digits + 1 + u + 1) := by rw [← Nat.pow_add, ← Nat.pow_succ']
      _ < 2 ^ (3 * (n + 1)) := Nat.pow_lt_pow_right (by decide) (by omega)
      _ ≤ 10 ^ (n + 1) := pow_three_mul_le (n + 1)
  have hsmall : digits * unitsOfOne < 10 ^ (n + 1) := by omega
  have hz : digits * unitsOfOne / 10 ^ (n + 1) = 0 := Nat.div_eq_of_lt hsmall
  have hk : excess 0 = 0 := rfl
  simp only [nearest, hz, hk, Nat.pow_zero, Nat.mul_one, Nat.zero_mul, Nat.zero_add, roundHalfEven,
    Nat.mod_eq_of_lt hsmall, if_pos hhigh]

/-! ## Reading depends on the value -/

/-- The magnitude, if it is finite. -/
def finite? (m : ℕ) : Option ℕ := if m < infinityMagnitude then some m else none

/-- The magnitude nearest to `digits * 10 ^ e`, finite or not. -/
def nearestDecimal (digits : ℕ) (e : ℤ) : ℕ := nearest (digits * 10 ^ e.toNat) (10 ^ (-e).toNat)

theorem ofDecimal?_eq_finite? (digits : ℕ) (e : ℤ) :
    ofDecimal? digits e = finite? (nearestDecimal digits e) := by
  by_cases h0 : digits = 0
  · subst h0
    have hz : nearestDecimal 0 e = 0 := by
      rw [nearestDecimal, Nat.zero_mul]
      simp [nearest, excess, roundHalfEven]
    rw [hz]
    rfl
  · unfold ofDecimal?
    rw [if_neg h0]
    cases e with
    | ofNat n =>
        have hn : nearestDecimal digits (.ofNat n) = nearest (digits * 10 ^ n) 1 := by
          simp [nearestDecimal]
        rw [hn]
        by_cases hlarge : farTooLarge digits (.ofNat n) = true
        · have hm := infinityMagnitude_le_nearest h0 hlarge
          simp only [if_pos hlarge, finite?, if_neg (lt_irrefl _), if_neg (not_lt.2 hm)]
        · simp only [if_neg hlarge, finite?]
    | negSucc n =>
        have hn : nearestDecimal digits (.negSucc n) = nearest digits (10 ^ (n + 1)) := by
          simp [nearestDecimal]
        rw [hn]
        by_cases hsmall : farTooSmall digits (.negSucc n) = true
        · simp only [if_pos hsmall, nearest_eq_zero h0 hsmall, finite?]
        · simp only [if_neg hsmall, finite?]

/-- Zeros at the end of the digits do not change what a decimal is read as. -/
theorem ofDecimal?_mul_pow (digits : ℕ) (e : ℤ) (k : ℕ) :
    ofDecimal? (digits * 10 ^ k) (e - k) = ofDecimal? digits e := by
  have hpow (a b c d : ℕ) (h : k + a + b = c + d) :
      digits * 10 ^ k * 10 ^ a * 10 ^ b = digits * 10 ^ c * 10 ^ d := by
    rw [Nat.mul_assoc, Nat.mul_assoc, ← Nat.pow_add, ← Nat.pow_add, Nat.mul_assoc, ← Nat.pow_add,
      ← Nat.add_assoc, h]
  have hten (n : ℕ) : 0 < 10 ^ n := Nat.pow_pos (by decide)
  rw [ofDecimal?_eq_finite?, ofDecimal?_eq_finite?]
  refine congrArg finite? (nearest_congr (hten _) (hten _) (hpow _ _ _ _ ?_))
  omega

end MetricLedger.Binary64
