import Mathlib.Tactic
import MetricLedger.Retry

/-!
# Pauses between attempts

The pause before a repetition is the first pause, doubled at most sixteen times, and no longer than
the longest pause or the first one. Main statement: `delay_eq_doubled_iff`, where this is the first
pause doubled each time up to the longest pause.
-/

namespace MetricLedger.RetryPolicy

variable (p : RetryPolicy)

/-- The pause before the repetition that follows `n` others, doubled each time up to the longest. -/
def doubledDelay (n : ℕ) : ℕ := min (p.baseDelay.toNat * 2 ^ n) p.maxDelay.toNat

/-- The longest pause that is ever made. -/
def ceiling : ℕ := max p.maxDelay.toNat p.baseDelay.toNat

/-! ## Its length -/

theorem ceiling_lt : p.ceiling < 2 ^ 64 := max_lt p.maxDelay.toNat_lt p.baseDelay.toNat_lt

/-- The width of a word never shows in a pause, since no pause is longer than the ceiling. -/
theorem delay_succ (n : ℕ) :
    p.delay (n + 1) = min (p.baseDelay.toNat * 2 ^ min n maxDoublings) p.ceiling := by
  have hfits : p.ceiling ≤ Text.maxUnsigned64 := Nat.le_pred_of_lt p.ceiling_lt
  simp only [delay, Nat.add_one_ne_zero, if_false, Nat.add_sub_cancel]
  rw [min_assoc, ← ceiling, min_eq_right hfits]

theorem delay_le_ceiling (n : ℕ) : p.delay n ≤ p.ceiling := p.delay_le n

/-- No pause is shorter than the one before it. -/
theorem delay_mono : Monotone p.delay := by
  refine monotone_nat_of_le_succ fun n => ?_
  cases n with
  | zero => exact Nat.zero_le _
  | succ n =>
      rw [delay_succ, delay_succ]
      have hpow : 2 ^ min n maxDoublings ≤ 2 ^ min (n + 1) maxDoublings :=
        Nat.pow_le_pow_right (by decide) (min_le_min_right _ (Nat.le_succ n))
      exact min_le_min_right _ (Nat.mul_le_mul_left _ hpow)

/-! ## The doubled pause -/

theorem le_delay_succ (n : ℕ) : p.baseDelay.toNat ≤ p.delay (n + 1) := by
  rw [delay_succ]
  exact le_min (Nat.le_mul_of_pos_right _ (Nat.two_pow_pos _)) (le_max_right _ _)

/-- A pause is as long as the doubled one would be after sixteen doublings at most, but never
shorter than the first one. -/
theorem delay_eq_max (n : ℕ) :
    p.delay (n + 1) = max p.baseDelay.toNat (p.doubledDelay (min n maxDoublings)) := by
  rw [delay_succ, doubledDelay, max_min_distrib_left,
    max_eq_right (Nat.le_mul_of_pos_right _ (Nat.two_pow_pos _)), ceiling, max_comm]

theorem doubledDelay_le (n : ℕ) : p.doubledDelay n ≤ p.maxDelay.toNat := min_le_right _ _

theorem baseDelay_le_doubledDelay (h : p.baseDelay.toNat ≤ p.maxDelay.toNat) (n : ℕ) :
    p.baseDelay.toNat ≤ p.doubledDelay n :=
  le_min (Nat.le_mul_of_pos_right _ (Nat.two_pow_pos n)) h

/-- Beyond the doublings that are counted, the doubled pause stays as it is only if it has reached
its limit or is nothing. -/
theorem doubledDelay_eq_iff {m n : ℕ} (h : m < n) :
    p.doubledDelay m = p.doubledDelay n ↔
      p.baseDelay.toNat = 0 ∨ p.maxDelay.toNat ≤ p.baseDelay.toNat * 2 ^ m := by
  unfold doubledDelay
  generalize p.maxDelay.toNat = limit
  obtain hbase | hbase := Nat.eq_zero_or_pos p.baseDelay.toNat
  · simp [hbase]
  · have hgrows : p.baseDelay.toNat * 2 ^ m < p.baseDelay.toNat * 2 ^ n :=
      Nat.mul_lt_mul_of_pos_left (Nat.pow_lt_pow_right (by decide) h) hbase
    omega

theorem doubledDelay_min_eq_iff (limit n : ℕ) :
    p.doubledDelay (min n limit) = p.doubledDelay n ↔
      n ≤ limit ∨ p.baseDelay.toNat = 0 ∨ p.maxDelay.toNat ≤ p.baseDelay.toNat * 2 ^ limit := by
  obtain hn | hn := Nat.lt_or_ge limit n
  · rw [min_eq_right hn.le, p.doubledDelay_eq_iff hn]
    simp [hn]
  · rw [min_eq_left hn]
    exact iff_of_true rfl (.inl hn)

/-- The pause before the repetition that follows `n` others is the first one doubled `n` times, up
to the longest, exactly if the first one is no longer than the longest and all doublings count:
there are no more than sixteen, or the longest pause is reached by then, or there are no pauses at
all. Otherwise the doublings stop at sixteen, and a first pause that is longer than the longest is
the length of every pause. -/
theorem delay_eq_doubled_iff :
    (∀ n, p.delay (n + 1) = p.doubledDelay n ↔
      p.baseDelay.toNat ≤ p.maxDelay.toNat ∧
        (n ≤ 16 ∨ p.baseDelay.toNat = 0 ∨ p.maxDelay.toNat ≤ p.baseDelay.toNat * 2 ^ 16)) ∧
    (∀ n, p.delay (n + 1) = max p.baseDelay.toNat (p.doubledDelay (min n 16))) ∧
    ((∀ n, p.delay n ≤ p.maxDelay.toNat) ↔ p.baseDelay.toNat ≤ p.maxDelay.toNat) := by
  refine ⟨fun n => ?_, p.delay_eq_max, fun h => (p.le_delay_succ 0).trans (h 1), fun h n => ?_⟩
  · obtain h | h := Nat.lt_or_ge p.maxDelay.toNat p.baseDelay.toNat
    · have hlonger := (p.doubledDelay_le n).trans_lt (h.trans_le (p.le_delay_succ n))
      exact iff_of_false hlonger.ne' fun hle => absurd hle.1 h.not_ge
    · rw [p.delay_eq_max, max_eq_right (p.baseDelay_le_doubledDelay h _), maxDoublings,
        p.doubledDelay_min_eq_iff, and_iff_right h]
  · exact (p.delay_le_ceiling n).trans (max_eq_left h).le

/-- The eighteenth pause is no longer than the seventeenth, far below the longest; and a first pause
may be longer than the longest. -/
theorem delay_notDoubled :
    (⟨20, 1, 1000000⟩ : RetryPolicy).delay 18 = 65536 ∧
      (⟨20, 1, 1000000⟩ : RetryPolicy).doubledDelay 17 = 131072 ∧
      (⟨3, 10000, 5000⟩ : RetryPolicy).delay 1 = 10000 ∧
      (⟨3, 10000, 5000⟩ : RetryPolicy).doubledDelay 0 = 5000 := by
  decide

end MetricLedger.RetryPolicy
