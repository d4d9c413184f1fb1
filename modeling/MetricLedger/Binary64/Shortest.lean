import MetricLedger.Binary64.Rounding

/-!
# The shortest decimal of a double precision number

Every finite number is written with the fewest decimal digits that read back to it and, among the
decimals of that length, with the one nearest to its exact value. Main statement:
`ofDecimal?_shortest`, the decimal chosen reads back.
-/

namespace MetricLedger

/-- The decimal number `digits * 10 ^ exponent`. -/
structure Decimal where
  digits : Nat
  exponent : Int
  deriving DecidableEq, Repr

namespace Binary64

-- Powers are those of the core library, whatever else is imported.
attribute [local instance (2000)] instPowNat

/-- The magnitude `m` divided by `10 ^ e`, as numerator and denominator. -/
def overPowerOfTen (m : Nat) : Int → Nat × Nat
  | .ofNat n => (units m, unitsOfOne * 10 ^ n)
  | .negSucc n => (units m * 10 ^ (n + 1), unitsOfOne)

def readsAs (m : Nat) (d : Decimal) : Bool := ofDecimal? d.digits d.exponent == some m

/-- The multiples of `10 ^ e` next to the magnitude `m`, the nearer one first; of two at the same
distance the even one comes first. -/
def neighbours (m : Nat) (e : Int) : List Decimal :=
  let (num, den) := overPowerOfTen m e
  let low := num / den
  let r := num % den
  if 2 * r < den ∨ (2 * r = den ∧ low % 2 = 0) then [⟨low, e⟩, ⟨low + 1, e⟩]
  else [⟨low + 1, e⟩, ⟨low, e⟩]

/-- The units of the magnitude `m` divided by `2 ^ (n + 1)`, in decimal and exact. -/
def withPlaces (m n : Nat) : Decimal := ⟨units m * 5 ^ (n + 1), .negSucc n⟩

def exactDecimal (m : Nat) : Decimal := withPlaces m 1073

/-- The first decimal that reads as `m`, on ever finer grids of `steps` powers of ten from `e` down;
the exact value if none does. -/
def searchFrom (m : Nat) : Nat → Int → Decimal
  | 0, _ => exactDecimal m
  | steps + 1, e =>
      match (neighbours m e).find? (readsAs m) with
      | some d => d
      | none => searchFrom m steps (e - 1)

/-- A power of ten above the magnitude `m`, by at most two places. -/
def startExponent (m : Nat) : Int :=
  Int.fdiv (((Nat.log2 (units m) : Int) - 1074) * 30103) 100000 + 1

/-- The shortest decimal that reads as the finite magnitude `m`. -/
def shortest (m : Nat) : Decimal :=
  if m = 0 then ⟨0, 0⟩ else searchFrom m 20 (startExponent m)

/-! ## Laws -/

theorem units_pos {m : Nat} (h : m ≠ 0) : 0 < units m := by
  unfold units significand
  refine Nat.mul_pos ?_ (Nat.two_pow_pos _)
  split <;> omega

theorem ofDecimal?_negSucc {digits n m : Nat} (h0 : digits ≠ 0)
    (hs : farTooSmall digits (.negSucc n) = false) (hn : nearest digits (10 ^ (n + 1)) = m)
    (hm : m < infinityMagnitude) : ofDecimal? digits (.negSucc n) = some m := by
  simp only [ofDecimal?, if_neg h0, hs, hn, hm, if_true, Bool.false_eq_true, if_false]

theorem ofDecimal?_withPlaces {m n : Nat} (h0 : m ≠ 0) (hm : m < infinityMagnitude)
    (hn : n + 1 = 1074) :
    ofDecimal? (withPlaces m n).digits (withPlaces m n).exponent = some m := by
  have hu := units_pos h0
  have hone : unitsOfOne = 2 ^ (n + 1) := by rw [hn, unitsOfOne]
  have hdigits : units m * 5 ^ (n + 1) ≠ 0 :=
    Nat.mul_ne_zero (Nat.ne_of_gt hu) (Nat.ne_of_gt (Nat.pow_pos (by decide)))
  have hsmall : farTooSmall (units m * 5 ^ (n + 1)) (.negSucc n) = false := by
    have h1 : 2 ^ (2 * (n + 1)) ≤ units m * 5 ^ (n + 1) := by
      rw [Nat.pow_mul]
      exact Nat.le_trans (Nat.pow_le_pow_left (by decide) _) (Nat.le_mul_of_pos_left _ hu)
    have h2 := (Nat.le_log2 hdigits).2 h1
    simp only [farTooSmall, decide_eq_false_iff_not]
    omega
  have hten : (10 : Nat) ^ (n + 1) = 5 ^ (n + 1) * 2 ^ (n + 1) := Nat.mul_pow 5 2 _
  refine ofDecimal?_negSucc hdigits hsmall ?_ hm
  exact nearest_mul_unitsOfOne (Nat.pow_pos (by decide)) (by rw [hten, hone]; exact Nat.mul_assoc _ _ _)

theorem ofDecimal?_exactDecimal {m : Nat} (h0 : m ≠ 0) (hm : m < infinityMagnitude) :
    ofDecimal? (exactDecimal m).digits (exactDecimal m).exponent = some m :=
  ofDecimal?_withPlaces h0 hm rfl

theorem ofDecimal?_searchFrom {m : Nat} (h0 : m ≠ 0) (hm : m < infinityMagnitude) (steps : Nat)
    (e : Int) :
    ofDecimal? (searchFrom m steps e).digits (searchFrom m steps e).exponent = some m := by
  induction steps generalizing e with
  | zero => exact ofDecimal?_exactDecimal h0 hm
  | succ steps ih =>
      unfold searchFrom
      split
      next d hd => simpa [readsAs] using List.find?_some hd
      next => exact ih _

/-- The shortest decimal of a finite magnitude reads back to it. -/
theorem ofDecimal?_shortest {m : Nat} (hm : m < infinityMagnitude) :
    ofDecimal? (shortest m).digits (shortest m).exponent = some m := by
  unfold shortest
  split
  next h => subst h; rfl
  next h => exact ofDecimal?_searchFrom h hm _ _

end Binary64

end MetricLedger
