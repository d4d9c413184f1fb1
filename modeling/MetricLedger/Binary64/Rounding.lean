import MetricLedger.Binary64.Basic

/-!
# Rounding to double precision

The magnitude nearest to a positive fraction, a fraction half-way between two magnitudes going to
the even one, and with it the reading of a decimal numeral.
-/

namespace MetricLedger.Binary64

-- Powers are those of the core library, whatever else is imported.
attribute [local instance (2000)] instPowNat

/-- The quotient rounded to the nearest whole number, a half going to the even neighbour. -/
def roundHalfEven (num den : Nat) : Nat :=
  let q := num / den
  let r := num % den
  if 2 * r < den then q
  else if den < 2 * r then q + 1
  else if q % 2 = 0 then q else q + 1

/-- The power of two by which a value of so many whole units exceeds 53 bits. -/
def excess (wholeUnits : Nat) : Nat := Nat.log2 wholeUnits - 52

/-- The magnitude nearest to `num / den`; it is past the finite ones where the value is too large. -/
def nearest (num den : Nat) : Nat :=
  let k := excess (num * unitsOfOne / den)
  k * 2 ^ (52 : Nat) + roundHalfEven (num * unitsOfOne) (den * 2 ^ k)

/-- A value past every finite number, for any nonzero `digits * 10 ^ e`. -/
def farTooLarge (digits : Nat) (e : Int) : Bool := 1100 < (Nat.log2 digits : Int) + 3 * e

/-- A value nearer to zero than to any other number, for any `digits * 10 ^ e`. -/
def farTooSmall (digits : Nat) (e : Int) : Bool := (Nat.log2 digits : Int) + 3 * e < -1100

/-- The magnitude nearest to `digits * 10 ^ e`, or nothing if that is infinite. -/
def ofDecimal? (digits : Nat) (e : Int) : Option Nat :=
  if digits = 0 then some 0
  else
    let m :=
      match e with
      | .ofNat n =>
          if farTooLarge digits e then infinityMagnitude else nearest (digits * 10 ^ n) 1
      | .negSucc n =>
          if farTooSmall digits e then 0 else nearest digits (10 ^ (n + 1))
    if m < infinityMagnitude then some m else none

/-- The number nearest to a whole number. -/
def ofInt (n : Int) : Binary64 := ofMagnitude (n < 0) (nearest n.natAbs 1)

/-! ## Laws -/

/-- A whole quotient is its own rounding. -/
theorem roundHalfEven_mul {q den : Nat} (h : 0 < den) : roundHalfEven (q * den) den = q := by
  simp [roundHalfEven, Nat.mul_div_cancel _ h, h]

/-- Rounding never moves a value by more than one half. -/
theorem roundHalfEven_le (num : Nat) {den : Nat} (h : 0 < den) :
    2 * (roundHalfEven num den * den) ≤ 2 * num + den ∧
      2 * num ≤ 2 * (roundHalfEven num den * den) + den := by
  have hd := Nat.div_add_mod' num den
  have hr := Nat.mod_lt num h
  have h1 : (num / den + 1) * den = num / den * den + den := by rw [Nat.add_mul, Nat.one_mul]
  simp only [roundHalfEven]
  repeat' split
  all_goals omega

/-- A magnitude is put together again from its scale and its significand. -/
theorem scale_mul_add_significand (m : Nat) : scale m * 2 ^ (52 : Nat) + significand m = m := by
  have hd := Nat.div_add_mod' m (2 ^ (52 : Nat))
  unfold significand scale
  split
  next h => rw [Nat.div_eq_of_lt h, Nat.zero_sub, Nat.zero_mul, Nat.zero_add]
  next h =>
    have h1 : 1 ≤ m / 2 ^ (52 : Nat) := (Nat.one_le_div_iff (Nat.two_pow_pos 52)).2 (Nat.le_of_not_lt h)
    obtain ⟨a, ha⟩ := Nat.exists_eq_add_of_le h1
    rw [ha, Nat.add_mul, Nat.one_mul] at hd
    rw [ha, Nat.add_sub_cancel_left, ← Nat.add_assoc, Nat.add_comm (a * 2 ^ (52 : Nat)), hd]

/-- A value that is a magnitude already is its own nearest magnitude. -/
theorem nearest_mul_unitsOfOne {m : Nat} {num den : Nat} (hden : 0 < den)
    (h : num * unitsOfOne = units m * den) : nearest num den = m := by
  have hw : num * unitsOfOne / den = units m := by rw [h, Nat.mul_div_cancel _ hden]
  have hk : excess (units m) = scale m := by
    unfold excess
    unfold units significand scale
    split
    next hm =>
      have hz : m / 2 ^ (52 : Nat) = 0 := Nat.div_eq_of_lt hm
      rw [hz]
      simp only [Nat.zero_sub, Nat.pow_zero, Nat.mul_one]
      by_cases h0 : m = 0
      · subst h0; rfl
      · have := (Nat.log2_lt h0 (k := 52)).2 hm
        omega
    next hm =>
      generalize hs : m / 2 ^ (52 : Nat) - 1 = s
      generalize hf : m % 2 ^ (52 : Nat) = f
      have hflt : f < 2 ^ (52 : Nat) := hf ▸ Nat.mod_lt _ (by decide)
      have hpos : 0 < 2 ^ s := Nat.two_pow_pos s
      have hne : (2 ^ (52 : Nat) + f) * 2 ^ s ≠ 0 := Nat.mul_ne_zero (by omega) (by omega)
      have hlow : 2 ^ (52 + s) ≤ (2 ^ (52 : Nat) + f) * 2 ^ s := by
        rw [Nat.pow_add]; exact Nat.mul_le_mul_right _ (by omega)
      have hhigh : (2 ^ (52 : Nat) + f) * 2 ^ s < 2 ^ (53 + s) := by
        rw [Nat.pow_add]; exact Nat.mul_lt_mul_of_pos_right (by omega) hpos
      have h1 := (Nat.le_log2 hne).2 hlow
      have h2 := (Nat.log2_lt hne).2 hhigh
      omega
  unfold nearest
  rw [hw, hk, h]
  have hpos : 0 < den * 2 ^ scale m := Nat.mul_pos hden (Nat.two_pow_pos _)
  have hu : units m * den = significand m * (den * 2 ^ scale m) := by
    unfold units; rw [Nat.mul_right_comm, Nat.mul_assoc]
  simp only [hu]
  rw [roundHalfEven_mul hpos]
  exact scale_mul_add_significand m

end MetricLedger.Binary64
