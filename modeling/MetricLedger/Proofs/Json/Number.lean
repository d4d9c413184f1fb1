import MetricLedger.Binary64.Text
import MetricLedger.Proofs.Binary64.Decimal
import MetricLedger.Proofs.Json.Numeral

/-!
# Reading numbers that were written

A number is read from the text it is written as, up to the character that ends it: a whole number as
itself, and a finite double precision number bit for bit.
-/

namespace MetricLedger.Json

/-! ## Literals -/

section Literals

variable (negative : Bool) {ds ps es rest : List Char}

theorem readLiteral_whole (hd : IsWhole ds) (hr : EndsNumber rest) :
    readLiteral negative (ds ++ rest) = .ok (⟨negative, digitsValue ds, 0, true⟩, rest) := by
  simpa [Numeral.unsigned, Numeral.fractionText, Numeral.exponentText, Numeral.literal,
    Numeral.power] using Numeral.readLiteral_unsigned ⟨negative, ds, hd, none, none⟩ hr

theorem readLiteral_point (hd : IsWhole ds) (hp : AllDigits ps) (hne : ps ≠ [])
    (hr : EndsNumber rest) :
    readLiteral negative (ds ++ '.' :: (ps ++ rest)) =
      .ok (⟨negative, digitsValue (ds ++ ps), -ps.length, false⟩, rest) := by
  simpa [Numeral.unsigned, Numeral.fractionText, Numeral.exponentText, Numeral.literal,
    Numeral.power] using
    Numeral.readLiteral_unsigned ⟨negative, ds, hd, some ⟨ps, hp, hne⟩, none⟩ hr

/-- The exponent behind a sign that is always written. -/
def signedExponent (sign : Bool) (he : AllDigits es) (hne : es ≠ []) : Exponent :=
  ⟨false, if sign then .minus else .plus, ⟨es, he, hne⟩⟩

theorem readLiteral_exponent (hd : IsWhole ds) (sign : Bool) (he : AllDigits es) (hne : es ≠ [])
    (hr : EndsNumber rest) :
    readLiteral negative (ds ++ 'e' :: (if sign then '-' else '+') :: (es ++ rest)) =
      .ok (⟨negative, digitsValue ds, if sign then -(digitsValue es : ℤ) else digitsValue es,
        false⟩, rest) := by
  have hread := Numeral.readLiteral_unsigned
    ⟨negative, ds, hd, none, some (signedExponent sign he hne)⟩ hr
  cases sign <;> simpa [Numeral.unsigned, Numeral.fractionText, Numeral.exponentText,
    Numeral.literal, Numeral.power, signedExponent, Exponent.text, ExponentSign.text,
    Exponent.value] using hread

theorem readLiteral_point_exponent (hd : IsWhole ds) (hp : AllDigits ps) (hpne : ps ≠ [])
    (sign : Bool) (he : AllDigits es) (hne : es ≠ []) (hr : EndsNumber rest) :
    readLiteral negative
        (ds ++ '.' :: (ps ++ 'e' :: (if sign then '-' else '+') :: (es ++ rest))) =
      .ok (⟨negative, digitsValue (ds ++ ps),
        (if sign then -(digitsValue es : ℤ) else digitsValue es) - ps.length, false⟩, rest) := by
  have hread := Numeral.readLiteral_unsigned
    ⟨negative, ds, hd, some ⟨ps, hp, hpne⟩, some (signedExponent sign he hne)⟩ hr
  cases sign <;> simpa [Numeral.unsigned, Numeral.fractionText, Numeral.exponentText,
    Numeral.literal, Numeral.power, signedExponent, Exponent.text, ExponentSign.text,
    Exponent.value] using hread

end Literals

/-! ## Whole numbers -/

/-- The text of a natural number of 64 bits is read as that number. -/
theorem readNumber_decimal {n : ℕ} (hn : n ≤ Text.maxUnsigned64) {rest : List Char}
    (hr : EndsNumber rest) :
    readNumber false (Text.decimal n ++ rest) = .ok (.whole n, rest) := by
  simp [readNumber, readLiteral_whole false (isWhole_decimal n) hr, digitsValue_decimal,
    Literal.number, Literal.whole?, hn, bind, Except.bind]

/-- The digits of a negative number of 64 bits are read, behind the sign, as that number. -/
theorem readNumber_decimal_negative {n : ℕ} (h0 : 0 < n) (hn : n ≤ Text.maxSigned64 + 1)
    {rest : List Char} (hr : EndsNumber rest) :
    readNumber true (Text.decimal n ++ rest) = .ok (.whole (-(n : ℤ)), rest) := by
  simp [readNumber, readLiteral_whole true (isWhole_decimal n) hr, digitsValue_decimal,
    Literal.number, Literal.whole?, h0, hn, bind, Except.bind]

/-! ## Double precision numbers -/

/-- The digits of a decimal that is written without zeros in front. -/
def Plain (d : Decimal) : Prop := d.digits = 0 → d.exponent = 0

theorem IsWhole.take {cs : List Char} (h : IsWhole cs) {n : ℕ} (hn : n ≠ 0) :
    IsWhole (cs.take n) := by
  obtain ⟨n, rfl⟩ := Nat.exists_eq_succ_of_ne_zero hn
  rcases h with rfl | ⟨hd, hne, hhead⟩
  · exact .inl (by simp)
  · cases cs with
    | nil => exact absurd rfl hne
    | cons c cs => exact .inr ⟨hd.take _, by simp, by simpa using hhead⟩

theorem isWhole_decimal_zeros {d : Decimal} {z : ℕ} (hz : d.digits = 0 → z = 0) :
    IsWhole (Text.decimal d.digits ++ List.replicate z '0') := by
  by_cases h : d.digits = 0
  · rw [hz h, h, decimal_zero]
    exact .inl rfl
  · refine .inr ⟨(allDigits_decimal _).append (allDigits_zeros z), ?_, ?_⟩
    · exact List.append_ne_nil_of_left_ne_nil (decimal_ne_nil _) _
    · rw [List.head?_append_of_ne_nil _ (decimal_ne_nil _)]
      exact head?_decimal_ne_zero h

/-- A positional numeral is read as the decimal, with zeros at the end of its digits. -/
theorem readLiteral_positional (negative : Bool) {d : Decimal} (hd : Plain d) {e : ℤ}
    (he : e = d.exponent + ((Text.decimal d.digits).length : ℤ) - 1) {rest : List Char}
    (hr : EndsNumber rest) :
    ∃ k : ℕ, readLiteral negative
        (Binary64.positional .logLine (Text.decimal d.digits) e ++ rest) =
      .ok (⟨negative, d.digits * 10 ^ k, d.exponent - k, false⟩, rest) := by
  have hdigits := allDigits_decimal d.digits
  have hpos : 0 < (Text.decimal d.digits).length := List.length_pos_of_ne_nil (decimal_ne_nil _)
  cases e with
  | ofNat n =>
      simp only [Binary64.positional]
      split_ifs with hlen
      · obtain ⟨z, hz⟩ : ∃ z, z = n + 1 - (Text.decimal d.digits).length := ⟨_, rfl⟩
        have hexp : d.exponent = z := by
          simp only [Int.ofNat_eq_natCast] at he
          omega
        have hwhole : IsWhole (Text.decimal d.digits ++ List.replicate z '0') :=
          isWhole_decimal_zeros fun h => by have := hd h; omega
        have hread := readLiteral_point negative hwhole (allDigits_zeros 1) (by simp) hr
        refine ⟨z + 1, ?_⟩
        rw [← hz]
        have hvalue : digitsValue (Text.decimal d.digits ++ List.replicate z '0' ++
            List.replicate 1 '0') = d.digits * 10 ^ (z + 1) := by
          rw [List.append_assoc, List.replicate_append_replicate, digitsValue_append,
            digitsValue_zeros, digitsValue_decimal, List.length_replicate, Nat.mul_comm, Nat.add_zero]
        rw [hvalue, List.length_replicate] at hread
        have hsub : d.exponent - ((z + 1 : ℕ) : ℤ) = -((1 : ℕ) : ℤ) := by omega
        rw [hsub]
        simpa [NumberLayout.logLine] using hread
      · have hread := readLiteral_point negative
          ((isWhole_decimal d.digits).take (n := n + 1) (by omega)) (hdigits.drop (n + 1))
          (by simpa using hlen) hr
        refine ⟨0, ?_⟩
        rw [List.take_append_drop, digitsValue_decimal, List.length_drop] at hread
        have hexp : d.exponent - ((0 : ℕ) : ℤ) =
            -(((Text.decimal d.digits).length - (n + 1) : ℕ) : ℤ) := by
          simp only [Int.ofNat_eq_natCast] at he
          omega
        rw [hexp, Nat.pow_zero, Nat.mul_one]
        simpa using hread
  | negSucc n =>
      have hzero : IsWhole ['0'] := .inl rfl
      have hread := readLiteral_point negative hzero ((allDigits_zeros n).append hdigits)
        (List.append_ne_nil_of_right_ne_nil _ (decimal_ne_nil _)) hr
      refine ⟨0, ?_⟩
      have hvalue : digitsValue (['0'] ++ (List.replicate n '0' ++ Text.decimal d.digits)) =
          d.digits := by
        have hz : digitsValue ['0'] = 0 := rfl
        rw [digitsValue_append, digitsValue_append, digitsValue_zeros, digitsValue_decimal, hz,
          Nat.mul_zero, Nat.mul_zero, Nat.zero_add, Nat.zero_add]
      rw [hvalue, List.length_append, List.length_replicate] at hread
      have hexp : d.exponent - ((0 : ℕ) : ℤ) =
          -((n + (Text.decimal d.digits).length : ℕ) : ℤ) := by
        simp only [Int.negSucc_eq] at he
        omega
      rw [hexp, Nat.pow_zero, Nat.mul_one]
      simpa [Binary64.positional] using hread

/-- A numeral in scientific notation is read as the decimal. -/
theorem readLiteral_scientific (negative : Bool) (d : Decimal) {e : ℤ}
    (he : e = d.exponent + ((Text.decimal d.digits).length : ℤ) - 1) {rest : List Char}
    (hr : EndsNumber rest) :
    readLiteral negative (Binary64.scientific (Text.decimal d.digits) e ++ rest) =
      .ok (⟨negative, d.digits, d.exponent, false⟩, rest) := by
  have hdigits := allDigits_decimal d.digits
  have hwhole := isWhole_decimal d.digits
  have hvalue := digitsValue_decimal d.digits
  have hne := decimal_ne_nil d.digits
  have hexpDigits := allDigits_decimal e.natAbs
  have hsign : (if 0 ≤ e then '+' else '-') = if decide (e < 0) then '-' else '+' := by
    by_cases h : 0 ≤ e
    · simp [h]
    · simp [h, not_le.1 h]
  have hexp : (if decide (e < 0) = true then -(digitsValue (Text.decimal e.natAbs) : ℤ)
      else digitsValue (Text.decimal e.natAbs)) = e := by
    rw [digitsValue_decimal]
    by_cases h : e < 0
    · rw [if_pos (decide_eq_true h)]
      omega
    · rw [if_neg (by simpa using h)]
      omega
  simp only [Binary64.scientific, hsign]
  generalize Text.decimal d.digits = ds at *
  cases ds with
  | nil => exact absurd rfl hne
  | cons c ds =>
      cases ds with
      | nil =>
          have hread := readLiteral_exponent negative hwhole (decide (e < 0)) hexpDigits
            (decimal_ne_nil _) hr
          rw [hexp, hvalue] at hread
          have : e = d.exponent := by simp only [List.length_cons, List.length_nil] at he; omega
          rw [this] at hread ⊢
          simpa using hread
      | cons c' ds =>
          have hread := readLiteral_point_exponent negative (hwhole.take (n := 1) (by omega))
            (hdigits.drop 1) (by simp) (decide (e < 0)) hexpDigits (decimal_ne_nil _) hr
          rw [hexp, List.take_append_drop, hvalue] at hread
          have : e - (((c :: c' :: ds).drop 1).length : ℤ) = d.exponent := by
            simp only [List.length_cons, List.drop_succ_cons, List.drop_zero, Nat.cast_add,
              Nat.cast_one] at he ⊢
            omega
          rw [this] at hread
          simpa using hread

/-- The numeral of a decimal in a log line is read as a decimal of the same value. -/
theorem readLiteral_decimalText (negative : Bool) {d : Decimal} (hd : Plain d) {rest : List Char}
    (hr : EndsNumber rest) :
    ∃ k : ℕ, readLiteral negative (Binary64.decimalText .logLine d ++ rest) =
      .ok (⟨negative, d.digits * 10 ^ k, d.exponent - k, false⟩, rest) := by
  simp only [Binary64.decimalText]
  split_ifs
  · exact readLiteral_positional negative hd rfl hr
  · exact ⟨0, by simpa using readLiteral_scientific negative d rfl hr⟩

theorem plain_shortest {m : ℕ} (hm : m < Binary64.infinityMagnitude) :
    Plain (Binary64.shortest m) := by
  intro h0
  by_cases hm0 : m = 0
  · rw [hm0]
    rfl
  · have hread := Binary64.ofDecimal?_shortest hm
    have hzero (e : ℤ) : Binary64.ofDecimal? 0 e = some 0 := by
      rw [Binary64.ofDecimal?.eq_def, if_pos rfl]
    rw [h0, hzero] at hread
    exact absurd (Option.some.inj hread).symm hm0

/-- The numeral of a finite magnitude in a log line is read, behind its sign, as the number. -/
theorem readNumber_decimalText (negative : Bool) {m : ℕ} (hm : m < Binary64.infinityMagnitude)
    {rest : List Char} (hr : EndsNumber rest) :
    readNumber negative (Binary64.decimalText .logLine (Binary64.shortest m) ++ rest) =
      .ok (.real (Binary64.ofMagnitude negative m), rest) := by
  obtain ⟨k, hk⟩ := readLiteral_decimalText negative (plain_shortest hm) hr
  have hreal := Binary64.ofDecimal?_mul_pow (Binary64.shortest m).digits
    (Binary64.shortest m).exponent k
  rw [Binary64.ofDecimal?_shortest hm] at hreal
  simp [readNumber, hk, Literal.number, Literal.whole?, Literal.real?, hreal, bind, Except.bind]

end MetricLedger.Json
