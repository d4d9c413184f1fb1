import Mathlib.Tactic
import MetricLedger.Proofs.Json.Locality

/-!
# Numerals

The numbers of the JSON grammar as they are written. A numeral is read as its literal, up to the
character that ends it. Main statement: `Numeral.readLiteral_unsigned`.
-/

namespace MetricLedger.Json

/-! ## Digits -/

/-- All characters are digits. -/
def AllDigits (cs : List Char) : Prop := ∀ c ∈ cs, c.isDigit = true

/-- A text that cannot go on a number. -/
def EndsNumber (cs : List Char) : Prop :=
  ∀ c ∈ cs.head?, c.isDigit = false ∧ c ≠ '.' ∧ c ≠ 'e' ∧ c ≠ 'E'

theorem allDigits_decimal (n : ℕ) : AllDigits (Text.decimal n) := fun _ hc =>
  Nat.isDigit_of_mem_toDigits (by decide) (by decide) hc

theorem AllDigits.append {cs ds : List Char} (hc : AllDigits cs) (hd : AllDigits ds) :
    AllDigits (cs ++ ds) := by
  intro c h
  rcases List.mem_append.1 h with h | h
  · exact hc c h
  · exact hd c h

theorem allDigits_zeros (n : ℕ) : AllDigits (List.replicate n '0') := by
  intro c h
  rw [List.eq_of_mem_replicate h]
  rfl

theorem AllDigits.take {cs : List Char} (h : AllDigits cs) (n : ℕ) : AllDigits (cs.take n) :=
  fun c hc => h c (List.mem_of_mem_take hc)

theorem AllDigits.drop {cs : List Char} (h : AllDigits cs) (n : ℕ) : AllDigits (cs.drop n) :=
  fun c hc => h c (List.mem_of_mem_drop hc)

theorem digitsValue_append (cs ds : List Char) :
    digitsValue (cs ++ ds) = 10 ^ ds.length * digitsValue cs + digitsValue ds := by
  have h : digitsValue (cs ++ ds) = Nat.ofDigitChars 10 ds (digitsValue cs) := by
    simp only [digitsValue, List.foldl_append]
    rfl
  rw [h, Nat.ofDigitChars_eq_ofDigitChars_zero]
  rfl

theorem digitsValue_decimal (n : ℕ) : digitsValue (Text.decimal n) = n :=
  Nat.ofDigitChars_ten_toDigits

theorem digitsValue_zeros (n : ℕ) : digitsValue (List.replicate n '0') = 0 := by
  have h : digitsValue (List.replicate n '0') = 10 ^ n * 0 := Nat.ofDigitChars_replicate_zero
  rw [h, Nat.mul_zero]

theorem decimal_ne_nil (n : ℕ) : Text.decimal n ≠ [] := Nat.toDigits_ne_nil

/-- The digits of a number start with a zero only if it is zero. -/
theorem head?_decimal_ne_zero {n : ℕ} (h : n ≠ 0) : (Text.decimal n).head? ≠ some '0' := by
  induction n using Nat.strong_induction_on with
  | _ n ih =>
      unfold Text.decimal
      rw [Nat.toDigits_eq_if (by decide)]
      split_ifs with hlt
      · have : ∀ d < 10, d ≠ 0 → [Nat.digitChar d].head? ≠ some '0' := by decide
        exact this n hlt h
      · rw [List.head?_append_of_ne_nil _ Nat.toDigits_ne_nil]
        exact ih (n / 10) (by omega) (by omega)

theorem decimal_zero : Text.decimal 0 = ['0'] := rfl

/-! ## The parts of a literal -/

theorem splitDigits_append {ds rest : List Char} (hd : AllDigits ds)
    (hr : ∀ c ∈ rest.head?, c.isDigit = false) : splitDigits (ds ++ rest) = (ds, rest) := by
  have hstop : rest.takeWhile Char.isDigit = [] ∧ rest.dropWhile Char.isDigit = rest := by
    cases rest with
    | nil => exact ⟨rfl, rfl⟩
    | cons c rest =>
        have hc : c.isDigit = false := hr c rfl
        constructor
        · rw [List.takeWhile_cons, hc, if_neg (by decide)]
        · rw [List.dropWhile_cons, hc, if_neg (by decide)]
  unfold splitDigits
  rw [List.takeWhile_append_of_pos hd, List.dropWhile_append_of_pos hd, hstop.1, hstop.2,
    List.append_nil]

/-- Digits in front of the point: a zero alone, or digits that do not start with a zero. -/
def IsWhole (cs : List Char) : Prop :=
  cs = ['0'] ∨ AllDigits cs ∧ cs ≠ [] ∧ cs.head? ≠ some '0'

theorem isWhole_decimal (n : ℕ) : IsWhole (Text.decimal n) := by
  by_cases h : n = 0
  · exact .inl (by rw [h, decimal_zero])
  · exact .inr ⟨allDigits_decimal n, decimal_ne_nil n, head?_decimal_ne_zero h⟩

theorem readWhole_append {ds rest : List Char} (hd : IsWhole ds)
    (hr : ∀ c ∈ rest.head?, c.isDigit = false) : readWhole (ds ++ rest) = .ok (ds, rest) := by
  rcases hd with rfl | ⟨hd, hne, hhead⟩
  · cases rest with
    | nil => rfl
    | cons c rest =>
        have hc : c.isDigit = false := hr c rfl
        simp [readWhole, hc]
  · cases ds with
    | nil => exact absurd rfl hne
    | cons d ds =>
        have h0 : (d == '0') = false := by
          rw [beq_eq_false_iff_ne]
          rintro rfl
          exact hhead rfl
        have hdig : d.isDigit = true := hd d List.mem_cons_self
        have hs := splitDigits_append hd hr
        rw [List.cons_append] at hs ⊢
        simp only [readWhole, h0, hdig, hs, Bool.false_eq_true, if_false, if_true]

theorem readFraction_point {ds rest : List Char} (hd : AllDigits ds) (hne : ds ≠ [])
    (hr : ∀ c ∈ rest.head?, c.isDigit = false) :
    readFraction ('.' :: (ds ++ rest)) = .ok (some ds, rest) := by
  have he : ds.isEmpty = false := by simpa using hne
  simp only [readFraction, splitDigits_append hd hr, he, Bool.false_eq_true, if_false]

theorem readFraction_none {rest : List Char} (hr : ∀ c ∈ rest.head?, c ≠ '.') :
    readFraction rest = .ok (none, rest) := by
  unfold readFraction
  split
  next cs => exact absurd rfl (hr '.' rfl)
  next => rfl

theorem readExponent_none {rest : List Char} (hr : ∀ c ∈ rest.head?, c ≠ 'e' ∧ c ≠ 'E') :
    readExponent rest = .ok (none, rest) := by
  cases rest with
  | nil => rfl
  | cons c rest =>
      obtain ⟨h1, h2⟩ := hr c rfl
      have : (c == 'e' || c == 'E') = false := by simp [h1, h2]
      simp only [readExponent, this, Bool.false_eq_true, if_false]

theorem EndsNumber.isDigit {rest : List Char} (h : EndsNumber rest) :
    ∀ c ∈ rest.head?, c.isDigit = false := fun c hc => (h c hc).1

theorem EndsNumber.ne_point {rest : List Char} (h : EndsNumber rest) : ∀ c ∈ rest.head?, c ≠ '.' :=
  fun c hc => (h c hc).2.1

theorem EndsNumber.ne_exponent {rest : List Char} (h : EndsNumber rest) :
    ∀ c ∈ rest.head?, c ≠ 'e' ∧ c ≠ 'E' := fun c hc => (h c hc).2.2

/-- A text with a given first character ends the digits before it, if that is no digit. -/
theorem head?_cons_isDigit {c : Char} (hc : c.isDigit = false) (cs : List Char) :
    ∀ d ∈ (c :: cs).head?, d.isDigit = false := by
  intro d hd
  rw [List.head?_cons, Option.mem_some_iff] at hd
  exact hd ▸ hc

/-! ## Texts -/

instance (cs : List Char) : Decidable (AllDigits cs) :=
  decidable_of_iff (cs.all Char.isDigit = true) List.all_eq_true

instance (cs : List Char) : Decidable (IsWhole cs) :=
  inferInstanceAs (Decidable (_ ∨ _ ∧ _ ∧ _))

/-- One or more digits. -/
structure Digits where
  chars : List Char
  allDigits : AllDigits chars
  ne_nil : chars ≠ []

/-- The sign of an exponent, which may be left out. -/
inductive ExponentSign where
  | absent
  | plus
  | minus
  deriving DecidableEq

def ExponentSign.text : ExponentSign → List Char
  | absent => []
  | plus => ['+']
  | minus => ['-']

/-- The exponent of a numeral, behind a letter of either case. -/
structure Exponent where
  capital : Bool
  sign : ExponentSign
  digits : Digits

/-- A number as the grammar has it: digits with no zero in front of others, a point and digits if
there is a fraction, an exponent if there is one, and a minus sign in front if it is negative. -/
structure Numeral where
  negative : Bool
  whole : List Char
  isWhole : IsWhole whole
  fraction : Option Digits
  exponent : Option Exponent

def Exponent.text (e : Exponent) : List Char :=
  (if e.capital then 'E' else 'e') :: (e.sign.text ++ e.digits.chars)

namespace Numeral

def fractionText (n : Numeral) : List Char :=
  match n.fraction with
  | none => []
  | some ds => '.' :: ds.chars

def exponentText (n : Numeral) : List Char :=
  match n.exponent with
  | none => []
  | some e => e.text

/-- The text behind the sign. -/
def unsigned (n : Numeral) : List Char := n.whole ++ (n.fractionText ++ n.exponentText)

def text (n : Numeral) : List Char := if n.negative then '-' :: n.unsigned else n.unsigned

end Numeral

/-! ## Characters -/

/-- The characters that numerals are made of. -/
def isNumeralChar (c : Char) : Bool :=
  c.isDigit || c == '+' || c == '-' || c == '.' || c == 'e' || c == 'E'

theorem isNumeralChar_of_isDigit {c : Char} (h : c.isDigit = true) : isNumeralChar c = true := by
  simp [isNumeralChar, h]

theorem IsWhole.allDigits {cs : List Char} (h : IsWhole cs) : AllDigits cs := by
  obtain rfl | ⟨hdigits, -, -⟩ := h
  · exact allDigits_zeros 1
  · exact hdigits

theorem IsWhole.exists_cons {cs : List Char} (h : IsWhole cs) :
    ∃ c ds, cs = c :: ds ∧ c.isDigit = true := by
  have hne : cs ≠ [] := by
    obtain rfl | ⟨-, hne, -⟩ := h
    · exact List.cons_ne_nil _ _
    · exact hne
  obtain ⟨c, ds, rfl⟩ := List.exists_cons_of_ne_nil hne
  exact ⟨c, ds, rfl, h.allDigits c List.mem_cons_self⟩

theorem isNumeralChar_of_mem_exponentText {n : Numeral} {c : Char} (h : c ∈ n.exponentText) :
    isNumeralChar c = true := by
  unfold Numeral.exponentText at h
  cases hexponent : n.exponent with
  | none =>
      rw [hexponent] at h
      cases h
  | some e =>
      rw [hexponent] at h
      simp only [Exponent.text, List.mem_cons, List.mem_append] at h
      obtain rfl | h | h := h
      · cases e.capital <;> rfl
      · cases hsign : e.sign <;> simp_all [ExponentSign.text, isNumeralChar]
      · exact isNumeralChar_of_isDigit (e.digits.allDigits c h)

theorem isNumeralChar_of_mem_fractionText {n : Numeral} {c : Char} (h : c ∈ n.fractionText) :
    isNumeralChar c = true := by
  unfold Numeral.fractionText at h
  cases hfraction : n.fraction with
  | none =>
      rw [hfraction] at h
      cases h
  | some ds =>
      rw [hfraction] at h
      obtain rfl | h := List.mem_cons.1 h
      · rfl
      · exact isNumeralChar_of_isDigit (ds.allDigits c h)

/-- A numeral is made of such characters. -/
theorem isNumeralChar_of_mem_text {n : Numeral} {c : Char} (h : c ∈ n.text) :
    isNumeralChar c = true := by
  have hparts : c = '-' ∨ c ∈ n.whole ∨ c ∈ n.fractionText ∨ c ∈ n.exponentText := by
    unfold Numeral.text Numeral.unsigned at h
    split at h
    · simpa using h
    · exact .inr (by simpa using h)
  obtain rfl | h | h | h := hparts
  · rfl
  · exact isNumeralChar_of_isDigit (n.isWhole.allDigits c h)
  · exact isNumeralChar_of_mem_fractionText h
  · exact isNumeralChar_of_mem_exponentText h

/-! ## Literals -/

def Exponent.value (e : Exponent) : ℤ :=
  match e.sign with
  | .minus => -(digitsValue e.digits.chars : ℤ)
  | _ => digitsValue e.digits.chars

namespace Numeral

/-- The power of ten that the exponent stands for. -/
def power (n : Numeral) : ℤ := (n.exponent.map Exponent.value).getD 0

/-- The literal that a numeral is read as. -/
def literal (n : Numeral) : Literal :=
  let places := (n.fraction.map Digits.chars).getD []
  ⟨n.negative, digitsValue (n.whole ++ places), n.power - places.length,
    n.fraction.isNone && n.exponent.isNone⟩

end Numeral

/-! ## Reading -/

/-- The first of some digits is no sign. -/
theorem Digits.exists_cons (ds : Digits) :
    ∃ c cs, ds.chars = c :: cs ∧ c.isDigit = true := by
  obtain ⟨c, cs, h⟩ := List.exists_cons_of_ne_nil ds.ne_nil
  exact ⟨c, cs, h, ds.allDigits c (h ▸ List.mem_cons_self)⟩

theorem exponentSign_text (s : ExponentSign) (ds : Digits) (rest : List Char) :
    exponentSign (s.text ++ (ds.chars ++ rest)) = (s == .minus, ds.chars ++ rest) := by
  cases s with
  | plus => rfl
  | minus => rfl
  | absent =>
      obtain ⟨c, cs, hds, hc⟩ := ds.exists_cons
      have hminus : c ≠ '-' := by
        rintro rfl
        cases hc
      have hplus : c ≠ '+' := by
        rintro rfl
        cases hc
      simp [ExponentSign.text, hds, exponentSign, hminus, hplus]

theorem readExponent_text (e : Exponent) {rest : List Char}
    (hr : ∀ c ∈ rest.head?, c.isDigit = false) :
    readExponent (e.text ++ rest) = .ok (some e.value, rest) := by
  have hletter : ((if e.capital then 'E' else 'e') == 'e' ||
      (if e.capital then 'E' else 'e') == 'E') = true := by
    cases e.capital <;> rfl
  have hempty : e.digits.chars.isEmpty = false := by simpa using e.digits.ne_nil
  simp only [Exponent.text, List.cons_append, List.append_assoc, readExponent, hletter, if_true,
    exponentSign_text, splitDigits_append e.digits.allDigits hr, hempty, Bool.false_eq_true,
    if_false]
  rw [Exponent.value]
  cases e.sign <;> rfl

namespace Numeral

variable (n : Numeral) {rest : List Char}

/-- Neither a digit nor a point follows the fraction of a numeral. -/
theorem head?_exponentText (hr : EndsNumber rest) :
    ∀ c ∈ (n.exponentText ++ rest).head?, c.isDigit = false ∧ c ≠ '.' := by
  unfold exponentText
  cases n.exponent with
  | none => exact fun c hc => ⟨hr.isDigit c hc, hr.ne_point c hc⟩
  | some e =>
      intro c hc
      obtain rfl : (if e.capital then 'E' else 'e') = c := Option.some.inj hc
      cases e.capital <;> decide

/-- No digit follows the whole digits of a numeral. -/
theorem head?_fractionText (hr : EndsNumber rest) :
    ∀ c ∈ (n.fractionText ++ (n.exponentText ++ rest)).head?, c.isDigit = false := by
  unfold fractionText
  cases n.fraction with
  | none => exact fun c hc => (n.head?_exponentText hr c hc).1
  | some ds => exact head?_cons_isDigit (c := '.') rfl _

theorem readFraction_fractionText (hr : EndsNumber rest) :
    readFraction (n.fractionText ++ (n.exponentText ++ rest)) =
      .ok (n.fraction.map Digits.chars, n.exponentText ++ rest) := by
  unfold fractionText
  cases n.fraction with
  | none => exact readFraction_none fun c hc => (n.head?_exponentText hr c hc).2
  | some ds =>
      exact readFraction_point ds.allDigits ds.ne_nil fun c hc => (n.head?_exponentText hr c hc).1

theorem readExponent_exponentText (hr : EndsNumber rest) :
    readExponent (n.exponentText ++ rest) = .ok (n.exponent.map Exponent.value, rest) := by
  unfold exponentText
  cases n.exponent with
  | none => exact readExponent_none hr.ne_exponent
  | some e => exact readExponent_text e hr.isDigit

/-- A numeral is read, behind its sign, as its literal. -/
theorem readLiteral_unsigned (hr : EndsNumber rest) :
    readLiteral n.negative (n.unsigned ++ rest) = .ok (n.literal, rest) := by
  rw [unsigned, List.append_assoc, List.append_assoc, readLiteral,
    bind_of_ok (readWhole_append n.isWhole (n.head?_fractionText hr))]
  simp only
  rw [bind_of_ok (n.readFraction_fractionText hr)]
  simp only
  rw [bind_of_ok (n.readExponent_exponentText hr)]
  simp only [literal, power, Option.isNone_map]

end Numeral

end MetricLedger.Json
