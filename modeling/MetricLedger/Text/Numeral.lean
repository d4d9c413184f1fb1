/-!
# Whole numbers in plain text

A numeral is one or more digits `0` to `9`, with one sign in front if the reader admits it. The
first thing wrong from the left decides the fault.
-/

namespace MetricLedger.Text

/-- Why a text is no numeral of the wanted range. -/
inductive NumeralFault where
  /-- There is no character at all. -/
  | empty
  /-- A character is no digit, or a sign stands alone. -/
  | invalidDigit
  /-- The digits read so far exceed the upper limit. -/
  | tooLarge
  /-- The digits read so far go below the lower limit. -/
  | tooSmall
  deriving DecidableEq, Repr

def NumeralFault.message : NumeralFault → String
  | .empty => "cannot parse integer from empty string"
  | .invalidDigit => "invalid digit found in string"
  | .tooLarge => "number too large to fit in target type"
  | .tooSmall => "number too small to fit in target type"

def digitValue (c : Char) : Nat := c.toNat - '0'.toNat

/-- The value of a digit in base sixteen. -/
def hexValue? (c : Char) : Option Nat :=
  if c.isDigit then some (digitValue c)
  else if 'a' ≤ c ∧ c ≤ 'f' then some (c.toNat - 'a'.toNat + 10)
  else if 'A' ≤ c ∧ c ≤ 'F' then some (c.toNat - 'A'.toNat + 10)
  else none

/-- Reads digits up to `limit`, after a part worth `acc`; `beyond` is the fault past the limit. -/
def readDigits (limit : Nat) (beyond : NumeralFault) : Nat → List Char → Except NumeralFault Nat
  | acc, [] => .ok acc
  | acc, c :: cs =>
      if !c.isDigit then .error .invalidDigit
      else
        let next := 10 * acc + digitValue c
        if limit < next then .error beyond else readDigits limit beyond next cs

/-- Reads a numeral from `0` to `limit`; one plus sign may stand in front. -/
def readNatural (limit : Nat) : List Char → Except NumeralFault Nat
  | [] => .error .empty
  | '+' :: [] => .error .invalidDigit
  | '+' :: cs => readDigits limit .tooLarge 0 cs
  | cs => readDigits limit .tooLarge 0 cs

/-- Reads a numeral from `-low` to `high`; one sign may stand in front. -/
def readInteger (low high : Nat) : List Char → Except NumeralFault Int
  | ['-'] => .error .invalidDigit
  | '-' :: cs => (fun n : Nat => -(n : Int)) <$> readDigits low .tooSmall 0 cs
  | cs => (fun n : Nat => (n : Int)) <$> readNatural high cs

/-- The digits of a natural number in base ten. -/
def decimal (n : Nat) : List Char := Nat.toDigits 10 n

/-- The digits of a whole number in base ten, after a minus sign if it is negative. -/
def signedDecimal : Int → List Char
  | .ofNat n => decimal n
  | .negSucc n => '-' :: decimal (n + 1)

/-- The greatest number of 32 bits. -/
def maxUnsigned32 : Nat := 4294967295

/-- The greatest number of 64 bits. -/
def maxUnsigned64 : Nat := 18446744073709551615

/-- The greatest number of 63 bits. -/
def maxSigned64 : Nat := 9223372036854775807

end MetricLedger.Text
