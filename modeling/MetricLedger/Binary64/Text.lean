import MetricLedger.Binary64.Shortest
import MetricLedger.Text.Numeral

/-!
# Double precision numbers as text

Both written forms take the digits of the shortest decimal and differ in their layout only: where
positional notation ends, and whether a whole number keeps a fractional part. A numeral is read by
`readDecimal?`.
-/

namespace MetricLedger

/-- The decisions of a written form of numbers. -/
structure NumberLayout where
  /-- The exponents of scientific notation that are written positionally all the same. -/
  positional : Int → Bool
  /-- What follows the digits of a whole number. -/
  wholeSuffix : List Char

/-- In a log line a whole number ends in `.0`, and numbers below `0.00001` or from `1e16` on have an
exponent. -/
def NumberLayout.logLine : NumberLayout := ⟨fun e => -5 ≤ e && e ≤ 15, ['.', '0']⟩

/-- In a message every number is positional, and a whole number has its digits alone. -/
def NumberLayout.plain : NumberLayout := ⟨fun _ => true, []⟩

namespace Binary64

/-- The digits in positional notation, the first one standing for `10 ^ e`. -/
def positional (layout : NumberLayout) (digits : List Char) (e : Int) : List Char :=
  match e with
  | .ofNat n =>
      if digits.length ≤ n + 1 then
        digits ++ List.replicate (n + 1 - digits.length) '0' ++ layout.wholeSuffix
      else digits.take (n + 1) ++ '.' :: digits.drop (n + 1)
  | .negSucc n => '0' :: '.' :: (List.replicate n '0' ++ digits)

/-- The digits in scientific notation, the first one standing for `10 ^ e`. -/
def scientific (digits : List Char) (e : Int) : List Char :=
  let sign := if 0 ≤ e then '+' else '-'
  let mantissa :=
    match digits with
    | d :: ds@(_ :: _) => d :: '.' :: ds
    | ds => ds
  mantissa ++ 'e' :: sign :: Text.decimal e.natAbs

def decimalText (layout : NumberLayout) (d : Decimal) : List Char :=
  let digits := Text.decimal d.digits
  let e := d.exponent + (digits.length : Int) - 1
  if layout.positional e then positional layout digits e else scientific digits e

def text (layout : NumberLayout) (x : Binary64) : List Char :=
  if x.isNaN then ['N', 'a', 'N']
  else
    let body :=
      if x.isFinite then decimalText layout (shortest x.magnitude) else ['i', 'n', 'f']
    if x.negative then '-' :: body else body

def logText (x : Binary64) : List Char := text .logLine x

/-- The text of a number in a message. -/
def plainText (x : Binary64) : String := String.ofList (text .plain x)

end Binary64

end MetricLedger
