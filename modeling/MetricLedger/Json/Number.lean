import MetricLedger.Json.Text
import MetricLedger.Json.Value

/-!
# JSON numbers

A number is read in two steps: its literal, which is exact, and the value that the literal is kept
as. A literal with a fraction or an exponent, and a whole number that exceeds 64 bits, is rounded
to double precision.
-/

namespace MetricLedger.Json

/-- A number as it is written: the exact value is `digits * 10 ^ exponent`, with its sign. -/
structure Literal where
  negative : Bool
  digits : Nat
  exponent : Int
  /-- Written without a fraction and without an exponent. -/
  whole : Bool
  deriving DecidableEq, Repr

def digitsValue (cs : List Char) : Nat := cs.foldl (fun n c => 10 * n + Text.digitValue c) 0

/-- The digits at the head of a text, and what follows them. -/
def splitDigits (cs : List Char) : List Char × List Char :=
  (cs.takeWhile Char.isDigit, cs.dropWhile Char.isDigit)

def digitFault : List Char → Fault
  | [] => .eofInValue
  | _ => .invalidNumber

/-- Reads the digits in front of the point; a zero stands alone. -/
def readWhole : Reader (List Char)
  | [] => .error .eofInValue
  | c :: cs =>
      if c == '0' then
        match cs with
        | d :: _ => if d.isDigit then .error .invalidNumber else .ok ([c], cs)
        | [] => .ok ([c], cs)
      else if c.isDigit then .ok (splitDigits (c :: cs))
      else .error .invalidNumber

/-- Reads the digits behind the point, if there is a point. -/
def readFraction : Reader (Option (List Char))
  | '.' :: cs =>
      let (digits, rest) := splitDigits cs
      if digits.isEmpty then .error (digitFault rest) else .ok (some digits, rest)
  | cs => .ok (none, cs)

/-- Takes a sign off the exponent: whether it is negative, and what follows it. -/
def exponentSign : List Char → Bool × List Char
  | '-' :: cs => (true, cs)
  | '+' :: cs => (false, cs)
  | cs => (false, cs)

/-- Reads the exponent, if there is one. -/
def readExponent : Reader (Option Int)
  | [] => .ok (none, [])
  | c :: cs =>
      if c == 'e' || c == 'E' then
        let (negative, cs) := exponentSign cs
        let (digits, rest) := splitDigits cs
        if digits.isEmpty then .error (digitFault rest)
        else
          let n : Int := digitsValue digits
          .ok (some (if negative then -n else n), rest)
      else .ok (none, c :: cs)

/-- Reads a literal behind its sign. -/
def readLiteral (negative : Bool) : Reader Literal := fun cs => do
  let (whole, cs) ← readWhole cs
  let (fraction, cs) ← readFraction cs
  let (exponent, cs) ← readExponent cs
  let places := fraction.getD []
  .ok (⟨negative, digitsValue (whole ++ places), exponent.getD 0 - places.length,
    fraction.isNone && exponent.isNone⟩, cs)

/-- The literal rounded to double precision, or nothing if that is infinite. -/
def Literal.real? (l : Literal) : Option Binary64 :=
  (Binary64.ofDecimal? l.digits l.exponent).map (Binary64.ofMagnitude l.negative)

/-- The whole number that a literal is kept as; minus zero is none. -/
def Literal.whole? (l : Literal) : Option Int :=
  if !l.whole then none
  else if !l.negative then
    if l.digits ≤ Text.maxUnsigned64 then some l.digits else none
  else if 0 < l.digits ∧ l.digits ≤ Text.maxSigned64 + 1 then some (-(l.digits : Int))
  else none

/-- The value of a literal. -/
def Literal.number (l : Literal) : Except Fault Number :=
  match l.whole? with
  | some n => .ok (.whole n)
  | none =>
      match l.real? with
      | some x => .ok (.real x)
      | none => .error .numberOutOfRange

/-- Reads a number behind its sign. -/
def readNumber (negative : Bool) : Reader Number := fun cs => do
  let (l, rest) ← readLiteral negative cs
  let n ← l.number
  .ok (n, rest)

/-- Skips a number behind its sign, without looking at its range. -/
def skipNumber (cs : List Char) : Except Fault (List Char) :=
  match readLiteral false cs with
  | .ok (_, rest) => .ok rest
  | .error _ => .error .invalidNumber

def Number.text : Number → List Char
  | .whole n => Text.signedDecimal n
  | .real x => x.logText

/-- What a number is called where another type is wanted. -/
def Number.unexpected : Number → Unexpected
  | .whole n => .whole n
  | .real x => .real x

end MetricLedger.Json
