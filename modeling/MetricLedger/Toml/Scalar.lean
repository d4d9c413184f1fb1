import MetricLedger.Binary64.Rounding
import MetricLedger.Json.Text
import MetricLedger.Text.Numeral
import MetricLedger.Toml.Value

/-!
# Scalars of TOML

Integers in four bases, other numbers, dates and times, and the words for truth.
-/

namespace MetricLedger.Toml

/-- The groups of digits around single underscores. -/
def digitGroups (cs : List Char) : List (List Char) := ((String.ofList cs).splitOn "_").map String.toList

/-- The digits without the underscores, each of which stands between two digits. -/
def plainDigits? (isDigit : Char → Bool) (cs : List Char) : Option (List Char) :=
  let groups := digitGroups cs
  if groups.all fun group => !group.isEmpty && group.all isDigit then some groups.flatten else none

def valueInBase (base : Nat) (digits : List Char) : Nat :=
  digits.foldl (fun n c => base * n + (Text.hexValue? c).getD 0) 0

/-- A digit of a base up to sixteen. -/
def isDigitOf (base : Nat) (c : Char) : Bool :=
  match Text.hexValue? c with
  | some n => n < base
  | none => false

/-- The digits of a whole number in base ten; only zero itself starts with a zero. -/
def wholeDigits? (cs : List Char) : Option (List Char) := do
  let digits ← plainDigits? Char.isDigit cs
  match digits with
  | '0' :: _ :: _ => none
  | digits => some digits

/-- Takes a sign off a number: whether it is negative, and what follows. -/
def splitSign : List Char → Bool × List Char
  | '-' :: cs => (true, cs)
  | '+' :: cs => (false, cs)
  | cs => (false, cs)

/-- The integers from `-2 ^ 127` up to `2 ^ 128 - 1`. -/
def integerInRange (n : Int) : Bool :=
  -0x80000000000000000000000000000000 ≤ n && n < 0x100000000000000000000000000000000

/-- Reads an integer with a mark of its base, or in base ten with a sign. -/
def integer? (cs : List Char) : Option Int :=
  let based (base : Nat) (cs : List Char) : Option Int :=
    (plainDigits? (isDigitOf base) cs).map fun digits => (valueInBase base digits : Int)
  let n :=
    match cs with
    | '0' :: 'x' :: cs => based 16 cs
    | '0' :: 'o' :: cs => based 8 cs
    | '0' :: 'b' :: cs => based 2 cs
    | cs =>
        let (negative, cs) := splitSign cs
        (wholeDigits? cs).map fun digits =>
          let n : Int := valueInBase 10 digits
          if negative then -n else n
  n.filter integerInRange

def isWholePart (c : Char) : Bool := c.isDigit || c == '_'

/-- Reads the exponent of a number, which may be left out. -/
def exponent? : List Char → Option Int
  | [] => some 0
  | c :: cs =>
      if c == 'e' || c == 'E' then
        let (negative, cs) := splitSign cs
        (plainDigits? Char.isDigit cs).map fun digits =>
          let n : Int := valueInBase 10 digits
          if negative then -n else n
      else none

/-- The text is a number with a fraction or an exponent, or one of the words for the numbers that
are not finite; a number too large to be finite is refused. -/
def isReal (cs : List Char) : Bool :=
  let (_, cs) := splitSign cs
  if cs == ['i', 'n', 'f'] || cs == ['n', 'a', 'n'] then true
  else
    let rest := cs.dropWhile isWholePart
    let read := do
      let whole ← wholeDigits? (cs.takeWhile isWholePart)
      let (places, rest) ←
        match rest with
        | '.' :: rest => do
            let places ← plainDigits? Char.isDigit (rest.takeWhile isWholePart)
            some (places, rest.dropWhile isWholePart)
        | rest => some ([], rest)
      let e ← exponent? rest
      Binary64.ofDecimal? (valueInBase 10 (whole ++ places)) (e - places.length)
    !rest.isEmpty && read.isSome

/-! ## Dates and times -/

/-- Reads exactly so many digits. -/
def digitsOf? (count : Nat) (cs : List Char) : Option (Nat × List Char) :=
  let digits := cs.take count
  if digits.length = count && digits.all Char.isDigit then
    some (valueInBase 10 digits, cs.drop count)
  else none

/-- The year has a 29th of February. -/
def isLeapYear (year : Nat) : Bool := (year % 4 == 0 && year % 100 != 0) || year % 400 == 0

def daysOf (year month : Nat) : Nat :=
  if month == 2 then (if isLeapYear year then 29 else 28)
  else if month == 4 || month == 6 || month == 9 || month == 11 then 30
  else 31

/-- Steps over a date. -/
def date? (cs : List Char) : Option (List Char) := do
  let (year, cs) ← digitsOf? 4 cs
  match cs with
  | '-' :: cs =>
      let (month, cs) ← digitsOf? 2 cs
      match cs with
      | '-' :: cs =>
          let (day, cs) ← digitsOf? 2 cs
          if 1 ≤ month && month ≤ 12 && 1 ≤ day && day ≤ daysOf year month then some cs else none
      | _ => none
  | _ => none

/-- Steps over hours and minutes. -/
def clock? (cs : List Char) : Option (List Char) := do
  let (hour, cs) ← digitsOf? 2 cs
  match cs with
  | ':' :: cs =>
      let (minute, cs) ← digitsOf? 2 cs
      if hour ≤ 23 && minute ≤ 59 then some cs else none
  | _ => none

/-- Steps over a time of the day; the seconds may be left out. -/
def time? (cs : List Char) : Option (List Char) := do
  match ← clock? cs with
  | ':' :: cs =>
      let (second, cs) ← digitsOf? 2 cs
      if 60 < second then none
      else
        match cs with
        | '.' :: cs =>
            if (cs.takeWhile Char.isDigit).isEmpty then none else some (cs.dropWhile Char.isDigit)
        | cs => some cs
  | cs => some cs

/-- Nothing follows a time but its distance from universal time. -/
def isOffset : List Char → Bool
  | [] => true
  | ['Z'] => true
  | ['z'] => true
  | c :: cs => (c == '+' || c == '-') && clock? cs == some []

/-- The text is a date. -/
def isDate (cs : List Char) : Bool := date? cs == some []

/-- The text is a date, a time, or both. -/
def isMoment (cs : List Char) : Bool :=
  match date? cs with
  | some [] => true
  | some (c :: cs) =>
      if c == 'T' || c == 't' || c == ' ' then
        match time? cs with
        | some rest => isOffset rest
        | none => false
      else false
  | none => time? cs == some []

/-- The value of a word, a number or a moment. -/
def scalar? (cs : List Char) : Option Item :=
  if cs == ['t', 'r', 'u', 'e'] then some (.boolean true)
  else if cs == ['f', 'a', 'l', 's', 'e'] then some (.boolean false)
  else
    match integer? cs with
    | some n => some (.integer n)
    | none =>
        if isReal cs then some .real
        else if isMoment cs then some .moment
        else none

end MetricLedger.Toml
