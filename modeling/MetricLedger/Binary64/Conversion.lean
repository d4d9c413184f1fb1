import MetricLedger.Binary64.Rounding

/-!
# Comparing and converting numbers

Numbers are compared by their values, so that the two zeros are equal, and turned into whole numbers
of 64 bits by cutting off what does not fit: the fraction, and what is past the range.
-/

namespace MetricLedger.Binary64

-- Powers are those of the core library, whatever else is imported.
attribute [local instance (2000)] instPowNat

/-- One of the two zeros. -/
def isZero (x : Binary64) : Bool := x.magnitude = 0

/-- The number with the other sign. -/
def neg (x : Binary64) : Binary64 := ofMagnitude (!x.negative) x.magnitude

/-- The result of an operation that has none. -/
def notANumber : Binary64 := ⟨0x7FF8000000000000⟩

/-! ## Order -/

/-- The place in the order of all numbers. -/
def rank (x : Binary64) : Int := if x.negative then -(x.magnitude : Int) else x.magnitude

/-- At most as great as another number; what is not a number cannot be compared. -/
def le (x y : Binary64) : Bool := !x.isNaN && !y.isNaN && x.rank ≤ y.rank

def lt (x y : Binary64) : Bool := !x.isNaN && !y.isNaN && x.rank < y.rank

/-! ## Whole numbers -/

/-- The units that a magnitude has past its greatest whole number. -/
def fractUnits (magnitude : Nat) : Nat := units magnitude % unitsOfOne

/-- The number without its whole part; an infinity has none. -/
def fract (x : Binary64) : Binary64 :=
  if x.isFinite then
    let u := fractUnits x.magnitude
    ofMagnitude (x.negative && u != 0) (nearest u unitsOfOne)
  else notANumber

/-- The whole part of the exact value. -/
def wholePart (x : Binary64) : Int :=
  let n : Int := (units x.magnitude / unitsOfOne : Nat)
  if x.negative then -n else n

/-- The whole number of 64 bits nearest to the whole part, and zero for what is not a number. -/
def toInt64 (x : Binary64) : Int64 :=
  if x.isNaN then 0
  else Int64.ofInt (max Int64.minValue.toInt (min x.wholePart Int64.maxValue.toInt))

end MetricLedger.Binary64
