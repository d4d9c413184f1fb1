import MetricLedger.Binary64.Conversion
import MetricLedger.Failure
import MetricLedger.Json.Writer

/-!
# Numbers of a record

The value of a record is read as any JSON value first. A counter takes whole numbers of 64 bits,
however they are written, and a gauge takes every number.
-/

namespace MetricLedger

/-- The whole number as a value of a counter, if it has one. -/
def counterValue? (n : Int) : Option Int64 :=
  if Int64.minValue.toInt ≤ n ∧ n ≤ Int64.maxValue.toInt then some (Int64.ofInt n) else none

/-- The number `2 ^ 63`, the least one above every value of a counter. -/
def counterBound : Binary64 := ⟨0x43E0000000000000⟩

/-- The number has no fraction, and is in the range of the values of a counter. -/
def isCounterNumber (x : Binary64) : Bool :=
  x.isFinite && x.fract.isZero && counterBound.neg.le x && x.lt counterBound

def coerceCounter (v : Json.Value) : Except Failure Int64 :=
  let fail (cause : String) : Except Failure Int64 :=
    .error (.serialization "coerce_counter_value" cause)
  match v with
  | .number (.whole n) =>
      match counterValue? n with
      | some delta => .ok delta
      | none => fail s!"counter value {n} overflows i64"
  | .number (.real x) =>
      if isCounterNumber x then .ok x.toInt64
      else fail s!"counter value {x.plainText} is not an i64 integer"
  | v => fail s!"counter value {v.print} is not a number"

def coerceGauge (v : Json.Value) : Except Failure Binary64 :=
  match v with
  | .number (.whole n) => .ok (Binary64.ofInt n)
  | .number (.real x) => .ok x
  | v => .error (.serialization "coerce_gauge_value" s!"gauge value {v.print} is not a number")

/-! ## Laws -/

theorem counterValue?_toInt (x : Int64) : counterValue? x.toInt = some x := by
  have h1 := Int64.minValue_le_toInt x
  have h2 := Int64.toInt_le x
  have h3 : Int64.maxValue.toInt = 9223372036854775807 := by decide
  simp only [counterValue?, Int64.ofInt_toInt]
  rw [if_pos ⟨h1, by omega⟩]

theorem toInt_of_counterValue? {n : Int} {x : Int64} (h : counterValue? n = some x) :
    x.toInt = n := by
  unfold counterValue? at h
  split at h
  next hn =>
    obtain rfl := Option.some.inj h
    have h1 : Int64.minValue.toInt = -9223372036854775808 := by decide
    have h2 : Int64.maxValue.toInt = 9223372036854775807 := by decide
    exact Int64.toInt_ofInt_of_le (by omega) (by omega)
  next => cases h

end MetricLedger
