import MetricLedger.Binary64.Basic
import MetricLedger.Table

/-!
# JSON values

A number without fraction and exponent stays a whole number as long as it fits into 64 bits, and
every other number is a double precision number. The members of an object are kept in the order of
their names, each name once.
-/

namespace MetricLedger.Json

/-- A number as it was read. -/
inductive Number where
  /-- A whole number from `-2 ^ 63` up to `2 ^ 64 - 1`. -/
  | whole (n : Int)
  /-- A finite double precision number. -/
  | real (x : Binary64)
  deriving DecidableEq, Repr

/-- A JSON value. -/
inductive Value where
  | null
  | bool (b : Bool)
  | number (n : Number)
  | string (s : String)
  | array (items : List Value)
  | object (members : List (String × Value))
  deriving Repr

end MetricLedger.Json
