/-!
# Double precision numbers

A gauge holds a number of the IEEE 754 format `binary64`. It is kept as its 64 bits, so that two
gauges are the same exactly when they agree bit for bit. A finite magnitude is a whole number of
units, one unit being the least positive number `2 ^ (-1074)`.
-/

namespace MetricLedger

/-- A number of the format `binary64`, as its bits. -/
structure Binary64 where
  /-- Sign, eleven bits of exponent and 52 bits of fraction, from the highest bit down. -/
  bits : UInt64
  deriving DecidableEq, Repr

namespace Binary64

-- Powers are those of the core library, whatever else is imported.
attribute [local instance (2000)] instPowNat

/-- The bits below the sign. -/
def magnitude (x : Binary64) : Nat := x.bits.toNat % 2 ^ (63 : Nat)

/-- The sign bit is set. -/
def negative (x : Binary64) : Bool := 2 ^ (63 : Nat) ≤ x.bits.toNat

/-- The magnitude of infinity; the greater ones are no numbers. -/
def infinityMagnitude : Nat := 0x7FF0000000000000

/-- Not infinite, and a number. -/
def isFinite (x : Binary64) : Bool := x.magnitude < infinityMagnitude

/-- Not a number. -/
def isNaN (x : Binary64) : Bool := infinityMagnitude < x.magnitude

/-- The number with the given sign and magnitude. -/
def ofMagnitude (negative : Bool) (magnitude : Nat) : Binary64 :=
  ⟨UInt64.ofNat (if negative then 2 ^ (63 : Nat) + magnitude else magnitude)⟩

/-- The significand of a finite magnitude, below `2 ^ 53`. -/
def significand (magnitude : Nat) : Nat :=
  if magnitude < 2 ^ (52 : Nat) then magnitude else 2 ^ (52 : Nat) + magnitude % 2 ^ (52 : Nat)

/-- The power of two that scales the significand of a finite magnitude to units. -/
def scale (magnitude : Nat) : Nat := magnitude / 2 ^ (52 : Nat) - 1

/-- The number of units `2 ^ (-1074)` in a finite magnitude. -/
def units (magnitude : Nat) : Nat := significand magnitude * 2 ^ scale magnitude

/-- The units in the number one. -/
def unitsOfOne : Nat := 2 ^ (1074 : Nat)

/-! ## Laws -/

theorem magnitude_ofMagnitude {negative : Bool} {m : Nat} (h : m < 2 ^ (63 : Nat)) :
    (ofMagnitude negative m).magnitude = m := by
  cases negative <;> simp [magnitude, ofMagnitude] <;> omega

theorem negative_ofMagnitude {negative : Bool} {m : Nat} (h : m < 2 ^ (63 : Nat)) :
    (ofMagnitude negative m).negative = negative := by
  cases negative <;> simp [Binary64.negative, ofMagnitude] <;> omega

/-- A number is determined by its sign and its magnitude. -/
theorem ofMagnitude_negative_magnitude (x : Binary64) :
    ofMagnitude x.negative x.magnitude = x := by
  obtain ⟨b⟩ := x
  have hb := b.toNat_lt
  have : (ofMagnitude (Binary64.negative ⟨b⟩) (Binary64.magnitude ⟨b⟩)).bits.toNat = b.toNat := by
    simp only [ofMagnitude, Binary64.negative, magnitude, decide_eq_true_eq]
    split <;> simp <;> omega
  exact congrArg Binary64.mk (UInt64.toNat_inj.1 this)

end Binary64

end MetricLedger
