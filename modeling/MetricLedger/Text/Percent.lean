import MetricLedger.Text.Numeral
import MetricLedger.Text.Utf8

/-!
# Percent encoding

A byte of a text may be written as a percent sign and two digits in base sixteen. A percent sign
without two such digits stands for itself.
-/

namespace MetricLedger.Text

/-- The byte of two digits in base sixteen. -/
def byteOfDigits? (a b : Char) : Option UInt8 := do
  let high ← hexValue? a
  let low ← hexValue? b
  some (UInt8.ofNat (16 * high + low))

/-- The bytes that a percent encoded text stands for. -/
def percentDecode : List Char → List UInt8
  | [] => []
  | [c] => String.utf8EncodeChar c
  | [c, d] => String.utf8EncodeChar c ++ percentDecode [d]
  | c :: a :: b :: rest =>
      match if c = '%' then byteOfDigits? a b else none with
      | some byte => byte :: percentDecode rest
      | none => String.utf8EncodeChar c ++ percentDecode (a :: b :: rest)

/-- The text that a percent encoded text stands for, unless its bytes are none. -/
def percentDecodeText? (cs : List Char) : Option (List Char) :=
  (utf8Decode (percentDecode cs)).toOption

end MetricLedger.Text
