import MetricLedger.Json.Fields
import MetricLedger.Record
import MetricLedger.Record.Coercion
import MetricLedger.Text.Utf8

/-!
# Log lines

A record takes one line of the log: a JSON object with the members `type`, `name` and `value`, and
a line break. Reading is freer than writing: the members may come in any order, others may stand
among them, and the kind may be spelt in any case.
-/

namespace MetricLedger.Record

/-! ## Writing -/

def valueText : Record → List Char
  | .counter _ delta => Text.signedDecimal delta.toInt
  | .gauge _ value => value.logText

/-- The line of a record, without its line break. -/
def text (r : Record) : List Char :=
  Json.writeObject [
    Json.writeMember "type" (Json.writeText r.kind.name.toList),
    Json.writeMember "name" (Json.writeText r.name.toList),
    Json.writeMember "value" r.valueText]

/-- The line of a record, with its line break. -/
def line (r : Record) : List Char := r.text ++ ['\n']

def lineBytes (r : Record) : List UInt8 := Text.utf8Encode r.line

/-- The failure of a record that has no form in the log. -/
def encodeFailure (name : String) (value : Binary64) : Failure :=
  .serialization "encode_record" s!"gauge '{name}' has non-finite value {value.plainText}"

/-- The number of a gauge has to be finite. -/
def checkNumber : Record → Except Failure Unit
  | .counter .. => .ok ()
  | .gauge name value => if value.isFinite then .ok () else .error (encodeFailure name value)

/-- Why a record was not put onto a buffer, and the buffer as it is then. -/
structure EncodeFault where
  cause : Failure
  buffer : List UInt8

/-- Where the buffer does not matter, the cause is the failure. -/
instance : Coe EncodeFault Failure := ⟨EncodeFault.cause⟩

/-- Appends the line of a record to a buffer, and gives the buffer as it is then, also if it fails. -/
def encodeInto (buffer : List UInt8) (r : Record) : Except EncodeFault (List UInt8) :=
  match r.checkNumber with
  | .error cause => .error ⟨cause, buffer⟩
  | .ok () =>
      let buffer := buffer ++ Text.utf8Encode r.text
      .ok (buffer ++ Text.utf8Encode ['\n'])

/-! ## Reading -/

/-- The members of a line. The value may hold one container less inside another than a whole text,
since the line itself is one. -/
def shape : Json.Shape where
  title := "RawRecord"
  fields := [
    ⟨"type", Json.readString⟩,
    ⟨"name", Json.readString⟩,
    ⟨"value", Json.readValue (Json.maxDepth - 1)⟩]

def decodeFailure (cause : String) : Failure := .serialization "decode_record" cause

/-- The record of a kind, a name and a value. -/
def ofParts (kind name : String) (value : Json.Value) : Except Failure Record :=
  match MetricKind.ofName? kind with
  | some .counter => .counter name <$> coerceCounter value
  | some .gauge => .gauge name <$> coerceGauge value
  | none => .error (decodeFailure s!"unknown metric type '{kind}'")

def decode (line : List Char) : Except Failure Record :=
  match shape.parse line with
  | .ok [.string kind, .string name, value] => ofParts kind name value
  | .ok _ => .error (decodeFailure "malformed record")
  | .error fault => .error (decodeFailure fault.message)

/-! ## Laws -/

theorem checkNumber_of_isEncodable {r : Record} (h : r.isEncodable) : r.checkNumber = .ok () := by
  cases r with
  | counter name delta => rfl
  | gauge name value => exact if_pos h

theorem checkNumber_of_not_isEncodable {r : Record} (h : r.isEncodable = false) :
    ∃ f, r.checkNumber = .error f := by
  cases r with
  | counter name delta => cases h
  | gauge name value =>
      refine ⟨encodeFailure name value, if_neg ?_⟩
      simpa [isEncodable] using h

/-- The line of an encodable record is put behind the buffer. -/
theorem encodeInto_of_isEncodable {r : Record} (h : r.isEncodable) (buffer : List UInt8) :
    r.encodeInto buffer = .ok (buffer ++ r.lineBytes) := by
  simp only [encodeInto, checkNumber_of_isEncodable h, lineBytes, line, Text.utf8Encode,
    List.flatMap_append, List.append_assoc]

/-- A record that is not encodable is refused before anything is put behind the buffer. -/
theorem encodeInto_of_not_isEncodable {r : Record} (h : r.isEncodable = false)
    (buffer : List UInt8) : ∃ cause, r.encodeInto buffer = .error ⟨cause, buffer⟩ := by
  obtain ⟨cause, hcause⟩ := checkNumber_of_not_isEncodable h
  exact ⟨cause, by simp only [encodeInto, hcause]⟩

/-- A quoted text holds no line break. -/
theorem newline_not_mem_writeText (cs : List Char) : '\n' ∉ Json.writeText cs := by
  simp [Json.writeText, Json.newline_not_mem_writeChar]

end MetricLedger.Record
