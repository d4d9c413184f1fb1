import MetricLedger.Text.Numeral
import MetricLedger.Text.Pieces

/-!
# Network addresses

The text of a network address of four bytes, or of eight groups of sixteen bits. Two colons stand for
one or more groups of zero, and the last two groups may be written as four bytes.
-/

namespace MetricLedger.Text

/-- One to three digits of a number below 256, without a zero in front. -/
def isByteNumeral (cs : List Char) : Bool :=
  !cs.isEmpty && cs.length ≤ 3 && cs.all Char.isDigit &&
    (cs.head? != some '0' || cs.length == 1) && cs.foldl (fun n c => 10 * n + digitValue c) 0 < 256

/-- An address of four bytes. -/
def isShortAddress (cs : List Char) : Bool :=
  let parts := pieces '.' cs
  parts.length == 4 && parts.all isByteNumeral

/-- One to four digits in base sixteen. -/
def isGroup (cs : List Char) : Bool :=
  !cs.isEmpty && cs.length ≤ 4 && cs.all fun c => (hexValue? c).isSome

/-- The number of groups of a part of an address; its end may be written as four bytes. -/
def groupCount? (mayEndShort : Bool) (cs : List Char) : Option Nat :=
  if cs.isEmpty then some 0
  else
    let parts := pieces ':' cs
    if parts.all isGroup then some parts.length
    else if mayEndShort && parts.dropLast.all isGroup && isShortAddress (parts.getLast?.getD []) then
      some (parts.length + 1)
    else none

/-- The parts in front of and behind the first two colons. -/
def cutAtColons? : List Char → Option (List Char × List Char)
  | [] => none
  | ':' :: ':' :: rest => some ([], rest)
  | c :: rest => (cutAtColons? rest).map fun (before, behind) => (c :: before, behind)

/-- An address of eight groups. -/
def isLongAddress (cs : List Char) : Bool :=
  match cutAtColons? cs with
  | none => groupCount? true cs == some 8
  | some (before, behind) =>
      match groupCount? false before, groupCount? true behind with
      | some m, some n => m + n ≤ 7
      | _, _ => false

/-- The text of a network address. -/
def isIpAddress (cs : List Char) : Bool := isShortAddress cs || isLongAddress cs

end MetricLedger.Text
