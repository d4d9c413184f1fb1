import Mathlib.Tactic
import MetricLedger.Proofs.Json.Number
import MetricLedger.Proofs.Json.Replacement
import MetricLedger.Record.Line

/-!
# Lines read back

The line of a record that has one is read as that record. Main statement: `decode_text`; with it the
text of a line holds no line break and is not blank, so that it stands for itself among other lines.
-/

namespace MetricLedger

namespace Json

/-! ## Values -/

/-- A text that is read as a number starts with a digit. -/
theorem head_isDigit_of_readNumber {negative : Bool} {cs rest : List Char} {n : Number}
    (h : readNumber negative cs = .ok (n, rest)) : ∃ c ds, cs = c :: ds ∧ c.isDigit = true := by
  cases cs with
  | nil => simp [readNumber, readLiteral, readWhole, bind, Except.bind] at h
  | cons c ds =>
      refine ⟨c, ds, rfl, ?_⟩
      by_contra hc
      have h0 : (c == '0') = false := by
        rw [beq_eq_false_iff_ne]
        rintro rfl
        exact hc rfl
      simp [readNumber, readLiteral, readWhole, h0, hc, bind, Except.bind] at h

theorem isDigit_beq {c d : Char} (hc : c.isDigit = true) (hd : d.isDigit = false) :
    (c == d) = false := by
  rw [beq_eq_false_iff_ne]
  rintro rfl
  rw [hc] at hd
  exact absurd hd (by decide)

theorem skipSpace_cons {c : Char} (hc : isSpace c = false) (cs : List Char) :
    skipSpace (c :: cs) = c :: cs := by
  rw [skipSpace, List.dropWhile_cons, hc, if_neg (by decide)]

theorem isSpace_of_isDigit {c : Char} (hc : c.isDigit = true) : isSpace c = false := by
  simp [isSpace, isDigit_beq hc (d := ' ') rfl, isDigit_beq hc (d := '\t') rfl,
    isDigit_beq hc (d := '\n') rfl, isDigit_beq hc (d := '\r') rfl]

/-- A value that starts with a digit is a number. -/
theorem readValueWith_digit {inner : Option (Reader Value)} {c : Char} (hc : c.isDigit = true)
    (cs : List Char) :
    readValueWith inner (c :: cs) =
      (readNumber false (c :: cs)).map fun r => (.number r.1, r.2) := by
  simp only [readValueWith, skipSpace_cons (isSpace_of_isDigit hc), isDigit_beq hc (d := '"') rfl,
    isDigit_beq hc (d := '[') rfl, isDigit_beq hc (d := '\x7b') rfl, isDigit_beq hc (d := 'n') rfl,
    isDigit_beq hc (d := 't') rfl, isDigit_beq hc (d := 'f') rfl, isDigit_beq hc (d := '-') rfl, hc,
    Bool.false_eq_true, if_false, if_true]
  cases readNumber false (c :: cs) <;> rfl

/-- A value that starts with a minus sign is a number. -/
theorem readValueWith_minus {inner : Option (Reader Value)} (cs : List Char) :
    readValueWith inner ('-' :: cs) = (readNumber true cs).map fun r => (.number r.1, r.2) := by
  rw [readValueWith, skipSpace_cons (c := '-') rfl]
  cases h : readNumber true cs <;> simp [h, bind, Except.bind, Except.map]

/-- A numeral without a sign is read as a value. -/
theorem readValueWith_number {inner : Option (Reader Value)} {cs rest : List Char} {n : Number}
    (h : readNumber false cs = .ok (n, rest)) :
    readValueWith inner cs = .ok (.number n, rest) := by
  obtain ⟨c, ds, rfl, hc⟩ := head_isDigit_of_readNumber h
  rw [readValueWith_digit hc, h]
  rfl

/-- A numeral behind a minus sign is read as a value. -/
theorem readValueWith_negative {inner : Option (Reader Value)} {cs rest : List Char} {n : Number}
    (h : readNumber true cs = .ok (n, rest)) :
    readValueWith inner ('-' :: cs) = .ok (.number n, rest) := by
  rw [readValueWith_minus, h]
  rfl

theorem readValue_number (depth : ℕ) {cs rest : List Char} {n : Number}
    (h : readNumber false cs = .ok (n, rest)) : readValue depth cs = .ok (.number n, rest) := by
  cases depth <;> exact readValueWith_number h

theorem readValue_negative (depth : ℕ) {cs rest : List Char} {n : Number}
    (h : readNumber true cs = .ok (n, rest)) :
    readValue depth ('-' :: cs) = .ok (.number n, rest) := by
  cases depth <;> exact readValueWith_negative h

/-- The text of a whole number of 64 bits, with a sign or without, is read as that number. -/
theorem readValue_wholeText (depth : ℕ) {n : ℤ} (hlow : -2 ^ 63 ≤ n) (hhigh : n < 2 ^ 64)
    {rest : List Char} (hr : EndsNumber rest) :
    readValue depth (Text.signedDecimal n ++ rest) = .ok (.number (.whole n), rest) := by
  cases n with
  | ofNat m =>
      refine readValue_number depth (readNumber_decimal ?_ hr)
      simp only [Int.ofNat_eq_natCast] at hhigh
      simp only [Text.maxUnsigned64]
      omega
  | negSucc m =>
      refine readValue_negative depth (readNumber_decimal_negative (Nat.succ_pos m) ?_ hr)
      simp only [Int.negSucc_eq] at hlow
      simp only [Text.maxSigned64]
      omega

/-! ## Members -/

theorem writeText_append (cs rest : List Char) :
    writeText cs ++ rest = '"' :: (cs.flatMap writeChar ++ '"' :: rest) := by
  simp [writeText]

theorem readString_writeText (s : String) (rest : List Char) :
    readString (writeText s.toList ++ rest) = .ok (.string s, rest) := by
  rw [writeText_append]
  simp [readString, skipSpace_cons (c := '"') rfl, readText_writeText, bind, Except.bind]

theorem objectTurn_first (cs rest : List Char) :
    objectTurn true (writeText cs ++ rest) = .ok (.item (cs.flatMap writeChar ++ '"' :: rest)) := by
  rw [writeText_append]
  simp [objectTurn, skipSpace_cons (c := '"') rfl]

theorem objectTurn_next (cs rest : List Char) :
    objectTurn false (',' :: (writeText cs ++ rest)) =
      .ok (.item (cs.flatMap writeChar ++ '"' :: rest)) := by
  rw [writeText_append]
  simp [objectTurn, skipSpace_cons (c := ',') rfl, skipSpace_cons (c := '"') rfl]

theorem objectTurn_close (first : Bool) (rest : List Char) :
    objectTurn first ('\x7d' :: rest) = .ok (.close rest) := by
  simp [objectTurn, skipSpace_cons (c := '\x7d') rfl]

theorem expectColon_cons (rest : List Char) : expectColon (':' :: rest) = .ok rest := by
  simp [expectColon, skipSpace_cons (c := ':') rfl]

/-- A member whose name is that of a field still missing fills the slot of the field. -/
theorem readSlots_member {fields : List Field} {fuel i : ℕ} {first : Bool}
    {slots : List (Option Value)} {name : String} {field : Field} {v : Value}
    {cs text rest : List Char}
    (hturn : objectTurn first cs =
      .ok (.item (name.toList.flatMap writeChar ++ '"' :: ':' :: text)))
    (hfind : fields.findIdx? (·.name == name) = some i) (hslot : slots.getD i none = none)
    (hfield : fields[i]? = some field) (hread : field.read text = .ok (v, rest)) :
    readSlots fields (fuel + 1) first slots cs =
      readSlots fields fuel false (slots.set i (some v)) rest := by
  have hmember : IsMember first cs name text :=
    ⟨_, _, _, hturn, readText_writeText _ _, String.ofList_toList, expectColon_cons text⟩
  rw [readSlots_of_known hmember hfind hslot hfield, bind_of_ok hread]

theorem readSlots_close {fields : List Field} {fuel : ℕ} {first : Bool}
    {slots : List (Option Value)} (rest : List Char) :
    readSlots fields (fuel + 1) first slots ('\x7d' :: rest) = .ok (slots, rest) :=
  readSlots_of_close (objectTurn_close first rest)

end Json

namespace Record

/-! ## The value of a record -/

/-- The value of a record as it is read. -/
def value : Record → Json.Value
  | .counter _ delta => .number (.whole delta.toInt)
  | .gauge _ x => .number (.real x)

/-- Kind, name and value make up the record. -/
theorem ofParts_value (r : Record) : ofParts r.kind.name r.name r.value = .ok r := by
  cases r with
  | counter name delta =>
      simp [ofParts, kind, MetricKind.ofName?_name, value, Record.name, coerceCounter,
        counterValue?_toInt]
  | gauge name x =>
      simp [ofParts, kind, MetricKind.ofName?_name, value, Record.name, coerceGauge]

theorem readValue_signedDecimal (depth : ℕ) (n : Int64) {rest : List Char}
    (hr : Json.EndsNumber rest) :
    Json.readValue depth (Text.signedDecimal n.toInt ++ rest) =
      .ok (.number (.whole n.toInt), rest) := by
  have hhigh : n.toInt < 2 ^ 63 := Int64.toInt_lt n
  exact Json.readValue_wholeText depth (Int64.le_toInt n) (by omega) hr

theorem readValue_logText (depth : ℕ) {x : Binary64} (hx : x.isFinite = true) {rest : List Char}
    (hr : Json.EndsNumber rest) :
    Json.readValue depth (x.logText ++ rest) = .ok (.number (.real x), rest) := by
  have hm : x.magnitude < Binary64.infinityMagnitude := by simpa [Binary64.isFinite] using hx
  have hnan : x.isNaN = false := by
    simp only [Binary64.isNaN, decide_eq_false_iff_not]
    omega
  have hread := Json.readNumber_decimalText x.negative hm hr
  rw [Binary64.ofMagnitude_negative_magnitude] at hread
  simp only [Binary64.logText, Binary64.text, hnan, hx, Bool.false_eq_true, if_false, if_true]
  split_ifs with hneg
  · rw [hneg] at hread
    exact Json.readValue_negative depth hread
  · rw [Bool.not_eq_true] at hneg
    rw [hneg] at hread
    exact Json.readValue_number depth hread

/-- The number of a record that has a line is read back. -/
theorem readValue_valueText (depth : ℕ) {r : Record} (h : r.isEncodable = true) {rest : List Char}
    (hr : Json.EndsNumber rest) :
    Json.readValue depth (r.valueText ++ rest) = .ok (r.value, rest) := by
  cases r with
  | counter name delta => exact readValue_signedDecimal depth delta hr
  | gauge name x => exact readValue_logText depth h hr

/-! ## The line of a record -/

/-- The members of a line whose value is written as `text`, up to its closing brace. -/
def lineMembers (kind : MetricKind) (name : String) (text : List Char) : List Char :=
  Json.writeText "type".toList ++ ':' ::
    (Json.writeText kind.name.toList ++ ',' :: (Json.writeText "name".toList ++ ':' ::
    (Json.writeText name.toList ++ ',' :: (Json.writeText "value".toList ++ ':' ::
    (text ++ ['\x7d'])))))

/-- The members of the line of a record. -/
def members (r : Record) : List Char := lineMembers r.kind r.name r.valueText

theorem text_eq (r : Record) : r.text = '\x7b' :: r.members := by
  simp [text, members, lineMembers, Json.writeObject, Json.writeMember, Json.joinItems]

theorem length_lineMembers (kind : MetricKind) (name : String) (text : List Char) :
    ∃ k, (lineMembers kind name text).length + 1 = k + 4 := by
  have h : (Json.writeText "type".toList).length = 6 := rfl
  refine ⟨(lineMembers kind name text).length - 3, ?_⟩
  simp only [lineMembers, List.length_append, h]
  omega

theorem endsNumber_brace : Json.EndsNumber ['\x7d'] := by
  intro c hc
  rw [List.head?_cons, Option.mem_some_iff] at hc
  subst hc
  decide

section Reading

variable {read : Json.Reader Json.Value} {text : List Char} {v : Json.Value}

/-- The members of a line fill the slots of the shape in order. -/
theorem readSlots_lineMembers (kind : MetricKind) (name : String)
    (hread : read (text ++ ['\x7d']) = .ok (v, ['\x7d'])) (fuel : ℕ) :
    Json.readSlots (shape.withReader 2 read).fields (fuel + 4) true [none, none, none]
        (lineMembers kind name text) =
      .ok ([some (.string kind.name), some (.string name), some v], []) := by
  rw [lineMembers, Json.readSlots_member (Json.objectTurn_first _ _) (i := 0) rfl rfl rfl
    (Json.readString_writeText _ _)]
  rw [Json.readSlots_member (Json.objectTurn_next _ _) (i := 1) rfl rfl rfl
    (Json.readString_writeText _ _)]
  rw [Json.readSlots_member (Json.objectTurn_next _ _) (i := 2) rfl rfl rfl hread]
  exact Json.readSlots_close []

/-- A line is read as its kind, its name and what its value is read as. -/
theorem parse_lineMembers (kind : MetricKind) (name : String)
    (hread : read (text ++ ['\x7d']) = .ok (v, ['\x7d'])) :
    (shape.withReader 2 read).parse ('\x7b' :: lineMembers kind name text) =
      .ok [.string kind.name, .string name, v] := by
  obtain ⟨k, hk⟩ := length_lineMembers kind name text
  have hslots := readSlots_lineMembers kind name hread k
  rw [← hk] at hslots
  have hcomplete : Json.completeFields (shape.withReader 2 read).fields
      [some (.string kind.name), some (.string name), some v] =
        .ok [.string kind.name, .string name, v] := rfl
  have hnone : ((shape.withReader 2 read).fields.map fun _ => none : List (Option Json.Value)) =
      [none, none, none] := rfl
  simp [Json.Shape.parse, Json.readWholeText, Json.Shape.read,
    Json.skipSpace_cons (c := '\x7b') rfl, hnone, hslots, hcomplete, bind, Except.bind]
  rfl

end Reading

/-- The line of a record that has one is read as the record. -/
theorem decode_text {r : Record} (h : r.isEncodable = true) : decode r.text = .ok r := by
  have hparse : shape.parse r.text = .ok [.string r.kind.name, .string r.name, r.value] := by
    rw [text_eq]
    exact parse_lineMembers r.kind r.name
      (readValue_valueText (Json.maxDepth - 1) h endsNumber_brace)
  rw [decode, hparse]
  exact ofParts_value r

/-! ## What is read as a record -/

/-- A line that is read as a record has its members, and they make up the record. -/
theorem exists_parts_of_decode {cs : List Char} {r : Record} (h : decode cs = .ok r) :
    ∃ kind name value, shape.parse cs = .ok [.string kind, .string name, value] ∧
      ofParts kind name value = .ok r := by
  unfold decode at h
  split at h
  next kind name value hparse => exact ⟨kind, name, value, hparse, h⟩
  next => cases h
  next => cases h

theorem local_of_mem_shape : ∀ f ∈ shape.fields, Json.Local f.read := by
  intro f hf
  simp only [shape, List.mem_cons, List.not_mem_nil, or_false] at hf
  rcases hf with rfl | rfl | rfl
  · exact Json.readString_closed.local
  · exact Json.readString_closed.local
  · exact Json.readValue_local _

/-- Blank space may follow a record. -/
theorem decode_append_space {cs ending : List Char} {r : Record} (h : decode cs = .ok r)
    (hending : ending.all Json.isSpace = true) : decode (cs ++ ending) = .ok r := by
  obtain ⟨kind, name, value, hparse, hparts⟩ := exists_parts_of_decode h
  rw [decode, Json.Shape.parse_append_of_space local_of_mem_shape hparse
    (Json.skipSpace_eq_nil hending)]
  exact hparts

/-! ## The line among other lines -/

theorem newline_not_mem_decimal (n : ℕ) : '\n' ∉ Text.decimal n := fun h =>
  absurd (Json.allDigits_decimal n _ h) (by decide)

theorem newline_not_mem_decimalText (d : Decimal) : '\n' ∉ Binary64.decimalText .logLine d := by
  have hdigits := newline_not_mem_decimal d.digits
  simp only [Binary64.decimalText]
  split_ifs
  · unfold Binary64.positional
    split
    · split_ifs
      · simp [hdigits, NumberLayout.logLine, List.mem_replicate]
      · simp only [List.mem_append, List.mem_cons, not_or]
        exact ⟨fun h => hdigits (List.mem_of_mem_take h), by decide,
          fun h => hdigits (List.mem_of_mem_drop h)⟩
    · simp [hdigits, List.mem_replicate]
  · have hexp := newline_not_mem_decimal
      (d.exponent + ((Text.decimal d.digits).length : ℤ) - 1).natAbs
    simp only [Binary64.scientific]
    split
    next c cs heq =>
      rw [heq] at hdigits
      split_ifs <;> simp_all
    next => split_ifs <;> simp_all

theorem newline_not_mem_valueText (r : Record) : '\n' ∉ r.valueText := by
  cases r with
  | counter name delta =>
      have (n : ℤ) : '\n' ∉ Text.signedDecimal n := by
        cases n <;> simp [Text.signedDecimal, newline_not_mem_decimal]
      exact this _
  | gauge name x =>
      have := newline_not_mem_decimalText (Binary64.shortest x.magnitude)
      simp only [valueText, Binary64.logText, Binary64.text]
      split_ifs <;> simp [this]

/-- The text of a line holds no line break. -/
theorem newline_not_mem_text (r : Record) : '\n' ∉ r.text := by
  simp [text_eq, members, lineMembers, newline_not_mem_writeText, newline_not_mem_valueText]

end Record

end MetricLedger
