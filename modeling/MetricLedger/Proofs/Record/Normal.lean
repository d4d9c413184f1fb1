import Mathlib.Tactic
import MetricLedger.Proofs.Json.Kept
import MetricLedger.Proofs.Record.RoundTrip
import MetricLedger.Proofs.Text.Utf8

/-!
# The form in which a line is logged anew

Many lines are read as one record, and one of them is written. Whatever line a record was read from,
it can be written, and the line written is read as the record again. Main statement:
`normalise_isIdempotent`.
-/

namespace MetricLedger

namespace Json

/-! ## Values of fields -/

/-- The reader of the field finds the value somewhere. -/
def Field.Finds (f : Field) (v : Value) : Prop := ∃ cs rest, f.read cs = .ok (v, rest)

/-- The filled slots hold what the readers of their fields find. -/
def Filled (fields : List Field) (slots : List (Option Value)) : Prop :=
  ∀ i v, slots.getD i none = some v → ∃ f, fields[i]? = some f ∧ f.Finds v

variable {fields : List Field} {f : Field} {cs rest : List Char} {vs : List Value}
  {slots slots' : List (Option Value)}

theorem filled_none (fields others : List Field) : Filled fields (others.map fun _ => none) := by
  intro i v h
  rw [List.getD_eq_getElem?_getD, List.getElem?_map] at h
  cases hother : others[i]? <;> simp [hother] at h

theorem Filled.set (h : Filled fields slots) {j : ℕ} {v : Value} (hfield : fields[j]? = some f)
    (hv : f.Finds v) : Filled fields (slots.set j (some v)) := by
  intro i u hu
  obtain rfl | hj := eq_or_ne j i
  · rw [List.getD_eq_getElem?_getD, List.getElem?_set_self'] at hu
    cases hslot : slots[j]? with
    | none => simp [hslot] at hu
    | some slot =>
        obtain rfl : v = u := by simpa [hslot] using hu
        exact ⟨f, hfield, hv⟩
  · rw [getD_set_of_ne hj] at hu
    exact h i u hu

theorem Filled.readSlots (h : Filled fields slots) {fuel : ℕ} {first : Bool}
    (hread : readSlots fields fuel first slots cs = .ok (slots', rest)) :
    Filled fields slots' := by
  induction fuel generalizing first slots cs with
  | zero => cases hread
  | succ fuel ih =>
      obtain ⟨-, rfl⟩ | ⟨_, _, _, -, -, -, hread⟩ |
        ⟨_, value, j, f, v, tail, -, -, -, hfield, hv, hread⟩ := readSlots_cases hread
      · exact h
      · exact ih h hread
      · exact ih (h.set hfield ⟨value, tail, hv⟩) hread

theorem Filled.completeFields (h : Filled fields slots)
    (hcomplete : completeFields fields slots = .ok vs) : List.Forall₂ Field.Finds fields vs := by
  induction fields generalizing slots vs with
  | nil =>
      obtain rfl := Except.ok.inj hcomplete
      exact .nil
  | cons f fields ih =>
      obtain ⟨v, others, vs', rfl, hothers, rfl⟩ := completeFields_cases hcomplete
      obtain ⟨g, hg, hv⟩ := h 0 v rfl
      obtain rfl : f = g := Option.some.inj hg
      exact .cons hv (ih (fun i u hu => h (i + 1) u hu) hothers)

theorem forall₂_of_readPositions {title : String} {n : ℕ}
    (h : readPositions title n fields cs = .ok (vs, rest)) :
    List.Forall₂ Field.Finds fields vs := by
  induction fields generalizing n cs vs with
  | nil =>
      obtain ⟨rfl, -⟩ := Prod.mk.inj (Except.ok.inj h)
      exact .nil
  | cons f fields ih =>
      obtain ⟨item, v, tail, vs', -, hv, hvs, rfl⟩ := readPositions_cases h
      exact .cons ⟨item, tail, hv⟩ (ih hvs)

/-- A text is read as values that the readers of the fields find, each that of its own field. -/
theorem Shape.forall₂_of_parse {shape : Shape} (h : shape.parse cs = .ok vs) :
    List.Forall₂ Field.Finds shape.fields vs := by
  obtain ⟨⟨vs', rest⟩, hread, h⟩ := ok_of_bind h
  obtain ⟨_, -, h⟩ := ok_of_bind h
  obtain rfl := Except.ok.inj h
  unfold Shape.read at hread
  obtain ⟨c, tail, -, hread⟩ := ok_of_skipSpace hread
  simp only at hread
  split_ifs at hread
  · obtain ⟨⟨vs, tail'⟩, hpositions, hread⟩ := ok_of_bind hread
    obtain ⟨_, -, hread⟩ := ok_of_bind hread
    obtain ⟨rfl, -⟩ := Prod.mk.inj (Except.ok.inj hread)
    exact forall₂_of_readPositions hpositions
  · obtain ⟨⟨slots, tail'⟩, hslots, hread⟩ := ok_of_bind hread
    obtain ⟨vs, hcomplete, hread⟩ := ok_of_bind hread
    obtain ⟨rfl, -⟩ := Prod.mk.inj (Except.ok.inj hread)
    exact ((filled_none _ _).readSlots hslots).completeFields hcomplete

/-! ## Numbers -/

theorem isKept_of_readNumber {negative : Bool} {n : Number}
    (h : readNumber negative cs = .ok (n, rest)) : n.IsKept := by
  obtain ⟨⟨l, tail⟩, -, h⟩ := ok_of_bind h
  obtain ⟨m, hm, h⟩ := ok_of_bind h
  obtain ⟨rfl, -⟩ := Prod.mk.inj (Except.ok.inj h)
  exact Literal.isKept_of_number hm

/-- A value that is read as a number is one that literals are kept as. -/
theorem isKept_of_readValue {depth : ℕ} {n : Number}
    (h : readValue depth cs = .ok (.number n, rest)) : n.IsKept := by
  obtain ⟨inner, h⟩ : ∃ inner, readValueWith inner cs = .ok (.number n, rest) := by
    cases depth with
    | zero => exact ⟨_, h⟩
    | succ depth => exact ⟨_, h⟩
  have hnumber {negative : Bool} {cs : List Char}
      {wrap : Number × List Char → Except Fault (Value × List Char)}
      (h : (readNumber negative cs >>= wrap) = .ok (.number n, rest))
      (hwrap : ∀ m tail, wrap (m, tail) = .ok (.number m, tail)) : n.IsKept := by
    obtain ⟨⟨m, tail⟩, hm, h⟩ := ok_of_bind h
    obtain ⟨h, -⟩ := Prod.mk.inj (Except.ok.inj ((hwrap m tail).symm.trans h))
    obtain rfl := Value.number.inj h
    exact isKept_of_readNumber hm
  unfold readValueWith at h
  obtain ⟨c, tail, -, h⟩ := ok_of_skipSpace h
  simp only at h
  split_ifs at h
  -- Texts, containers and words are read as no number.
  · obtain ⟨⟨_, _⟩, -, h⟩ := ok_of_bind h
    cases h
  · cases inner with
    | none => cases h
    | some item =>
        obtain ⟨⟨_, _⟩, -, h⟩ := ok_of_bind h
        cases h
  · cases inner with
    | none => cases h
    | some item =>
        obtain ⟨⟨_, _⟩, -, h⟩ := ok_of_bind h
        cases h
  · obtain ⟨_, -, h⟩ := ok_of_bind h
    cases h
  · obtain ⟨_, -, h⟩ := ok_of_bind h
    cases h
  · obtain ⟨_, -, h⟩ := ok_of_bind h
    cases h
  · exact hnumber h fun _ _ => rfl
  · exact hnumber h fun _ _ => rfl

end Json

namespace Record

variable {line : List Char} {r : Record}

/-! ## What is read can be written -/

theorem isFinite_of_coerceGauge {n : Json.Number} (hn : n.IsKept) {x : Binary64}
    (h : coerceGauge (.number n) = .ok x) : x.isFinite = true := by
  cases n with
  | whole n =>
      obtain rfl := Except.ok.inj h
      exact Binary64.isFinite_ofInt hn
  | real y =>
      obtain rfl := Except.ok.inj h
      exact hn

/-- A record of parts that were read has a line. -/
theorem isEncodable_of_ofParts {kind name : String} {value : Json.Value}
    (hvalue : ∀ n, value = .number n → n.IsKept) (h : ofParts kind name value = .ok r) :
    r.isEncodable = true := by
  cases r with
  | counter => rfl
  | gauge name' x =>
      unfold ofParts at h
      split at h
      · cases hdelta : coerceCounter value <;> simp [hdelta] at h
      · cases hx : coerceGauge value with
        | error f => simp [hx] at h
        | ok y =>
            obtain ⟨-, rfl⟩ : name = name' ∧ y = x := by simpa [hx] using h
            cases value with
            | number n => exact isFinite_of_coerceGauge (hvalue n rfl) hx
            | _ => cases hx
      · cases h

/-- Whatever is read as a record has a line. -/
theorem isEncodable_of_decode (h : decode line = .ok r) : r.isEncodable = true := by
  obtain ⟨kind, name, value, hparse, hparts⟩ := exists_parts_of_decode h
  refine isEncodable_of_ofParts (fun n hn => ?_) hparts
  have hfields := Json.Shape.forall₂_of_parse hparse
  obtain ⟨cs, rest, hread⟩ : Json.Field.Finds ⟨"value", Json.readValue (Json.maxDepth - 1)⟩ value :=
    hfields.get (by decide : 2 < 3) (by decide : 2 < 3)
  rw [hn] at hread
  exact Json.isKept_of_readValue hread

theorem decode_line (h : r.isEncodable = true) : decode r.line = .ok r :=
  decode_append_space (decode_text h) rfl

/-! ## Logging a line anew -/

/-- The bytes that a line is logged as anew: those of the record that it is read as. -/
def normalise (line : List Char) : Except Failure (List UInt8) := do
  let r ← decode line
  (r.encodeInto []).mapError EncodeFault.cause

theorem normalise_of_decode (h : decode line = .ok r) : normalise line = .ok r.lineBytes := by
  rw [normalise, h]
  change (r.encodeInto []).mapError EncodeFault.cause = .ok r.lineBytes
  rw [encodeInto_of_isEncodable (isEncodable_of_decode h)]
  rfl

theorem exists_decode_of_normalise {bytes : List UInt8} (h : normalise line = .ok bytes) :
    ∃ r, decode line = .ok r ∧ bytes = r.lineBytes := by
  cases hr : decode line with
  | error f =>
      rw [normalise, hr] at h
      cases h
  | ok r =>
      rw [normalise_of_decode hr] at h
      exact ⟨r, rfl, (Except.ok.inj h).symm⟩

/-- Records that have lines have different ones. -/
theorem lineBytes_inj {other : Record} (hr : r.isEncodable = true)
    (hother : other.isEncodable = true) (h : r.lineBytes = other.lineBytes) : r = other := by
  have hline : r.line = other.line :=
    Except.ok.inj ((Text.utf8Decode_utf8Encode r.line).symm.trans
      (Text.utf8Decode_eq_ok_iff.2 h))
  exact Except.ok.inj ((decode_line hr).symm.trans (hline ▸ decode_line hother))

/-- Whatever line a record is read from, its number is finite and it can be put onto any buffer.
What is put there is a text, which is read as the same record with its line break and without it. So
a line that is logged anew twice is logged as if it were done once, and lines are logged anew alike
exactly if they are read as the same record. -/
theorem normalise_isIdempotent (line : List Char) (r : Record) (h : decode line = .ok r) :
    (∀ name x, r = .gauge name x → x.isFinite = true) ∧
    (∀ buffer, r.encodeInto buffer = .ok (buffer ++ Text.utf8Encode (r.text ++ ['\n']))) ∧
    '\n' ∉ r.text ∧ decode r.text = .ok r ∧ decode (r.text ++ ['\n']) = .ok r ∧
    (∃ bytes again, normalise line = .ok bytes ∧ Text.utf8Decode bytes = .ok again ∧
      normalise again = .ok bytes) ∧
    ∀ other, normalise other = normalise line ↔ decode other = .ok r := by
  have hr := isEncodable_of_decode h
  refine ⟨?_, encodeInto_of_isEncodable hr, newline_not_mem_text r, decode_text hr, decode_line hr,
    ⟨r.lineBytes, r.line, normalise_of_decode h, Text.utf8Decode_utf8Encode _,
      normalise_of_decode (decode_line hr)⟩, fun other => ⟨fun hsame => ?_, fun hother => ?_⟩⟩
  · rintro name x rfl
    exact hr
  · rw [normalise_of_decode h] at hsame
    obtain ⟨r', hr', hbytes⟩ := exists_decode_of_normalise hsame
    rw [lineBytes_inj hr (isEncodable_of_decode hr') hbytes]
    exact hr'
  · rw [normalise_of_decode h, normalise_of_decode hother]

/-- A gauge written as a whole number, with its members in another order, one that no record has
among them, its name escaped and its kind in mixed case. -/
def oddLine : List Char :=
  "\x7b\"also\": [null, \x7b\"type\": 1\x7d], \"value\": -3, ".toList ++
    "\"name\": \"\\u0041\\ud83d\\ude00\", \"type\": \"GauGe\"\x7d ".toList

theorem normalise_isIdempotent_oddLine :
    decode oddLine = .ok (.gauge "A😀" ⟨0xC008000000000000⟩) ∧
    normalise oddLine =
      .ok (Text.utf8Bytes "\x7b\"type\":\"gauge\",\"name\":\"A😀\",\"value\":-3.0\x7d\n") ∧
    ∃ bytes again, normalise oddLine = .ok bytes ∧ Text.utf8Decode bytes = .ok again ∧
      normalise again = .ok bytes := by
  have hdecode : decode oddLine = .ok (.gauge "A😀" ⟨0xC008000000000000⟩) := by decide +kernel
  obtain ⟨-, -, -, -, -, hagain, -⟩ := normalise_isIdempotent oddLine _ hdecode
  exact ⟨hdecode, by decide +kernel, hagain⟩

end Record

end MetricLedger
