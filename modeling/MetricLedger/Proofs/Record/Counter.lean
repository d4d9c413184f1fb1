import MetricLedger.Proofs.Json.Kept
import MetricLedger.Proofs.Json.Replacement
import MetricLedger.Proofs.Record.Coercion
import MetricLedger.Proofs.Record.RoundTrip

/-!
# Counters as they are written

The line of a counter may write its value as any numeral. What is decoded is the value that the
numeral is kept as, which is not always the one that is written. Main statement:
`decode_counterLine`.
-/

namespace MetricLedger

namespace Json

/-! ## Reading the text of a numeral -/

/-- Reads the characters that a numeral may be made of, behind blank space, and keeps them as they
are. -/
def readNumeral : Reader Value := fun cs =>
  let cs := skipSpace cs
  .ok (.string (String.ofList (cs.takeWhile isNumeralChar)), cs.dropWhile isNumeralChar)

/-- A numeral does not start with blank space. -/
theorem skipSpace_text (n : Numeral) (rest : List Char) :
    skipSpace (n.text ++ rest) = n.text ++ rest := by
  unfold Numeral.text
  split
  · exact skipSpace_cons (c := '-') rfl _
  · obtain ⟨c, ds, hwhole, hc⟩ := n.isWhole.exists_cons
    rw [Numeral.unsigned, hwhole]
    exact skipSpace_cons (isSpace_of_isDigit hc) _

theorem endsNumber_dropWhile (cs : List Char) : EndsNumber (cs.dropWhile isNumeralChar) := by
  intro c hc
  have hchar : isNumeralChar c = false := by
    have := List.head?_dropWhile_not isNumeralChar cs
    rw [hc] at this
    simpa using this
  simp only [isNumeralChar, Bool.or_eq_false_iff, beq_eq_false_iff_ne] at hchar
  tauto

theorem skipSpace_of_readNumeral {n : Numeral} {cs rest : List Char}
    (h : readNumeral cs = .ok (.string (String.ofList n.text), rest)) :
    skipSpace cs = n.text ++ rest ∧ EndsNumber rest := by
  obtain ⟨htext, rfl⟩ := Prod.mk.inj (Except.ok.inj h)
  rw [Value.string.injEq, String.ofList_inj] at htext
  exact ⟨by rw [← htext, List.takeWhile_append_dropWhile], endsNumber_dropWhile _⟩

theorem readNumeral_text (n : Numeral) {rest : List Char}
    (hr : ∀ c ∈ rest.head?, isNumeralChar c = false) :
    readNumeral (n.text ++ rest) = .ok (.string (String.ofList n.text), rest) := by
  have hrest : rest.takeWhile isNumeralChar = [] ∧ rest.dropWhile isNumeralChar = rest := by
    cases rest with
    | nil => exact ⟨rfl, rfl⟩
    | cons c rest =>
        have hc : isNumeralChar c = false := hr c rfl
        simp [hc]
  have htext : ∀ c ∈ n.text, isNumeralChar c = true := fun c hc => isNumeralChar_of_mem_text hc
  rw [readNumeral, skipSpace_text, List.takeWhile_append_of_pos htext,
    List.dropWhile_append_of_pos htext, hrest.1, hrest.2, List.append_nil]

theorem readNumber_unsigned (n : Numeral) {rest : List Char} (hr : EndsNumber rest) :
    readNumber n.negative (n.unsigned ++ rest) = n.literal.number.map (·, rest) := by
  rw [readNumber, bind_of_ok (n.readLiteral_unsigned hr)]
  cases h : n.literal.number <;> simp [h, bind, Except.bind, Except.map]

theorem readValueWith_numeral (inner : Option (Reader Value)) (n : Numeral) {rest : List Char}
    (hr : EndsNumber rest) :
    readValueWith inner (n.text ++ rest) = (n.literal.number.map Value.number).map (·, rest) := by
  have hread := readNumber_unsigned n hr
  have hmap : (n.literal.number.map (·, rest)).map (fun r => (Value.number r.1, r.2)) =
      (n.literal.number.map Value.number).map (·, rest) := by
    cases n.literal.number <;> rfl
  rw [← hmap, ← hread, Numeral.text]
  cases hneg : n.negative with
  | true => exact readValueWith_minus _
  | false =>
      obtain ⟨c, cs, hcs, hc⟩ := n.isWhole.exists_cons
      rw [if_neg (by decide), Numeral.unsigned, hcs]
      exact readValueWith_digit hc _

/-- Where a numeral stands, the number is read that its literal is kept as. -/
theorem readValue_of_readNumeral (depth : ℕ) {n : Numeral} {cs rest : List Char}
    (h : readNumeral cs = .ok (.string (String.ofList n.text), rest)) :
    readValue depth cs = (n.literal.number.map Value.number).map (·, rest) := by
  obtain ⟨hcs, hr⟩ := skipSpace_of_readNumeral h
  rw [← readValue_congr (skipSpace_skipSpace cs), hcs]
  cases depth <;> exact readValueWith_numeral _ n hr

end Json

/-! ## Coercion -/

theorem coerceCounter_eq_ok_iff {m : Json.Number} (hm : ∀ d, m = .real d → d.isFinite = true)
    {x : Int64} : coerceCounter (.number m) = .ok x ↔ m.value = x.toInt := by
  cases m with
  | whole n => rw [Json.Number.value, Int.cast_inj, coerceCounter_whole_iff]
  | real d => simp [Json.Number.value, coerceCounter_real_iff, hm d rfl]

namespace Record

/-! ## Lines of counters -/

/-- The members of a line, the value being kept as the text of its numeral. -/
def numeralShape : Json.Shape := shape.withReader 2 Json.readNumeral

/-- The line is one of a counter of this name, and its value is written as this numeral. -/
def IsCounterLine (line : List Char) (name : String) (n : Json.Numeral) : Prop :=
  ∃ kind, MetricKind.ofName? kind = some .counter ∧
    numeralShape.parse line = .ok [.string kind, .string name, .string (String.ofList n.text)]

-- The members may come in any order and others among them, and the numeral in any form.
example : IsCounterLine
    "\x7b\"value\": -1.5E+1, \"unit\": [0, 1e9], \"name\":\"c\", \"type\":\"Counter\"\x7d".toList "c"
    ⟨true, ['1'], by decide, some ⟨['5'], by decide, by decide⟩,
      some ⟨true, .plus, ⟨['1'], by decide, by decide⟩⟩⟩ :=
  ⟨"Counter", rfl, rfl⟩

/-- The line is decoded if and only if the value that is written is one of a counter, and then as
that value. -/
def ReadsExactly (line : List Char) (name : String) (n : Json.Numeral) : Prop :=
  ∀ r, decode line = .ok r ↔ ∃ x : Int64, r = .counter name x ∧ n.value = x.toInt

variable {line : List Char} {name : String} {n : Json.Numeral}

theorem shape_parse_of_isCounterLine (h : IsCounterLine line name n) :
    ∃ kind, MetricKind.ofName? kind = some .counter ∧
      shape.parse line =
        (n.literal.number.map Json.Value.number).map fun v => [.string kind, .string name, v] := by
  obtain ⟨kind, hkind, hparse⟩ := h
  refine ⟨kind, hkind, ?_⟩
  exact Json.Shape.parse_withReader (i := 2) rfl
    (fun _ _ => Json.readValue_of_readNumeral (Json.maxDepth - 1)) hparse rfl

theorem decode_eq_ok_iff (h : IsCounterLine line name n) {r : Record} :
    decode line = .ok r ↔ ∃ x : Int64, r = .counter name x ∧ n.kept? = some (x.toInt : ℚ) := by
  obtain ⟨kind, hkind, hparse⟩ := shape_parse_of_isCounterLine h
  simp only [Json.Numeral.kept?_eq_some_iff]
  rw [decode, hparse]
  cases hnumber : n.literal.number with
  | error fault => simp [Except.map]
  | ok m =>
      have hcoerce (x : Int64) : coerceCounter (.number m) = .ok x ↔ m.value = x.toInt :=
        coerceCounter_eq_ok_iff fun d hd =>
          Json.Literal.isKept_of_number (n := .real d) (hd ▸ hnumber)
      simp only [Except.map, ofParts, hkind, Except.ok.injEq, exists_eq_left', ← hcoerce]
      cases coerceCounter (.number m) <;> simp [eq_comm]

theorem readsExactly_iff (h : IsCounterLine line name n) :
    ReadsExactly line name n ↔ n.KeepsCounters := by
  simp only [ReadsExactly, decode_eq_ok_iff h, Json.Numeral.KeepsCounters]
  constructor
  · intro hreads x
    have := hreads (.counter name x)
    simpa using this
  · exact fun hkeeps r => exists_congr fun x => and_congr_right fun _ => hkeeps x

/-- What the line of a counter is decoded as: the value that its numeral is kept as, if that is one
of a counter. No double precision number is nearer to the numeral than that value; but it is the one
that is written only if the numeral is a whole number of 64 bits written as one, or the value of a
double precision number. Otherwise the value that is written is replaced by another one or refused,
unless neither of the two is one of a counter. Without fraction and exponent, the numerals that are
not read as they should be are those just below the least value of a counter. -/
theorem decode_counterLine (h : IsCounterLine line name n) :
    (∀ r, decode line = .ok r ↔
      ∃ x : Int64, r = .counter name x ∧ n.kept? = some (x.toInt : ℚ)) ∧
    (∀ v, n.kept? = some v → ∀ x : Binary64, x.isFinite = true →
      |v - n.value| ≤ |x.value - n.value|) ∧
    (ReadsExactly line name n ↔ n.IsShort ∨ n.IsDouble ∨
      ∀ x : Int64, n.kept? ≠ some (x.toInt : ℚ) ∧ n.value ≠ x.toInt) ∧
    (n.isPlain = true →
      (ReadsExactly line name n ↔ ¬(-2 ^ 63 - 1024 ≤ n.value ∧ n.value < -2 ^ 63))) :=
  ⟨fun _ => decode_eq_ok_iff h, fun _ hv x _ => Json.Numeral.abs_kept?_sub_le hv x,
    (readsExactly_iff h).trans Json.Numeral.keepsCounters_iff,
    fun hplain => (readsExactly_iff h).trans (Json.Numeral.keepsCounters_iff_of_isPlain hplain)⟩

/-- A line of a counter that writes its value as this numeral. -/
def counterText (name : String) (n : Json.Numeral) : List Char :=
  '\x7b' :: lineMembers .counter name n.text

theorem isCounterLine_counterText (name : String) (n : Json.Numeral) :
    IsCounterLine (counterText name n) name n := by
  have hbrace : ∀ c ∈ ['\x7d'].head?, Json.isNumeralChar c = false := by
    intro c hc
    obtain rfl : '\x7d' = c := Option.some.inj hc
    rfl
  exact ⟨_, MetricKind.ofName?_name .counter,
    parse_lineMembers .counter name (Json.readNumeral_text n hbrace)⟩

/-- A whole number that is too great is refused. -/
theorem decode_counterLine_aboveGreatest :
    IsCounterLine (counterText "c" (.ofInt (2 ^ 64))) "c" (.ofInt (2 ^ 64)) ∧
      ReadsExactly (counterText "c" (.ofInt (2 ^ 64))) "c" (.ofInt (2 ^ 64)) := by
  have hline := isCounterLine_counterText "c" (.ofInt (2 ^ 64))
  obtain ⟨-, -, -, hplain⟩ := decode_counterLine hline
  refine ⟨hline, (hplain rfl).2 fun h => absurd h.2 ?_⟩
  rw [Json.Numeral.value_ofInt]
  norm_num

/-- The whole number below the least value of a counter is decoded as that least value. -/
theorem decode_belowLeast :
    IsCounterLine (counterText "c" (.ofInt (-2 ^ 63 - 1))) "c" (.ofInt (-2 ^ 63 - 1)) ∧
      decode (counterText "c" (.ofInt (-2 ^ 63 - 1))) = .ok (.counter "c" Int64.minValue) ∧
      ¬ReadsExactly (counterText "c" (.ofInt (-2 ^ 63 - 1))) "c" (.ofInt (-2 ^ 63 - 1)) := by
  have hline := isCounterLine_counterText "c" (.ofInt (-2 ^ 63 - 1))
  have hvalue := Json.Numeral.value_ofInt (-2 ^ 63 - 1)
  refine ⟨hline, (decode_eq_ok_iff hline).2 ⟨_, rfl, ?_⟩, ?_⟩
  · exact Json.Numeral.kept?_of_just_below rfl rfl (by decide) (by decide)
  · rw [readsExactly_iff hline, Json.Numeral.keepsCounters_iff_of_isPlain rfl, not_not, hvalue]
    norm_num

example : String.ofList (counterText "c" (.ofInt (-2 ^ 63 - 1))) =
    "\x7b\"type\":\"counter\",\"name\":\"c\",\"value\":-9223372036854775809\x7d" := by
  decide

end Record

end MetricLedger
