import Mathlib.Tactic
import MetricLedger.Log.Lines
import MetricLedger.Proofs.Ledger.Replay
import MetricLedger.Proofs.Record.RoundTrip
import MetricLedger.Proofs.Text.Utf8

/-!
# Reading the lines of records

A log to which the lines of records were added reads as what it read as before, followed by those
records. Main statement: `readContent_append_linesOf`.
-/

namespace MetricLedger.Log

/-! ## Lines and their bytes -/

/-- The bytes end with a line break, if there are any. -/
def IsComplete (bs : List UInt8) : Prop := ∀ b ∈ bs.getLast?, b = lineEnd

theorem isComplete_nil : IsComplete [] := fun _ h => absurd h (by simp)

theorem IsComplete.append {as bs : List UInt8} (ha : IsComplete as) (hb : IsComplete bs) :
    IsComplete (as ++ bs) := by
  by_cases h : bs = []
  · rw [h, List.append_nil]
    exact ha
  · intro b hm
    rw [List.getLast?_append_of_ne_nil _ h] at hm
    exact hb b hm

theorem splitLines_ne_nil {bs : List UInt8} (h : bs ≠ []) : splitLines bs ≠ [] := by
  intro he
  have := flatten_splitLines bs
  rw [he] at this
  exact h this.symm

/-- What follows a complete line starts a line of its own. -/
theorem splitLines_append {as : List UInt8} (h : IsComplete as) (bs : List UInt8) :
    splitLines (as ++ bs) = splitLines as ++ splitLines bs := by
  induction as with
  | nil => rfl
  | cons a as ih =>
      rw [List.cons_append, splitLines, splitLines]
      by_cases has : as = []
      · have ha : a = lineEnd := h a (by simp [has])
        rw [if_pos ha, if_pos ha, has]
        rfl
      · have hih := ih fun b hb => h b (by rwa [List.getLast?_cons_of_ne_nil has])
        split_ifs
        · rw [hih, List.cons_append]
        · rw [hih]
          cases hs : splitLines as with
          | nil => exact absurd hs (splitLines_ne_nil has)
          | cons line lines => rfl

theorem splitLines_line {bs : List UInt8} (h : lineEnd ∉ bs) :
    splitLines (bs ++ [lineEnd]) = [bs ++ [lineEnd]] := by
  induction bs with
  | nil => rfl
  | cons b bs ih =>
      obtain ⟨hb, hbs⟩ := not_or.1 (List.mem_cons.not.1 h)
      rw [List.cons_append, splitLines, if_neg (Ne.symm hb), ih hbs]

/-! ## The line of a record -/

theorem lineBytes_eq (r : Record) : r.lineBytes = Text.utf8Encode r.text ++ [lineEnd] := by
  rw [Record.lineBytes, Record.line, Text.utf8Encode_append]
  rfl

theorem isComplete_lineBytes (r : Record) : IsComplete r.lineBytes := by
  intro b hb
  rw [lineBytes_eq, List.getLast?_append_of_ne_nil _ (by simp)] at hb
  simpa using hb.symm

theorem splitLines_lineBytes (r : Record) : splitLines r.lineBytes = [r.lineBytes] := by
  rw [lineBytes_eq]
  exact splitLines_line (Text.not_mem_utf8Encode (n := 10) (by decide) r.newline_not_mem_text)

/-- A line that ends in neither of the two characters a line may end with is its own text. -/
theorem lineText_append {cs : List Char} (h : cs.getLast? ≠ some '\r') :
    lineText (cs ++ ['\n']) = cs := by
  rw [lineText, List.reverse_append]
  cases hr : cs.reverse with
  | nil => simpa using (List.reverse_eq_nil_iff.1 hr).symm
  | cons c rest =>
      have hcs : cs = rest.reverse ++ [c] := by
        rw [← List.reverse_reverse cs, hr, List.reverse_cons]
      have hc : c ≠ '\r' := by
        rintro rfl
        exact h (by rw [hcs, List.getLast?_append_of_ne_nil _ (by simp)]; rfl)
      simp only [List.reverse_singleton, List.singleton_append]
      split
      next heq => exact absurd (by simpa using (List.cons.inj heq).2 : _) (by simp [hc])
      next heq => rw [← (List.cons.inj heq).2, ← hr, List.reverse_reverse]
      next hne => exact absurd rfl (hne (c :: rest))

theorem getLast?_text (r : Record) : r.text.getLast? = some '\x7d' := by
  rw [Record.text, Json.writeObject, List.getLast?_cons_of_ne_nil (by simp),
    List.getLast?_append_of_ne_nil _ (by simp)]
  rfl

theorem allBlank_text (r : Record) : Text.allBlank r.text = false := by
  rw [Record.text_eq, Text.allBlank, List.all_cons]
  rfl

/-- The line of a record that has one is read as the record. -/
theorem readLine_lineBytes (path : String) (number : ℕ) {r : Record} (h : r.isEncodable = true) :
    readLine path number r.lineBytes = .ok (some r) := by
  have hdecode : Text.utf8Decode r.lineBytes = .ok (r.text ++ ['\n']) :=
    Text.utf8Decode_utf8Encode r.line
  have htext : lineText (r.text ++ ['\n']) = r.text :=
    lineText_append (by rw [getLast?_text]; decide)
  simp [readLine, hdecode, htext, allBlank_text, Record.decode_text h]

/-! ## The lines of records -/

/-- The lines of the records that have one, in order. -/
def linesOf (records : List Record) : List UInt8 := (encodable records).flatMap Record.lineBytes

@[simp] theorem linesOf_nil : linesOf [] = [] := rfl

theorem linesOf_append (first second : List Record) :
    linesOf (first ++ second) = linesOf first ++ linesOf second := by
  rw [linesOf, encodable_append, List.flatMap_append]
  rfl

theorem linesOf_singleton {r : Record} (h : r.isEncodable = true) : linesOf [r] = r.lineBytes := by
  simp [linesOf, encodable, h]

theorem linesOf_singleton_of_not {r : Record} (h : r.isEncodable = false) : linesOf [r] = [] := by
  simp [linesOf, encodable, h]

theorem isComplete_linesOf (records : List Record) : IsComplete (linesOf records) := by
  induction records with
  | nil => exact isComplete_nil
  | cons r records ih =>
      rw [← List.singleton_append, linesOf_append]
      refine IsComplete.append ?_ ih
      cases h : r.isEncodable with
      | true => rw [linesOf_singleton h]; exact isComplete_lineBytes r
      | false => rw [linesOf_singleton_of_not h]; exact isComplete_nil

/-- Lines may be read in parts. -/
theorem readLines_append (path : String) (number : ℕ) (first second : List (List UInt8)) :
    readLines path number (first ++ second) = (do
      let before ← readLines path number first
      let after ← readLines path (number + first.length) second
      .ok (before ++ after)) := by
  induction first generalizing number with
  | nil =>
      simp only [List.nil_append, readLines, List.length_nil, Nat.add_zero, bind, Except.bind]
      cases readLines path number second <;> rfl
  | cons line lines ih =>
      have hn : number + (line :: lines).length = number + 1 + lines.length := by
        rw [List.length_cons]
        omega
      simp only [List.cons_append, readLines, ih, hn, bind, Except.bind]
      cases readLine path number line with
      | error f => rfl
      | ok r =>
          cases readLines path (number + 1) lines with
          | error f => rfl
          | ok before =>
              cases readLines path (number + 1 + lines.length) second with
              | error f => rfl
              | ok after => simp

theorem readLines_append_ok {path : String} {number : ℕ} {first second : List (List UInt8)}
    {records : List Record} (h : readLines path number (first ++ second) = .ok records) :
    ∃ before after, readLines path number first = .ok before ∧
      readLines path (number + first.length) second = .ok after ∧ records = before ++ after := by
  rw [readLines_append] at h
  cases hfirst : readLines path number first with
  | error f =>
      rw [hfirst] at h
      cases h
  | ok before =>
      rw [hfirst] at h
      cases hsecond : readLines path (number + first.length) second with
      | error f =>
          simp only [bind, Except.bind, hsecond] at h
          cases h
      | ok after =>
          simp only [bind, Except.bind, hsecond] at h
          exact ⟨before, after, rfl, rfl, (Except.ok.inj h).symm⟩

/-- The lines of records are read as the records, whatever their numbers are. -/
theorem readLines_linesOf (path : String) (number : ℕ) (records : List Record) :
    readLines path number (splitLines (linesOf records)) = .ok (encodable records) := by
  induction records generalizing number with
  | nil => rfl
  | cons r records ih =>
      rw [← List.singleton_append, linesOf_append, encodable_append]
      cases h : r.isEncodable with
      | true =>
          rw [linesOf_singleton h, splitLines_append (isComplete_lineBytes r), splitLines_lineBytes,
            List.singleton_append]
          simp [readLines, readLine_lineBytes path number h, ih, encodable, h, bind, Except.bind]
      | false =>
          rw [linesOf_singleton_of_not h, List.nil_append, ih]
          simp [encodable, h]

/-- A log that is read goes on to be read when the lines of records are put behind it. -/
theorem readContent_append_linesOf {path : String} {content : List UInt8} {before : List Record}
    (hcomplete : IsComplete content) (hread : readContent path content = .ok before)
    (records : List Record) :
    readContent path (content ++ linesOf records) = .ok (before ++ encodable records) := by
  rw [readContent] at hread
  simp [readContent, splitLines_append hcomplete, readLines_append, hread, readLines_linesOf, bind,
    Except.bind]

end MetricLedger.Log
