import Mathlib.Data.List.DropRight
import MetricLedger.Proofs.Json.Locality
import MetricLedger.Proofs.Log.Lines

/-!
# Where old and new lines meet

The last line of a log may end without a line break, and still be read. Lines that are put behind
the log start in that line. Main statement: `readContent_append`, the log is read again exactly if
there is only blank space in it, the blank space of JSON.
-/

namespace MetricLedger

namespace Record

theorem skipSpace_text (r : Record) : Json.skipSpace r.text ≠ [] := by
  rw [text_eq, Json.skipSpace_cons (by decide)]
  exact List.cons_ne_nil _ _

variable {cs : List Char} {r : Record}

theorem decode_error_of_parse {fault : Json.Fault} (h : shape.parse cs = .error fault) :
    ∃ f, decode cs = .error f := by
  unfold decode
  rw [h]
  exact ⟨_, rfl⟩

/-- Behind a record and blank space there is no room for another record. -/
theorem decode_append_error {ending : List Char} (h : decode cs = .ok r)
    (hending : ending.all Json.isSpace = true) (next : Record) :
    ∃ f, decode (cs ++ ending ++ next.text) = .error f := by
  obtain ⟨kind, name, value, hvs, -⟩ := exists_parts_of_decode h
  rw [List.append_assoc]
  refine decode_error_of_parse (Json.Shape.parse_append_error local_of_mem_shape hvs ?_)
  rw [Json.skipSpace_append_of_nil (Json.skipSpace_eq_nil hending)]
  exact next.skipSpace_text

/-- A record may follow the blank space of JSON. -/
theorem decode_append_of_space (hcs : cs.all Json.isSpace = true) (text : List Char) :
    decode (cs ++ text) = decode text := by
  have hskip : Json.skipSpace (cs ++ text) = Json.skipSpace text :=
    Json.skipSpace_append_of_nil (Json.skipSpace_eq_nil hcs) text
  have hread : shape.read (cs ++ text) = shape.read text := by
    unfold Json.Shape.read
    rw [hskip]
  rw [decode, decode, Json.Shape.parse, Json.Shape.parse, Json.readWholeText, Json.readWholeText,
    hread]

/-- A record may not follow other blank space. -/
theorem decode_error_of_blank (hblank : Text.allBlank cs = true)
    (hspace : ¬cs.all Json.isSpace = true) (text : List Char) :
    ∃ f, decode (cs ++ text) = .error f := by
  cases hskip : Json.skipSpace cs with
  | nil =>
      rw [Json.skipSpace, List.dropWhile_eq_nil_iff] at hskip
      exact absurd (List.all_eq_true.2 hskip) hspace
  | cons c rest =>
      have hc : Text.isBlank c = true := by
        apply List.all_eq_true.1 hblank
        apply List.dropWhile_subset Json.isSpace
        rw [← Json.skipSpace, hskip]
        exact List.mem_cons_self
      have hlist : ¬(c == '[') = true := by
        rintro h
        rw [beq_iff_eq.1 h] at hc
        exact absurd hc (by decide)
      have hobject : ¬(c == '\x7b') = true := by
        rintro h
        rw [beq_iff_eq.1 h] at hc
        exact absurd hc (by decide)
      apply decode_error_of_parse
      rw [Json.Shape.parse, Json.readWholeText, Json.Shape.read,
        Json.skipSpace_append hskip]
      simp only [if_neg hlist, if_neg hobject]
      rfl

end Record

namespace Log

/-! ## The last line -/

/-- The bytes behind the last line break. -/
def openLine (bs : List UInt8) : List UInt8 := bs.rtakeWhile (· != lineEnd)

/-- The bytes up to the last line break. -/
def fullLines (bs : List UInt8) : List UInt8 := bs.rdropWhile (· != lineEnd)

/-- Lines may be put behind the bytes: behind the last line break stands only blank space of JSON. -/
def IsAppendable (bs : List UInt8) : Prop :=
  ∃ cs, Text.utf8Decode (openLine bs) = .ok cs ∧ cs.all Json.isSpace = true

theorem fullLines_append_openLine (bs : List UInt8) : fullLines bs ++ openLine bs = bs :=
  List.rdropWhile_append_rtakeWhile

theorem isComplete_fullLines (bs : List UInt8) : IsComplete (fullLines bs) := by
  intro b hb
  by_cases hnil : fullLines bs = []
  · rw [hnil] at hb
    cases hb
  · rw [List.getLast?_eq_some_getLast hnil] at hb
    have hlast := List.rdropWhile_last_not (fun b => b != lineEnd) bs hnil
    rw [← Option.some.inj hb]
    show (List.rdropWhile (fun b => b != lineEnd) bs).getLast hnil = lineEnd
    simpa using hlast

theorem lineEnd_not_mem_openLine (bs : List UInt8) : lineEnd ∉ openLine bs := by
  intro h
  have hne := List.mem_rtakeWhile_imp h
  simp at hne

theorem isAppendable_iff {bs : List UInt8} {cs : List Char}
    (h : Text.utf8Decode (openLine bs) = .ok cs) :
    IsAppendable bs ↔ cs.all Json.isSpace = true := by
  constructor
  · rintro ⟨cs', hcs', hspace⟩
    rwa [Except.ok.inj (h.symm.trans hcs')]
  · exact fun hspace => ⟨cs, h, hspace⟩

theorem isAppendable_of_isComplete {bs : List UInt8} (h : IsComplete bs) : IsAppendable bs := by
  have hnil : openLine bs = [] := by
    rw [openLine, List.rtakeWhile_eq_nil_iff]
    intro hne
    simp [h _ (List.getLast?_eq_some_getLast hne)]
  exact ⟨[], by rw [hnil]; rfl, rfl⟩

theorem allBlank_of_space {cs : List Char} (h : cs.all Json.isSpace = true) :
    Text.allBlank cs = true := by
  apply List.all_eq_true.2
  intro c hc
  have hspace := List.all_eq_true.1 h c hc
  simp only [Json.isSpace, Bool.or_eq_true, beq_iff_eq] at hspace
  rcases hspace with ((rfl | rfl) | rfl) | rfl <;> decide

/-- What is taken off the end of a line is blank space of JSON. -/
theorem lineText_append_ending (cs : List Char) :
    ∃ ending, cs = lineText cs ++ ending ∧ ending.all Json.isSpace = true := by
  unfold lineText
  split
  next rest h =>
    refine ⟨['\r', '\n'], ?_, by decide⟩
    rw [← List.reverse_reverse cs, h]
    simp
  next rest _ h =>
    refine ⟨['\n'], ?_, by decide⟩
    rw [← List.reverse_reverse cs, h]
    simp
  next => exact ⟨[], (List.append_nil cs).symm, rfl⟩

variable {path : String} {number : ℕ} {line : List UInt8}

theorem splitLines_of_not_mem (h : lineEnd ∉ line) (hne : line ≠ []) : splitLines line = [line] := by
  induction line with
  | nil => exact absurd rfl hne
  | cons b bs ih =>
      obtain ⟨hb, hbs⟩ := not_or.1 (List.mem_cons.not.1 h)
      rw [splitLines, if_neg (Ne.symm hb)]
      by_cases hnil : bs = []
      · rw [hnil]
        rfl
      · rw [ih hbs hnil]

/-- All that a line that is read can be. -/
theorem readLine_ok {found : Option Record} (h : readLine path number line = .ok found) :
    ∃ cs, Text.utf8Decode line = .ok cs ∧
      (Text.allBlank (lineText cs) = true ∧ found = none ∨
        Text.allBlank (lineText cs) = false ∧ ∃ r, Record.decode (lineText cs) = .ok r) := by
  unfold readLine at h
  cases hdecode : Text.utf8Decode line with
  | error fault =>
      rw [hdecode] at h
      cases h
  | ok cs =>
      rw [hdecode] at h
      refine ⟨cs, rfl, ?_⟩
      simp only at h
      cases hblank : Text.allBlank (lineText cs) with
      | true =>
          rw [hblank, if_pos rfl] at h
          exact .inl ⟨rfl, (Except.ok.inj h).symm⟩
      | false =>
          rw [hblank, if_neg Bool.false_ne_true] at h
          refine .inr ⟨rfl, ?_⟩
          cases hr : Record.decode (lineText cs) with
          | error f =>
              rw [hr] at h
              cases h
          | ok r => exact ⟨r, rfl⟩

theorem allBlank_lineText {cs : List Char} (h : cs.all Json.isSpace = true) :
    Text.allBlank (lineText cs) = true := by
  obtain ⟨ending, hending, -⟩ := lineText_append_ending cs
  rw [hending, List.all_append, Bool.and_eq_true] at h
  exact allBlank_of_space h.1

/-- An open line that is read is blank or a record, and no record if it is blank space of JSON. -/
theorem readLines_openLine (h : lineEnd ∉ line) {records : List Record}
    (hread : readLines path number (splitLines line) = .ok records) :
    ∃ cs, Text.utf8Decode line = .ok cs ∧
      (Text.allBlank (lineText cs) = true ∨ ∃ r, Record.decode (lineText cs) = .ok r) ∧
      (cs.all Json.isSpace = true → records = []) := by
  by_cases hnil : line = []
  · rw [hnil] at hread ⊢
    exact ⟨[], rfl, .inl rfl, fun _ => (Except.ok.inj hread).symm⟩
  · rw [splitLines_of_not_mem h hnil] at hread
    unfold readLines at hread
    cases hline : readLine path number line with
    | error f =>
        rw [hline] at hread
        cases hread
    | ok found =>
        rw [hline] at hread
        obtain ⟨cs, hcs, ⟨hblank, rfl⟩ | ⟨hblank, hr⟩⟩ := readLine_ok hline
        · exact ⟨cs, hcs, .inl hblank, fun _ => (Except.ok.inj hread).symm⟩
        · refine ⟨cs, hcs, .inr hr, fun hspace => ?_⟩
          rw [allBlank_lineText hspace] at hblank
          cases hblank

/-- A record that is put behind an open line is read together with it. -/
theorem readLine_append {cs : List Char} (hcs : Text.utf8Decode line = .ok cs) (r : Record) :
    readLine path number (line ++ r.lineBytes) =
      match Record.decode (cs ++ r.text) with
      | .ok found => .ok (some found)
      | .error f => .error (lineFailure path number f) := by
  have hdecode : Text.utf8Decode (line ++ r.lineBytes) = .ok (cs ++ r.text ++ ['\n']) := by
    rw [Record.lineBytes, Record.line, List.append_assoc]
    exact Text.utf8Decode_append_utf8Encode hcs _
  have hlast : (cs ++ r.text).getLast? ≠ some '\r' := by
    rw [List.getLast?_append_of_ne_nil _ (by rw [Record.text_eq]; simp), getLast?_text]
    decide
  have hblank : Text.allBlank (cs ++ r.text) = false := by
    have htext := allBlank_text r
    rw [Text.allBlank] at htext ⊢
    rw [List.all_append, htext, Bool.and_false]
  cases hr : Record.decode (cs ++ r.text) with
  | ok found =>
      simp only [readLine, hdecode, lineText_append hlast, hblank, hr, Bool.false_eq_true, if_false]
  | error f =>
      simp only [readLine, hdecode, lineText_append hlast, hblank, hr, Bool.false_eq_true, if_false]

/-- The record is read if the open line is blank space of JSON, and otherwise the line is refused. -/
theorem readLine_append_lineBytes (path : String) (number : ℕ) {cs : List Char}
    (hcs : Text.utf8Decode line = .ok cs)
    (hopen : Text.allBlank (lineText cs) = true ∨ ∃ r, Record.decode (lineText cs) = .ok r)
    {r : Record} (hr : r.isEncodable = true) :
    (cs.all Json.isSpace = true → readLine path number (line ++ r.lineBytes) = .ok (some r)) ∧
      (¬cs.all Json.isSpace = true →
        ∃ f, readLine path number (line ++ r.lineBytes) = .error (lineFailure path number f)) := by
  rw [readLine_append hcs r]
  constructor
  · intro hspace
    rw [Record.decode_append_of_space hspace, Record.decode_text hr]
  · intro hspace
    have hrefused : ∃ f, Record.decode (cs ++ r.text) = .error f := by
      obtain ⟨ending, hending, hendingSpace⟩ := lineText_append_ending cs
      rcases hopen with hblank | ⟨first, hfirst⟩
      · refine Record.decode_error_of_blank ?_ hspace r.text
        rw [hending, Text.allBlank, List.all_append, Bool.and_eq_true]
        exact ⟨hblank, allBlank_of_space hendingSpace⟩
      · rw [hending]
        exact Record.decode_append_error hfirst hendingSpace r
    obtain ⟨f, hf⟩ := hrefused
    rw [hf]
    exact ⟨f, rfl⟩

/-! ## The log with new lines -/

theorem splitLines_eq (bs : List UInt8) :
    splitLines bs = splitLines (fullLines bs) ++ splitLines (openLine bs) := by
  rw [← splitLines_append (isComplete_fullLines bs), fullLines_append_openLine]

theorem length_splitLines {bs : List UInt8} (h : openLine bs ≠ []) :
    (splitLines bs).length = 1 + (splitLines (fullLines bs)).length := by
  rw [splitLines_eq, splitLines_of_not_mem (lineEnd_not_mem_openLine bs) h, List.length_append,
    List.length_singleton, Nat.add_comm]

theorem encodable_eq_cons {records rest : List Record} {r : Record}
    (h : encodable records = r :: rest) : r.isEncodable = true ∧ encodable rest = rest := by
  have hall : ∀ x ∈ r :: rest, x.isEncodable = true := by
    intro x hx
    rw [← h] at hx
    exact (List.mem_filter.1 hx).2
  exact ⟨hall r List.mem_cons_self,
    List.filter_eq_self.2 fun x hx => hall x (List.mem_cons_of_mem r hx)⟩

theorem linesOf_of_cons {records rest : List Record} {r : Record}
    (h : encodable records = r :: rest) : linesOf records = r.lineBytes ++ linesOf rest := by
  rw [linesOf, h, List.flatMap_cons, linesOf, (encodable_eq_cons h).2]

/-- The first line that is put behind bytes continues their open line. -/
theorem splitLines_append_lineBytes (bs : List UInt8) (r : Record) (more : List UInt8) :
    splitLines (bs ++ (r.lineBytes ++ more)) =
      splitLines (fullLines bs) ++ (openLine bs ++ r.lineBytes) :: splitLines more := by
  have hline : splitLines (openLine bs ++ r.lineBytes) = [openLine bs ++ r.lineBytes] := by
    rw [lineBytes_eq, ← List.append_assoc]
    refine splitLines_line fun hmem => ?_
    rcases List.mem_append.1 hmem with hmem | hmem
    · exact lineEnd_not_mem_openLine bs hmem
    · exact Text.not_mem_utf8Encode (n := 10) (by decide) r.newline_not_mem_text hmem
  have hcomplete : IsComplete (openLine bs ++ r.lineBytes) := by
    intro b hb
    rw [List.getLast?_append_of_ne_nil _ (by rw [lineBytes_eq]; simp)] at hb
    exact isComplete_lineBytes r b hb
  have hparts : bs ++ (r.lineBytes ++ more) =
      fullLines bs ++ (openLine bs ++ r.lineBytes ++ more) := by
    rw [← List.append_assoc, ← List.append_assoc, ← List.append_assoc, fullLines_append_openLine]
  rw [hparts, splitLines_append (isComplete_fullLines bs), splitLines_append hcomplete, hline,
    List.singleton_append]

/-- A log that is read, with the lines of records put behind it: it is read as what it was read as
before, followed by the records, if there is room for them behind the last line break, and otherwise
its last line is refused. -/
theorem readContent_append {bs : List UInt8} {before : List Record}
    (hread : readContent path bs = .ok before) (records : List Record) :
    (encodable records = [] ∨ IsAppendable bs →
        readContent path (bs ++ linesOf records) = .ok (before ++ encodable records)) ∧
      (¬(encodable records = [] ∨ IsAppendable bs) → ∃ f,
        readContent path (bs ++ linesOf records) =
          .error (lineFailure path (splitLines bs).length f)) := by
  cases hrecords : encodable records with
  | nil =>
      refine ⟨fun _ => ?_, fun hnot => absurd (.inl rfl) hnot⟩
      rw [linesOf, hrecords, List.flatMap_nil, List.append_nil, List.append_nil, hread]
  | cons r rest =>
      have hr := (encodable_eq_cons hrecords).1
      rw [readContent, splitLines_eq] at hread
      obtain ⟨full, last, hfull, hlast, hbefore⟩ := readLines_append_ok hread
      obtain ⟨cs, hcs, hopen, hnone⟩ := readLines_openLine (lineEnd_not_mem_openLine bs) hlast
      obtain ⟨htaken, hrefused⟩ :=
        readLine_append_lineBytes path (1 + (splitLines (fullLines bs)).length) hcs hopen hr
      rw [readContent, linesOf_of_cons hrecords, splitLines_append_lineBytes, readLines_append]
      simp only [bind, Except.bind, hfull, readLines, readLines_linesOf]
      constructor
      · rintro (hnil | happendable)
        · cases hnil
        · have hspace := (isAppendable_iff hcs).1 happendable
          rw [htaken hspace, hbefore, hnone hspace, (encodable_eq_cons hrecords).2]
          simp
      · intro hnot
        have hspace : ¬cs.all Json.isSpace = true :=
          fun h => hnot (.inr ((isAppendable_iff hcs).2 h))
        have hne : openLine bs ≠ [] := by
          intro hnil
          rw [hnil] at hcs
          exact hspace (by rw [← Except.ok.inj hcs]; rfl)
        obtain ⟨f, hf⟩ := hrefused hspace
        rw [hf, length_splitLines hne]
        exact ⟨f, rfl⟩

/-! ## A record without its line break -/

theorem openLine_of_not_mem (h : lineEnd ∉ line) : openLine line = line := by
  rw [openLine, List.rtakeWhile_eq_self_iff]
  intro b hb
  simpa using ne_of_mem_of_not_mem hb h

theorem lineText_text (r : Record) : lineText r.text = r.text := by
  obtain ⟨ending, hending, hspace⟩ := lineText_append_ending r.text
  have hnil : ending = [] := by
    by_contra hne
    have hlast := getLast?_text r
    rw [hending, List.getLast?_append_of_ne_nil _ hne] at hlast
    have hbrace := List.all_eq_true.1 hspace '\x7d' (List.mem_of_getLast? hlast)
    exact absurd hbrace (by decide)
  rw [hnil, List.append_nil] at hending
  exact hending.symm

/-- The last line may be a record without a line break, and then nothing may be put behind it. -/
theorem readContent_text (path : String) {r : Record} (h : r.isEncodable = true) :
    readContent path (Text.utf8Encode r.text) = .ok [r] ∧
      ¬IsAppendable (Text.utf8Encode r.text) := by
  have hmem : lineEnd ∉ Text.utf8Encode r.text :=
    Text.not_mem_utf8Encode (n := 10) (by decide) r.newline_not_mem_text
  have hdecode : Text.utf8Decode (Text.utf8Encode r.text) = .ok r.text :=
    Text.utf8Decode_utf8Encode r.text
  have hne : Text.utf8Encode r.text ≠ [] := by
    intro hnil
    rw [hnil] at hdecode
    have htext := Except.ok.inj hdecode
    rw [Record.text_eq] at htext
    cases htext
  constructor
  · have hline : readLine path 1 (Text.utf8Encode r.text) = .ok (some r) := by
      simp [readLine, hdecode, lineText_text, allBlank_text, Record.decode_text h]
    simp [readContent, splitLines_of_not_mem hmem hne, readLines, hline, bind, Except.bind]
  · rw [← openLine_of_not_mem hmem] at hdecode
    rw [isAppendable_iff hdecode, Record.text_eq, List.all_cons]
    exact Bool.false_ne_true

end Log

end MetricLedger
