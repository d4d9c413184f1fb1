import Mathlib.Tactic
import MetricLedger.Proofs.Log.Framing
import MetricLedger.Proofs.Persistent.Appending

/-!
# The first bad line

A log is read as the records of its lines, or refused for the first of its lines that is no text or
neither blank nor a record. Main statement: `readFile_blames_first`.
-/

namespace MetricLedger.Log

/-! ## Lines without their ends -/

/-- The bytes without one carriage return at their end. -/
def withoutReturn (bs : List UInt8) : List UInt8 :=
  if bs.getLast? = some 13 then bs.dropLast else bs

/-- The bytes behind the last line break, if there are any. -/
def lastLine (content : List UInt8) : List (List UInt8) :=
  ((content.splitOn lineEnd).getLast?.filter fun line => !line.isEmpty).toList

/-- The lines of a log: the bytes in front of each line break, without one carriage return at their
end, and the bytes behind the last line break, if there are any. -/
def lines (content : List UInt8) : List (List UInt8) :=
  (content.splitOn lineEnd).dropLast.map withoutReturn ++ lastLine content

/-- The line is a text, and it is blank or a record. -/
def IsSound (line : List UInt8) : Prop :=
  ∃ cs, Text.utf8Decode line = .ok cs ∧ (Text.trim cs = [] ∨ ∃ r, Record.decode cs = .ok r)

/-- The record of a line that is not blank. -/
def recordOf? (line : List UInt8) : Option Record :=
  match Text.utf8Decode line with
  | .ok cs => if Text.trim cs = [] then none else (Record.decode cs).toOption
  | .error _ => none

/-- A line with its end, and the same line without it. -/
inductive Bares : List UInt8 → List UInt8 → Prop where
  | ended (bs : List UInt8) : Bares (bs ++ [lineEnd]) (withoutReturn bs)
  | unended {bs : List UInt8} (h : lineEnd ∉ bs) : Bares bs bs

variable {path : String} {number : ℕ} {content bs line raw : List UInt8} {cs : List Char}

/-! ## Splitting -/

theorem splitOn_lineEnd_cons (content : List UInt8) :
    (lineEnd :: content).splitOn lineEnd = [] :: content.splitOn lineEnd := by
  rw [List.splitOn_cons_eq_if_modifyHead, if_pos (beq_self_eq_true _)]

theorem splitOn_cons_of_ne {b : UInt8} (h : b ≠ lineEnd) (content : List UInt8) :
    (b :: content).splitOn lineEnd = (content.splitOn lineEnd).modifyHead (b :: ·) := by
  rw [List.splitOn_cons_eq_if_modifyHead, if_neg (by simpa using h)]

theorem lineEnd_not_mem_of_mem_splitOn (h : bs ∈ content.splitOn lineEnd) : lineEnd ∉ bs := by
  induction content generalizing bs with
  | nil =>
      rw [List.splitOn_nil, List.mem_singleton] at h
      rw [h]
      exact List.not_mem_nil
  | cons b content ih =>
      by_cases hb : b = lineEnd
      · rw [hb, splitOn_lineEnd_cons, List.mem_cons] at h
        obtain rfl | h := h
        · exact List.not_mem_nil
        · exact ih h
      · rw [splitOn_cons_of_ne hb] at h
        cases hpieces : content.splitOn lineEnd with
        | nil => exact absurd hpieces (List.splitOn_ne_nil _ _)
        | cons piece pieces =>
            rw [hpieces] at ih h
            rw [List.modifyHead_cons, List.mem_cons] at h
            obtain rfl | h := h
            · exact List.not_mem_cons_of_ne_of_not_mem (Ne.symm hb) (ih List.mem_cons_self)
            · exact ih (List.mem_cons_of_mem piece h)

/-- The lines with their ends are the pieces between the line breaks, each with its line break. -/
theorem splitLines_eq_pieces (content : List UInt8) :
    splitLines content =
      (content.splitOn lineEnd).dropLast.map (· ++ [lineEnd]) ++ lastLine content := by
  induction content with
  | nil => rfl
  | cons b content ih =>
      rw [splitLines, lastLine]
      split_ifs with hb
      · rw [hb, splitOn_lineEnd_cons, List.dropLast_cons_of_ne_nil (List.splitOn_ne_nil _ _),
          List.getLast?_cons_of_ne_nil (List.splitOn_ne_nil _ _), ih, lastLine]
        rfl
      · rw [splitOn_cons_of_ne hb, ih, lastLine]
        cases hpieces : content.splitOn lineEnd with
        | nil => exact absurd hpieces (List.splitOn_ne_nil _ _)
        | cons piece pieces =>
            cases pieces with
            | nil => cases piece <;> rfl
            | cons second pieces => rfl

theorem lineEnd_not_mem_of_mem_lastLine (h : line ∈ lastLine content) : lineEnd ∉ line := by
  obtain ⟨hlast, -⟩ := Option.filter_eq_some_iff.1 (Option.mem_toList.1 h)
  exact lineEnd_not_mem_of_mem_splitOn (List.mem_of_getLast? hlast)

theorem bares_lines (content : List UInt8) :
    List.Forall₂ Bares (splitLines content) (lines content) := by
  rw [splitLines_eq_pieces, lines]
  refine List.rel_append ?_ ?_
  · rw [List.forall₂_map_left_iff, List.forall₂_map_right_iff]
    exact List.forall₂_same.2 fun bs _ => .ended bs
  · exact List.forall₂_same.2 fun line hline => .unended (lineEnd_not_mem_of_mem_lastLine hline)

/-! ## Single lines -/

/-- The last character of a text is no ASCII character if the last byte is another one. -/
theorem getLast?_ne_of_utf8Decode {n : ℕ} (hn : n < 0x80) (h : Text.utf8Decode bs = .ok cs)
    (hbs : bs.getLast? ≠ some (UInt8.ofNat n)) : cs.getLast? ≠ some (Char.ofNat n) := by
  intro hlast
  obtain ⟨ds, rfl⟩ := List.getLast?_eq_some_iff.1 hlast
  rw [Text.utf8Decode_eq_ok_iff] at h
  rw [h, Text.utf8Encode_append, Text.utf8Encode_singleton hn, List.getLast?_concat] at hbs
  exact hbs rfl

theorem lineText_of_getLast?_ne (h : cs.getLast? ≠ some '\n') : lineText cs = cs := by
  rw [List.getLast?_eq_head?_reverse] at h
  rw [lineText]
  split
  next heq => exact absurd (by rw [heq]; rfl) h
  next heq => exact absurd (by rw [heq]; rfl) h
  next => rfl

theorem lineText_return (cs : List Char) : lineText (cs ++ ['\r'] ++ ['\n']) = cs := by
  rw [lineText, List.reverse_append, List.reverse_append]
  exact List.reverse_reverse cs

/-- A line is a text with its end exactly if it is one without it, and then the text of the line is
the same. -/
theorem Bares.utf8Decode_iff (h : Bares raw line) :
    (∃ cs', Text.utf8Decode raw = .ok cs' ∧ lineText cs' = cs) ↔
      Text.utf8Decode line = .ok cs := by
  cases h with
  | unended hend =>
      have htext {cs : List Char} (hcs : Text.utf8Decode line = .ok cs) : lineText cs = cs :=
        lineText_of_getLast?_ne
          (getLast?_ne_of_utf8Decode (n := 10) (by decide) hcs fun hl =>
            hend (List.mem_of_getLast? hl))
      constructor
      · rintro ⟨cs', hcs', rfl⟩
        rwa [htext hcs']
      · exact fun hcs => ⟨cs, hcs, htext hcs⟩
  | ended bs =>
      have hraw : (∃ cs', Text.utf8Decode (bs ++ [lineEnd]) = .ok cs' ∧ lineText cs' = cs) ↔
          ∃ ds, Text.utf8Decode bs = .ok ds ∧ lineText (ds ++ ['\n']) = cs := by
        constructor
        · rintro ⟨cs', hcs', hcs⟩
          obtain ⟨ds, hds, rfl⟩ := (Text.utf8Decode_snoc_iff (n := 10) (by decide)).1 hcs'
          exact ⟨ds, hds, hcs⟩
        · rintro ⟨ds, hds, hcs⟩
          exact ⟨_, (Text.utf8Decode_snoc_iff (n := 10) (by decide)).2 ⟨ds, hds, rfl⟩, hcs⟩
      rw [hraw, withoutReturn]
      -- With a carriage return in front of the line break, both come off; without one, the text of
      -- the bytes does not end in one either.
      split_ifs with hlast
      · obtain ⟨front, rfl⟩ := List.getLast?_eq_some_iff.1 hlast
        rw [List.dropLast_concat]
        constructor
        · rintro ⟨ds, hds, rfl⟩
          obtain ⟨es, hes, rfl⟩ := (Text.utf8Decode_snoc_iff (n := 13) (by decide)).1 hds
          exact (lineText_return es).symm ▸ hes
        · intro hcs
          exact ⟨_, (Text.utf8Decode_snoc_iff (n := 13) (by decide)).2 ⟨cs, hcs, rfl⟩,
            lineText_return cs⟩
      · have htext {ds : List Char} (hds : Text.utf8Decode bs = .ok ds) :
            lineText (ds ++ ['\n']) = ds :=
          lineText_append (getLast?_ne_of_utf8Decode (n := 13) (by decide) hds hlast)
        constructor
        · rintro ⟨ds, hds, rfl⟩
          rwa [htext hds]
        · exact fun hcs => ⟨cs, hcs, htext hcs⟩

theorem Bares.readLine_of_text (h : Bares raw line) (hcs : Text.utf8Decode line = .ok cs) :
    readLine path number raw =
      if Text.allBlank cs then .ok none
      else
        match Record.decode cs with
        | .ok r => .ok (some r)
        | .error f => .error (lineFailure path number f) := by
  obtain ⟨cs', hcs', rfl⟩ := h.utf8Decode_iff.2 hcs
  by_cases hblank : Text.allBlank (lineText cs') = true
  · simp [readLine, hcs', hblank]
  · cases hr : Record.decode (lineText cs') <;> simp [readLine, hcs', hblank, hr]

/-- A sound line is read as its record, if it has one. -/
theorem Bares.readLine_of_isSound (h : Bares raw line) (hsound : IsSound line) :
    readLine path number raw = .ok (recordOf? line) := by
  obtain ⟨cs, hcs, hline⟩ := hsound
  rw [h.readLine_of_text hcs, recordOf?, hcs]
  simp only [Text.trim_eq_nil_iff] at hline ⊢
  by_cases hblank : Text.allBlank cs = true
  · rw [if_pos hblank, if_pos hblank]
  · obtain ⟨r, hr⟩ := hline.resolve_left hblank
    rw [if_neg hblank, if_neg hblank, hr]
    rfl

/-- A text that is not sound is refused as the decoder of records refuses it. -/
theorem Bares.readLine_of_not_isSound (h : Bares raw line) (hcs : Text.utf8Decode line = .ok cs)
    (hsound : ¬IsSound line) : ∃ f, Record.decode cs = .error f ∧
      readLine path number raw = .error (lineFailure path number f) := by
  have hblank : ¬Text.allBlank cs = true := fun hblank =>
    hsound ⟨cs, hcs, .inl (Text.trim_eq_nil_iff.2 hblank)⟩
  cases hr : Record.decode cs with
  | ok r => exact absurd ⟨cs, hcs, .inr ⟨r, hr⟩⟩ hsound
  | error f =>
      refine ⟨f, rfl, ?_⟩
      rw [h.readLine_of_text hcs, if_neg hblank, hr]

theorem Bares.readLine_of_not_text (h : Bares raw line)
    (hline : ∀ cs, Text.utf8Decode line ≠ .ok cs) :
    ∃ fault, readLine path number raw = .error (textFailure path fault) := by
  cases hraw : Text.utf8Decode raw with
  | ok cs' => exact absurd (h.utf8Decode_iff.1 ⟨cs', hraw, rfl⟩) (hline _)
  | error fault => exact ⟨fault, by simp only [readLine, hraw]⟩

theorem Bares.exists_error (h : Bares raw line) (hsound : ¬IsSound line) (path : String)
    (number : ℕ) : ∃ f, readLine path number raw = .error f := by
  by_cases hline : ∃ cs, Text.utf8Decode line = .ok cs
  · obtain ⟨cs, hcs⟩ := hline
    obtain ⟨f, -, hf⟩ := h.readLine_of_not_isSound hcs hsound
    exact ⟨_, hf⟩
  · obtain ⟨fault, hfault⟩ := h.readLine_of_not_text (not_exists.1 hline)
    exact ⟨_, hfault⟩

/-! ## All lines -/

theorem readLines_of_isSound {raws ls : List (List UInt8)} (h : List.Forall₂ Bares raws ls)
    (hsound : ∀ line ∈ ls, IsSound line) (number : ℕ) :
    readLines path number raws = .ok (ls.filterMap recordOf?) := by
  induction h generalizing number with
  | nil => rfl
  | @cons raw line raws ls hline _ ih =>
      obtain ⟨hfirst, hrest⟩ := List.forall_mem_cons.1 hsound
      rw [readLines, hline.readLine_of_isSound hfirst, ih hrest]
      cases hrecord : recordOf? line with
      | none => rw [List.filterMap_cons_none hrecord]; rfl
      | some r => rw [List.filterMap_cons_some hrecord]; rfl

/-- Lines are refused for what the first of them that is not sound is refused for, whatever comes
behind it. -/
theorem readLines_of_not_isSound {raws before behind : List (List UInt8)}
    (h : List.Forall₂ Bares raws (before ++ line :: behind))
    (hsound : ∀ line ∈ before, IsSound line) (number : ℕ) :
    ∃ raw, Bares raw line ∧ ∀ f, readLine path (number + before.length) raw = .error f →
      readLines path number raws = .error f := by
  induction before generalizing raws number with
  | nil =>
      obtain ⟨raw, rest, hraw, -, rfl⟩ := List.forall₂_cons_right_iff.1 h
      refine ⟨raw, hraw, fun f hf => ?_⟩
      rw [List.length_nil, Nat.add_zero] at hf
      rw [readLines, hf]
      rfl
  | cons first before ih =>
      obtain ⟨rawFirst, rest, hraw, hrest, rfl⟩ := List.forall₂_cons_right_iff.1 h
      obtain ⟨hfirst, hbefore⟩ := List.forall_mem_cons.1 hsound
      obtain ⟨raw, hbares, hrefused⟩ := ih hrest hbefore (number + 1)
      refine ⟨raw, hbares, fun f hf => ?_⟩
      rw [List.length_cons, ← Nat.add_assoc, Nat.add_right_comm] at hf
      rw [readLines, hraw.readLine_of_isSound hfirst, hrefused f hf]
      rfl

/-! ## The file -/

/-- The first line that is not sound, if there is one. -/
theorem exists_first_not_isSound {ls : List (List UInt8)} (h : ¬∀ line ∈ ls, IsSound line) :
    ∃ before line behind, ls = before ++ line :: behind ∧ (∀ l ∈ before, IsSound l) ∧
      ¬IsSound line := by
  induction ls with
  | nil => exact absurd (fun line hline => absurd hline List.not_mem_nil) h
  | cons first ls ih =>
      by_cases hfirst : IsSound first
      · obtain ⟨before, line, behind, rfl, hbefore, hline⟩ :=
          ih fun hls => h (List.forall_mem_cons.2 ⟨hfirst, hls⟩)
        exact ⟨first :: before, line, behind, rfl, List.forall_mem_cons.2 ⟨hfirst, hbefore⟩, hline⟩
      · exact ⟨[], first, ls, rfl, fun l hl => absurd hl List.not_mem_nil, hfirst⟩

/-- A log is read exactly if each of its lines is sound, and then as the records of its lines, in
order. Any other log is refused for its first line that is not sound, whatever comes behind it: the
reading of the file fails if that line is no text, and if it is one, the failure names the line by
its number among all lines and says why it is no record. -/
theorem readFile_blames_first (files : Files) (path : String) (content : List UInt8)
    (h : files.read path = .ok content) :
    (∀ records, readFile files path = .ok records ↔
      (∀ line ∈ lines content, IsSound line) ∧
        records = (lines content).filterMap recordOf?) ∧
    ∀ before line behind, lines content = before ++ line :: behind →
      (∀ l ∈ before, IsSound l) → ¬IsSound line →
      ((∀ cs, Text.utf8Decode line ≠ .ok cs) → ∃ fault : Text.Utf8Fault,
        readFile files path =
          .error (.failed "read_restore_file" s!"{path}: {fault.message}")) ∧
      ∀ cs, Text.utf8Decode line = .ok cs → ∃ f, Record.decode cs = .error f ∧
        readFile files path =
          .error (.serialization "restore" s!"{path} line {before.length + 1}: {f.message}") := by
  rw [readFile_of_read h, readContent]
  have hbares := bares_lines content
  have hrefused {before : List (List UInt8)} {line : List UInt8} {behind : List (List UInt8)}
      (hlines : lines content = before ++ line :: behind) (hbefore : ∀ l ∈ before, IsSound l) :
      ∃ raw, Bares raw line ∧ ∀ f, readLine path (before.length + 1) raw = .error f →
        readLines path 1 (splitLines content) = .error f := by
    rw [Nat.add_comm]
    exact readLines_of_not_isSound (hlines ▸ hbares) hbefore 1
  refine ⟨fun records => ⟨fun hread => ?_, ?_⟩, fun before line behind hlines hbefore hline =>
    ⟨fun hnone => ?_, fun cs hcs => ?_⟩⟩
  · have hsound : ∀ line ∈ lines content, IsSound line := by
      by_contra hsound
      obtain ⟨before, line, behind, hlines, hbefore, hline⟩ := exists_first_not_isSound hsound
      obtain ⟨raw, hraw, hfirst⟩ := hrefused hlines hbefore
      obtain ⟨f, hf⟩ := hraw.exists_error hline path (before.length + 1)
      rw [hfirst f hf] at hread
      cases hread
    rw [readLines_of_isSound hbares hsound] at hread
    exact ⟨hsound, (Except.ok.inj hread).symm⟩
  · rintro ⟨hsound, rfl⟩
    exact readLines_of_isSound hbares hsound 1
  · obtain ⟨raw, hraw, hfirst⟩ := hrefused hlines hbefore
    obtain ⟨fault, hfault⟩ := hraw.readLine_of_not_text hnone
    exact ⟨fault, hfirst _ hfault⟩
  · obtain ⟨raw, hraw, hfirst⟩ := hrefused hlines hbefore
    obtain ⟨f, hf, hread⟩ := hraw.readLine_of_not_isSound hcs hline
    exact ⟨f, hf, hfirst _ hread⟩

/-- Two blank lines, the line of a record, a line that is none and bytes that are no text. -/
def muddledLog : List UInt8 :=
  [32, 13, lineEnd, 0xE3, 0x80, 0x80, lineEnd] ++ (Record.counter "n" (-5)).lineBytes ++
    [123, 13, lineEnd, 0xFF]

/-- The log is refused for its fourth line. -/
theorem readFile_blames_first_muddledLog :
    ∃ files : Files, files.read "m" = .ok muddledLog ∧
      ∃ f, Record.decode ['\x7b'] = .error f ∧
        readFile files "m" = .error (.serialization "restore" s!"m line 4: {f.message}") := by
  have hfile (content : List UInt8) :
      (Files.empty.put ["work", "m"] (.file content)).read "m" = .ok content := by cbv
  have hlines : lines muddledLog = [[32], [0xE3, 0x80, 0x80],
      Text.utf8Encode (Record.counter "n" (-5)).text] ++ [123] :: [[0xFF]] := by
    decide +kernel
  have hbrace : Text.utf8Decode [123] = .ok ['\x7b'] := by decide +kernel
  obtain ⟨-, hblames⟩ := readFile_blames_first _ "m" muddledLog (hfile _)
  have hsound : ∀ line ∈ [[32], [0xE3, 0x80, 0x80],
      Text.utf8Encode (Record.counter "n" (-5)).text], IsSound line := by
    simp only [List.forall_mem_cons]
    exact ⟨⟨[' '], by decide +kernel, .inl (by decide +kernel)⟩,
      ⟨['\u3000'], by decide +kernel, .inl (by decide +kernel)⟩,
      ⟨_, Text.utf8Decode_utf8Encode _, .inr ⟨_, Record.decode_text rfl⟩⟩,
      fun l hl => absurd hl List.not_mem_nil⟩
  have hbad : ¬IsSound [123] := by
    rintro ⟨cs, hcs, h⟩
    obtain rfl := Except.ok.inj (hcs.symm.trans hbrace)
    obtain h | ⟨r, hr⟩ := h
    · exact absurd h (by decide +kernel)
    · cases hr
  exact ⟨_, hfile _, (hblames _ [123] _ hlines hsound hbad).2 _ hbrace⟩

end MetricLedger.Log
