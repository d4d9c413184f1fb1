import Mathlib.Tactic
import MetricLedger.Proofs.Log.Seam

/-!
# The records of a log

A log is read as one record for each of its lines that is not blank, in order, or not at all. Main
statement: `readFile_ok_iff`.
-/

namespace MetricLedger.Log

/-- The line is a text of blank characters. -/
def isBlankLine (line : List UInt8) : Bool :=
  match Text.utf8Decode line with
  | .ok cs => Text.allBlank (lineText cs)
  | .error _ => false

/-- The lines of a log that are not blank. -/
def filledLines (content : List UInt8) : List (List UInt8) :=
  (splitLines content).filter fun line => !isBlankLine line

/-- The line is the text of a record, without the line break at its end. -/
def Tells (line : List UInt8) (r : Record) : Prop :=
  ∃ cs, Text.utf8Decode line = .ok cs ∧ Record.decode (lineText cs) = .ok r

/-- The bytes of the log at a path; a log that is not there has none. -/
def logBytes (files : Files) (path : String) : Except FileFault (List UInt8) :=
  match files.read path with
  | .error .notFound => .ok []
  | result => result

/-- The log at a path has these records: one on each line that is not blank, in order. -/
def HasRecords (files : Files) (path : String) (records : List Record) : Prop :=
  ∃ content, logBytes files path = .ok content ∧ List.Forall₂ Tells (filledLines content) records

variable {path : String} {number : ℕ} {line : List UInt8} {records : List Record}

/-! ## Lines -/

theorem readLine_of_blank (h : isBlankLine line = true) : readLine path number line = .ok none := by
  unfold isBlankLine at h
  cases hdecode : Text.utf8Decode line with
  | error fault =>
      rw [hdecode] at h
      cases h
  | ok cs =>
      rw [hdecode] at h
      simp only [readLine, hdecode, if_pos h]

/-- A line that is not blank is read as the record that it tells, or not at all. -/
theorem readLine_of_filled (h : isBlankLine line = false) {found : Option Record} :
    readLine path number line = .ok found ↔ ∃ r, found = some r ∧ Tells line r := by
  unfold isBlankLine at h
  cases hdecode : Text.utf8Decode line with
  | error fault => simp [readLine, Tells, hdecode]
  | ok cs =>
      rw [hdecode] at h
      simp only at h
      cases hr : Record.decode (lineText cs) with
      | error f => simp [readLine, Tells, hdecode, h, hr]
      | ok r => simp [readLine, Tells, hdecode, h, hr, eq_comm]

theorem readLines_cons_ok {lines : List (List UInt8)} :
    readLines path number (line :: lines) = .ok records ↔
      ∃ found rest, readLine path number line = .ok found ∧
        readLines path (number + 1) lines = .ok rest ∧ records = found.toList ++ rest := by
  cases hline : readLine path number line with
  | error f => simp [readLines, hline, bind, Except.bind]
  | ok found =>
      cases hlines : readLines path (number + 1) lines with
      | error f => simp [readLines, hline, hlines, bind, Except.bind]
      | ok rest => simp [readLines, hline, hlines, bind, Except.bind, eq_comm]

/-- Lines are read as the records of those among them that are not blank. -/
theorem readLines_ok_iff (lines : List (List UInt8)) :
    readLines path number lines = .ok records ↔
      List.Forall₂ Tells (lines.filter fun line => !isBlankLine line) records := by
  induction lines generalizing number records with
  | nil => simp [readLines, eq_comm]
  | cons line lines ih =>
      rw [readLines_cons_ok]
      cases hblank : isBlankLine line with
      | true =>
          rw [List.filter_cons_of_neg (by simp [hblank]), readLine_of_blank hblank]
          simp [ih]
      | false =>
          rw [List.filter_cons_of_pos (by simp [hblank]), List.forall₂_cons_left_iff]
          simp only [readLine_of_filled hblank, ih]
          constructor
          · rintro ⟨_, rest, ⟨r, rfl, hr⟩, hrest, rfl⟩
            exact ⟨r, rest, hr, hrest, rfl⟩
          · rintro ⟨r, rest, hr, hrest, rfl⟩
            exact ⟨some r, rest, ⟨r, rfl, hr⟩, hrest, rfl⟩

theorem readContent_ok_iff {content : List UInt8} :
    readContent path content = .ok records ↔ List.Forall₂ Tells (filledLines content) records :=
  readLines_ok_iff _

/-! ## Files -/

theorem contentAt_ne_notFound {files : Files} {place : Place} {node : FileNode}
    (h : files.find path = .ok (place, node)) : files.contentAt place ≠ .error .notFound := by
  have hnode : files.node? place = some node := by
    unfold Files.find at h
    cases hplace : files.resolve path with
    | error fault =>
        rw [hplace] at h
        cases h
    | ok there =>
        cases hthere : files.node? there with
        | none =>
            simp only [hplace, bind, Except.bind, hthere] at h
            cases h
        | some found =>
            simp only [hplace, bind, Except.bind, hthere, Except.ok.injEq, Prod.mk.injEq] at h
            obtain ⟨rfl, rfl⟩ := h
            exact hthere
  rw [Files.contentAt, hnode]
  cases node <;> simp

/-- A log is read as the records on its lines that are not blank, or not at all. -/
theorem readFile_ok_iff {files : Files} :
    readFile files path = .ok records ↔ HasRecords files path records := by
  unfold readFile HasRecords logBytes Files.read
  cases hfind : files.find path with
  | error fault =>
      cases fault <;> simp [bind, Except.bind, filledLines, splitLines, eq_comm]
  | ok found =>
      have hthere := contentAt_ne_notFound hfind
      cases hcontent : files.contentAt found.1 with
      | error fault =>
          rw [hcontent] at hthere
          cases fault <;> simp_all [bind, Except.bind]
      | ok content => simp [bind, Except.bind, hcontent, readContent_ok_iff]

end MetricLedger.Log
