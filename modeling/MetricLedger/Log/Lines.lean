import MetricLedger.Files.Tree
import MetricLedger.Record.Line

/-!
# Reading a log

A log is read line by line. Blank lines do not count; the first line that is no text or no record
ends the reading, and is named by its number.
-/

namespace MetricLedger.Log

/-- The byte that ends a line. -/
def lineEnd : UInt8 := 10

/-- The lines of a log with the bytes that end them; the last one may end without. -/
def splitLines : List UInt8 → List (List UInt8)
  | [] => []
  | b :: bs =>
      if b = lineEnd then [b] :: splitLines bs
      else
        match splitLines bs with
        | [] => [[b]]
        | line :: lines => (b :: line) :: lines

/-- The text of a line without its line break and without one carriage return in front of that. -/
def lineText (cs : List Char) : List Char :=
  match cs.reverse with
  | '\n' :: '\r' :: rest => rest.reverse
  | '\n' :: rest => rest.reverse
  | _ => cs

def textFailure (path : String) (fault : Text.Utf8Fault) : Failure :=
  .failed "read_restore_file" s!"{path}: {fault.message}"

def lineFailure (path : String) (number : Nat) (f : Failure) : Failure :=
  .serialization "restore" s!"{path} line {number}: {f.message}"

/-- Reads the record of a line; a blank line has none. -/
def readLine (path : String) (number : Nat) (line : List UInt8) :
    Except Failure (Option Record) :=
  match Text.utf8Decode line with
  | .error fault => .error (textFailure path fault)
  | .ok cs =>
      let text := lineText cs
      if Text.allBlank text then .ok none
      else
        match Record.decode text with
        | .ok r => .ok (some r)
        | .error f => .error (lineFailure path number f)

/-- Reads the records of lines, the first of which has the number `number`. -/
def readLines (path : String) : Nat → List (List UInt8) → Except Failure (List Record)
  | _, [] => .ok []
  | number, line :: lines => do
      let r ← readLine path number line
      let records ← readLines path (number + 1) lines
      .ok (r.toList ++ records)

/-- Reads the records of a whole log. -/
def readContent (path : String) (content : List UInt8) : Except Failure (List Record) :=
  readLines path 1 (splitLines content)

/-- Reads the log at a path; a log that is not there holds no record. -/
def readFile (files : Files) (path : String) : Except Failure (List Record) :=
  match files.find path with
  | .error .notFound => .ok []
  | .error fault => .error (.failed "open_restore_file" s!"{path}: {fault.message}")
  | .ok (place, _) =>
      match files.contentAt place with
      | .error fault => .error (.failed "read_restore_file" s!"{path}: {fault.message}")
      | .ok content => readContent path content

/-! ## Laws -/

/-- No byte of a log is lost between its lines. -/
theorem flatten_splitLines (bs : List UInt8) : (splitLines bs).flatten = bs := by
  induction bs with
  | nil => rfl
  | cons b bs ih =>
      unfold splitLines
      split
      · simp [ih]
      · split
        next h => rw [h] at ih; simp [← ih]
        next line lines h => rw [h] at ih; simpa using ih

end MetricLedger.Log
