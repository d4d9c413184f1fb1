import MetricLedger.Settings.Environment
import MetricLedger.Text.Pieces

/-!
# Environment files

A file of lines `NAME=value` gives texts to names that the environment has none for. A value may
stand in quotes, a `#` behind a blank starts a comment, and the first line that does not read ends
the reading.
-/

namespace MetricLedger.Environment

/-! ## Values -/

/-- The character that a backslash and a character stand for. -/
def escaped? (c : Char) : Option Char :=
  if c == 'n' then some '\n'
  else if ['\\', '\'', '"', '$', ' '].contains c then some c
  else none

/-- How the characters of a value are taken. -/
inductive ValuePart where
  | plain
  /-- Inside single quotes, where a backslash stands for itself. -/
  | single
  | double
  /-- Behind the value, where only a comment may follow. -/
  | behind
  deriving DecidableEq, Repr

/-- The sign of a blank between a value and a comment. -/
def isGap (c : Char) : Bool := c == ' ' || c == '\t'

def readValue : ValuePart → List Char → Option (List Char)
  | .plain, [] | .plain, ['\\'] | .behind, [] => some []
  | .single, [] | .double, [] => none
  | .behind, c :: cs =>
      if isGap c then readValue .behind cs else if c == '#' then some [] else none
  | .single, c :: cs => if c == '\'' then readValue .plain cs else (c :: ·) <$> readValue .single cs
  | .double, '\\' :: c :: cs => do (← escaped? c) :: (← readValue .double cs)
  | .double, c :: cs => if c == '"' then readValue .plain cs else (c :: ·) <$> readValue .double cs
  | .plain, '\\' :: c :: cs => do (← escaped? c) :: (← readValue .plain cs)
  | .plain, c :: cs =>
      if c == '\'' then readValue .single cs
      else if c == '"' then readValue .double cs
      else if isGap c then readValue .behind cs
      else (c :: ·) <$> readValue .plain cs

/-! ## Lines -/

/-- A character that may stand in a name behind its first one. -/
def isNameChar (c : Char) : Bool := c.isAlphanum || c == '_' || c == '.'

/-- Reads a name and the blanks behind it. -/
def readName (cs : List Char) : Option (List Char × List Char) :=
  match cs with
  | [] => none
  | c :: _ =>
      if c.isAlpha || c == '_' then
        some (cs.takeWhile isNameChar, Text.trimStart (cs.dropWhile isNameChar))
      else none

/-- The word in front of a name that is handed on to other programs. -/
def exportWord : List Char := "export".toList

/-- Reads a name, an equals sign and a value; the word `export` may stand in front. -/
def readEntry (cs : List Char) : Option (String × String) := do
  let (name, rest) ← readName cs
  let (name, rest) ←
    match rest with
    | '=' :: _ => some (name, rest)
    | _ => if name = exportWord then readName rest else none
  match rest with
  | '=' :: rest =>
      let rest := Text.trimStart rest
      let value ← if rest.head? = some '#' then some [] else readValue .plain rest
      some (String.ofList name, String.ofList value)
  | _ => none

/-- Reads the lines of a file, up to the first one that does not read. -/
def readLines : List (List Char) → List (String × String)
  | [] => []
  | line :: lines =>
      let cs := Text.trim line
      if cs.isEmpty || cs.head? = some '#' then readLines lines
      else
        match readEntry cs with
        | some entry => entry :: readLines lines
        | none => []

/-- The entries of the text of a file. -/
def ofText (cs : List Char) : List (String × String) := readLines (Text.pieces '\n' cs)

/-- The environment with texts for names that have none; of two texts for a name the first counts. -/
def orElse (env : Environment) (entries : List (String × String)) : Environment := fun name =>
  (env name).or (ofList entries name)

end MetricLedger.Environment
