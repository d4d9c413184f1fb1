import MetricLedger.Toml.Text

/-!
# Reading TOML documents

A document is read line by line: headers, keys with their values, and comments. A document that is
wrong anywhere is refused as a whole.
-/

namespace MetricLedger.Toml

/-! ## Blanks, comments and keys -/

/-- The text behind its leading blanks. -/
def skipBlank (cs : List Char) : List Char := cs.dropWhile isBlank

/-- Steps over a comment, up to the end of its line. -/
def skipComment (cs : List Char) : List Char :=
  match cs with
  | '#' :: rest => rest.dropWhile isPlain
  | cs => cs

/-- Steps over the rest of a line, where only a comment may stand. -/
def endLine? (cs : List Char) : Option (List Char) :=
  match skipComment (skipBlank cs) with
  | [] => some []
  | rest => lineBreak? rest

/-- Steps over blanks, comments and line breaks, in at most `fuel` lines. -/
def skipLines : Nat → List Char → List Char
  | 0, cs => cs
  | fuel + 1, cs =>
      let rest := skipComment (skipBlank cs)
      match lineBreak? rest with
      | some rest => skipLines fuel rest
      | none => rest

/-- Steps over all blanks, comments and line breaks. -/
def skipSpace (cs : List Char) : List Char := skipLines (cs.length + 1) cs

/-- A character of a key without quotes. -/
def isKeyChar (c : Char) : Bool := c.isAlphanum || c == '_' || c == '-'

def readKeyPart : Reader String
  | [] => none
  | c :: cs =>
      if c == '"' || c == singleQuote then do
        let (text, rest) ← readLineText c cs
        some (String.ofList text, rest)
      else
        let name := (c :: cs).takeWhile isKeyChar
        if name.isEmpty then none
        else some (String.ofList name, (c :: cs).dropWhile isKeyChar)

/-- Reads a key of at most `fuel` parts with points between them: the parts but the last one, and
the last one. -/
def readKeyUpTo : Nat → Reader (List String × String)
  | 0, _ => none
  | fuel + 1, cs => do
      let (part, rest) ← readKeyPart (skipBlank cs)
      match skipBlank rest with
      | '.' :: rest => do
          let ((path, last), rest) ← readKeyUpTo fuel rest
          some ((part :: path, last), rest)
      | rest => some (([], part), rest)

def readKey : Reader (List String × String) := fun cs => readKeyUpTo (cs.length + 1) cs

/-! ## Values -/

/-- A character of a word, a number or a moment. -/
def isScalarChar (c : Char) : Bool :=
  c.isAlphanum || c == '_' || c == '-' || c == '+' || c == '.' || c == ':'

/-- Reads a word, a number or a moment; one blank may stand between a date and a time. -/
def readScalar : Reader Item := fun cs => do
  let word := cs.takeWhile isScalarChar
  let rest := cs.dropWhile isScalarChar
  let (word, rest) :=
    match rest with
    | ' ' :: c :: cs =>
        if isDate word && c.isDigit then
          (word ++ ' ' :: (c :: cs).takeWhile isScalarChar, (c :: cs).dropWhile isScalarChar)
        else (word, rest)
    | rest => (word, rest)
  let item ← scalar? word
  some (item, rest)

/-- Reads the items of an array behind its bracket, at most `fuel` of them. -/
def readItems (value : Reader Item) : Nat → Reader (List Item)
  | 0, _ => none
  | fuel + 1, cs =>
      match skipSpace cs with
      | ']' :: rest => some ([], rest)
      | cs => do
          let (item, rest) ← value cs
          match skipSpace rest with
          | ',' :: rest => do
              let (items, rest) ← readItems value fuel rest
              some (item :: items, rest)
          | ']' :: rest => some ([item], rest)
          | _ => none

/-- Reads a key, an equals sign and a value. -/
def readPair (value : Reader Item) : Reader (List String × String × Item) := fun cs => do
  let ((path, key), rest) ← readKey cs
  match skipBlank rest with
  | '=' :: rest => do
      let (item, rest) ← value (skipBlank rest)
      some ((path, key, item), rest)
  | _ => none

/-- Reads the entries of a table written as a value behind its brace, at most `fuel` of them. -/
def readInline (value : Reader Item) : Nat → Entries → Reader Entries
  | 0, _, _ => none
  | fuel + 1, entries, cs =>
      match skipSpace cs with
      | '\x7d' :: rest => some (entries, rest)
      | cs => do
          let ((path, key, item), rest) ← readPair value cs
          let entries ← Entries.defineDotted path key item .inline entries
          match skipSpace rest with
          | ',' :: rest => readInline value fuel entries rest
          | '\x7d' :: rest => some (entries, rest)
          | _ => none

/-- Reads a value; `inner` reads the values inside it, if another level is allowed. -/
def readValueWith (inner : Option (Reader Item)) : Reader Item
  | [] => none
  | c :: cs =>
      if c == '"' || c == singleQuote then do
        let (text, rest) ← readString c cs
        some (.string text, rest)
      else if c == '[' then do
        let value ← inner
        let (items, rest) ← readItems value (cs.length + 1) cs
        some (.array items, rest)
      else if c == '\x7b' then do
        let value ← inner
        let (entries, rest) ← readInline value (cs.length + 1) [] cs
        some (.table .inline entries, rest)
      else readScalar (c :: cs)

/-- Reads a value with at most `depth` arrays and tables inside one another. -/
def readValue : Nat → Reader Item
  | 0 => readValueWith none
  | depth + 1 => readValueWith (some (readValue depth))

/-- The number of arrays and tables that a value may hold inside one another. -/
def maxDepth : Nat := 80

/-! ## Lines -/

/-- What has been read of a document. -/
structure Progress where
  entries : Entries
  /-- The path of the last header. -/
  header : List String

/-- Steps over the brackets that close a header and the rest of its line. -/
def closeHeader? (double : Bool) (cs : List Char) : Option (List Char) :=
  match double, skipBlank cs with
  | false, ']' :: rest => endLine? rest
  | true, ']' :: ']' :: rest => endLine? rest
  | _, _ => none

/-- Reads a header behind its brackets. -/
def readHeader (double : Bool) (p : Progress) : Reader Progress := fun cs => do
  let ((path, key), rest) ← readKey cs
  let rest ← closeHeader? double rest
  let entries ←
    if double then p.entries.declareAnother path key else p.entries.declare path key
  some (⟨entries, path ++ [key]⟩, rest)

/-- Reads a line, with the line break at its end. -/
def readLine (p : Progress) : Reader Progress := fun cs =>
  match skipBlank cs with
  | '[' :: '[' :: rest => readHeader true p rest
  | '[' :: rest => readHeader false p rest
  | cs =>
      match endLine? cs with
      | some rest => some (p, rest)
      | none => do
          let ((path, key, item), rest) ← readPair (readValue maxDepth) cs
          let entries ← p.entries.defineUnder p.header path key item
          let rest ← endLine? rest
          some (⟨entries, p.header⟩, rest)

/-- Reads at most `fuel` lines. -/
def readAllLines : Nat → Progress → List Char → Option Entries
  | _, p, [] => some p.entries
  | 0, _, _ => none
  | fuel + 1, p, cs => do
      let (p, rest) ← readLine p cs
      readAllLines fuel p rest

/-- The text without the byte order mark that it may start with. -/
def withoutMark : List Char → List Char
  | '\ufeff' :: cs => cs
  | cs => cs

/-- Reads a document. -/
def parse (cs : List Char) : Option Entries :=
  let cs := withoutMark cs
  readAllLines (cs.length + 1) ⟨[], []⟩ cs

end MetricLedger.Toml
