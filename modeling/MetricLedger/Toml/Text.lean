import MetricLedger.Toml.Scalar

/-!
# Strings of TOML

Strings stand between one or three quotes. Between double quotes there are escapes, between single
quotes every character stands for itself.
-/

namespace MetricLedger.Toml

/-- Reads something at the head of a text and returns what is left behind it. -/
abbrev Reader (α : Type) := List Char → Option (α × List Char)

/-- The quote around strings without escapes. -/
def singleQuote : Char := '\x27'

/-- A blank inside a line. -/
def isBlank (c : Char) : Bool := c == ' ' || c == '\t'

/-- A character that may stand for itself inside a line. -/
def isPlain (c : Char) : Bool := c == '\t' || (0x20 ≤ c.toNat && c.toNat != 0x7F)

/-- Steps over a line break. -/
def lineBreak? : List Char → Option (List Char)
  | '\n' :: cs => some cs
  | '\r' :: '\n' :: cs => some cs
  | _ => none

/-- Reads a character by its code of so many digits in base sixteen. -/
def readCode (count : Nat) : Reader Char := fun cs =>
  let digits := cs.take count
  let code := valueInBase 16 digits
  if digits.length = count && digits.all (isDigitOf 16) && Nat.isValidChar code then
    some (Char.ofNat code, cs.drop count)
  else none

/-- Reads an escape behind its backslash. -/
def readEscape : Reader Char
  | [] => none
  | c :: cs =>
      if c == 'b' then some ('\x08', cs)
      else if c == 't' then some ('\t', cs)
      else if c == 'n' then some ('\n', cs)
      else if c == 'f' then some ('\x0c', cs)
      else if c == 'r' then some ('\r', cs)
      else if c == 'e' then some ('\x1b', cs)
      else if c == '"' || c == '\\' then some (c, cs)
      else if c == 'x' then readCode 2 cs
      else if c == 'u' then readCode 4 cs
      else if c == 'U' then readCode 8 cs
      else none

/-- Reads a string of one line up to its quote, in at most `fuel` characters. -/
def readLineTextUpTo (quote : Char) : Nat → Reader (List Char)
  | 0, _ => none
  | _ + 1, [] => none
  | fuel + 1, c :: cs =>
      if c == quote then some ([], cs)
      else if c == '\\' && quote == '"' then do
        let (d, rest) ← readEscape cs
        let (ds, rest) ← readLineTextUpTo quote fuel rest
        some (d :: ds, rest)
      else if isPlain c then do
        let (ds, rest) ← readLineTextUpTo quote fuel cs
        some (c :: ds, rest)
      else none

def readLineText (quote : Char) : Reader (List Char) := fun cs =>
  readLineTextUpTo quote (cs.length + 1) cs

/-- Steps over blanks and line breaks, at most `fuel` of them. -/
def skipBlankLines : Nat → List Char → List Char
  | 0, cs => cs
  | fuel + 1, cs =>
      match cs.dropWhile isBlank with
      | '\n' :: rest => skipBlankLines fuel rest
      | '\r' :: '\n' :: rest => skipBlankLines fuel rest
      | rest => rest

/-- What follows a backslash at the end of a line: the next line that is not blank. -/
def continuedLine? (cs : List Char) : Option (List Char) :=
  (lineBreak? (cs.dropWhile isBlank)).map fun rest => skipBlankLines (rest.length + 1) rest

/-- Reads a string of several lines up to three quotes, in at most `fuel` characters. One or two
quotes more in front of the closing ones belong to the string. -/
def readLinesTextUpTo (quote : Char) : Nat → Reader (List Char)
  | 0, _ => none
  | _ + 1, [] => none
  | fuel + 1, c :: cs =>
      if c == quote then
        let run := (cs.takeWhile (· == quote)).length + 1
        let rest := cs.dropWhile (· == quote)
        if run < 3 then do
          let (ds, rest) ← readLinesTextUpTo quote fuel rest
          some (List.replicate run quote ++ ds, rest)
        else if run ≤ 5 then some (List.replicate (run - 3) quote, rest)
        else none
      else if c == '\\' && quote == '"' then
        match continuedLine? cs with
        | some rest => readLinesTextUpTo quote fuel rest
        | none => do
            let (d, rest) ← readEscape cs
            let (ds, rest) ← readLinesTextUpTo quote fuel rest
            some (d :: ds, rest)
      else
        match lineBreak? (c :: cs) with
        | some rest => do
            let (ds, rest) ← readLinesTextUpTo quote fuel rest
            some ('\n' :: ds, rest)
        | none =>
            if isPlain c then do
              let (ds, rest) ← readLinesTextUpTo quote fuel cs
              some (c :: ds, rest)
            else none

/-- Reads a string of several lines behind its quotes; a line break right there does not count. -/
def readLinesText (quote : Char) : Reader (List Char) := fun cs =>
  let cs := (lineBreak? cs).getD cs
  readLinesTextUpTo quote (cs.length + 1) cs

/-- Reads a string whose first quote is `quote`, behind that quote. -/
def readString (quote : Char) : Reader String := fun cs => do
  let (text, rest) ←
    match cs with
    | c :: d :: rest =>
        if c == quote && d == quote then readLinesText quote rest else readLineText quote cs
    | cs => readLineText quote cs
  some (String.ofList text, rest)

end MetricLedger.Toml
