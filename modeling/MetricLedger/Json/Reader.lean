import MetricLedger.Json.Number

/-!
# Reading JSON values

The strict reader of a whole value, and the loose one that only steps over a value. Objects and
arrays are read as turns: at every turn the sequence ends, or another item follows.
-/

namespace MetricLedger.Json

/-- The blank characters between tokens. -/
def isSpace (c : Char) : Bool := c == ' ' || c == '\t' || c == '\n' || c == '\r'

/-- The text behind its leading blank characters. -/
def skipSpace (cs : List Char) : List Char := cs.dropWhile isSpace

/-- Steps over the rest of a word. -/
def expectWord : List Char → List Char → Except Fault (List Char)
  | [], cs => .ok cs
  | _ :: _, [] => .error .eofInValue
  | w :: ws, c :: cs => if c = w then expectWord ws cs else .error .expectedIdent

/-- What follows in a sequence of items: its closing bracket, or the next item. -/
inductive Turn where
  /-- The sequence is closed; this is what follows it. -/
  | close (rest : List Char)
  /-- Another item starts here. -/
  | item (rest : List Char)

def arrayTurn (first : Bool) (cs : List Char) : Except Fault Turn :=
  match skipSpace cs with
  | [] => .error .eofInList
  | c :: rest =>
      if c == ']' then .ok (.close rest)
      else if first then .ok (.item (c :: rest))
      else if c == ',' then
        match skipSpace rest with
        | [] => .error .eofInValue
        | d :: rest => if d == ']' then .error .trailingComma else .ok (.item (d :: rest))
      else .error .expectedCommaOrBracket

/-- The next turn of an object; an item starts behind the opening quote of its name. -/
def objectTurn (first : Bool) (cs : List Char) : Except Fault Turn :=
  match skipSpace cs with
  | [] => .error .eofInObject
  | c :: rest =>
      if c == '\x7d' then .ok (.close rest)
      else if first then
        if c == '"' then .ok (.item rest) else .error .keyNotString
      else if c == ',' then
        match skipSpace rest with
        | [] => .error .eofInValue
        | d :: rest =>
            if d == '"' then .ok (.item rest)
            else if d == '\x7d' then .error .trailingComma
            else .error .keyNotString
      else .error .expectedCommaOrBrace

/-- Steps over the colon between a name and its value. -/
def expectColon (cs : List Char) : Except Fault (List Char) :=
  match skipSpace cs with
  | [] => .error .eofInObject
  | c :: rest => if c == ':' then .ok rest else .error .expectedColon

/-! ## Whole values -/

/-- Reads the items of an array behind its bracket, at most `fuel` of them. -/
def readItems (item : Reader Value) : Nat → Bool → Reader (List Value)
  | 0, _, _ => .error .eofInList
  | fuel + 1, first, cs => do
      match ← arrayTurn first cs with
      | .close rest => .ok ([], rest)
      | .item rest => do
          let (v, rest) ← item rest
          let (vs, rest) ← readItems item fuel false rest
          .ok (v :: vs, rest)

/-- Reads the members of an object behind its brace, at most `fuel` of them; of two members of one
name the later one counts. -/
def readMembers (item : Reader Value) :
    Nat → Bool → List (String × Value) → Reader (List (String × Value))
  | 0, _, _, _ => .error .eofInObject
  | fuel + 1, first, members, cs => do
      match ← objectTurn first cs with
      | .close rest => .ok (members, rest)
      | .item rest => do
          let (name, rest) ← readText rest
          let rest ← expectColon rest
          let (v, rest) ← item rest
          readMembers item fuel false (Table.insertEntry (String.ofList name) v members) rest

/-- Reads a value; `inner` reads the values inside it, if another level is allowed. -/
def readValueWith (inner : Option (Reader Value)) : Reader Value := fun cs =>
  match skipSpace cs with
  | [] => .error .eofInValue
  | c :: rest =>
      if c == '"' then do
        let (s, rest) ← readText rest
        .ok (.string (String.ofList s), rest)
      else if c == '[' then
        match inner with
        | none => .error .tooDeep
        | some item => do
            let (vs, rest) ← readItems item (rest.length + 1) true rest
            .ok (.array vs, rest)
      else if c == '\x7b' then
        match inner with
        | none => .error .tooDeep
        | some item => do
            let (ms, rest) ← readMembers item (rest.length + 1) true [] rest
            .ok (.object ms, rest)
      else if c == 'n' then do
        let rest ← expectWord ['u', 'l', 'l'] rest
        .ok (.null, rest)
      else if c == 't' then do
        let rest ← expectWord ['r', 'u', 'e'] rest
        .ok (.bool true, rest)
      else if c == 'f' then do
        let rest ← expectWord ['a', 'l', 's', 'e'] rest
        .ok (.bool false, rest)
      else if c == '-' then do
        let (n, rest) ← readNumber true rest
        .ok (.number n, rest)
      else if c.isDigit then do
        let (n, rest) ← readNumber false (c :: rest)
        .ok (.number n, rest)
      else .error .expectedValue

/-- Reads a value with at most `depth` containers inside one another. -/
def readValue : Nat → Reader Value
  | 0 => readValueWith none
  | depth + 1 => readValueWith (some (readValue depth))

/-- The number of containers that a text may hold inside one another. -/
def maxDepth : Nat := 127

/-- Nothing but blank characters is left. -/
def expectEnd (cs : List Char) : Except Fault Unit :=
  if (skipSpace cs).isEmpty then .ok () else .error .trailingCharacters

/-- Reads a whole text with a reader that stops where its value ends. -/
def readWholeText {α : Type} (read : Reader α) (cs : List Char) : Except Fault α := do
  let (a, rest) ← read cs
  expectEnd rest
  .ok a

def Value.parse (cs : List Char) : Except Fault Value := readWholeText (readValue maxDepth) cs

/-! ## Stepping over a value -/

/-- An open container. -/
inductive Frame where
  | list
  | object
  deriving DecidableEq

/-- The fault where the text ends inside a container. -/
def Frame.eof : Frame → Fault
  | .list => .eofInList
  | .object => .eofInObject

/-- The fault where neither a comma nor the closing bracket follows an item. -/
def Frame.unclosed : Frame → Fault
  | .list => .expectedCommaOrBracket
  | .object => .expectedCommaOrBrace

/-- The bracket that closes a container. -/
def Frame.closing : Frame → Char
  | .list => ']'
  | .object => '\x7d'

/-- What a skipping reader does next. -/
inductive SkipState where
  /-- A value has to start. -/
  | value
  /-- An item of the innermost container may start, behind a comma if there is one already. -/
  | items (comma : Bool)

/-- Skips the name of a member, quotes and colon with it. -/
def skipName (cs : List Char) : Except Fault (List Char) :=
  match skipSpace cs with
  | [] => .error .eofInObject
  | c :: rest =>
      if c == '"' then do
        let rest ← skipText rest
        expectColon rest
      else .error .keyNotString

/-- Skips what precedes the value of the next item in a container. -/
def Frame.skipItemName : Frame → List Char → Except Fault (List Char)
  | .list, cs => .ok cs
  | .object, cs => skipName cs

def skipScalar (c : Char) (rest : List Char) : Except Fault (List Char) :=
  if c == '"' then skipText rest
  else if c == 'n' then expectWord ['u', 'l', 'l'] rest
  else if c == 't' then expectWord ['r', 'u', 'e'] rest
  else if c == 'f' then expectWord ['a', 'l', 's', 'e'] rest
  else if c == '-' then skipNumber rest
  else if c.isDigit then skipNumber (c :: rest)
  else .error .expectedValue

/-- Skips in at most `fuel` steps, inside the containers `frames`. -/
def skipSteps : Nat → SkipState → List Frame → List Char → Except Fault (List Char)
  | 0, _, _, _ => .error .eofInValue
  | fuel + 1, .value, frames, cs =>
      match skipSpace cs with
      | [] => .error .eofInValue
      | c :: rest =>
          if c == '[' then skipSteps fuel (.items false) (.list :: frames) rest
          else if c == '\x7b' then skipSteps fuel (.items false) (.object :: frames) rest
          else do
            let rest ← skipScalar c rest
            skipSteps fuel (.items true) frames rest
  | _ + 1, .items _, [], cs => .ok cs
  | fuel + 1, .items comma, frame :: frames, cs =>
      match skipSpace cs with
      | [] => .error frame.eof
      | c :: rest =>
          if comma && c == ',' then do
            let rest ← frame.skipItemName rest
            skipSteps fuel .value (frame :: frames) rest
          else if c == frame.closing then skipSteps fuel (.items true) frames rest
          else if comma then .error frame.unclosed
          else do
            let rest ← frame.skipItemName (c :: rest)
            skipSteps fuel .value (frame :: frames) rest

/-- Steps over a value, checking only that its parts can be told apart. -/
def skipValue (cs : List Char) : Except Fault (List Char) :=
  skipSteps (2 * cs.length + 2) .value [] cs

end MetricLedger.Json
