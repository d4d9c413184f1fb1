import MetricLedger.Json.Reader

/-!
# Values of a fixed shape

A shape is a list of named fields. It is read from an object, whose members may come in any order
and may include unknown ones, or from an array that holds the fields in their own order.
-/

namespace MetricLedger.Json

/-- A field of a shape: its name and the reader of its value. -/
structure Field where
  name : String
  read : Reader Value

/-- A shape: what it is called in messages, and its fields. -/
structure Shape where
  title : String
  fields : List Field

/-! ## Readers of single fields -/

/-- The fault where a value of another type than `expected` starts. -/
def typeFault (expected : String) (cs : List Char) : Fault :=
  match cs with
  | [] => .expectedValue
  | c :: rest =>
      let found : Except Fault Unexpected :=
        if c == 'n' then (fun _ => .null) <$> expectWord ['u', 'l', 'l'] rest
        else if c == 't' then (fun _ => .bool true) <$> expectWord ['r', 'u', 'e'] rest
        else if c == 'f' then (fun _ => .bool false) <$> expectWord ['a', 'l', 's', 'e'] rest
        else if c == '-' then (·.1.unexpected) <$> readNumber true rest
        else if c.isDigit then (·.1.unexpected) <$> readNumber false (c :: rest)
        else if c == '"' then (fun r => .string (String.ofList r.1)) <$> readText rest
        else if c == '[' then .ok .sequence
        else if c == '\x7b' then .ok .map
        else .error .expectedValue
      match found with
      | .ok found => .invalidType found expected
      | .error fault => fault

def readString : Reader Value := fun cs =>
  match skipSpace cs with
  | [] => .error .eofInValue
  | c :: rest =>
      if c == '"' then do
        let (s, rest) ← readText rest
        .ok (.string (String.ofList s), rest)
      else .error (typeFault "a string" (c :: rest))

def readNumberAs (expected : String) (convert : Number → Except Fault Number) : Reader Value :=
  fun cs =>
    match skipSpace cs with
    | [] => .error .eofInValue
    | c :: rest =>
        if c == '-' then do
          let (n, rest) ← readNumber true rest
          let n ← convert n
          .ok (.number n, rest)
        else if c.isDigit then do
          let (n, rest) ← readNumber false (c :: rest)
          let n ← convert n
          .ok (.number n, rest)
        else .error (typeFault expected (c :: rest))

/-- The wording of a wanted whole number. -/
def signedName : String := "i64"

/-- The wording of a wanted double precision number. -/
def realName : String := "f64"

/-- A number kept as a whole number of 64 bits with a sign. -/
def toSigned : Number → Except Fault Number
  | .whole n =>
      if n ≤ Text.maxSigned64 then .ok (.whole n) else .error (.invalidValue (.whole n) signedName)
  | .real x => .error (.invalidType (.real x) signedName)

/-- A number kept as a double precision number. -/
def toReal : Number → Except Fault Number
  | .whole n => .ok (.real (Binary64.ofInt n))
  | .real x => .ok (.real x)

def readSigned : Reader Value := readNumberAs signedName toSigned

/-- Reads a double precision number. -/
def readReal : Reader Value := readNumberAs realName toReal

/-! ## Readers of shapes -/

/-- How a shape is described where its length is wrong. -/
def Shape.lengthTitle (shape : Shape) : String :=
  s!"struct {shape.title} with {shape.fields.length} elements"

/-- The values of all fields, or the first missing one. -/
def completeFields : List Field → List (Option Value) → Except Fault (List Value)
  | _ :: fs, some v :: vs => (v :: ·) <$> completeFields fs vs
  | f :: _, _ => .error (.missingField f.name)
  | [], _ => .ok []

/-- Reads the members behind the brace, at most `fuel` of them, into the slots of the fields. -/
def readSlots (fields : List Field) :
    Nat → Bool → List (Option Value) → Reader (List (Option Value))
  | 0, _, _, _ => .error .eofInObject
  | fuel + 1, first, slots, cs => do
      match ← objectTurn first cs with
      | .close rest => .ok (slots, rest)
      | .item rest => do
          let (name, rest) ← readText rest
          let name := String.ofList name
          match fields.findIdx? (·.name == name) with
          | none => do
              let rest ← expectColon rest
              let rest ← skipValue rest
              readSlots fields fuel false slots rest
          | some i =>
              if (slots.getD i none).isSome then .error (.duplicateField name)
              else do
                let rest ← expectColon rest
                match fields[i]? with
                | none => .error (.missingField name)
                | some field => do
                    let (v, rest) ← field.read rest
                    readSlots fields fuel false (slots.set i (some v)) rest

/-- Reads the fields from the items of an array; `read` of them have been read before. -/
def readPositions (title : String) : Nat → List Field → Reader (List Value)
  | _, [], cs => .ok ([], cs)
  | read, f :: fs, cs => do
      match ← arrayTurn (read == 0) cs with
      | .close _ => .error (.invalidLength read title)
      | .item rest => do
          let (v, rest) ← f.read rest
          let (vs, rest) ← readPositions title (read + 1) fs rest
          .ok (v :: vs, rest)

/-- Steps over the closing bracket behind the last field. -/
def closePositions (cs : List Char) : Except Fault (List Char) :=
  match skipSpace cs with
  | [] => .error .eofInList
  | c :: rest =>
      if c == ']' then .ok rest
      else if c == ',' then
        match skipSpace rest with
        | d :: _ => .error (if d == ']' then .trailingComma else .trailingCharacters)
        | [] => .error .trailingCharacters
      else .error .trailingCharacters

/-- Reads the values of the fields of a shape, in the order of the fields. -/
def Shape.read (shape : Shape) : Reader (List Value) := fun cs =>
  match skipSpace cs with
  | [] => .error .eofInValue
  | c :: rest =>
      if c == '[' then do
        let (vs, rest) ← readPositions shape.lengthTitle 0 shape.fields rest
        let rest ← closePositions rest
        .ok (vs, rest)
      else if c == '\x7b' then do
        let slots := shape.fields.map fun _ => none
        let (slots, rest) ← readSlots shape.fields (rest.length + 1) true slots rest
        let vs ← completeFields shape.fields slots
        .ok (vs, rest)
      else .error (typeFault s!"struct {shape.title}" (c :: rest))

/-- Reads a whole text as a shape. -/
def Shape.parse (shape : Shape) (cs : List Char) : Except Fault (List Value) :=
  readWholeText shape.read cs

/-! ## One of several names -/

/-- Reads one of the names that `choose?` knows, as a string or as the name of a single member whose
value is `null`; `expected` lists the names. -/
def readVariant {α : Type} (choose? : String → Option α) (expected : String) : Reader α := fun cs =>
  let choose : List Char → Except Fault α := fun name =>
    match choose? (String.ofList name) with
    | some a => .ok a
    | none => .error (.unknownVariant (String.ofList name) expected)
  match skipSpace cs with
  | [] => .error .eofInValue
  | c :: rest =>
      if c == '"' then do
        let (name, rest) ← readText rest
        let a ← choose name
        .ok (a, rest)
      else if c == '\x7b' then
        match skipSpace rest with
        | [] => .error .eofInValue
        | d :: rest =>
            if d == '"' then do
              let (name, rest) ← readText rest
              let a ← choose name
              let rest ← expectColon rest
              match skipSpace rest with
              | [] => .error .eofInValue
              | e :: rest =>
                  if e == 'n' then do
                    let rest ← expectWord ['u', 'l', 'l'] rest
                    match skipSpace rest with
                    | [] => .error .eofInObject
                    | f :: rest =>
                        if f == '\x7d' then .ok (a, rest) else .error .expectedValue
                  else .error (typeFault "unit" (e :: rest))
            else .error (typeFault "variant identifier" (d :: rest))
      else .error .expectedValue

end MetricLedger.Json
