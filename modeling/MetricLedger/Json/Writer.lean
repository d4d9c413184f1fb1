import MetricLedger.Json.Number

/-!
# Writing JSON values

The compact form holds no blank characters. The indented form puts every item on a line of its own,
two blanks deeper than the container around it.
-/

namespace MetricLedger.Json

/-- The items with a comma between every two of them. -/
def joinItems : List (List Char) → List Char
  | [] => []
  | [item] => item
  | item :: items => item ++ ',' :: joinItems items

def writeMember (name : String) (text : List Char) : List Char :=
  writeText name.toList ++ ':' :: text

def writeObject (members : List (List Char)) : List Char :=
  '\x7b' :: (joinItems members ++ ['\x7d'])

mutual

def Value.compact : Value → List Char
  | .null => ['n', 'u', 'l', 'l']
  | .bool true => ['t', 'r', 'u', 'e']
  | .bool false => ['f', 'a', 'l', 's', 'e']
  | .number n => n.text
  | .string s => writeText s.toList
  | .array items => '[' :: (joinItems (compactItems items) ++ [']'])
  | .object members => writeObject (compactMembers members)

/-- The compact texts of the items of an array. -/
def compactItems : List Value → List (List Char)
  | [] => []
  | v :: vs => v.compact :: compactItems vs

/-- The compact texts of the members of an object. -/
def compactMembers : List (String × Value) → List (List Char)
  | [] => []
  | (name, v) :: ms => writeMember name v.compact :: compactMembers ms

end

/-- The compact text of a value, as a string. -/
def Value.print (v : Value) : String := String.ofList v.compact

def lineBreak (depth : Nat) : List Char := '\n' :: List.replicate (2 * depth) ' '

/-- The items on lines of their own inside a container at a depth. -/
def blockItems (depth : Nat) : List (List Char) → List Char
  | [] => []
  | [item] => lineBreak (depth + 1) ++ item ++ lineBreak depth
  | item :: items => lineBreak (depth + 1) ++ item ++ ',' :: blockItems depth items

mutual

def Value.indented (depth : Nat) : Value → List Char
  | .array items => '[' :: (blockItems depth (indentedItems (depth + 1) items) ++ [']'])
  | .object members => '\x7b' :: (blockItems depth (indentedMembers (depth + 1) members) ++ ['\x7d'])
  | v => v.compact

/-- The indented texts of the items of an array. -/
def indentedItems (depth : Nat) : List Value → List (List Char)
  | [] => []
  | v :: vs => v.indented depth :: indentedItems depth vs

/-- The indented texts of the members of an object. -/
def indentedMembers (depth : Nat) : List (String × Value) → List (List Char)
  | [] => []
  | (name, v) :: ms =>
      (writeText name.toList ++ ':' :: ' ' :: v.indented depth) :: indentedMembers depth ms

end

end MetricLedger.Json
