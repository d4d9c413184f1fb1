/-!
# TOML documents

A document is a tree of tables. While it is read, a table remembers how it came about, since a table
may be defined once only, and is extended in some ways only.
-/

namespace MetricLedger.Toml

/-- How a table came about. -/
inductive Origin where
  /-- Made for the header of a table inside it. -/
  | implied
  /-- Made for a dotted key. -/
  | dotted
  /-- Defined by a header of its own. -/
  | declared
  /-- Written as a value. -/
  | inline
  deriving DecidableEq, Repr

/-- What stands under a key. -/
inductive Item where
  | string (s : String)
  | integer (n : Int)
  | boolean (b : Bool)
  /-- A number that is no integer. -/
  | real
  /-- A date, a time or both. -/
  | moment
  | array (items : List Item)
  | table (origin : Origin) (entries : List (String × Item))
  /-- The tables of one name, each of which has a header of its own. -/
  | tables (all : List (List (String × Item)))
  deriving Repr

/-- The entries of a table, in the order of the document. -/
abbrev Entries := List (String × Item)

namespace Entries

def item? (entries : Entries) (key : String) : Option Item := entries.lookup key

/-- Replaces the item under a key, or puts it behind the others. -/
def setItem (key : String) (item : Item) : Entries → Entries
  | [] => [(key, item)]
  | (k, i) :: rest => if k = key then (key, item) :: rest else (k, i) :: setItem key item rest

/-- Changes the table that a path leads to, by way of tables that are made where there are none.
A dotted key passes only through tables that have no header of their own, and no path passes through
a table written as a value. -/
def changeAt (dotted : Bool) (change : Origin → Entries → Option Entries) :
    List String → Origin → Entries → Option Entries
  | [], origin, entries => change origin entries
  | key :: path, _, entries =>
      match entries.item? key with
      | none => do
          let origin := if dotted then Origin.dotted else Origin.implied
          let inner ← changeAt dotted change path origin []
          some (setItem key (.table origin inner) entries)
      | some (.table origin inner) =>
          if origin = .inline || (dotted && origin == .declared) then none
          else do
            let inner ← changeAt dotted change path origin inner
            some (setItem key (.table origin inner) entries)
      | some (.tables all) =>
          match all.reverse with
          | [] => none
          | last :: before => do
              let last ← changeAt dotted change path .declared last
              some (setItem key (.tables (last :: before).reverse) entries)
      | some _ => none

def define (key : String) (item : Item) (entries : Entries) : Option Entries :=
  match entries.item? key with
  | none => some (entries ++ [(key, item)])
  | some _ => none

/-- Defines a dotted key inside the table it stands in. -/
def defineDotted (path : List String) (key : String) (item : Item) (origin : Origin)
    (entries : Entries) : Option Entries :=
  changeAt true (fun reached entries =>
    if (reached == .dotted) == path.isEmpty then none else define key item entries)
    path origin entries

/-- Defines the table of a header. -/
def declare (path : List String) (key : String) (entries : Entries) : Option Entries :=
  changeAt false (fun _ entries =>
    match entries.item? key with
    | none => some (setItem key (.table .declared []) entries)
    | some (.table .implied inner) => some (setItem key (.table .declared inner) entries)
    | some _ => none) path .declared entries

/-- Puts another table behind those of the same name. -/
def declareAnother (path : List String) (key : String) (entries : Entries) : Option Entries :=
  changeAt false (fun _ entries =>
    match entries.item? key with
    | none => some (setItem key (.tables [[]]) entries)
    | some (.tables all) => some (setItem key (.tables (all ++ [[]])) entries)
    | some _ => none) path .declared entries

/-- Defines a dotted key inside the table of the last header. -/
def defineUnder (header path : List String) (key : String) (item : Item) (entries : Entries) :
    Option Entries :=
  changeAt false (defineDotted path key item) header .declared entries

end Entries

end MetricLedger.Toml
