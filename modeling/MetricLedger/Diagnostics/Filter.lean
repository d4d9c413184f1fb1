import MetricLedger.Text.Numeral

/-!
# Filters of diagnostic events

A filter is a list of directives. Each gives the level up to which events are reported, for the
events of one target or for all. More special directives come first.
-/

namespace MetricLedger.Diagnostics

/-- How much is reported. -/
inductive Level where
  | off
  | error
  | warn
  | info
  | debug
  | trace
  deriving DecidableEq, Repr

namespace Level

/-- All levels, from nothing to everything. -/
def all : List Level := [.off, .error, .warn, .info, .debug, .trace]

def name : Level → String
  | .off => "off"
  | .error => "error"
  | .warn => "warn"
  | .info => "info"
  | .debug => "debug"
  | .trace => "trace"

/-- The level of a text: its number, its name in any case, or `error` for no text at all. -/
def ofText? (s : String) : Option Level :=
  match Text.readNatural Text.maxUnsigned64 s.toList with
  | .ok n => all[n]?
  | .error _ =>
      if s.isEmpty then some .error
      else all.find? fun l => l.name.toList == s.toList.map Char.toLower

end Level

/-- A level for the events of a target, or for all events. -/
structure Directive where
  target : Option String
  level : Level
  deriving DecidableEq, Repr

namespace Directive

def startsWell (c : Char) : Bool :=
  c == '-' || c == ':' || c == '_' || c.isAlphanum || 0x80 ≤ c.toNat

/-- Reads a directive: a level, a target, or a target and its level around an equals sign. -/
def parse? (s : String) : Option Directive :=
  match s.toList with
  | [] => some ⟨none, .trace⟩
  | c :: cs =>
      if !startsWell c || (c :: cs).contains '[' then none
      else
        let target := (c :: cs).takeWhile (· != '=')
        match (c :: cs).dropWhile (· != '=') with
        | [] =>
            match Level.ofText? s with
            | some level => some ⟨none, level⟩
            | none => some ⟨some s, .trace⟩
        | _ :: [] => some ⟨some (String.ofList target), .trace⟩
        | _ :: level => do
            let level ← Level.ofText? (String.ofList level)
            some ⟨some (String.ofList target), level⟩

def text (d : Directive) : String :=
  match d.target with
  | some target => s!"{target}={d.level.name}"
  | none => d.level.name

/-- The directive comes before another one: its target is longer, or later in the order of names. -/
def precedes (d e : Directive) : Bool :=
  match d.target, e.target with
  | some _, none => true
  | none, _ => false
  | some s, some t => t.utf8ByteSize < s.utf8ByteSize || (t.utf8ByteSize == s.utf8ByteSize && t < s)

end Directive

/-- The directives of a filter, the special ones first. -/
structure Filter where
  directives : List Directive
  deriving DecidableEq, Repr

namespace Filter

/-- Puts a directive in its place; one for the same target is replaced. -/
def insertDirective (d : Directive) : List Directive → List Directive
  | [] => [d]
  | e :: es =>
      if d.target = e.target then d :: es
      else if d.precedes e then d :: e :: es
      else e :: insertDirective d es

def ofLevel (level : Level) : Filter := ⟨[⟨none, level⟩]⟩

/-- Reads a filter: directives with commas between them. -/
def parse? (s : String) : Option Filter := do
  let parts := (s.splitOn ",").filter (!·.isEmpty)
  let directives ← parts.mapM Directive.parse?
  some ⟨directives.foldl (fun ds d => insertDirective d ds) []⟩

def text (f : Filter) : String := ",".intercalate (f.directives.map Directive.text)

end Filter

end MetricLedger.Diagnostics
