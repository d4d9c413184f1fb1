import MetricLedger.Relational.Pool

/-!
# Scripted servers

A server that answers by a list of rules and keeps a record of all that it sees. A rule speaks of the
commands that hold some word; of these it passes over the first few and acts on the next ones. The
first rule that acts decides. Without one, a command succeeds.
-/

namespace MetricLedger.Relational

/-- When a rule looks at a command. -/
inductive RuleStage where
  | preparation
  | execution
  deriving DecidableEq, Repr

/-- What a rule does. -/
inductive RuleEffect where
  | refuse (code : String)
  /-- The connection is cut. -/
  | hangUp
  /-- The command succeeds with the cells of some rows. -/
  | rows (cells : List (List Cell))
  deriving DecidableEq, Repr

/-- A rule of a script. -/
structure Rule where
  /-- The word that a command holds. -/
  word : String
  stage : RuleStage
  /-- The commands that are passed over first. -/
  skip : Nat
  /-- The commands that are acted on next, if there is a limit. -/
  times : Option Nat
  effect : RuleEffect
  /-- The columns of the answers to commands that hold the word. -/
  columns : Option (List (String × ColumnType))
  /-- The commands seen so far. -/
  count : Nat
  deriving DecidableEq, Repr

namespace Rule

def covers (r : Rule) (text : String) : Bool := Text.holds r.word.toList text.toList

/-- A rule acts on the next command. -/
def isLive (r : Rule) : Bool :=
  r.skip ≤ r.count && r.times.all fun times => r.count < r.skip + times

end Rule

/-- How a wish for a connection is met. -/
inductive Welcome where
  | accept
  | hangUp
  | refuse (code : String)
  deriving DecidableEq, Repr

/-- What a server gets to see. -/
inductive Event where
  /-- A connection is wished for; a password is seen only if it was asked for. -/
  | connect (user database : String) (password : Option String)
  /-- A command arrives. -/
  | command (c : Command)
  /-- A command arrives whose preparation meets a rule. -/
  | preparation (text : String)
  deriving DecidableEq, Repr

/-- A scripted server. -/
structure Script where
  /-- The directory of its socket, if it can be reached at all. -/
  directory : Option String
  port : Nat
  asksPassword : Bool
  /-- How the next wishes for a connection are met; later ones are accepted. -/
  welcomes : List Welcome
  rules : List Rule
  /-- The version of the schema. -/
  version : Int
  /-- The version that was recorded in the transaction under way. -/
  recorded : Option Int
  /-- What was seen, the last first. -/
  seen : List Event
  deriving DecidableEq, Repr

namespace Script

/-- The server that cannot be reached. -/
def nowhere : Script := ⟨none, 0, false, [], [], 0, none, []⟩

def note (t : Script) (e : Event) : Script := { t with seen := e :: t.seen }

/-- Takes out what was seen, in order. -/
def takeSeen (t : Script) : List Event × Script := (t.seen.reverse, { t with seen := [] })

/-! ## Rules -/

/-- Shows a text to the rules in order, up to the first one that acts on it. -/
def consult (stage : RuleStage) (text : String) : List Rule → Option RuleEffect × List Rule
  | [] => (none, [])
  | r :: rest =>
      if r.stage = stage ∧ r.covers text then
        let next := { r with count := r.count + 1 }
        if r.isLive then (some r.effect, next :: rest)
        else
          let (effect, rest) := consult stage text rest
          (effect, next :: rest)
      else
        let (effect, rest) := consult stage text rest
        (effect, r :: rest)

/-! ## Answers -/

/-- What the question for a table begins with. -/
def existsWord : List Char := "SELECT EXISTS".toList

/-- What the question for the version holds. -/
def versionWord : List Char := "COALESCE(MAX(version)".toList

/-- What the selections from a table of gauges hold. -/
def gaugesWord : List Char := "_gauges ".toList

/-- What the statement holds that records a version. -/
def recordWord : List Char := "_schema_migrations (version, description)".toList

/-- The columns of an answer unless a rule has others. -/
def usualColumns (text : List Char) : List (String × ColumnType) :=
  if Text.holds existsWord text then [("exists", .bool)]
  else if Text.holds versionWord text then [("coalesce", .int4)]
  else if Text.holds gaugesWord text then [("name", .text), ("value", .float8)]
  else [("name", .text), ("value", .int8)]

def columnsFor (t : Script) (text : String) : List (String × ColumnType) :=
  let fromRule := t.rules.findSome? fun r => if r.covers text then r.columns else none
  fromRule.getD (usualColumns text.toList)

/-- The bits that sixteen digits in base sixteen stand for. -/
def bitsOfDigits (cs : List Char) : UInt64 :=
  UInt64.ofNat (cs.foldl (fun n c => 16 * n + (Text.hexValue? c).getD 0) 0)

/-- A cell as its column has it: a floating point number is written as the digits of its bits. -/
def cellFor (type : ColumnType) (cell : Cell) : Cell :=
  match type, cell with
  | .float8, .text bytes => .number ⟨bitsOfDigits (Text.utf8DecodeLossy bytes)⟩
  | _, cell => cell

def rowFor (columns : List (String × ColumnType)) (cells : List Cell) : Row :=
  List.zipWith (fun (name, type) cell => ⟨name, type, cellFor type cell⟩) columns cells

/-- The cells of the answer to a text that no rule acts on. -/
def usualCells (t : Script) (text : List Char) : List (List Cell) :=
  if Text.holds existsWord text then [[.flag true]]
  else if Text.holds versionWord text then [[.integer t.version]]
  else []

def recordedBy (c : Command) : Option Int :=
  if Text.holds recordWord c.text.toList then
    match c.parameters with
    | .integer version :: _ => some version
    | _ => none
  else none

/-- What the server remembers after a command that succeeded. -/
def after (t : Script) (c : Command) : Script :=
  if c.text = "COMMIT" then
    { t with version := t.recorded.elim t.version (max t.version), recorded := none }
  else if c.text = "ROLLBACK" then { t with recorded := none }
  else { t with recorded := (recordedBy c).or t.recorded }

/-- Lets the rules of a stage act on a command. -/
def consultAll (t : Script) (stage : RuleStage) (text : String) : Option RuleEffect × Script :=
  let (effect, rules) := consult stage text t.rules
  (effect, { t with rules })

def execute (t : Script) (c : Command) : Except ClientFault (List Row) × Script :=
  let (effect, t) := (t.note (.command c)).consultAll .execution c.text
  match effect with
  | some (.refuse code) => (.error (.database code), t)
  | some .hangUp => (.error .closed, { t with recorded := none })
  | some (.rows cells) => (.ok (cells.map (rowFor (t.columnsFor c.text))), t.after c)
  | none =>
      (.ok ((t.usualCells c.text.toList).map (rowFor (t.columnsFor c.text))), t.after c)

/-- Answers a command, after its preparation if it has one. -/
def answer (c : Command) (t : Script) : Except ClientFault (List Row) × Script :=
  let c := { c with text := String.ofList (Text.singleSpaced c.text.toList) }
  if c.isPrepared then
    let (effect, t) := t.consultAll .preparation c.text
    match effect with
    | some (.refuse code) => (.error (.database code), t.note (.preparation c.text))
    | some .hangUp =>
        (.error .closed, { t.note (.preparation c.text) with recorded := none })
    | some (.rows _) => (t.note (.preparation c.text)).execute c
    | none => t.execute c
  else t.execute c

/-! ## Connections -/

/-- A text that can be sent. -/
def isSendable (s : String) : Bool := !s.toList.contains '\x00'

def withoutSlashes (path : String) : List Char :=
  (path.toList.reverse.dropWhile (· == '/')).reverse

/-- The server is at one of the hosts of a login. -/
def isAt (t : Script) (login : Login) : Bool :=
  login.port == t.port &&
    t.directory.any fun directory =>
      login.hosts.any fun host => withoutSlashes host == withoutSlashes directory

/-- Meets the wish for a connection of a login that is admitted. -/
def welcome (t : Script) (shown : Option String) (login : Login) :
    Except ClientFault Unit × Script :=
  let t := t.note (.connect login.user login.database shown)
  match t.welcomes with
  | [] => (.ok (), t)
  | .accept :: rest => (.ok (), { t with welcomes := rest })
  | .hangUp :: rest => (.error .closed, { t with welcomes := rest })
  | .refuse code :: rest => (.error (.database code), { t with welcomes := rest })

def turnAway (t : Script) (fault : ClientFault) (login : Login) :
    Except ClientFault Unit × Script :=
  (.error fault, { t.note (.connect login.user login.database none) with
    welcomes := t.welcomes.drop 1 })

/-- Meets the wish for a connection. -/
def connect (login : Login) (t : Script) : Except ClientFault Unit × Script :=
  if !t.isAt login then (.error .unreachable, t)
  else if !(isSendable login.user && isSendable login.database) then (.error .unsendable, t)
  else if t.asksPassword then
    match login.password with
    | none => t.turnAway .configuration login
    | some password =>
        if isSendable password then t.welcome (some password) login
        else t.turnAway .unsendable login
  else t.welcome none login

def server : Server Script := ⟨connect, answer⟩

end Script

end MetricLedger.Relational
