import MetricLedger.Failure
import MetricLedger.Text.IpAddress
import MetricLedger.Text.Percent

/-!
# Addresses of databases

The address of a database is a URL or a text of keys and values. Of all that it may say, the first
host, the first port, the user, the password and the name of the database count; the rest only has to
be well formed.
-/

namespace MetricLedger.Relational

/-- What an address says. -/
structure Dsn where
  user : Option String
  password : Option (List UInt8)
  database : Option String
  /-- The hosts in order; one that starts with a slash is the directory of a socket. -/
  hosts : List String
  ports : List Nat
  deriving DecidableEq, Repr

namespace Dsn

/-- The address that says nothing. -/
def empty : Dsn := ⟨none, none, none, [], []⟩

/-! ## Keys -/

/-- The port of a database unless another one is given. -/
def defaultPort : Nat := 5432

/-- The greatest port. -/
def maxPort : Nat := 65535

/-- Reads a port; the empty text stands for the default. -/
def port? (cs : List Char) : Option Nat :=
  if cs.isEmpty then some defaultPort else (Text.readNatural maxPort cs).toOption

/-- The keys with a few words as values. -/
def choices : List (String × List String) := [
  ("sslmode", ["disable", "prefer", "require"]),
  ("sslnegotiation", ["postgres", "direct"]),
  ("target_session_attrs", ["any", "read-write", "read-only"]),
  ("channel_binding", ["disable", "prefer", "require"]),
  ("load_balance_hosts", ["disable", "random"])]

/-- The keys with signed numbers as values. -/
def signedKeys : List String :=
  ["connect_timeout", "tcp_user_timeout", "keepalives_idle", "keepalives_interval"]

/-- The text is a signed number of 64 bits. -/
def isSigned (cs : List Char) : Bool :=
  (Text.readInteger (Text.maxSigned64 + 1) Text.maxSigned64 cs).isOk

/-- The value is one that the key may have, for the keys whose values do not count. -/
def isIdleValue (key : String) (cs : List Char) : Bool :=
  match key with
  | "options" | "application_name" => true
  | "hostaddr" => (Text.pieces ',' cs).all Text.isIpAddress
  | "keepalives" => (Text.readNatural Text.maxUnsigned64 cs).isOk
  | "keepalives_retries" => (Text.readNatural Text.maxUnsigned32 cs).isOk
  | key =>
      if signedKeys.contains key then isSigned cs
      else ((choices.lookup key).getD []).any fun word => word.toList == cs

/-- The address with the value of a key added. -/
def withKey? (d : Dsn) (key : String) (cs : List Char) : Option Dsn :=
  match key with
  | "user" => some { d with user := some (String.ofList cs) }
  | "password" => some { d with password := some (Text.utf8Encode cs) }
  | "dbname" => some { d with database := some (String.ofList cs) }
  | "host" => some { d with hosts := d.hosts ++ (Text.pieces ',' cs).map String.ofList }
  | "port" => do
      let ports ← (Text.pieces ',' cs).mapM port?
      some { d with ports := d.ports ++ ports }
  | key => if isIdleValue key cs then some d else none

/-! ## Keys and values -/

/-- Reads a value up to the next blank character; a backslash takes the sense from what follows. -/
def plainValue : List Char → List Char × List Char
  | [] => ([], [])
  | '\\' :: [] => ([], [])
  | '\\' :: c :: rest =>
      let (value, rest) := plainValue rest
      (c :: value, rest)
  | c :: rest =>
      if Text.isBlank c then ([], c :: rest)
      else
        let (value, rest) := plainValue rest
        (c :: value, rest)

/-- Reads a value up to the closing quote. -/
def quotedValue? : List Char → Option (List Char × List Char)
  | [] => none
  | '\'' :: rest => some ([], rest)
  | '\\' :: [] => none
  | '\\' :: c :: rest => (quotedValue? rest).map fun (value, rest) => (c :: value, rest)
  | c :: rest => (quotedValue? rest).map fun (value, rest) => (c :: value, rest)

/-- Reads a value, quoted or not; a value that is not quoted has a character. -/
def value? : List Char → Option (List Char × List Char)
  | '\'' :: rest => quotedValue? rest
  | cs =>
      match plainValue cs with
      | ([], _) => none
      | result => some result

def isKeyChar (c : Char) : Bool := !Text.isBlank c && c != '='

/-- Adds keys and values, at most `fuel` of them. -/
def readKeysUpTo : Nat → Dsn → List Char → Option Dsn
  | 0, _, _ => none
  | fuel + 1, d, cs =>
      let cs := Text.trimStart cs
      let key := cs.takeWhile isKeyChar
      if key.isEmpty then some d
      else
        match Text.trimStart (cs.dropWhile isKeyChar) with
        | '=' :: rest => do
            let (value, rest) ← value? (Text.trimStart rest)
            let d ← d.withKey? (String.ofList key) value
            readKeysUpTo fuel d rest
        | _ => none

/-- Reads an address of keys and values. -/
def ofKeys? (cs : List Char) : Option Dsn := readKeysUpTo (cs.length + 1) empty cs

/-! ## URLs -/

/-- What URLs of databases begin with. -/
def schemes : List String := ["postgres://", "postgresql://"]

/-- The address with the host of a URL added. -/
def withHost? (d : Dsn) (cs : List Char) : Option Dsn :=
  let bytes := Text.percentDecode cs
  match Text.utf8Decode bytes with
  | .ok name => some { d with hosts := d.hosts ++ [String.ofList name] }
  | .error _ =>
      if bytes.head? = some 47 then
        some { d with hosts := d.hosts ++ [String.ofList (Text.utf8DecodeLossy bytes)] }
      else none

/-- Takes the user and the password off a URL. -/
def credentials? (d : Dsn) (cs : List Char) : Option (Dsn × List Char) :=
  match Text.cutAround? '@' cs with
  | none => some (d, cs)
  | some (login, rest) => do
      let (user, password) := (Text.cutAround? ':' login).elim (login, none) fun (user, password) =>
        (user, some password)
      let user ← Text.percentDecodeText? user
      some ({ d with
        user := some (String.ofList user)
        password := password.map Text.percentDecode }, rest)

/-- The host and the port of an item of a URL; a host in brackets may hold colons. -/
def splitHost? (item : List Char) : Option (List Char × Option (List Char)) :=
  match item with
  | '[' :: inner => do
      let (host, rest) ← Text.cutAround? ']' inner
      match rest with
      | [] => some (host, none)
      | ':' :: port => some (host, some port)
      | _ => none
  | item =>
      some ((Text.cutAround? ':' item).elim (item, none) fun (host, port) => (host, some port))

/-- The address with an item of a URL added. -/
def withItem? (d : Dsn) (item : List Char) : Option Dsn := do
  let (host, port) ← splitHost? item
  let d ← d.withHost? host
  let port ← Text.percentDecodeText? (port.getD (Text.decimal defaultPort))
  d.withKey? "port" port

/-- Takes the hosts off a URL. -/
def authority? (d : Dsn) (cs : List Char) : Option (Dsn × List Char) := do
  let (items, rest) := (Text.cut? (fun c => c == '/' || c == '?') cs).getD (cs, [])
  if items.isEmpty then some (d, rest)
  else
    let d ← (Text.pieces ',' items).foldlM withItem? d
    some (d, rest)

/-- Takes the name of the database off a URL. -/
def databasePath? (d : Dsn) (cs : List Char) : Option (Dsn × List Char) :=
  match cs with
  | '/' :: rest => do
      let (name, rest) := (Text.cut? (· == '?') rest).getD (rest, [])
      if name.isEmpty then some (d, rest)
      else
        let name ← Text.percentDecodeText? name
        some ({ d with database := some (String.ofList name) }, rest)
  | cs => some (d, cs)

/-- Adds the keys and values at the end of a URL, at most `fuel` of them. -/
def readQueryUpTo : Nat → Dsn → List Char → Option Dsn
  | _, d, [] => some d
  | 0, _, _ => none
  | fuel + 1, d, cs => do
      let (key, rest) ← Text.cutAround? '=' cs
      let key ← Text.percentDecodeText? key
      let (value, rest) := (Text.cutAround? '&' rest).getD (rest, [])
      let d ←
        if key = "host".toList then d.withHost? value
        else
          let value ← Text.percentDecodeText? value
          d.withKey? (String.ofList key) value
      readQueryUpTo fuel d rest

/-- Reads what follows the scheme of a URL. -/
def ofUrl? (cs : List Char) : Option Dsn := do
  let (d, rest) ← credentials? empty cs
  let (d, rest) ← d.authority? rest
  let (d, rest) ← d.databasePath? rest
  match rest with
  | '?' :: query => readQueryUpTo query.length d query
  | _ => some d

/-- What follows the scheme of a URL. -/
def afterScheme? (cs : List Char) : Option (List Char) :=
  schemes.findSome? fun scheme =>
    if scheme.toList.isPrefixOf cs then some (cs.drop scheme.length) else none

/-- Reads an address. -/
def parse? (s : String) : Option Dsn :=
  match afterScheme? s.toList with
  | some rest => ofUrl? rest
  | none => ofKeys? s.toList

/-- The failure of a text that is no address. -/
def invalid : Failure := .invalidInput "invalid database DSN: invalid connection string"

end Dsn

/-! ## Logins -/

/-- What a connection is asked for with. -/
structure Login where
  user : String
  password : Option String
  database : String
  /-- The hosts to try one after the other. -/
  hosts : List String
  port : Nat
  deriving DecidableEq, Repr

namespace Login

/-- The user of a login for which the address names none. -/
def systemUser : String := "root"

/-- The directories of sockets to try if the address names no host. -/
def socketDirectories : List String := ["/run/postgresql", "/var/run/postgresql", "/tmp"]

/-- The failure of an address without the name of a database. -/
def noDatabase : Failure :=
  .failed "postgres_create_pool" "Config: configuration property \"dbname\" not found"

def nonempty? (value : Option String) : Option String := value.filter fun s => !s.isEmpty

/-- The login for an address. -/
def ofDsn (d : Dsn) : Except Failure Login :=
  match nonempty? d.database with
  | none => .error noDatabase
  | some database => .ok {
      user := (nonempty? d.user).getD systemUser
      password := d.password.map fun bytes => String.ofList (Text.utf8DecodeLossy bytes)
      database := database
      hosts := (d.hosts.head?.map ([·])).getD socketDirectories
      port := d.ports.head?.getD Dsn.defaultPort }

/-- The login for the text of an address. -/
def parse (s : String) : Except Failure Login :=
  match Dsn.parse? s with
  | none => .error Dsn.invalid
  | some d => ofDsn d

end Login

end MetricLedger.Relational
