import MetricLedger.Relational.Dsn
import MetricLedger.Relational.Versions

/-!
# Pools of connections

A server accepts connections and answers commands on them. A pool keeps the connection that was used
last and makes a new one when that was cut. Since operations follow each other, one connection is
all that is ever open.
-/

namespace MetricLedger.Relational

/-- A server; a value of `τ` is what it remembers. -/
structure Server (τ : Type) where
  /-- Answers the wish for a connection. -/
  connect : Login → τ → Except ClientFault Unit × τ
  /-- Answers a command on the open connection; the connection is cut with the fault `closed`. -/
  answer : Command → τ → Except ClientFault (List Row) × τ

/-- A pool of connections. -/
structure Pool where
  /-- The pool gives connections. -/
  isOpen : Bool
  /-- The open connection, with the commands that the server does not know of yet. -/
  connection : Option (List Command)
  deriving DecidableEq, Repr

namespace Pool

variable {τ : Type} (server : Server τ)

/-- The pool before its first connection. -/
def fresh : Pool := ⟨true, none⟩

/-- Gives the open connection, or makes one. -/
def acquire (login : Login) : Pool × τ → Except PoolFault Unit × Pool × τ
  | (p, t) =>
      if !p.isOpen then (.error .closed, p, t)
      else
        match p.connection with
        | some _ => (.ok (), p, t)
        | none =>
            match server.connect login t with
            | (.ok _, t) => (.ok (), { p with connection := some [] }, t)
            | (.error fault, t) => (.error (.creation fault), p, t)

/-- Sends commands whose answers nobody waits for, and tells whether the connection is still open. -/
def sendUnsent : List Command → τ → Bool × τ
  | [], t => (true, t)
  | c :: cs, t =>
      match server.answer c t with
      | (.error .closed, t) => (false, t)
      | (_, t) => sendUnsent cs t

/-- Sends a command on the open connection and waits for the answer. -/
def send (command : Command) : Pool × τ → Except ClientFault (List Row) × Pool × τ
  | (p, t) =>
      match p.connection with
      | none => (.error .closed, p, t)
      | some unsent =>
          match sendUnsent server unsent t with
          | (false, t) => (.error .closed, { p with connection := none }, t)
          | (true, t) =>
              match server.answer command t with
              | (.error .closed, t) => (.error .closed, { p with connection := none }, t)
              | (answer, t) => (answer, { p with connection := some [] }, t)

/-- Gives a command to the open connection that is sent with the next one. The client library puts it
on the connection at once, without waiting for the answer. Here it waits for the next command: the
server sees the two in the same order, but it does not see this one as long as no other follows. -/
def defer (command : Command) (p : Pool) : Pool :=
  { p with connection := p.connection.map (· ++ [command]) }

/-- Closes the pool together with its connection. -/
def close (_ : Pool) : Pool := ⟨false, none⟩

def database (login : Login) (tablePrefix : String) : Database (Pool × τ) where
  acquire := acquire server login
  send statement := send server (statement.command tablePrefix)
  abandon := fun (p, t) => (p.defer (Statement.rollback.command tablePrefix), t)
  close := fun (p, t) => (p.close, t)

end Pool

/-! ## Relational ledgers -/

/-- A ledger that is kept in a database. -/
structure Storage where
  login : Login
  tablePrefix : String
  pool : Pool
  deriving DecidableEq, Repr

namespace Storage

variable {τ α : Type} (server : Server τ)

/-- Runs an exchange with the database of a ledger. -/
def run (s : Storage) (exchange : Database (Pool × τ) → Exchange (Pool × τ) α) (t : τ) :
    Except Failure α × Storage × τ :=
  let (result, pool, t) := exchange (Pool.database server s.login s.tablePrefix) (s.pool, t)
  (result, { s with pool }, t)

def close (s : Storage) : Storage := { s with pool := s.pool.close }

/-- Opens a ledger: the options and the address are looked at before anything is sent. -/
def openAt (dsn : String) (o : Options) (t : τ) : Attempts Storage × τ :=
  match o.validate >>= fun _ => Login.parse dsn with
  | .error f => (⟨.error f, []⟩, t)
  | .ok login =>
      let db := Pool.database server login o.tablePrefix
      let (attempts, pool, t) := db.connect o (Pool.fresh, t)
      (⟨attempts.result.map fun _ => ⟨login, o.tablePrefix, pool⟩, attempts.pauses⟩, t)

end Storage

end MetricLedger.Relational
