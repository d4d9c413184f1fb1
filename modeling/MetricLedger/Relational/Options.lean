import MetricLedger.Retry

/-!
# Options of the relational backend

The prefix of the table names is put into statements as it is, so it has to be a plain identifier.
-/

namespace MetricLedger.Relational

/-- The options of the relational backend. -/
structure Options where
  /-- What the names of all tables begin with. -/
  tablePrefix : String
  /-- The number of connections that are open at most. -/
  poolMaxSize : Nat
  /-- How often the first connection is tried again. -/
  retry : RetryPolicy
  deriving DecidableEq, Repr

namespace Options

/-- The prefix, the size and the policy that hold unless others are given. -/
def standard : Options := ⟨"metrics", 20, .standard⟩

/-- The bytes of the longest prefix. -/
def maxPrefixLength : Nat := 40

/-- A character that may stand in a table prefix. -/
def allowedInPrefix (c : Char) : Bool := c.isLower || c.isDigit || c == '_'

/-- A lower case letter, followed by lower case letters, digits and underscores. -/
def isIdentifier (s : String) : Bool :=
  match s.toList with
  | [] => false
  | c :: cs => c.isLower && cs.all allowedInPrefix && s.utf8ByteSize ≤ maxPrefixLength

/-- Refuses a prefix that is no identifier, and a pool without connections. -/
def validate (o : Options) : Except Failure Unit :=
  if !isIdentifier o.tablePrefix then
    .error (.invalidInput
      s!"table prefix '{o.tablePrefix}' must match [a-z][a-z0-9_]* (max 40 chars)")
  else if o.poolMaxSize = 0 then .error (.invalidInput "pool_max_size must be at least 1")
  else .ok ()

end Options

end MetricLedger.Relational
