import MetricLedger.Text.Pieces

/-!
# Schema versions

The schema of the database grows by migrations, each of which leads to a version of its own. The
text of a migration is a template: a mark in it stands for the prefix of the table names, and
semicolons end its statements.
-/

namespace MetricLedger.Relational

/-- A step of the schema. -/
structure Migration where
  version : Int
  description : String
  /-- The statements, with a mark in place of the table prefix. -/
  template : String
  deriving DecidableEq, Repr

namespace Migration

/-- What stands for the table prefix in a template. -/
def prefixMark : List Char := "\x7bprefix\x7d".toList

/-- The template with a text in place of every mark. -/
def fill (filling : List Char) : List Char → List Char
  | [] => []
  | c :: cs =>
      if prefixMark.isPrefixOf (c :: cs) then
        filling ++ fill filling (cs.drop (prefixMark.length - 1))
      else c :: fill filling cs
termination_by cs => cs.length
decreasing_by
  · simp only [List.length_drop, List.length_cons]; omega
  · simp

/-- The statements of a text: its trimmed parts between semicolons, blank ones left out. -/
def statementsOf (text : List Char) : List (List Char) :=
  ((Text.pieces ';' text).map Text.trim).filter (!·.isEmpty)

def statements (m : Migration) (tablePrefix : String) : List String :=
  (statementsOf (fill tablePrefix.toList m.template.toList)).map String.ofList

/-- The migrations of the schema that the relational backend works on. -/
def embedded : List Migration := [
  { version := 1
    description := "Counters table"
    template := "
                CREATE TABLE IF NOT EXISTS \x7bprefix\x7d_counters (
                    id BIGSERIAL PRIMARY KEY,
                    name TEXT NOT NULL UNIQUE,
                    value BIGINT NOT NULL
                );
            " },
  { version := 2
    description := "Gauges table"
    template := "
                CREATE TABLE IF NOT EXISTS \x7bprefix\x7d_gauges (
                    id BIGSERIAL PRIMARY KEY,
                    name TEXT NOT NULL UNIQUE,
                    value DOUBLE PRECISION NOT NULL
                );
            " }]

end Migration

/-- The greatest version of some migrations, and zero if all are below. -/
def maxVersion (ms : List Migration) : Int := ms.foldl (fun v m => max v m.version) 0

end MetricLedger.Relational
