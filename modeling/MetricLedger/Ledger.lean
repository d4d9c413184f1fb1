import MetricLedger.Failure
import MetricLedger.Record
import MetricLedger.Record.Coercion
import MetricLedger.Table

/-!
# Ledgers

A ledger holds the current value of every counter and of every gauge. It is changed by records only,
so that a log of records, replayed in order, leads to it again. Main statement: `replay_append`, a
log may be replayed in parts.
-/

namespace MetricLedger

/-- The current values of all metrics. -/
@[ext] structure Ledger where
  counters : Table Int64
  gauges : Table Binary64

namespace Ledger

/-- The ledger before any write. -/
def empty : Ledger := ⟨Table.empty, Table.empty⟩

/-- The failure of a delta that a counter cannot take. -/
def overflow (name : String) (delta : Int64) : Failure :=
  .invalidInput s!"counter '{name}' overflows i64 when adding {delta.toInt}"

/-- The value of a counter, zero if it was never written. -/
def counterOrZero (l : Ledger) (name : String) : Int64 := (l.counters.get? name).getD 0

/-- The ledger after one write. A delta that leads out of the 64 bits of a counter is refused. -/
def apply (l : Ledger) (r : Record) : Except Failure Ledger :=
  match r with
  | .counter name delta =>
      match counterValue? ((l.counterOrZero name).toInt + delta.toInt) with
      | some sum => .ok ⟨l.counters.insert name sum, l.gauges⟩
      | none => .error (overflow name delta)
  | .gauge name value => .ok ⟨l.counters, l.gauges.insert name value⟩

/-- The ledger after some writes, unless one of them is refused. -/
def replay (l : Ledger) (records : List Record) : Except Failure Ledger :=
  records.foldlM apply l

def getCounter (l : Ledger) (name : String) : Except Failure Counter :=
  match l.counters.get? name with
  | some value => .ok ⟨name, value⟩
  | none => .error (.notFound .counter name)

def getGauge (l : Ledger) (name : String) : Except Failure Gauge :=
  match l.gauges.get? name with
  | some value => .ok ⟨name, value⟩
  | none => .error (.notFound .gauge name)

def allCounters (l : Ledger) : List Counter := l.counters.entries.map fun e => ⟨e.1, e.2⟩

def allGauges (l : Ledger) : List Gauge := l.gauges.entries.map fun e => ⟨e.1, e.2⟩

/-! ## Laws -/

@[simp] theorem replay_nil (l : Ledger) : l.replay [] = .ok l := rfl

theorem replay_cons (l : Ledger) (r : Record) (records : List Record) :
    l.replay (r :: records) = (l.apply r >>= fun m => m.replay records) := rfl

/-- A log may be replayed in parts. -/
theorem replay_append (l : Ledger) (first second : List Record) :
    l.replay (first ++ second) = (l.replay first >>= fun m => m.replay second) :=
  List.foldlM_append

/-- Two ledgers with the same values are the same. -/
theorem ext_get? {l m : Ledger} (hc : ∀ name, l.counters.get? name = m.counters.get? name)
    (hg : ∀ name, l.gauges.get? name = m.gauges.get? name) : l = m :=
  Ledger.ext (Table.ext_get? hc) (Table.ext_get? hg)

end Ledger

end MetricLedger
