import MetricLedger.Ledger

/-!
# Batches

A batch is a list of operations that take effect together. An operation writes through the batch one
record at a time, sees whether each write was refused, and may wait in between. Every write notes the
value it replaced; when an operation fails, the notes lead back to the ledger before the batch. Main
statement: `rollback_write`, undoing a batch forgets a write made through it.
-/

namespace MetricLedger

/-- One operation of a batch. -/
inductive Op where
  /-- The operation is over. -/
  | done (result : Except Failure Unit)
  /-- The operation waits for something outside the batch. -/
  | suspend (next : Op)
  /-- The operation writes a record and goes on with the outcome. -/
  | write (r : Record) (next : Except Failure Unit → Op)

namespace Op

def ofRecord (r : Record) : Op := .write r .done

/-- The operation that fails without a write. -/
def fail (f : Failure) : Op := .done (.error f)

/-- The operation that goes on after the end of another one. -/
def andThen (next : Except Failure Unit → Op) : Op → Op
  | .done result => next result
  | .suspend op => .suspend (op.andThen next)
  | .write r after => .write r fun result => (after result).andThen next

/-- The operations one after the other, up to the first one that fails. -/
def inTurn : List Op → Op
  | [] => .done (.ok ())
  | op :: ops =>
      op.andThen fun
        | .ok _ => inTurn ops
        | .error f => .fail f

/-- The operations one after the other, whether they fail or not. -/
def regardless : List Op → Op
  | [] => .done (.ok ())
  | op :: ops => op.andThen fun _ => regardless ops

end Op

/-- The value that a write of a batch replaced. -/
inductive Undo where
  | counter (name : String) (previous : Option Int64)
  | gauge (name : String) (previous : Option Binary64)
  deriving Repr

/-- The ledger with a replaced value put back. -/
def Undo.apply (l : Ledger) : Undo → Ledger
  | .counter name previous => ⟨l.counters.set name previous, l.gauges⟩
  | .gauge name previous => ⟨l.counters, l.gauges.set name previous⟩

/-- What a write replaces in a ledger. -/
def Undo.of (l : Ledger) : Record → Undo
  | .counter name _ => .counter name (l.counters.get? name)
  | .gauge name _ => .gauge name (l.gauges.get? name)

/-- A batch on its way. -/
structure Batch where
  ledger : Ledger
  /-- The replaced values, the last one first. -/
  journal : List Undo
  /-- The records written, the last one first. -/
  applied : List Record

namespace Batch

/-- The batch before its first write. -/
def start (l : Ledger) : Batch := ⟨l, [], []⟩

def write (b : Batch) (r : Record) : Except Failure Unit × Batch :=
  match b.ledger.apply r with
  | .ok l => (.ok (), ⟨l, Undo.of b.ledger r :: b.journal, r :: b.applied⟩)
  | .error f => (.error f, b)

/-- The ledger with all replaced values put back, the last one first. -/
def rollback (b : Batch) : Ledger := b.journal.foldl Undo.apply b.ledger

/-- The records written, in order. -/
def records (b : Batch) : List Record := b.applied.reverse

/-- Runs one operation to its end. -/
def runOp : Op → Batch → Except Failure Unit × Batch
  | .done result, b => (result, b)
  | .suspend op, b => runOp op b
  | .write r next, b =>
      let (result, b) := b.write r
      runOp (next result) b

/-- Runs the operations in order, up to the first one that fails. -/
def runOps : List Op → Batch → Except Failure Unit × Batch
  | [], b => (.ok (), b)
  | op :: ops, b =>
      match runOp op b with
      | (.ok _, b) => runOps ops b
      | (.error f, b) => (.error f, b)

/-- Runs a whole batch on a ledger: the records it wrote, or the failure that made it undo them. -/
def run (ops : List Op) (l : Ledger) : Except Failure (List Record) × Ledger :=
  match runOps ops (start l) with
  | (.ok _, b) => (.ok b.records, b.ledger)
  | (.error f, b) => (.error f.aborted, b.rollback)

/-! ## Abandoned batches -/

/-- Runs one operation whose caller waits `patience` times and gives up the next time. Nothing comes
of an operation that was given up; what it wrote is written. -/
def runOpUntil : Op → Nat → Batch → Option (Except Failure Unit × Nat) × Batch
  | .done result, patience, b => (some (result, patience), b)
  | .suspend _, 0, b => (none, b)
  | .suspend op, patience + 1, b => runOpUntil op patience b
  | .write r next, patience, b =>
      let (result, b) := b.write r
      runOpUntil (next result) patience b

/-- Runs operations whose caller waits `patience` times in all and gives up the next time. -/
def runOpsUntil : List Op → Nat → Batch → Option (Except Failure Unit) × Batch
  | [], _, b => (some (.ok ()), b)
  | op :: ops, patience, b =>
      match runOpUntil op patience b with
      | (some (.ok _, patience), b) => runOpsUntil ops patience b
      | (some (.error f, _), b) => (some (.error f), b)
      | (none, b) => (none, b)

/-- Runs a batch whose caller waits `patience` times and gives up the next time. The ledger of a
batch that was given up stays as it is at that moment. -/
def runUntil (ops : List Op) (patience : Nat) (l : Ledger) :
    Option (Except Failure (List Record)) × Ledger :=
  match runOpsUntil ops patience (start l) with
  | (some (.ok _), b) => (some (.ok b.records), b.ledger)
  | (some (.error f), b) => (some (.error f.aborted), b.rollback)
  | (none, b) => (none, b.ledger)

/-! ## Laws -/

/-- Putting back what a write replaced undoes the write. -/
theorem undo_apply {l m : Ledger} {r : Record} (h : l.apply r = .ok m) :
    (Undo.of l r).apply m = l := by
  cases r with
  | counter name delta =>
      simp only [Ledger.apply] at h
      split at h
      next sum _ =>
        obtain rfl := Except.ok.inj h
        have := Table.set_set_get? l.counters name (some sum)
        exact Ledger.ext this rfl
      next => cases h
  | gauge name value =>
      obtain rfl := Except.ok.inj h
      have := Table.set_set_get? l.gauges name (some value)
      exact Ledger.ext rfl this

/-- Undoing a batch forgets a write made through it. -/
theorem rollback_write (b : Batch) (r : Record) : (b.write r).2.rollback = b.rollback := by
  unfold write
  split
  next l h => simp only [rollback, List.foldl_cons, undo_apply h]
  next => rfl

theorem rollback_runOp (op : Op) (b : Batch) : (runOp op b).2.rollback = b.rollback := by
  induction op generalizing b with
  | done result => rfl
  | suspend op ih => exact ih b
  | write r next ih => exact (ih _ _).trans (rollback_write b r)

theorem rollback_runOps (ops : List Op) (b : Batch) :
    (runOps ops b).2.rollback = b.rollback := by
  induction ops generalizing b with
  | nil => rfl
  | cons op ops ih =>
      unfold runOps
      have h := rollback_runOp op b
      split
      next he => rw [he] at h; exact (ih _).trans h
      next he => rw [he] at h; exact h

end Batch

end MetricLedger
