import MetricLedger.Log.Buffers
import MetricLedger.Log.Mode
import MetricLedger.Log.Writer
import MetricLedger.Record.Line

/-!
# The pipeline of a log

Records are put into a queue, and one writer takes them out of it and writes their lines to a file.
It flushes every record, or it collects the records of an interval and writes and flushes them as one
batch. When the queue is closed the writer takes what is left, flushes and is finished.
-/

namespace MetricLedger.Log

/-- What the writer of a log reports at its end. -/
structure Summary where
  /-- The records whose lines were written. -/
  written : Nat
  /-- The records without a line, or whose line was refused. -/
  dropped : Nat
  /-- The flushes that succeeded. -/
  flushes : Nat
  deriving DecidableEq, Repr

/-- How far the writer of a log is. -/
inductive Stage where
  | running
  | finished
  /-- The writer stopped at its start: its clock cannot show its first tick, or its ticks are not
  apart. -/
  | dead
  deriving DecidableEq, Repr

/-- A queue of records and the writer that takes them out. -/
structure Pipeline where
  mode : FlushMode
  /-- The queue takes records. -/
  isOpen : Bool
  /-- The records in the queue, the oldest first. -/
  queue : List Record
  /-- The records taken out of the queue that wait for the next tick, the oldest first. -/
  pending : List Record
  writer : Writer
  buffers : Buffers
  summary : Summary
  nextTick : Duration
  stage : Stage

namespace Pipeline

/-! ## Opening -/

/-- The last second that a clock can show. -/
def lastSecond : Nat := Text.maxSigned64

/-- The seconds that a clock shows at the start. -/
def firstSecond : Nat := 1

/-- A clock that counts from the start can show a moment. -/
def canShow (moment : Duration) : Bool := firstSecond + moment.seconds ≤ lastSecond

/-- The failure to make the directory of a log. -/
def directoryFailure (path : String) (fault : FileFault) : Failure :=
  .failed "create_dump_dir" s!"{path}: {fault.message}"

def openFailure (path : String) (fault : FileFault) : Failure :=
  .failed "open_dump_file" s!"{path}: {fault.message}"

/-- The failure to wait for a writer that stopped at its start. -/
def waitFailure : Failure := .failed "dump_wait" "dump subscriber exited without completing"

/-- Opens the file of a log behind its content; the file and its directories are made if they are
not there. -/
def openFile (files : Files) (path : String) : Except Failure Place × Files :=
  let parent := (Path.parent? path).getD ""
  match files.createDirectories parent with
  | (.error fault, files) => (.error (directoryFailure parent fault), files)
  | (.ok _, files) =>
      match files.openAppend path with
      | .ok (place, files) => (.ok place, files)
      | .error fault => (.error (openFailure path fault), files)

/-- The ticks of a mode are apart. A ticker without a period is refused when it is made. -/
def ticksApart : FlushMode → Bool
  | .sync => true
  | .interval period => !period.isZero

def start (mode : FlushMode) (place : Place) (now : Duration) : Pipeline :=
  let first : Duration :=
    match mode with
    | .sync => now
    | .interval period => ⟨now.nanos + period.nanos⟩
  { mode
    isOpen := true
    queue := []
    pending := []
    writer := .on place
    buffers := .standard
    summary := ⟨0, 0, 0⟩
    nextTick := first
    stage := if canShow first && ticksApart mode then .running else .dead }

/-- Opens the file of a log and starts its pipeline. -/
def openAt (files : Files) (path : String) (mode : FlushMode) (now : Duration) :
    Except Failure Pipeline × Files :=
  match openFile files path with
  | (.ok place, files) => (.ok (start mode place now), files)
  | (.error f, files) => (.error f, files)

/-! ## The queue -/

/-- Puts a record into the queue, and tells whether it was taken. -/
def publish (p : Pipeline) (r : Record) : Bool × Pipeline :=
  if p.isOpen && p.stage != .dead then (true, { p with queue := p.queue ++ [r] }) else (false, p)

/-- Puts records into the queue in order. -/
def publishAll (p : Pipeline) (records : List Record) : Pipeline :=
  records.foldl (fun p r => (p.publish r).2) p

/-- Closes the queue, and tells whether it was open. -/
def close (p : Pipeline) : Bool × Pipeline := (p.isOpen, { p with isOpen := false })

/-! ## The writer -/

/-- The summary after a record that was written or dropped. -/
def Summary.count (s : Summary) (written : Bool) : Summary :=
  if written then { s with written := s.written + 1 } else { s with dropped := s.dropped + 1 }

/-- Writes the line of a record, by way of a buffer from the pool. -/
def writeRecord (p : Pipeline) (files : Files) (r : Record) : Pipeline × Files :=
  let (buffer, buffers) := p.buffers.take
  let giveBack (bytes : List UInt8) : Buffers :=
    buffers.give (buffer.append (bytes.drop buffer.bytes.length))
  match r.encodeInto buffer.bytes with
  | .error fault =>
      let summary := Summary.count p.summary false
      ({ p with buffers := giveBack fault.buffer, summary }, files)
  | .ok bytes =>
      let (result, writer, files) := p.writer.write files bytes
      let summary := Summary.count p.summary result.isOk
      ({ p with writer, buffers := giveBack bytes, summary }, files)

def flush (p : Pipeline) (files : Files) : Pipeline × Files :=
  let (result, writer, files) := p.writer.flush files
  let s := p.summary
  let summary := if result.isOk then { s with flushes := s.flushes + 1 } else s
  ({ p with writer, summary }, files)

/-- Writes the lines of some records in order. -/
def writeRecords (p : Pipeline) (files : Files) (records : List Record) : Pipeline × Files :=
  records.foldl (fun (p, files) r => p.writeRecord files r) (p, files)

/-- Writes and flushes the waiting records as one batch, if there are any. -/
def writeBatch (p : Pipeline) (files : Files) : Pipeline × Files :=
  if p.pending.isEmpty then (p, files)
  else
    let (q, files) := writeRecords { p with pending := [] } files p.pending
    q.flush files

/-- Takes a record that came out of the queue. -/
def receive (p : Pipeline) (files : Files) (r : Record) : Pipeline × Files :=
  match p.mode with
  | .sync =>
      let (p, files) := p.writeRecord files r
      p.flush files
  | .interval _ => ({ p with pending := p.pending ++ [r] }, files)

/-- Takes all records out of the queue in order. -/
def receiveAll (p : Pipeline) (files : Files) : Pipeline × Files :=
  p.queue.foldl (fun (p, files) r => p.receive files r) ({ p with queue := [] }, files)

def tickAfter (p : Pipeline) (moment : Duration) : Duration :=
  match p.mode with
  | .sync => moment
  | .interval period => ⟨moment.nanos + period.nanos⟩

/-- The tick of an interval. -/
def tick (p : Pipeline) (files : Files) : Pipeline × Files :=
  let (p, files) := p.writeBatch files
  ({ p with nextTick := p.tickAfter p.nextTick }, files)

/-- Writes what is left, flushes and finishes. -/
def finish (p : Pipeline) (files : Files) : Pipeline × Files :=
  let (p, files) := p.writeBatch files
  let (p, files) := p.flush files
  ({ p with stage := .finished }, files)

/-- Lets the writer do what it can do without a tick. -/
def settle (p : Pipeline) (files : Files) : Pipeline × Files :=
  match p.stage with
  | .running =>
      let (p, files) := p.receiveAll files
      if p.isOpen then (p, files) else p.finish files
  | _ => (p, files)

/-- A tick comes before or at a moment. -/
def isDue (p : Pipeline) (moment : Duration) : Bool :=
  match p.mode, p.stage with
  | .interval _, .running => p.nextTick.nanos ≤ moment.nanos
  | _, _ => false

/-- Lets the ticks up to a moment go by; all but the first one find nothing to write. -/
def tickUntil (p : Pipeline) (files : Files) (moment : Duration) : Pipeline × Files :=
  match p.mode with
  | .sync => (p, files)
  | .interval period =>
      if p.isDue moment then
        let passed := (moment.nanos - p.nextTick.nanos) / period.nanos
        let (q, files) := p.tick files
        ({ q with nextTick := ⟨q.nextTick.nanos + passed * period.nanos⟩ }, files)
      else (p, files)

/-- The report of the writer at its end, if it has come to one. -/
def outcome (p : Pipeline) : Option (Except Failure Summary) :=
  match p.stage with
  | .running => none
  | .finished => some (.ok p.summary)
  | .dead => some (.error waitFailure)

end Pipeline

end MetricLedger.Log
