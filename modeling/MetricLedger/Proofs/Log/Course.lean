import MetricLedger.Proofs.Log.Delivery

/-!
# The course of a log

The steps of the writer taken apart, so that records may be dumped and the queue may be closed between
any two of them, and the writer may be stopped after any of them. A step begins a round: the records
in hand are written one by one, each time after handing over what the buffer has no room for, and
then the file is flushed. Main statements: `begin_settles`, the parts of a step come to the step, and
`works_finished`, once the queue is closed the writer comes to its end.
-/

namespace MetricLedger.Log

/-- What a flush brings to its end. -/
inductive Round where
  /-- One record. -/
  | record
  /-- The batch of a tick. -/
  | tick
  /-- The batch that was left when the queue was closed. -/
  | last
  /-- The log. -/
  | final
  deriving DecidableEq, Repr

/-- What the writer is at. -/
inductive Task where
  | rest
  /-- It writes the records in hand and flushes then. -/
  | busy (records : List Record) (round : Round)
  deriving DecidableEq, Repr

def Task.inHand : Task → List Record
  | .rest => []
  | .busy records _ => records

/-- A log on its way, with what happened to it so far. -/
structure Course where
  log : Pipeline
  files : Files
  /-- The files without the bytes handed over last, which may still be on their way. -/
  settled : Files
  task : Task
  /-- The records that the queue took. -/
  dumped : List Record
  /-- The records written or dropped by the writer. -/
  written : List Record
  /-- The records received before the flush that brought the last round to its end. -/
  safe : List Record
  /-- The batches that were begun. -/
  batches : ℕ

namespace Pipeline

/-- The line of a record does not fit in behind what is collected. -/
def lacksRoom (p : Pipeline) (r : Record) : Bool :=
  r.isEncodable && !p.writer.buffered.isEmpty &&
    decide (Writer.capacity < p.writer.buffered.length + r.lineBytes.length)

/-- The line of a record goes past the buffer. -/
def passesBuffer (r : Record) : Bool :=
  r.isEncodable && decide (Writer.capacity ≤ r.lineBytes.length)

end Pipeline

namespace Course

/-- A pipeline that was just opened. -/
def opened (log : Pipeline) (files : Files) : Course := ⟨log, files, files, .rest, [], [], [], 0⟩

/-- The records that came out of the queue. -/
def received (c : Course) : List Record := c.written ++ c.task.inHand ++ c.log.pending

def atRest (c : Course) : Course := { c with task := .rest, safe := c.written ++ c.log.pending }

/-- The end of a round whose flush is over. -/
def conclude (c : Course) : Round → Course
  | .record => c.atRest
  | .tick => atRest { c with log := { c.log with nextTick := c.log.tickAfter c.log.nextTick } }
  | .last => { c with task := .busy [] .final }
  | .final => atRest { c with log := { c.log with stage := .finished } }

/-- Begins a round with the waiting records as a batch; without any the round is over. -/
def takeBatch (c : Course) (round : Round) : Course :=
  if c.log.pending.isEmpty then c.conclude round
  else
    { c with
      log := { c.log with pending := [] }
      task := .busy c.log.pending round
      batches := c.batches + 1 }

/-- The begin of a step of the writer; a step that cannot be taken does nothing. -/
def begin (c : Course) : Pipeline.Work → Course
  | .receive =>
      match c.log.stage, c.log.queue, c.log.mode with
      | .running, r :: queue, .sync =>
          { c with log := { c.log with queue }, task := .busy [r] .record }
      | .running, r :: queue, .interval _ =>
          { c with log := { c.log with queue, pending := c.log.pending ++ [r] } }
      | _, _, _ => c
  | .tick =>
      match c.log.stage, c.log.mode with
      | .running, .interval _ => c.takeBatch .tick
      | _, _ => c
  | .finish =>
      match c.log.stage, c.log.queue with
      | .running, [] => if c.log.isOpen then c else c.takeBatch .last
      | _, _ => c

/-- Writes the first record in hand. -/
def write (c : Course) (r : Record) (rest : List Record) (round : Round) : Course :=
  let (log, files) := c.log.writeRecord c.files r
  { c with
    log, files
    settled := if Pipeline.passesBuffer r then c.files else c.settled
    task := .busy rest round
    written := c.written ++ [r] }

/-- Writes the first record in hand, or makes room for it first. -/
def proceedWith (c : Course) (r : Record) (rest : List Record) (round : Round) : Course :=
  if c.log.lacksRoom r then
    match c.log.writer.empty c.files with
    | (.ok _, writer, files) => { c with log := { c.log with writer }, files, settled := c.files }
    | (.error _, _, _) => c.write r rest round
  else c.write r rest round

/-- Flushes the file. -/
def flush (c : Course) : Course :=
  let (log, files) := c.log.flush c.files
  { c with log, files, settled := files }

/-- The next part of the step that was begun. -/
def proceed (c : Course) : Course :=
  match c.task with
  | .rest => c
  | .busy (r :: rest) round => c.proceedWith r rest round
  | .busy [] round => c.flush.conclude round

/-- A record is offered to the queue. -/
def dump (c : Course) (r : Record) : Course :=
  let (taken, log) := c.log.publish r
  { c with log, dumped := if taken then c.dumped ++ [r] else c.dumped }

/-- The queue is closed. -/
def close (c : Course) : Course := { c with log := c.log.close.2 }

inductive Event where
  | dump (r : Record)
  | close
  /-- The writer, being at rest, begins a step. -/
  | begin (work : Pipeline.Work)
  | proceed

def step (c : Course) : Event → Course
  | .dump r => c.dump r
  | .close => c.close
  | .begin work =>
      match c.task with
      | .rest => c.begin work
      | .busy .. => c
  | .proceed => c.proceed

def run (c : Course) (events : List Event) : Course := events.foldl step c

/-- The records that are offered before the queue is closed. -/
def offered : List Event → List Record
  | [] => []
  | .dump r :: events => r :: offered events
  | .close :: _ => []
  | .begin _ :: events => offered events
  | .proceed :: events => offered events

theorem run_append (c : Course) (first second : List Event) :
    c.run (first ++ second) = (c.run first).run second := List.foldl_append

/-- A record is taken by the queue, or nothing happens. -/
theorem dump_cases (c : Course) (r : Record) :
    c.log.Takes ∧ c.dump r =
        { c with
          log := { c.log with queue := c.log.queue ++ [r] }, dumped := c.dumped ++ [r] } ∨
      ¬c.log.Takes ∧ c.dump r = c := by
  by_cases h : c.log.Takes
  · refine .inl ⟨h, ?_⟩
    rw [dump, Pipeline.publish_of_takes h]
    rfl
  · refine .inr ⟨h, ?_⟩
    rw [dump, Pipeline.publish_of_not_takes h]
    rfl

/-! ## The parts of a step -/

section Parts

variable {c d : Course} {r : Record} {rest records : List Record} {round : Round}

/-- The writer comes from the first course to the second one by itself. -/
def Proceeds (c d : Course) : Prop := ∃ n, proceed^[n] c = d

theorem Proceeds.refl (c : Course) : c.Proceeds c := ⟨0, rfl⟩

theorem Proceeds.trans {e : Course} (h : c.Proceeds d) (h' : d.Proceeds e) : c.Proceeds e := by
  obtain ⟨m, rfl⟩ := h
  obtain ⟨n, rfl⟩ := h'
  exact ⟨n + m, Function.iterate_add_apply ..⟩

theorem Proceeds.next (h : c.Proceeds d) : c.Proceeds d.proceed := h.trans ⟨1, rfl⟩

theorem buffered_of_empty {w w' : Writer} {files files' : Files} {u : Unit}
    (h : w.empty files = (.ok u, w', files')) : w'.buffered = [] := by
  unfold Writer.empty at h
  split_ifs at h with hb
  · simp only [Prod.mk.injEq] at h
    rw [← h.2.1]
    exact List.isEmpty_iff.1 hb
  · split at h
    · simp only [Prod.mk.injEq] at h
      rw [← h.2.1]
    · cases h

/-- What does not fit in is written in the same way if room was made before. -/
theorem write_of_empty {w w' : Writer} {files files' : Files} {u : Unit} {bytes : List UInt8}
    (h : w.empty files = (.ok u, w', files'))
    (hfull : Writer.capacity < w.buffered.length + bytes.length) :
    w'.write files' bytes = w.write files bytes := by
  have hagain : w'.empty files' = (.ok (), w', files') := by
    simp [Writer.empty, buffered_of_empty h]
  unfold Writer.write
  rw [if_pos hfull, h, hagain]
  split_ifs <;> rfl

theorem writeRecord_of_empty {w : Writer} {files : Files} {u : Unit}
    (hroom : c.log.lacksRoom r = true) (h : c.log.writer.empty c.files = (.ok u, w, files)) :
    ({ c.log with writer := w } : Pipeline).writeRecord files r =
      c.log.writeRecord c.files r := by
  simp only [Pipeline.lacksRoom, Bool.and_eq_true, decide_eq_true_eq] at hroom
  obtain ⟨⟨hr, -⟩, hfull⟩ := hroom
  have hwrite (buffer : List UInt8) : w.write files (buffer ++ r.lineBytes) =
      c.log.writer.write c.files (buffer ++ r.lineBytes) := by
    apply write_of_empty h
    rw [List.length_append]
    omega
  unfold Pipeline.writeRecord
  simp only [Record.encodeInto_of_isEncodable hr, hwrite]

/-- The first record in hand is written, after making room for it or at once. -/
theorem proceeds_record (h : c.task = .busy (r :: rest) round) :
    ∃ d, c.Proceeds d ∧ d.task = .busy rest round ∧
      (d.log, d.files) = c.log.writeRecord c.files r := by
  have hnext : c.proceed = c.proceedWith r rest round := by simp only [proceed, h]
  have hwrite : c.proceed = c.write r rest round → ∃ d, c.Proceeds d ∧ d.task = .busy rest round ∧
      (d.log, d.files) = c.log.writeRecord c.files r :=
    fun hc => ⟨_, ⟨1, hc⟩, rfl, rfl⟩
  by_cases hroom : c.log.lacksRoom r = true
  · rcases hempty : c.log.writer.empty c.files with ⟨_ | u, w, files⟩
    · apply hwrite
      rw [hnext, proceedWith, if_pos hroom, hempty]
    · have hmade : c.proceed =
          { c with log := { c.log with writer := w }, files, settled := c.files } := by
        rw [hnext, proceedWith, if_pos hroom, hempty]
      have hroom' : ({ c.log with writer := w } : Pipeline).lacksRoom r = false := by
        simp [Pipeline.lacksRoom, buffered_of_empty hempty]
      have hwritten : c.proceed.proceed = c.proceed.write r rest round := by
        rw [hmade]
        simp only [proceed, h, proceedWith, hroom', Bool.false_eq_true, if_false]
      refine ⟨_, ⟨2, hwritten⟩, rfl, ?_⟩
      rw [hmade, ← writeRecord_of_empty hroom hempty]
      rfl
  · apply hwrite
    rw [hnext, proceedWith, if_neg hroom]

/-- The records in hand are written in order. -/
theorem proceeds_records (h : c.task = .busy records round) :
    ∃ d, c.Proceeds d ∧ d.task = .busy [] round ∧
      (d.log, d.files) = c.log.writeRecords c.files records := by
  induction records generalizing c with
  | nil => exact ⟨c, .refl c, h, rfl⟩
  | cons r records ih =>
      obtain ⟨d, hd, htask, hrecord⟩ := proceeds_record h
      obtain ⟨e, he, htask', hrecords⟩ := ih htask
      refine ⟨e, hd.trans he, htask', ?_⟩
      rw [hrecords, Pipeline.writeRecords_cons, ← hrecord]

/-- A round that was begun writes the records in hand, flushes and is concluded. -/
theorem proceeds_round (h : c.task = .busy records round) :
    ∃ d : Course, c.Proceeds (d.flush.conclude round) ∧
      (d.log, d.files) = c.log.writeRecords c.files records := by
  obtain ⟨d, hd, htask, hrecords⟩ := proceeds_records h
  refine ⟨d, ?_, hrecords⟩
  have hnext : d.proceed = d.flush.conclude round := by simp only [proceed, htask]
  exact hnext ▸ hd.next

theorem proceeds_takeBatch (c : Course) (round : Round) :
    ∃ d : Course, (c.takeBatch round).Proceeds (d.conclude round) ∧
      (d.log, d.files) = c.log.writeBatch c.files := by
  unfold takeBatch Pipeline.writeBatch
  by_cases hpending : c.log.pending.isEmpty = true
  · rw [if_pos hpending, if_pos hpending]
    exact ⟨c, .refl _, rfl⟩
  · rw [if_neg hpending, if_neg hpending]
    obtain ⟨d, hd, hrecords⟩ := proceeds_round (c := { c with
      log := { c.log with pending := [] }
      task := .busy c.log.pending round
      batches := c.batches + 1 }) rfl
    refine ⟨d.flush, hd, ?_⟩
    simp only at hrecords
    rw [← hrecords]
    rfl

theorem receive_of_sync {p : Pipeline} {files : Files} (h : p.mode = .sync) :
    p.receive files r = (p.writeRecord files r).1.flush (p.writeRecord files r).2 := by
  simp only [Pipeline.receive, h]

/-- All that the begin of a step can be, and what the whole step does in each case. -/
theorem begin_cases (c : Course) (work : Pipeline.Work) :
    c.begin work = c ∧ c.log.work c.files work = (c.log, c.files) ∨
      c.log.stage = .running ∧
        ((∃ r queue, c.log.queue = r :: queue ∧
            c.log.work c.files work = ({ c.log with queue } : Pipeline).receive c.files r ∧
            (c.log.mode = .sync ∧
                c.begin work =
                  { c with log := { c.log with queue }, task := .busy [r] .record } ∨
              c.log.mode ≠ .sync ∧
                c.begin work =
                  { c with log := { c.log with queue, pending := c.log.pending ++ [r] } })) ∨
          c.log.mode ≠ .sync ∧ c.log.work c.files work = c.log.tick c.files ∧
            c.begin work = c.takeBatch .tick ∨
          c.log.queue = [] ∧ c.log.isOpen = false ∧
            c.log.work c.files work = c.log.finish c.files ∧ c.begin work = c.takeBatch .last) := by
  cases work with
  | receive =>
      cases hstage : c.log.stage with
      | running =>
          cases hqueue : c.log.queue with
          | nil => simp [begin, Pipeline.work, hstage, hqueue]
          | cons r queue =>
              cases hmode : c.log.mode <;> simp [begin, Pipeline.work, hstage, hqueue, hmode]
      | finished => simp [begin, Pipeline.work, hstage]
      | dead => simp [begin, Pipeline.work, hstage]
  | tick =>
      cases hstage : c.log.stage with
      | running => cases hmode : c.log.mode <;> simp [begin, Pipeline.work, hstage, hmode]
      | finished => simp [begin, Pipeline.work, hstage]
      | dead => simp [begin, Pipeline.work, hstage]
  | finish =>
      cases hstage : c.log.stage with
      | running =>
          cases hqueue : c.log.queue with
          | nil => cases hopen : c.log.isOpen <;> simp [begin, Pipeline.work, hstage, hqueue, hopen]
          | cons r queue => simp [begin, Pipeline.work, hstage, hqueue]
      | finished => simp [begin, Pipeline.work, hstage]
      | dead => simp [begin, Pipeline.work, hstage]

/-- The parts of a step of the writer come to the step. -/
theorem begin_settles (hrest : c.task = .rest) (work : Pipeline.Work) :
    ∃ d, (c.begin work).Proceeds d ∧ d.task = .rest ∧
      (d.log, d.files) = c.log.work c.files work := by
  rcases c.begin_cases work with ⟨hbegin, hwork⟩ |
    ⟨-, ⟨r, queue, -, hwork, ⟨hmode, hbegin⟩ | ⟨hmode, hbegin⟩⟩ | ⟨-, hwork, hbegin⟩ |
      ⟨-, -, hwork, hbegin⟩⟩
  · rw [hbegin, hwork]
    exact ⟨c, .refl c, hrest, rfl⟩
  · rw [hbegin, hwork]
    obtain ⟨d, hd, hrecord⟩ := proceeds_round (c := { c with
      log := { c.log with queue }, task := .busy [r] .record }) rfl
    refine ⟨_, hd, rfl, ?_⟩
    rw [receive_of_sync (p := { c.log with queue }) hmode]
    show d.log.flush d.files = _
    exact congrArg (fun s : Pipeline × Files => s.1.flush s.2) hrecord
  · rw [hbegin, hwork]
    refine ⟨_, .refl _, hrest, ?_⟩
    cases hinterval : c.log.mode with
    | sync => exact absurd hinterval hmode
    | interval period => simp only [Pipeline.receive, hinterval]
  · rw [hbegin, hwork]
    obtain ⟨d, hd, hbatch⟩ := c.proceeds_takeBatch .tick
    refine ⟨_, hd, rfl, ?_⟩
    rw [Pipeline.tick, ← hbatch]
    rfl
  · rw [hbegin, hwork]
    obtain ⟨d, hd, hbatch⟩ := c.proceeds_takeBatch .last
    refine ⟨_, hd.next, rfl, ?_⟩
    rw [Pipeline.finish, ← hbatch]
    rfl

/-! ## The way to the end -/

/-- The event is a step of the writer. -/
def Event.isOwn : Event → Bool
  | .begin _ => true
  | .proceed => true
  | _ => false

/-- The writer comes from the first course to the second one by its own steps. -/
def Works (c d : Course) : Prop := ∃ events, (∀ e ∈ events, e.isOwn = true) ∧ c.run events = d

theorem Works.trans {e : Course} (h : c.Works d) (h' : d.Works e) : c.Works e := by
  obtain ⟨first, hfirst, rfl⟩ := h
  obtain ⟨second, hsecond, rfl⟩ := h'
  refine ⟨first ++ second, fun e he => ?_, run_append ..⟩
  rcases List.mem_append.1 he with he | he
  · exact hfirst e he
  · exact hsecond e he

theorem Proceeds.works (h : c.Proceeds d) : c.Works d := by
  obtain ⟨n, rfl⟩ := h
  refine ⟨List.replicate n .proceed, fun e he => by rw [List.eq_of_mem_replicate he]; rfl, ?_⟩
  induction n generalizing c with
  | zero => rfl
  | succ n ih => exact (ih (c := c.proceed)).trans (Function.iterate_succ_apply ..).symm

theorem works_of_begin (hrest : c.task = .rest) {work : Pipeline.Work}
    (h : (c.begin work).Proceeds d) : c.Works d := by
  refine Works.trans ⟨[.begin work], by simp [Event.isOwn], ?_⟩ h.works
  simp only [run, List.foldl_cons, List.foldl_nil, step, hrest]

/-- What the writer is at comes to an end. -/
theorem proceeds_rest (c : Course) : ∃ d, c.Proceeds d ∧ d.task = .rest := by
  cases htask : c.task with
  | rest => exact ⟨c, .refl c, htask⟩
  | busy records round =>
      obtain ⟨d, hd, -⟩ := proceeds_round htask
      cases round with
      | record => exact ⟨_, hd, rfl⟩
      | tick => exact ⟨_, hd, rfl⟩
      | last => exact ⟨_, hd.next, rfl⟩
      | final => exact ⟨_, hd, rfl⟩

theorem works_settles (hrest : c.task = .rest) (steps : List Pipeline.Work) :
    ∃ d, c.Works d ∧ d.task = .rest ∧ (d.log, d.files) = c.log.works c.files steps := by
  induction steps generalizing c with
  | nil => exact ⟨c, ⟨[], by simp, rfl⟩, hrest, rfl⟩
  | cons step steps ih =>
      obtain ⟨d, hd, hrest', hstep⟩ := begin_settles hrest step
      obtain ⟨e, he, hrest'', hsteps⟩ := ih hrest'
      refine ⟨e, (works_of_begin hrest hd).trans he, hrest'', hsteps.trans ?_⟩
      rw [Pipeline.works, hstep]
      rfl

theorem exists_works_finished {p : Pipeline} (files : Files) (hopen : p.isOpen = false)
    (hstage : p.stage = .running) : ∃ steps, (p.works files steps).1.stage = .finished := by
  obtain ⟨queue, hqueue⟩ : ∃ queue, p.queue = queue := ⟨_, rfl⟩
  induction queue generalizing p files with
  | nil =>
      refine ⟨[.finish], ?_⟩
      simp only [Pipeline.works, List.foldl_cons, List.foldl_nil, Pipeline.work, hstage, hqueue,
        hopen]
      rfl
  | cons r queue ih =>
      have hwork : p.work files .receive = ({ p with queue } : Pipeline).receive files r := by
        simp only [Pipeline.work, hstage, hqueue]
      obtain ⟨hopen', hstage', hqueue'⟩ := Pipeline.receive_keeps { p with queue } files r
      rw [← hwork] at hopen' hstage' hqueue'
      obtain ⟨steps, hsteps⟩ := ih (p.work files .receive).2 (hopen'.trans hopen)
        (hstage'.trans hstage) hqueue'
      exact ⟨.receive :: steps, hsteps⟩

/-! ## What the writer leaves alone -/

/-- The writer neither opens, closes nor fills the queue, and does not die. -/
structure Keeps (c d : Course) : Prop where
  mode : d.log.mode = c.log.mode
  isOpen : d.log.isOpen = c.log.isOpen
  alive : c.log.stage ≠ .dead → d.log.stage ≠ .dead
  dumped : d.dumped = c.dumped

theorem Keeps.refl (c : Course) : c.Keeps c := ⟨rfl, rfl, id, rfl⟩

theorem Keeps.trans {e : Course} (h : c.Keeps d) (h' : d.Keeps e) : c.Keeps e :=
  ⟨h'.mode.trans h.mode, h'.isOpen.trans h.isOpen, fun hs => h'.alive (h.alive hs),
    h'.dumped.trans h.dumped⟩

theorem keeps_conclude (c : Course) (round : Round) : c.Keeps (c.conclude round) := by
  cases round with
  | record => exact ⟨rfl, rfl, id, rfl⟩
  | tick => exact ⟨rfl, rfl, id, rfl⟩
  | last => exact ⟨rfl, rfl, id, rfl⟩
  | final => exact ⟨rfl, rfl, fun _ => Stage.noConfusion, rfl⟩

theorem keeps_begin (c : Course) (work : Pipeline.Work) : c.Keeps (c.begin work) := by
  have hbatch (round : Round) : c.Keeps (c.takeBatch round) := by
    unfold takeBatch
    split_ifs
    · exact c.keeps_conclude round
    · exact ⟨rfl, rfl, id, rfl⟩
  rcases c.begin_cases work with ⟨hbegin, -⟩ |
    ⟨-, ⟨r, queue, -, -, ⟨-, hbegin⟩ | ⟨-, hbegin⟩⟩ | ⟨-, -, hbegin⟩ | ⟨-, -, -, hbegin⟩⟩
  · rw [hbegin]
    exact .refl c
  · rw [hbegin]
    exact ⟨rfl, rfl, id, rfl⟩
  · rw [hbegin]
    exact ⟨rfl, rfl, id, rfl⟩
  · rw [hbegin]
    exact hbatch .tick
  · rw [hbegin]
    exact hbatch .last

theorem keeps_proceed (c : Course) : c.Keeps c.proceed := by
  have hwrite (r rest round) : c.Keeps (c.write r rest round) := by
    have hsame := Pipeline.sameQueue_writeRecord c.log c.files r
    exact ⟨hsame.mode, hsame.isOpen, fun hs => hsame.stage ▸ hs, rfl⟩
  unfold proceed
  split
  next => exact .refl c
  next r rest round _ =>
    unfold proceedWith
    split_ifs
    · split
      next => exact ⟨rfl, rfl, id, rfl⟩
      next => exact hwrite r rest round
    · exact hwrite r rest round
  next round _ =>
    have hflush : c.Keeps c.flush := ⟨rfl, rfl, id, rfl⟩
    exact hflush.trans (c.flush.keeps_conclude round)

theorem keeps_step (c : Course) {e : Event} (h : e.isOwn = true) : c.Keeps (c.step e) := by
  cases e with
  | dump r => cases h
  | close => cases h
  | begin work =>
      simp only [step]
      split
      · exact c.keeps_begin work
      · exact .refl c
  | proceed => exact c.keeps_proceed

theorem Works.keeps (h : c.Works d) : c.Keeps d := by
  obtain ⟨events, hown, rfl⟩ := h
  induction events generalizing c with
  | nil => exact .refl c
  | cons e events ih =>
      exact (c.keeps_step (hown e List.mem_cons_self)).trans
        (ih fun e' he' => hown e' (List.mem_cons_of_mem e he'))

/-- Once the queue is closed the writer finishes by its own steps, whatever it is at. -/
theorem works_finished (hopen : c.log.isOpen = false) (hstage : c.log.stage ≠ .dead) :
    ∃ d, c.Works d ∧ d.log.stage = .finished := by
  obtain ⟨d, hd, hrest⟩ := c.proceeds_rest
  have hkeeps := hd.works.keeps
  cases hrunning : d.log.stage with
  | finished => exact ⟨d, hd.works, hrunning⟩
  | dead => exact absurd hrunning (hkeeps.alive hstage)
  | running =>
      obtain ⟨steps, hsteps⟩ := exists_works_finished d.files (hkeeps.isOpen.trans hopen) hrunning
      obtain ⟨e, he, -, hlog⟩ := works_settles hrest steps
      rw [← hlog] at hsteps
      exact ⟨e, hd.works.trans he, hsteps⟩

/-! ## What is dumped -/

theorem mode_step (c : Course) (e : Event) : (c.step e).log.mode = c.log.mode := by
  cases e with
  | dump r =>
      show (c.dump r).log.mode = _
      rcases c.dump_cases r with ⟨-, hd⟩ | ⟨-, hd⟩ <;> rw [hd]
  | close => rfl
  | begin work => exact (c.keeps_step (e := .begin work) rfl).mode
  | proceed => exact (c.keeps_step (e := .proceed) rfl).mode

theorem mode_run (c : Course) (events : List Event) : (c.run events).log.mode = c.log.mode := by
  induction events generalizing c with
  | nil => rfl
  | cons e events ih => exact (ih _).trans (c.mode_step e)

theorem alive_step (h : c.log.stage ≠ .dead) (e : Event) : (c.step e).log.stage ≠ .dead := by
  cases e with
  | dump r =>
      show (c.dump r).log.stage ≠ _
      rcases c.dump_cases r with ⟨-, hd⟩ | ⟨-, hd⟩ <;> rw [hd] <;> exact h
  | close => exact h
  | begin work => exact (c.keeps_step (e := .begin work) rfl).alive h
  | proceed => exact (c.keeps_step (e := .proceed) rfl).alive h

theorem alive_run (h : c.log.stage ≠ .dead) (events : List Event) :
    (c.run events).log.stage ≠ .dead := by
  induction events generalizing c with
  | nil => exact h
  | cons e events ih => exact ih (alive_step h e)

/-- A writer that stopped at its start does nothing, and its queue takes nothing. -/
theorem step_of_dead (hrest : c.task = .rest) (hdead : c.log.stage = .dead) (e : Event) :
    (c.step e).task = .rest ∧ (c.step e).log.stage = .dead ∧ (c.step e).dumped = c.dumped := by
  cases e with
  | dump r =>
      rcases c.dump_cases r with ⟨htakes, -⟩ | ⟨-, hd⟩
      · exact absurd hdead htakes.2
      · show (c.dump r).task = _ ∧ (c.dump r).log.stage = _ ∧ (c.dump r).dumped = _
        rw [hd]
        exact ⟨hrest, hdead, rfl⟩
  | close => exact ⟨hrest, hdead, rfl⟩
  | begin work =>
      simp only [step, hrest]
      rcases c.begin_cases work with ⟨hbegin, -⟩ | ⟨hrunning, -⟩
      · rw [hbegin]
        exact ⟨hrest, hdead, rfl⟩
      · rw [hdead] at hrunning
        cases hrunning
  | proceed =>
      have hsame : c.proceed = c := by simp only [proceed, hrest]
      show c.proceed.task = _ ∧ c.proceed.log.stage = _ ∧ c.proceed.dumped = _
      rw [hsame]
      exact ⟨hrest, hdead, rfl⟩

theorem stage_run_of_dead (hrest : c.task = .rest) (hdead : c.log.stage = .dead)
    (events : List Event) : (c.run events).log.stage = .dead := by
  induction events generalizing c with
  | nil => exact hdead
  | cons e events ih =>
      obtain ⟨hrest', hdead', -⟩ := step_of_dead hrest hdead e
      exact ih hrest' hdead'

theorem dumped_run_of_closed (hclosed : c.log.isOpen = false) (events : List Event) :
    (c.run events).dumped = c.dumped := by
  induction events generalizing c with
  | nil => rfl
  | cons e events ih =>
      have hown (he : e.isOwn = true) : (c.run (e :: events)).dumped = c.dumped := by
        have hkeeps := c.keeps_step he
        exact (ih (hkeeps.isOpen.trans hclosed)).trans hkeeps.dumped
      cases e with
      | dump r =>
          rcases c.dump_cases r with ⟨htakes, -⟩ | ⟨-, hd⟩
          · rw [htakes.1] at hclosed
            cases hclosed
          · show ((c.dump r).run events).dumped = _
            rw [hd]
            exact ih hclosed
      | close => exact ih (c := c.close) rfl
      | begin work => exact hown rfl
      | proceed => exact hown rfl

/-- A queue that is open takes what is offered before it is closed. -/
theorem dumped_run (htakes : c.log.Takes) (events : List Event) :
    (c.run events).dumped = c.dumped ++ offered events := by
  induction events generalizing c with
  | nil => exact (List.append_nil _).symm
  | cons e events ih =>
      have hown (he : e.isOwn = true) :
          (c.run (e :: events)).dumped = c.dumped ++ offered events := by
        have hkeeps := c.keeps_step he
        rw [← hkeeps.dumped]
        exact ih ⟨hkeeps.isOpen.trans htakes.1, hkeeps.alive htakes.2⟩
      cases e with
      | dump r =>
          rcases c.dump_cases r with ⟨-, hd⟩ | ⟨hnot, -⟩
          · have hnext : (c.dump r).log.Takes := by
              rw [hd]
              exact htakes
            refine (ih hnext).trans ?_
            rw [hd, offered, List.append_assoc, List.singleton_append]
          · exact absurd htakes hnot
      | close =>
          rw [offered, List.append_nil]
          exact dumped_run_of_closed (c := c.close) rfl events
      | begin work => exact hown rfl
      | proceed => exact hown rfl

end Parts

end Course

end MetricLedger.Log
