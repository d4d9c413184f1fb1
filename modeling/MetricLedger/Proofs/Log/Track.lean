import MetricLedger.Proofs.Log.Course

/-!
# What lies where in the course of a log

The records dumped are written, in hand, waiting or in the queue, in this order; the file holds the
lines of those written first, and of all that were received before the last flush at the end of a
round. Main statement: `tracks_run`, so it is at every moment.
-/

namespace MetricLedger.Log

namespace Course

/-- The file holds the lines of `onFile`, those of `landed` for certain, and the buffer holds the
others that were written. -/
structure Landed (c : Course) (path : String) (base : List UInt8)
    (landed onFile inBuffer : List Record) : Prop where
  delivers : c.log.Delivers c.files path base onFile inBuffer
  settled : ∃ place, c.settled.Holds path place (base ++ linesOf landed)
  written : onFile ++ inBuffer = c.written
  arrived : landed <+: onFile
  safe : c.safe <+: landed
  rest : c.task = .rest → landed = c.written

/-- How things stand while a round is under way. -/
structure Busy (c : Course) (round : Round) : Prop where
  running : c.log.stage = .running
  pending : c.log.pending = []
  closed : round = .last ∨ round = .final → c.log.isOpen = false ∧ c.log.queue = []

/-- The invariant of a course on a file that held `base` at first. -/
structure Tracks (c : Course) (path : String) (base : List UInt8) : Prop where
  dumped : c.received ++ c.log.queue = c.dumped
  landing : ∃ landed onFile inBuffer, c.Landed path base landed onFile inBuffer
  waiting : c.log.mode = .sync → c.log.pending = []
  busy : ∀ records round, c.task = .busy records round → c.Busy round
  kind : ∀ records round, c.task = .busy records round → round ≠ .final →
    (round = .record ↔ c.log.mode = .sync)
  finished : c.log.stage = .finished →
    c.task = .rest ∧ c.log.isOpen = false ∧ c.log.pending = [] ∧ c.log.queue = []

variable {c : Course} {path : String} {base : List UInt8} {landed onFile inBuffer : List Record}

/-- When all that was written is on the file for certain, nothing is left in the buffer. -/
theorem Landed.onFile_of_rest (h : c.Landed path base landed onFile inBuffer)
    (hrest : c.task = .rest) : onFile = c.written ∧ inBuffer = [] := by
  obtain ⟨more, hmore⟩ := h.arrived
  have hwritten := h.written
  rw [← hmore, h.rest hrest, List.append_assoc, List.append_right_eq_self] at hwritten
  obtain ⟨hnone, hin⟩ := List.append_eq_nil_iff.1 hwritten
  rw [hnone, List.append_nil] at hmore
  exact ⟨hmore ▸ h.rest hrest, hin⟩

theorem Landed.all_of_rest (h : c.Landed path base landed onFile inBuffer) (hrest : c.task = .rest) :
    c.Landed path base c.written c.written [] := by
  have hlanded := h.rest hrest
  obtain ⟨honFile, hin⟩ := h.onFile_of_rest hrest
  rw [hlanded, honFile, hin] at h
  exact h

theorem tracks_opened {log : Pipeline} {files : Files}
    (h : log.Delivers files path base [] []) (hpending : log.pending = []) (hqueue : log.queue = [])
    (hstage : log.stage ≠ .finished) : (opened log files).Tracks path base := by
  refine ⟨?_, ⟨[], [], [], ?_⟩, fun _ => hpending, fun _ _ ht => (by cases ht),
    fun _ _ ht => (by cases ht), fun hf => absurd hf hstage⟩
  · show [] ++ [] ++ log.pending ++ log.queue = []
    rw [hpending, hqueue]
    rfl
  · exact ⟨h, ⟨_, h.carries.file⟩, rfl, List.prefix_rfl, List.prefix_rfl, fun _ => rfl⟩

/-! ## What others do -/

theorem Tracks.dump (h : c.Tracks path base) (r : Record) : (c.dump r).Tracks path base := by
  rcases c.dump_cases r with ⟨htakes, hd⟩ | ⟨-, hd⟩
  · obtain ⟨landed, onFile, inBuffer, hl⟩ := h.landing
    have hopen : c.log.isOpen ≠ false := by rw [htakes.1]; decide
    rw [hd]
    refine ⟨?_, ⟨landed, onFile, inBuffer, ⟨hl.delivers.carries, hl.delivers.clean⟩, hl.settled,
      hl.written, hl.arrived, hl.safe, hl.rest⟩, h.waiting, fun records round ht => ?_,
      h.kind, fun hf => absurd (h.finished hf).2.1 hopen⟩
    · show c.received ++ (c.log.queue ++ [r]) = c.dumped ++ [r]
      rw [← List.append_assoc, h.dumped]
    · obtain ⟨hrunning, hpending, hclosed⟩ := h.busy records round ht
      exact ⟨hrunning, hpending, fun hr => absurd (hclosed hr).1 hopen⟩
  · rw [hd]
    exact h

theorem Tracks.close (h : c.Tracks path base) : c.close.Tracks path base := by
  obtain ⟨landed, onFile, inBuffer, hl⟩ := h.landing
  refine ⟨h.dumped, ⟨landed, onFile, inBuffer, ⟨hl.delivers.carries, hl.delivers.clean⟩, hl.settled,
    hl.written, hl.arrived, hl.safe, hl.rest⟩, h.waiting, fun records round ht => ?_,
    h.kind, fun hf => ⟨(h.finished hf).1, rfl, (h.finished hf).2.2⟩⟩
  obtain ⟨hrunning, hpending, hclosed⟩ := h.busy records round ht
  exact ⟨hrunning, hpending, fun hr => ⟨rfl, (hclosed hr).2⟩⟩

/-! ## What the writer does -/

/-- A round may be concluded when all that was written has landed. -/
theorem Tracks.conclude (h : c.Tracks path base) (hall : c.Landed path base c.written c.written [])
    (hinHand : c.task.inHand = []) {round : Round} (hround : c.Busy round) :
    (c.conclude round).Tracks path base := by
  have hdumped : c.written ++ [] ++ c.log.pending ++ c.log.queue = c.dumped := by
    rw [← h.dumped, received, hinHand]
  have hsafe : c.written ++ c.log.pending <+: c.written := by
    rw [hround.pending, List.append_nil]
  have hrunning : c.log.stage ≠ .finished := by rw [hround.running]; decide
  have hrest (d : Course) (hd : d.task = .rest) {P : List Record → Round → Prop}
      (records : List Record) (round : Round) (ht : d.task = .busy records round) :
      P records round := by
    rw [hd] at ht
    cases ht
  cases round with
  | record =>
      exact ⟨hdumped, ⟨_, _, _, hall.delivers, hall.settled, hall.written, hall.arrived, hsafe,
        fun _ => rfl⟩, h.waiting, hrest _ rfl, hrest _ rfl, fun hf => absurd hf hrunning⟩
  | tick =>
      exact ⟨hdumped, ⟨_, _, _, ⟨hall.delivers.carries, hall.delivers.clean⟩, hall.settled,
        hall.written, hall.arrived, hsafe, fun _ => rfl⟩, h.waiting, hrest _ rfl, hrest _ rfl,
        fun hf => absurd hf hrunning⟩
  | last =>
      have hclosed := hround.closed (.inl rfl)
      refine ⟨hdumped, ⟨_, _, _, hall.delivers, hall.settled, hall.written, hall.arrived, hall.safe,
        fun ht => by cases ht⟩, h.waiting, fun records round ht => ?_, fun records round ht hr => ?_,
        fun hf => absurd hf hrunning⟩
      · cases ht
        exact ⟨hround.running, hround.pending, fun _ => hclosed⟩
      · cases ht
        exact absurd rfl hr
  | final =>
      have hclosed := hround.closed (.inr rfl)
      exact ⟨hdumped, ⟨_, _, _, ⟨hall.delivers.carries, hall.delivers.clean⟩, hall.settled,
        hall.written, hall.arrived, hsafe, fun _ => rfl⟩, h.waiting, hrest _ rfl, hrest _ rfl,
        fun _ => ⟨rfl, hclosed.1, hround.pending, hclosed.2⟩⟩

/-- A batch is taken by a writer at rest, of an interval or after the queue was closed. -/
theorem Tracks.takeBatch (h : c.Tracks path base) (hrest : c.task = .rest) {round : Round}
    (hrunning : c.log.stage = .running) (hround : round = .tick ∧ c.log.mode ≠ .sync ∨
      round = .last ∧ c.log.isOpen = false ∧ c.log.queue = []) :
    (c.takeBatch round).Tracks path base := by
  obtain ⟨landed, onFile, inBuffer, hl⟩ := h.landing
  have hall := hl.all_of_rest hrest
  have hclosed : round = .last ∨ round = .final → c.log.isOpen = false ∧ c.log.queue = [] := by
    rcases hround with ⟨rfl, -⟩ | ⟨rfl, hclosed⟩
    · intro hr
      simp at hr
    · exact fun _ => hclosed
  unfold Course.takeBatch
  split_ifs with hpending
  · rw [List.isEmpty_iff] at hpending
    exact h.conclude hall (by rw [hrest]; rfl) ⟨hrunning, hpending, hclosed⟩
  · rw [List.isEmpty_iff] at hpending
    have hmode : c.log.mode ≠ .sync := fun hm => hpending (h.waiting hm)
    have hkind : round ≠ .record := by
      rcases hround with ⟨rfl, -⟩ | ⟨rfl, -⟩ <;> decide
    refine ⟨?_, ⟨_, _, _, ⟨hall.delivers.carries, hall.delivers.clean⟩, hall.settled, hall.written,
      hall.arrived, hall.safe, fun ht => by cases ht⟩, fun _ => rfl, fun records round' ht => ?_,
      fun records round' ht _ => ?_, fun hf => ?_⟩
    · show c.written ++ c.log.pending ++ [] ++ c.log.queue = c.dumped
      rw [← h.dumped, received, hrest]
      simp [Task.inHand]
    · cases ht
      exact ⟨hrunning, rfl, hclosed⟩
    · cases ht
      exact iff_of_false hkind hmode
    · rw [show c.log.stage = .finished from hf] at hrunning
      cases hrunning

theorem Tracks.begin (h : c.Tracks path base) (hrest : c.task = .rest) (work : Pipeline.Work) :
    (c.begin work).Tracks path base := by
  obtain ⟨landed, onFile, inBuffer, hl⟩ := h.landing
  have hdumped : c.written ++ c.log.pending ++ c.log.queue = c.dumped := by
    rw [← h.dumped, received, hrest, Task.inHand, List.append_nil]
  rcases c.begin_cases work with ⟨hbegin, -⟩ |
    ⟨hrunning, ⟨r, queue, hqueue, -, ⟨hmode, hbegin⟩ | ⟨hmode, hbegin⟩⟩ | ⟨hmode, -, hbegin⟩ |
      ⟨hqueue, hopen, -, hbegin⟩⟩
  · rw [hbegin]
    exact h
  · rw [hbegin]
    have hpending := h.waiting hmode
    have hnotFinished : c.log.stage ≠ .finished := by rw [hrunning]; decide
    refine ⟨?_, ⟨landed, onFile, inBuffer, ⟨hl.delivers.carries, hl.delivers.clean⟩, hl.settled,
      hl.written, hl.arrived, hl.safe, fun ht => by cases ht⟩, h.waiting, fun records round ht => ?_,
      fun records round ht _ => ?_, fun hf => absurd hf hnotFinished⟩
    · show c.written ++ [r] ++ c.log.pending ++ queue = c.dumped
      rw [← hdumped, hqueue, hpending]
      simp
    · cases ht
      exact ⟨hrunning, hpending, fun hr => by simp at hr⟩
    · cases ht
      exact iff_of_true rfl hmode
  · rw [hbegin]
    have hnotFinished : c.log.stage ≠ .finished := by rw [hrunning]; decide
    have hbusy (records round) (ht : c.task = .busy records round) : False := by
      rw [hrest] at ht
      cases ht
    refine ⟨?_, ⟨landed, onFile, inBuffer, ⟨hl.delivers.carries, hl.delivers.clean⟩, hl.settled,
      hl.written, hl.arrived, hl.safe, hl.rest⟩, fun hsync => absurd hsync hmode,
      fun records round ht => (hbusy records round ht).elim,
      fun records round ht => (hbusy records round ht).elim, fun hf => absurd hf hnotFinished⟩
    show c.written ++ c.task.inHand ++ (c.log.pending ++ [r]) ++ queue = c.dumped
    rw [← hdumped, hqueue, hrest]
    simp [Task.inHand]
  · rw [hbegin]
    exact h.takeBatch hrest hrunning (.inl ⟨rfl, hmode⟩)
  · rw [hbegin]
    exact h.takeBatch hrest hrunning (.inr ⟨rfl, hopen, hqueue⟩)

/-- What the writer does to the records in hand leaves the queue and what waits alone. -/
theorem Tracks.of_sameQueue {d : Course} (h : c.Tracks path base) {r : Record}
    {rest records : List Record} {round : Round} (htask : c.task = .busy (r :: rest) round)
    (hsame : Pipeline.SameQueue c.log d.log) (hd : d.task = .busy records round)
    (hdumped : d.dumped = c.dumped) (hwritten : d.written ++ records = c.written ++ r :: rest)
    (hlanding : ∃ landed onFile inBuffer, d.Landed path base landed onFile inBuffer) :
    d.Tracks path base := by
  have hround := h.busy _ _ htask
  refine ⟨?_, hlanding, ?_, fun records' round' ht => ?_, fun records' round' ht hr => ?_,
    fun hf => ?_⟩
  · rw [received, hd, Task.inHand, hsame.pending, hsame.queue, hdumped, ← h.dumped, received, htask,
      Task.inHand, hwritten]
  · rw [hsame.mode, hsame.pending]
    exact h.waiting
  · obtain ⟨rfl, rfl⟩ := Task.busy.inj (hd.symm.trans ht)
    refine ⟨hsame.stage.trans hround.running, hsame.pending.trans hround.pending, fun hr => ?_⟩
    rw [hsame.isOpen, hsame.queue]
    exact hround.closed hr
  · obtain ⟨rfl, rfl⟩ := Task.busy.inj (hd.symm.trans ht)
    rw [hsame.mode]
    exact h.kind _ _ htask hr
  · rw [hsame.stage, hround.running] at hf
    cases hf

theorem Tracks.write (h : c.Tracks path base) {r : Record} {rest : List Record} {round : Round}
    (htask : c.task = .busy (r :: rest) round) : (c.write r rest round).Tracks path base := by
  obtain ⟨landed, onFile, inBuffer, hl⟩ := h.landing
  obtain ⟨onFile', inBuffer', hlists, hmore, -, hdelivers⟩ := hl.delivers.writeRecord r
  have hwritten : onFile' ++ inBuffer' = c.written ++ [r] := by rw [hlists, hl.written]
  refine h.of_sameQueue htask (Pipeline.sameQueue_writeRecord _ _ _) rfl rfl ?_ ?_
  · show c.written ++ [r] ++ rest = c.written ++ r :: rest
    rw [List.append_assoc, List.singleton_append]
  · -- A line that goes past the buffer finds the bytes before it on the file.
    by_cases hpast : Pipeline.passesBuffer r = true
    · refine ⟨onFile, onFile', inBuffer', hdelivers, ⟨c.log.writer.place, ?_⟩, hwritten, hmore,
        hl.safe.trans hl.arrived, fun ht => by cases ht⟩
      show Files.Holds (if Pipeline.passesBuffer r then c.files else c.settled) _ _ _
      rw [if_pos hpast]
      exact hl.delivers.carries.file
    · refine ⟨landed, onFile', inBuffer', hdelivers, ?_, hwritten, hl.arrived.trans hmore, hl.safe,
        fun ht => by cases ht⟩
      show ∃ place, Files.Holds (if Pipeline.passesBuffer r then c.files else c.settled) _ place _
      rw [if_neg hpast]
      exact hl.settled

theorem Tracks.proceedWith (h : c.Tracks path base) {r : Record} {rest : List Record}
    {round : Round} (htask : c.task = .busy (r :: rest) round) :
    (c.proceedWith r rest round).Tracks path base := by
  unfold Course.proceedWith
  split_ifs
  · split
    next w files hempty =>
      obtain ⟨landed, onFile, inBuffer, hl⟩ := h.landing
      obtain ⟨files', hempty', hcarries⟩ := hl.delivers.carries.empty
      rw [hempty, Prod.mk.injEq, Prod.mk.injEq] at hempty'
      rw [← hempty'.2.1, ← hempty'.2.2] at hcarries
      refine h.of_sameQueue htask ⟨rfl, rfl, rfl, rfl, rfl⟩ htask rfl rfl ?_
      refine ⟨onFile, onFile ++ inBuffer, [], ⟨hcarries, hl.delivers.clean⟩,
        ⟨_, hl.delivers.carries.file⟩, ?_, List.prefix_append _ _, hl.safe.trans hl.arrived,
        fun ht => ?_⟩
      · rw [List.append_nil]
        exact hl.written
      · rw [htask] at ht
        cases ht
    next => exact h.write htask
  · exact h.write htask

theorem Tracks.flush (h : c.Tracks path base) {round : Round} (htask : c.task = .busy [] round) :
    c.flush.Tracks path base ∧ c.flush.Landed path base c.written c.written [] := by
  obtain ⟨landed, onFile, inBuffer, hl⟩ := h.landing
  have hround := h.busy _ _ htask
  have hdelivers := hl.delivers.flush
  rw [hl.written] at hdelivers
  have hall : c.flush.Landed path base c.written c.written [] := by
    refine ⟨hdelivers, ⟨_, hdelivers.carries.file⟩, List.append_nil _, List.prefix_rfl, ?_,
      fun _ => rfl⟩
    refine (hl.safe.trans hl.arrived).trans ?_
    rw [← hl.written]
    exact List.prefix_append _ _
  refine ⟨⟨h.dumped, ⟨_, _, _, hall⟩, h.waiting, fun records round ht => ?_, h.kind, h.finished⟩,
    hall⟩
  exact ⟨(h.busy records round ht).running, (h.busy records round ht).pending,
    (h.busy records round ht).closed⟩

theorem Tracks.proceed (h : c.Tracks path base) : c.proceed.Tracks path base := by
  unfold Course.proceed
  split
  next => exact h
  next r rest round htask => exact h.proceedWith htask
  next round htask =>
    obtain ⟨hflushed, hall⟩ := h.flush htask
    refine hflushed.conclude hall ?_ ?_
    · show c.task.inHand = []
      rw [htask]
      rfl
    · exact hflushed.busy [] round htask

theorem Tracks.step (h : c.Tracks path base) (e : Event) : (c.step e).Tracks path base := by
  cases e with
  | dump r => exact h.dump r
  | close => exact h.close
  | begin work =>
      simp only [Course.step]
      split
      next hrest => exact h.begin hrest work
      next => exact h
  | proceed => exact h.proceed

/-- At every moment the records dumped are accounted for, and what must be on the file is there. -/
theorem tracks_run (h : c.Tracks path base) (events : List Event) :
    (c.run events).Tracks path base := by
  induction events generalizing c with
  | nil => exact h
  | cons e events ih => exact ih (h.step e)

end Course

end MetricLedger.Log
