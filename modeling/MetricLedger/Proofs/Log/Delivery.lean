import Mathlib.Tactic
import MetricLedger.Proofs.Files.Reopen
import MetricLedger.Proofs.Log.Lines

/-!
# From the queue to the file

At every moment the records that a queue has taken are on the file, in the buffer in front of it,
waiting for a tick or in the queue, in this order. Main statements: `Accounts.work`, no step of the
writer loses a record, and `Accounts.read_of_finished`, a writer that is finished has written the
lines of all of them.
-/

namespace MetricLedger.Log

/-! ## The buffer in front of the file -/

/-- Behind its first content the file holds the lines of `onFile`, and the buffer those of
`inBuffer`; no byte was refused. -/
structure Writer.Carries (w : Writer) (files : Files) (path : String) (base : List UInt8)
    (onFile inBuffer : List Record) : Prop where
  file : files.Holds path w.place (base ++ linesOf onFile)
  buffer : w.buffered = linesOf inBuffer
  accepted : w.refused = none

namespace Writer

variable {w : Writer} {files : Files} {path : String} {base : List UInt8}
  {onFile inBuffer : List Record}

theorem handOver_of_holds {content : List UInt8} (h : files.Holds path w.place content)
    (ha : w.refused = none) (bytes : List UInt8) :
    ∃ u, w.handOver files bytes = (.ok (), w, u) ∧ u.Holds path w.place (content ++ bytes) := by
  obtain ⟨u, happend, hu⟩ := h.append bytes
  refine ⟨u, ?_, hu⟩
  rw [handOver, ha]
  simp [happend]

theorem Carries.empty (h : w.Carries files path base onFile inBuffer) :
    ∃ u, w.empty files = (.ok (), { w with buffered := [] }, u) ∧
      ({ w with buffered := [] } : Writer).Carries u path base (onFile ++ inBuffer) [] := by
  by_cases hb : w.buffered = []
  · refine ⟨files, ?_, ?_, rfl, h.accepted⟩
    · rw [Writer.empty, hb]
      simp only [List.isEmpty_nil, if_true, Prod.mk.injEq, true_and, and_true]
      rw [← hb]
    · have hlines : linesOf inBuffer = [] := h.buffer ▸ hb
      rw [linesOf_append, hlines, List.append_nil]
      exact h.file
  · obtain ⟨u, hover, hu⟩ := handOver_of_holds h.file h.accepted w.buffered
    refine ⟨u, ?_, ?_, rfl, h.accepted⟩
    · rw [Writer.empty, if_neg (by simpa using hb), hover]
    · rw [linesOf_append, ← h.buffer, ← List.append_assoc]
      exact hu

theorem Carries.collect (h : w.Carries files path base onFile inBuffer) {r : Record}
    (hr : r.isEncodable = true) (hroom : capacity ≤ r.lineBytes.length → inBuffer = []) :
    ∃ w' u onFile' inBuffer', w.collect files r.lineBytes = (.ok (), w', u) ∧
      onFile' ++ inBuffer' = onFile ++ inBuffer ++ [r] ∧ onFile <+: onFile' ∧
      w'.Carries u path base onFile' inBuffer' := by
  unfold Writer.collect
  split_ifs with hlong
  · obtain ⟨u, hover, hu⟩ := handOver_of_holds h.file h.accepted r.lineBytes
    refine ⟨w, u, onFile ++ [r], [], hover, ?_, List.prefix_append _ _, ?_, ?_, h.accepted⟩
    · rw [hroom hlong, List.append_nil, List.append_nil]
    · rw [linesOf_append, linesOf_singleton hr, ← List.append_assoc]
      exact hu
    · rw [h.buffer, hroom hlong]
  · refine ⟨_, files, onFile, inBuffer ++ [r], rfl, ?_, List.prefix_rfl, h.file, ?_, h.accepted⟩
    · rw [List.append_assoc]
    · rw [linesOf_append, linesOf_singleton hr, h.buffer]

theorem Carries.write (h : w.Carries files path base onFile inBuffer) {r : Record}
    (hr : r.isEncodable = true) :
    ∃ w' u onFile' inBuffer', w.write files r.lineBytes = (.ok (), w', u) ∧
      onFile' ++ inBuffer' = onFile ++ inBuffer ++ [r] ∧ onFile <+: onFile' ∧
      w'.Carries u path base onFile' inBuffer' := by
  unfold Writer.write
  split_ifs with hfull
  · obtain ⟨u, hempty, hu⟩ := h.empty
    obtain ⟨w', v, onFile', inBuffer', hcollect, hlists, hmore, hv⟩ := hu.collect hr fun _ => rfl
    refine ⟨w', v, onFile', inBuffer', ?_, ?_, (List.prefix_append _ _).trans hmore, hv⟩
    · rw [hempty]
      exact hcollect
    · rw [hlists, List.append_nil]
  · by_cases hlong : capacity ≤ r.lineBytes.length
    · -- A line that fills the buffer alone is collected only by an empty buffer.
      have hb : w.buffered = [] := List.length_eq_zero_iff.1 (by omega)
      have hlines : linesOf inBuffer = [] := h.buffer ▸ hb
      have hmoved : w.Carries files path base (onFile ++ inBuffer) [] :=
        ⟨by rw [linesOf_append, hlines, List.append_nil]; exact h.file, hb, h.accepted⟩
      obtain ⟨w', v, onFile', inBuffer', hcollect, hlists, hmore, hv⟩ :=
        hmoved.collect hr fun _ => rfl
      exact ⟨w', v, onFile', inBuffer', hcollect, by rw [hlists, List.append_nil],
        (List.prefix_append _ _).trans hmore, hv⟩
    · exact h.collect hr fun hl => absurd hl hlong

theorem Carries.flush (h : w.Carries files path base onFile inBuffer) :
    ∃ w' u, w.flush files = (.ok (), w', u) ∧
      w'.Carries u path base (onFile ++ inBuffer) [] := by
  obtain ⟨u, hempty, hu⟩ := h.empty
  refine ⟨_, u, ?_, hu⟩
  rw [Writer.flush, hempty]
  simp only [h.accepted]

end Writer

/-! ## The writer of a pipeline -/

namespace Pipeline

/-- The file and the buffer hold the lines of records, and the idle buffers are empty. -/
structure Delivers (p : Pipeline) (files : Files) (path : String) (base : List UInt8)
    (onFile inBuffer : List Record) : Prop where
  carries : p.writer.Carries files path base onFile inBuffer
  clean : ∀ b ∈ p.buffers.idle, b.bytes = []

/-- The pipelines differ in what their writers have done only. -/
structure SameQueue (p q : Pipeline) : Prop where
  mode : q.mode = p.mode
  isOpen : q.isOpen = p.isOpen
  queue : q.queue = p.queue
  pending : q.pending = p.pending
  stage : q.stage = p.stage

theorem SameQueue.refl (p : Pipeline) : SameQueue p p := ⟨rfl, rfl, rfl, rfl, rfl⟩

theorem SameQueue.trans {p q r : Pipeline} (h : SameQueue p q) (h' : SameQueue q r) :
    SameQueue p r :=
  ⟨h'.mode.trans h.mode, h'.isOpen.trans h.isOpen, h'.queue.trans h.queue,
    h'.pending.trans h.pending, h'.stage.trans h.stage⟩

theorem sameQueue_writeRecord (p : Pipeline) (files : Files) (r : Record) :
    SameQueue p (p.writeRecord files r).1 := by
  unfold writeRecord
  simp only
  split <;> exact ⟨rfl, rfl, rfl, rfl, rfl⟩

theorem sameQueue_flush (p : Pipeline) (files : Files) : SameQueue p (p.flush files).1 :=
  ⟨rfl, rfl, rfl, rfl, rfl⟩

theorem writeRecords_cons (p : Pipeline) (files : Files) (r : Record) (records : List Record) :
    p.writeRecords files (r :: records) =
      (p.writeRecord files r).1.writeRecords (p.writeRecord files r).2 records := rfl

theorem sameQueue_writeRecords (p : Pipeline) (files : Files) (records : List Record) :
    SameQueue p (p.writeRecords files records).1 := by
  induction records generalizing p files with
  | nil => exact .refl p
  | cons r records ih => exact (sameQueue_writeRecord p files r).trans (ih _ _)

theorem sameQueue_writeBatch (p : Pipeline) (files : Files) :
    SameQueue { p with pending := [] } (p.writeBatch files).1 := by
  unfold writeBatch
  split_ifs with hpending
  · exact ⟨rfl, rfl, rfl, List.isEmpty_iff.1 hpending, rfl⟩
  · exact (sameQueue_writeRecords _ _ _).trans (sameQueue_flush _ _)

variable {p : Pipeline} {files : Files} {path : String} {base : List UInt8}
  {onFile inBuffer taken : List Record}

theorem take_bytes {b : Buffers} (h : ∀ c ∈ b.idle, c.bytes = []) :
    b.take.1.bytes = [] ∧ ∀ c ∈ b.take.2.idle, c.bytes = [] := by
  unfold Buffers.take
  cases hi : b.idle with
  | nil => exact ⟨rfl, h⟩
  | cons c rest =>
      exact ⟨h c (by simp [hi]), fun d hd => h d (by rw [hi]; exact List.mem_cons_of_mem c hd)⟩

theorem give_bytes {b : Buffers} (h : ∀ c ∈ b.idle, c.bytes = []) (buffer : Buffer) :
    ∀ c ∈ (b.give buffer).idle, c.bytes = [] := by
  unfold Buffers.give
  split_ifs
  · intro c hc
    rcases List.mem_cons.1 hc with rfl | hc
    · rfl
    · exact h c hc
  · exact h

theorem Delivers.writeRecord (h : p.Delivers files path base onFile inBuffer) (r : Record) :
    ∃ onFile' inBuffer', onFile' ++ inBuffer' = onFile ++ inBuffer ++ [r] ∧ onFile <+: onFile' ∧
      (p.writeRecord files r).1.summary = Summary.count p.summary r.isEncodable ∧
      (p.writeRecord files r).1.Delivers (p.writeRecord files r).2 path base onFile'
        inBuffer' := by
  obtain ⟨htaken, hrest⟩ := take_bytes h.clean
  unfold Pipeline.writeRecord
  rcases htake : p.buffers.take with ⟨buffer, buffers⟩
  rw [htake] at htaken hrest
  simp only at htaken hrest ⊢
  cases hr : r.isEncodable with
  | true =>
      rw [Record.encodeInto_of_isEncodable hr, htaken, List.nil_append]
      obtain ⟨w', u, onFile', inBuffer', hwrite, hlists, hmore, hcarries⟩ := h.carries.write hr
      simp only [hwrite]
      exact ⟨onFile', inBuffer', hlists, hmore, rfl, hcarries, give_bytes hrest _⟩
  | false =>
      obtain ⟨cause, hcause⟩ := Record.encodeInto_of_not_isEncodable hr buffer.bytes
      simp only [hcause]
      refine ⟨onFile, inBuffer ++ [r], by rw [List.append_assoc], List.prefix_rfl, trivial, ?_,
        give_bytes hrest _⟩
      refine ⟨h.carries.file, ?_, h.carries.accepted⟩
      rw [linesOf_append, linesOf_singleton_of_not hr, List.append_nil]
      exact h.carries.buffer

theorem Delivers.flush (h : p.Delivers files path base onFile inBuffer) :
    (p.flush files).1.Delivers (p.flush files).2 path base (onFile ++ inBuffer) [] := by
  obtain ⟨w', u, hflush, hcarries⟩ := h.carries.flush
  simp only [Pipeline.flush, hflush]
  exact ⟨hcarries, h.clean⟩

theorem Delivers.summary_flush (h : p.Delivers files path base onFile inBuffer) :
    (p.flush files).1.summary = { p.summary with flushes := p.summary.flushes + 1 } := by
  obtain ⟨w', u, hflush, -⟩ := h.carries.flush
  simp only [Pipeline.flush, hflush]
  rfl

theorem Delivers.writeRecords (h : p.Delivers files path base onFile inBuffer)
    (records : List Record) :
    ∃ onFile' inBuffer', onFile' ++ inBuffer' = onFile ++ inBuffer ++ records ∧
      (p.writeRecords files records).1.Delivers (p.writeRecords files records).2 path base onFile'
        inBuffer' := by
  induction records generalizing p files onFile inBuffer with
  | nil => exact ⟨onFile, inBuffer, (List.append_nil _).symm, h⟩
  | cons r records ih =>
      obtain ⟨onFile', inBuffer', hlists, -, -, hdelivers⟩ := h.writeRecord r
      obtain ⟨onFile'', inBuffer'', hlists', hdelivers'⟩ := ih hdelivers
      rw [writeRecords_cons]
      refine ⟨onFile'', inBuffer'', ?_, hdelivers'⟩
      rw [hlists', hlists, List.append_assoc, List.singleton_append]

theorem Delivers.writeBatch (h : p.Delivers files path base onFile inBuffer) :
    ∃ onFile' inBuffer', onFile' ++ inBuffer' = onFile ++ inBuffer ++ p.pending ∧
      (p.writeBatch files).1.Delivers (p.writeBatch files).2 path base onFile' inBuffer' := by
  unfold Pipeline.writeBatch
  split_ifs with hpending
  · rw [List.isEmpty_iff] at hpending
    exact ⟨onFile, inBuffer, by rw [hpending, List.append_nil], h⟩
  · have h' : Delivers { p with pending := [] } files path base onFile inBuffer :=
      ⟨h.carries, h.clean⟩
    obtain ⟨onFile', inBuffer', hlists, hdelivers⟩ := h'.writeRecords p.pending
    exact ⟨onFile' ++ inBuffer', [], by rw [List.append_nil, hlists], hdelivers.flush⟩

/-! ## The steps of the writer -/

/-- A step of the writer of a log. -/
inductive Work where
  /-- The next record comes out of the queue. -/
  | receive
  /-- The tick of an interval. -/
  | tick
  /-- The queue is closed and empty. -/
  | finish
  deriving DecidableEq, Repr

/-- What a step of the writer does; a step that cannot be taken does nothing. -/
def work (p : Pipeline) (files : Files) : Work → Pipeline × Files
  | .receive =>
      match p.stage, p.queue with
      | .running, r :: queue => { p with queue }.receive files r
      | _, _ => (p, files)
  | .tick =>
      match p.stage, p.mode with
      | .running, .interval _ => p.tick files
      | _, _ => (p, files)
  | .finish =>
      match p.stage, p.queue with
      | .running, [] => if p.isOpen then (p, files) else p.finish files
      | _, _ => (p, files)

/-- Some steps of the writer one after the other. -/
def works (p : Pipeline) (files : Files) (steps : List Work) : Pipeline × Files :=
  steps.foldl (fun s step => s.1.work s.2 step) (p, files)

/-- The records taken by the queue are on the file, in the buffer, waiting or in the queue, in this
order; a writer that is finished has left none of them behind. -/
structure Accounts (p : Pipeline) (files : Files) (path : String) (base : List UInt8)
    (taken : List Record) : Prop where
  delivery : ∃ onFile inBuffer, p.Delivers files path base onFile inBuffer ∧
    onFile ++ inBuffer ++ p.pending ++ p.queue = taken ∧ (p.stage = .finished → inBuffer = [])
  waiting : p.mode = .sync → p.pending = []
  finished : p.stage = .finished → p.isOpen = false ∧ p.pending = [] ∧ p.queue = []

theorem Delivers.accounts (h : p.Delivers files path base onFile inBuffer)
    (hlists : onFile ++ inBuffer ++ p.pending ++ p.queue = taken)
    (hwaiting : p.mode = .sync → p.pending = []) (hstage : p.stage ≠ .finished) :
    p.Accounts files path base taken :=
  ⟨⟨onFile, inBuffer, h, hlists, fun hs => absurd hs hstage⟩, hwaiting, fun hs => absurd hs hstage⟩

theorem stage_start_ne_finished (mode : FlushMode) (place : Place) (now : Duration) :
    (start mode place now).stage ≠ .finished := by
  unfold start
  simp only
  split_ifs <;> decide

/-- A pipeline that starts has taken nothing yet. -/
theorem accounts_start {mode : FlushMode} {place : Place} {now : Duration}
    (h : files.Holds path place base) : (start mode place now).Accounts files path base [] := by
  have hdelivers : (start mode place now).Delivers files path base [] [] := by
    refine ⟨⟨?_, rfl, rfl⟩, fun b hb => absurd hb List.not_mem_nil⟩
    rw [linesOf_nil, List.append_nil]
    exact h
  exact hdelivers.accounts rfl (fun _ => rfl) (stage_start_ne_finished mode place now)

/-- The mode of a store interval has its ticks apart, since the empty interval stands for no ticks. -/
theorem ticksApart_ofInterval (storeInterval : Duration) :
    ticksApart (.ofInterval storeInterval) = true := by
  unfold FlushMode.ofInterval
  split_ifs with hzero
  · rfl
  · simpa [ticksApart] using hzero

/-- The writer lives exactly if the clock can show the first tick. -/
theorem stage_start_eq (place : Place) (storeInterval now : Duration) :
    (start (.ofInterval storeInterval) place now).stage =
      if canShow ⟨now.nanos + storeInterval.nanos⟩ then .running else .dead := by
  simp only [start, ticksApart_ofInterval, Bool.and_true]
  by_cases hzero : storeInterval.nanos = 0
  · rw [FlushMode.ofInterval_eq_sync_iff.2 hzero, hzero]
    rfl
  · have hmode : FlushMode.ofInterval storeInterval = .interval storeInterval := by
      simp [FlushMode.ofInterval, Duration.isZero, hzero]
    rw [hmode]

/-- A clock that can show the first tick keeps the writer alive. -/
theorem stage_start (place : Place) {storeInterval now : Duration}
    (h : canShow ⟨now.nanos + storeInterval.nanos⟩ = true) :
    (start (.ofInterval storeInterval) place now).stage = .running := by
  rw [stage_start_eq, if_pos h]

/-- The queue takes records. -/
def Takes (p : Pipeline) : Prop := p.isOpen = true ∧ p.stage ≠ .dead

theorem publish_of_takes (h : p.Takes) (r : Record) :
    p.publish r = (true, { p with queue := p.queue ++ [r] }) := by
  simp [publish, h.1, h.2]

theorem publish_of_not_takes (h : ¬p.Takes) (r : Record) : p.publish r = (false, p) := by
  unfold publish
  split_ifs with hp
  · simp only [Bool.and_eq_true, bne_iff_ne] at hp
    exact absurd hp h
  · rfl

theorem publishAll_of_takes (h : p.Takes) (records : List Record) :
    p.publishAll records = { p with queue := p.queue ++ records } := by
  induction records generalizing p with
  | nil =>
      rw [List.append_nil]
      rfl
  | cons r records ih =>
      have hnext : ((p.publish r).2).Takes := by
        rw [publish_of_takes h]
        exact h
      have hrest := ih hnext
      rw [publishAll, List.foldl_cons]
      refine hrest.trans ?_
      rw [publish_of_takes h]
      simp only [List.append_assoc, List.singleton_append]

theorem publishAll_of_not_takes (h : ¬p.Takes) (records : List Record) :
    p.publishAll records = p := by
  induction records with
  | nil => rfl
  | cons r records ih =>
      rw [publishAll, List.foldl_cons, publish_of_not_takes h]
      exact ih

theorem publish_keeps (p : Pipeline) (r : Record) :
    (p.publish r).2.isOpen = p.isOpen ∧ (p.publish r).2.stage = p.stage ∧
      (p.publish r).2.outcome = p.outcome := by
  unfold publish
  split_ifs <;> exact ⟨rfl, rfl, rfl⟩

theorem isOpen_publishAll (p : Pipeline) (records : List Record) :
    (p.publishAll records).isOpen = p.isOpen := by
  induction records generalizing p with
  | nil => rfl
  | cons r records ih => exact (ih _).trans (publish_keeps p r).1

theorem Accounts.publishAll (h : p.Accounts files path base taken) (htakes : p.Takes)
    (records : List Record) :
    (p.publishAll records).Accounts files path base (taken ++ records) := by
  obtain ⟨onFile, inBuffer, hdelivers, hlists, -⟩ := h.delivery
  have hstage : p.stage ≠ .finished := by
    intro hs
    have hclosed := (h.finished hs).1
    rw [htakes.1] at hclosed
    cases hclosed
  have hdelivers' : Delivers { p with queue := p.queue ++ records } files path base onFile
      inBuffer := ⟨hdelivers.carries, hdelivers.clean⟩
  rw [publishAll_of_takes htakes]
  refine hdelivers'.accounts ?_ h.waiting hstage
  rw [← hlists]
  simp only [List.append_assoc]

theorem Accounts.close (h : p.Accounts files path base taken) :
    p.close.2.Accounts files path base taken := by
  obtain ⟨onFile, inBuffer, hdelivers, hlists, hin⟩ := h.delivery
  exact ⟨⟨onFile, inBuffer, ⟨hdelivers.carries, hdelivers.clean⟩, hlists, hin⟩, h.waiting,
    fun hs => ⟨rfl, (h.finished hs).2⟩⟩

theorem Accounts.receive (h : p.Accounts files path base taken) {r : Record}
    {queue : List Record} (hqueue : p.queue = r :: queue) (hstage : p.stage ≠ .finished) :
    ({ p with queue }.receive files r).1.Accounts ({ p with queue }.receive files r).2 path base
      taken := by
  obtain ⟨onFile, inBuffer, hdelivers, hlists, -⟩ := h.delivery
  have hdelivers' : Delivers { p with queue } files path base onFile inBuffer :=
    ⟨hdelivers.carries, hdelivers.clean⟩
  unfold Pipeline.receive
  split
  next hmode =>
    have hpending := h.waiting hmode
    obtain ⟨onFile', inBuffer', hlists', -, -, hwritten⟩ := hdelivers'.writeRecord r
    have hsame := (sameQueue_writeRecord { p with queue } files r).trans
      (sameQueue_flush _ ({ p with queue }.writeRecord files r).2)
    refine hwritten.flush.accounts ?_ (fun _ => hsame.pending.trans hpending) ?_
    · rw [hsame.pending, hsame.queue, hlists', ← hlists, hqueue]
      simp [hpending]
    · rw [hsame.stage]
      exact hstage
  next period hmode =>
    have hpushed : Delivers { p with queue, pending := p.pending ++ [r] } files path base onFile
        inBuffer := ⟨hdelivers.carries, hdelivers.clean⟩
    refine hpushed.accounts ?_ (fun hsync => ?_) hstage
    · rw [← hlists, hqueue]
      simp
    · rw [show p.mode = .interval period from hmode] at hsync
      cases hsync

/-- A tick writes and flushes what waited for it. -/
theorem Accounts.tick (h : p.Accounts files path base taken) (hstage : p.stage ≠ .finished) :
    (p.tick files).1.Accounts (p.tick files).2 path base taken := by
  obtain ⟨onFile, inBuffer, hdelivers, hlists, -⟩ := h.delivery
  obtain ⟨onFile', inBuffer', hlists', hwritten⟩ := hdelivers.writeBatch
  have hsame := sameQueue_writeBatch p files
  have hdelivers' : (p.tick files).1.Delivers (p.tick files).2 path base onFile' inBuffer' :=
    ⟨hwritten.carries, hwritten.clean⟩
  refine hdelivers'.accounts ?_ (fun _ => hsame.pending) ?_
  · show onFile' ++ inBuffer' ++ (p.writeBatch files).1.pending ++ (p.writeBatch files).1.queue =
      taken
    rw [hsame.pending, hsame.queue, hlists', ← hlists, List.append_nil]
  · show (p.writeBatch files).1.stage ≠ .finished
    rw [hsame.stage]
    exact hstage

theorem Accounts.finish (h : p.Accounts files path base taken) (hopen : p.isOpen = false)
    (hqueue : p.queue = []) :
    (p.finish files).1.Accounts (p.finish files).2 path base taken := by
  obtain ⟨onFile, inBuffer, hdelivers, hlists, -⟩ := h.delivery
  obtain ⟨onFile', inBuffer', hlists', hwritten⟩ := hdelivers.writeBatch
  have hflushed := hwritten.flush
  have hsame := (sameQueue_writeBatch p files).trans
    (sameQueue_flush _ (p.writeBatch files).2)
  have hpending : (p.finish files).1.pending = [] := hsame.pending
  have hempty : (p.finish files).1.queue = [] := hsame.queue.trans hqueue
  refine ⟨⟨onFile' ++ inBuffer', [], ⟨hflushed.carries, hflushed.clean⟩, ?_, fun _ => rfl⟩,
    fun _ => hpending, fun _ => ⟨hsame.isOpen.trans hopen, hpending, hempty⟩⟩
  rw [hpending, hempty, List.append_nil, List.append_nil, List.append_nil, hlists', ← hlists, hqueue,
    List.append_nil]

/-- All that a step of the writer can be. -/
theorem work_cases (p : Pipeline) (files : Files) (step : Work) :
    p.work files step = (p, files) ∨
      p.stage = .running ∧
        ((∃ r queue, p.queue = r :: queue ∧
            p.work files step = { p with queue }.receive files r) ∨
          p.work files step = p.tick files ∨
          p.queue = [] ∧ p.isOpen = false ∧ p.work files step = p.finish files) := by
  cases step with
  | receive =>
      simp only [work]
      split
      next r queue hstage hqueue => exact .inr ⟨hstage, .inl ⟨r, queue, hqueue, rfl⟩⟩
      next => exact .inl rfl
  | tick =>
      simp only [work]
      split
      next hstage _ => exact .inr ⟨hstage, .inr (.inl rfl)⟩
      next => exact .inl rfl
  | finish =>
      simp only [work]
      split
      next hstage hqueue =>
        split_ifs with hopen
        · exact .inl rfl
        · exact .inr ⟨hstage, .inr (.inr ⟨hqueue, by simpa using hopen, rfl⟩)⟩
      next => exact .inl rfl

/-- No step of the writer loses a record. -/
theorem Accounts.work (h : p.Accounts files path base taken) (step : Work) :
    (p.work files step).1.Accounts (p.work files step).2 path base taken := by
  rcases work_cases p files step with hw | ⟨hstage, ⟨r, queue, hqueue, hw⟩ | hw | ⟨hqueue, hopen, hw⟩⟩
  · rw [hw]
    exact h
  · rw [hw]
    exact h.receive hqueue (by rw [hstage]; decide)
  · rw [hw]
    exact h.tick (by rw [hstage]; decide)
  · rw [hw]
    exact h.finish hopen hqueue

theorem Accounts.works (h : p.Accounts files path base taken) (steps : List Work) :
    (p.works files steps).1.Accounts (p.works files steps).2 path base taken := by
  induction steps generalizing p files with
  | nil => exact h
  | cons step steps ih => exact ih (h.work step)

theorem Accounts.holds_of_finished (h : p.Accounts files path base taken)
    (hstage : p.stage = .finished) :
    files.Holds path p.writer.place (base ++ linesOf taken) := by
  obtain ⟨onFile, inBuffer, hdelivers, hlists, hin⟩ := h.delivery
  obtain ⟨-, hpending, hqueue⟩ := h.finished hstage
  rw [hin hstage, hpending, hqueue, List.append_nil, List.append_nil, List.append_nil] at hlists
  rw [← hlists]
  exact hdelivers.carries.file

/-! ## Steps without a tick -/

/-- Writing a record does not look at the queue. -/
theorem setQueue_receive (p : Pipeline) (files : Files) (r : Record) (queue : List Record) :
    ({ p with queue } : Pipeline).receive files r =
      ({ (p.receive files r).1 with queue }, (p.receive files r).2) := by
  have hwrite : ({ p with queue } : Pipeline).writeRecord files r =
      ({ (p.writeRecord files r).1 with queue }, (p.writeRecord files r).2) := by
    unfold writeRecord
    simp only
    split <;> rfl
  unfold receive
  simp only
  split
  · rw [hwrite]
    rfl
  · rfl

theorem receive_keeps (p : Pipeline) (files : Files) (r : Record) :
    (p.receive files r).1.isOpen = p.isOpen ∧ (p.receive files r).1.stage = p.stage ∧
      (p.receive files r).1.queue = p.queue := by
  unfold receive
  split
  · have hsame := (sameQueue_writeRecord p files r).trans
      (sameQueue_flush _ (p.writeRecord files r).2)
    exact ⟨hsame.isOpen, hsame.stage, hsame.queue⟩
  · exact ⟨rfl, rfl, rfl⟩

/-- The queue is emptied one record after the other. -/
theorem receiveAll_eq_works (hstage : p.stage = .running) :
    p.receiveAll files = p.works files (List.replicate p.queue.length .receive) := by
  obtain ⟨queue, hqueue⟩ : ∃ queue, p.queue = queue := ⟨_, rfl⟩
  induction queue generalizing p files with
  | nil =>
      rw [receiveAll, hqueue]
      show ({ p with queue := [] }, files) = (p, files)
      rw [← hqueue]
  | cons r queue ih =>
      have hwork : p.work files .receive = { p with queue }.receive files r := by
        simp only [work, hstage, hqueue]
      have hnext : (p.work files .receive).1.queue = queue := by
        rw [hwork, (receive_keeps _ _ _).2.2]
      have hrunning : (p.work files .receive).1.stage = .running := by
        rw [hwork, (receive_keeps _ _ _).2.1]
        exact hstage
      have hrest : (p.work files .receive).1.receiveAll (p.work files .receive).2 =
          (p.work files .receive).1.works (p.work files .receive).2
            (List.replicate queue.length .receive) := by
        rw [ih hrunning hnext, hnext]
      have hempty : ({ (p.work files .receive).1 with queue := [] },
          (p.work files .receive).2) = ({ p with queue := [] } : Pipeline).receive files r := by
        rw [hwork, setQueue_receive p files r queue, setQueue_receive p files r []]
      rw [receiveAll, hnext, hempty] at hrest
      rw [receiveAll, hqueue, List.foldl_cons]
      exact hrest

theorem queue_receiveAll (p : Pipeline) (files : Files) : (p.receiveAll files).1.queue = [] := by
  have hfold (records : List Record) (s : Pipeline × Files) (hs : s.1.queue = []) :
      (records.foldl (fun s r => s.1.receive s.2 r) s).1.queue = [] := by
    induction records generalizing s with
    | nil => exact hs
    | cons r records ih => exact ih _ ((receive_keeps s.1 s.2 r).2.2.trans hs)
  exact hfold p.queue _ rfl

theorem isOpen_work (p : Pipeline) (files : Files) (step : Work) :
    (p.work files step).1.isOpen = p.isOpen := by
  rcases work_cases p files step with hw | ⟨-, ⟨r, queue, -, hw⟩ | hw | ⟨-, -, hw⟩⟩
  · rw [hw]
  · rw [hw, (receive_keeps _ _ _).1]
  · rw [hw]
    exact (sameQueue_writeBatch p files).isOpen
  · rw [hw]
    exact (sameQueue_writeBatch p files).isOpen

/-- The writer goes on as long as the queue is open. -/
theorem stage_work_of_isOpen (hopen : p.isOpen = true) (step : Work) :
    (p.work files step).1.stage = p.stage := by
  rcases work_cases p files step with hw | ⟨hstage, ⟨r, queue, hqueue, hw⟩ | hw | ⟨-, hclosed, -⟩⟩
  · rw [hw]
  · rw [hw, (receive_keeps _ _ _).2.1]
  · rw [hw]
    exact (sameQueue_writeBatch p files).stage
  · rw [hopen] at hclosed
    cases hclosed

/-- A step of the writer takes records from the front of the queue only. -/
theorem queue_work (p : Pipeline) (files : Files) (step : Work) :
    ∃ received, p.queue = received ++ (p.work files step).1.queue := by
  rcases work_cases p files step with hw | ⟨-, ⟨r, queue, hqueue, hw⟩ | hw | ⟨-, -, hw⟩⟩
  · exact ⟨[], by rw [hw, List.nil_append]⟩
  · exact ⟨[r], by rw [hw, (receive_keeps _ _ _).2.2, hqueue, List.singleton_append]⟩
  · refine ⟨[], ?_⟩
    rw [hw, List.nil_append]
    exact (sameQueue_writeBatch p files).queue.symm
  · refine ⟨[], ?_⟩
    rw [hw, List.nil_append]
    exact (sameQueue_writeBatch p files).queue.symm

/-- The writer does not die of a step. -/
theorem stage_work_ne_dead (hstage : p.stage ≠ .dead) (step : Work) :
    (p.work files step).1.stage ≠ .dead := by
  rcases work_cases p files step with hw | ⟨-, ⟨r, queue, -, hw⟩ | hw | ⟨-, -, hw⟩⟩
  · rw [hw]
    exact hstage
  · rw [hw, (receive_keeps _ _ _).2.1]
    exact hstage
  · rw [hw]
    show (p.writeBatch files).1.stage ≠ .dead
    rw [(sameQueue_writeBatch p files).stage]
    exact hstage
  · rw [hw]
    exact Stage.noConfusion

/-- A writer that has come to its end does nothing more. -/
theorem work_of_outcome {result : Except Failure Summary} (h : p.outcome = some result)
    (step : Work) : p.work files step = (p, files) := by
  rcases work_cases p files step with hw | ⟨hstage, -⟩
  · exact hw
  · rw [outcome, hstage] at h
    cases h

theorem isOpen_works (p : Pipeline) (files : Files) (steps : List Work) :
    (p.works files steps).1.isOpen = p.isOpen := by
  induction steps generalizing p files with
  | nil => rfl
  | cons step steps ih => exact (ih _ _).trans (isOpen_work p files step)

theorem Accounts.settle (h : p.Accounts files path base taken) :
    (p.settle files).1.Accounts (p.settle files).2 path base taken := by
  unfold Pipeline.settle
  split
  next hstage =>
    have hreceived := h.works (List.replicate p.queue.length .receive)
    rw [← receiveAll_eq_works hstage] at hreceived
    simp only
    split_ifs with hopen
    · exact hreceived
    · exact hreceived.finish (by simpa using hopen) (queue_receiveAll p files)
  next => exact h

/-- Once the queue is closed, the writer finishes without another tick. -/
theorem stage_settle (hstage : p.stage = .running) (hopen : p.isOpen = false) :
    (p.settle files).1.stage = .finished := by
  have hclosed := isOpen_works p files (List.replicate p.queue.length .receive)
  rw [← receiveAll_eq_works hstage, hopen] at hclosed
  simp only [Pipeline.settle, hstage, hclosed]
  rfl

end Pipeline

end MetricLedger.Log
