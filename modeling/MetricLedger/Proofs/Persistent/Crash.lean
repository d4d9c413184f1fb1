import MetricLedger.Proofs.Log.Modes
import MetricLedger.Proofs.Persistent.Calls

/-!
# Stopping at any moment

Calls on a ledger, the records they put into the queue one by one, and the parts of the steps of the
writer come in any order, and the program is stopped after any of them. Main statement:
`restore_of_stopped`, the file then leads to the ledger after some first part of what was applied, and
this part contains everything that was received before the last round of the writer came to its end.
-/

namespace MetricLedger

open Log

/-- An open ledger, and its log on its way. -/
structure Live where
  ledger : Ledger
  course : Course
  /-- The records that the call under way has still to put into the queue. -/
  sending : List Record
  /-- The records applied so far. -/
  applied : List Record

namespace Live

inductive Event where
  /-- A call applies its writes. It holds the ledger until their records are in the queue. -/
  | call (c : Call)
  | send
  | close
  | begin (work : Pipeline.Work)
  | proceed

/-- A ledger that was just opened. -/
def opened (p : Persistent) (files : Files) : Live := ⟨p.ledger, .opened p.log files, [], []⟩

/-- The ledger as the program sees it. -/
def persistent (x : Live) (path : String) : Persistent := ⟨x.ledger, x.course.log, path, true⟩

def apply (x : Live) (c : Call) : Live :=
  { x with
    ledger := (c.effect x.ledger).2
    sending := (c.effect x.ledger).1
    applied := x.applied ++ (c.effect x.ledger).1 }

/-- An event whose turn it is not does nothing. -/
def step (x : Live) : Event → Live
  | .call c => if x.sending.isEmpty && x.course.log.isOpen then x.apply c else x
  | .send =>
      match x.sending with
      | [] => x
      | r :: rest => { x with course := x.course.step (.dump r), sending := rest }
  | .close => if x.sending.isEmpty then { x with course := x.course.step .close } else x
  | .begin work => { x with course := x.course.step (.begin work) }
  | .proceed => { x with course := x.course.step .proceed }

def run (x : Live) (events : List Event) : Live := events.foldl step x

variable {x : Live} {path : String} {base : List UInt8} {start : Ledger}

/-! ## Calls in parts -/

/-- The records of a call are put into the queue one by one. -/
theorem run_sends (x : Live) (path : String) :
    (x.run (List.replicate x.sending.length .send)).persistent path =
        { x.persistent path with log := x.course.log.publishAll x.sending } ∧
      (x.run (List.replicate x.sending.length .send)).sending = [] := by
  obtain ⟨records, hrecords⟩ : ∃ records, x.sending = records := ⟨_, rfl⟩
  rw [hrecords]
  induction records generalizing x with
  | nil => exact ⟨rfl, hrecords⟩
  | cons r records ih =>
      have hstep : x.step .send =
          { x with course := x.course.step (.dump r), sending := records } := by
        simp only [step, hrecords]
      obtain ⟨hrest, hsent⟩ := ih (x.step .send) (by rw [hstep])
      refine ⟨hrest.trans ?_, hsent⟩
      rw [hstep]
      rfl

/-- The parts of a call come to the call. -/
theorem call_settles (hsending : x.sending = []) (c : Call) :
    ∃ n, (x.run (.call c :: List.replicate n .send)).sending = [] ∧
      (x.run (.call c :: List.replicate n .send)).persistent path =
        ((x.persistent path).perform c).2 := by
  by_cases hopen : x.course.log.isOpen = true
  · have hstep : x.step (.call c) = x.apply c := by simp [step, hsending, hopen]
    obtain ⟨hsent, hempty⟩ := (x.apply c).run_sends path
    refine ⟨(x.apply c).sending.length, ?_, ?_⟩
    · show ((x.step (.call c)).run _).sending = []
      rw [hstep]
      exact hempty
    · show ((x.step (.call c)).run _).persistent path = _
      rw [hstep, hsent, Persistent.perform_of_isOpen (p := x.persistent path) hopen]
      rfl
  · rw [Bool.not_eq_true] at hopen
    have hstep : x.step (.call c) = x := by simp [step, hopen]
    refine ⟨0, ?_, ?_⟩
    · show (x.step (.call c)).sending = []
      rw [hstep, hsending]
    · show (x.step (.call c)).persistent path = _
      rw [hstep, Persistent.perform_of_closed (p := x.persistent path) hopen]

/-! ## The invariant -/

/-- What was applied was dumped or is still to be sent, and led to the ledger; nothing is sent to a
queue that was closed. -/
structure Sound (x : Live) (path : String) (base : List UInt8) (start : Ledger) : Prop where
  course : x.course.Tracks path base
  sent : x.course.log.stage ≠ .dead ∧ x.course.dumped ++ x.sending = x.applied ∨
    x.course.log.stage = .dead ∧ x.course.dumped = []
  ledger : start.replay x.applied = .ok x.ledger
  closed : x.course.log.isOpen = false → x.sending = []

theorem Sound.dumped_prefix_applied (h : x.Sound path base start) :
    x.course.dumped <+: x.applied := by
  rcases h.sent with ⟨-, hsent⟩ | ⟨-, hdumped⟩
  · exact ⟨x.sending, hsent⟩
  · rw [hdumped]
    exact List.nil_prefix

theorem Sound.rest_of_dead (h : x.Sound path base start) (hdead : x.course.log.stage = .dead) :
    x.course.task = .rest := by
  cases htask : x.course.task with
  | rest => rfl
  | busy records round =>
      have hrunning := (h.course.busy records round htask).running
      rw [hdead] at hrunning
      cases hrunning

theorem Sound.apply (h : x.Sound path base start) (hsending : x.sending = [])
    (hopen : x.course.log.isOpen = true) (c : Call) : (x.apply c).Sound path base start := by
  refine ⟨h.course, ?_, ?_, fun hclosed => ?_⟩
  · rcases h.sent with ⟨halive, hsent⟩ | hdead
    · refine .inl ⟨halive, ?_⟩
      rw [hsending, List.append_nil] at hsent
      show x.course.dumped ++ (c.effect x.ledger).1 = x.applied ++ (c.effect x.ledger).1
      rw [hsent]
    · exact .inr hdead
  · show start.replay (x.applied ++ (c.effect x.ledger).1) = .ok (c.effect x.ledger).2
    rw [Ledger.replay_append_of h.ledger]
    exact Call.replay_effect c x.ledger
  · rw [show x.course.log.isOpen = false from hclosed] at hopen
    cases hopen

/-- A record goes into the queue as long as that is open. -/
theorem Sound.send (h : x.Sound path base start) {r : Record} {rest : List Record}
    (hsending : x.sending = r :: rest) :
    ({ x with course := x.course.step (.dump r), sending := rest } : Live).Sound path base
      start := by
  have hopen : x.course.log.isOpen = true := by
    by_contra hclosed
    have hempty := h.closed (by simpa using hclosed)
    rw [hempty] at hsending
    cases hsending
  refine ⟨h.course.step (.dump r), ?_, h.ledger, fun hclosed => ?_⟩
  · rcases h.sent with ⟨halive, hsent⟩ | ⟨hdead, hdumped⟩
    · refine .inl ⟨Course.alive_step halive (.dump r), ?_⟩
      rcases x.course.dump_cases r with ⟨-, hd⟩ | ⟨hnot, -⟩
      · show (x.course.dump r).dumped ++ rest = x.applied
        rw [hd, ← hsent, hsending, List.append_assoc, List.singleton_append]
      · exact absurd ⟨hopen, halive⟩ hnot
    · obtain ⟨-, hdead', hdumped'⟩ :=
        Course.step_of_dead (h.rest_of_dead hdead) hdead (.dump r)
      exact .inr ⟨hdead', hdumped'.trans hdumped⟩
  · have hsame : (x.course.dump r).log.isOpen = x.course.log.isOpen :=
      (Pipeline.publish_keeps x.course.log r).1
    exact absurd (hsame.symm.trans hclosed) (by rw [hopen]; decide)

/-- A step of the log that neither takes a record nor opens the queue goes unnoticed. -/
theorem Sound.ofStep (h : x.Sound path base start) {e : Course.Event}
    (hdumped : (x.course.step e).dumped = x.course.dumped)
    (hclosed : (x.course.step e).log.isOpen = false → x.sending = []) :
    ({ x with course := x.course.step e } : Live).Sound path base start := by
  refine ⟨h.course.step e, ?_, h.ledger, hclosed⟩
  rcases h.sent with ⟨halive, hsent⟩ | ⟨hdead, hnone⟩
  · refine .inl ⟨Course.alive_step halive e, ?_⟩
    show (x.course.step e).dumped ++ x.sending = x.applied
    rw [hdumped, hsent]
  · obtain ⟨-, hdead', -⟩ := Course.step_of_dead (h.rest_of_dead hdead) hdead e
    exact .inr ⟨hdead', hdumped.trans hnone⟩

theorem Sound.step (h : x.Sound path base start) (e : Event) : (x.step e).Sound path base start := by
  have hown {e : Course.Event} (he : e.isOwn = true) :
      ({ x with course := x.course.step e } : Live).Sound path base start := by
    have hkeeps := x.course.keeps_step he
    exact h.ofStep hkeeps.dumped fun hclosed => h.closed (hkeeps.isOpen.symm.trans hclosed)
  cases e with
  | call c =>
      simp only [Live.step]
      split_ifs with hadmitted
      · obtain ⟨hsending, hopen⟩ := Bool.and_eq_true_iff.1 hadmitted
        exact h.apply (List.isEmpty_iff.1 hsending) hopen c
      · exact h
  | send =>
      simp only [Live.step]
      split
      next => exact h
      next r rest hsending => exact h.send hsending
  | close =>
      simp only [Live.step]
      split_ifs with hsending
      · exact h.ofStep rfl fun _ => List.isEmpty_iff.1 hsending
      · exact h
  | begin work => exact hown rfl
  | proceed => exact hown rfl

theorem sound_run (h : x.Sound path base start) (events : List Event) :
    (x.run events).Sound path base start := by
  induction events generalizing x with
  | nil => exact h
  | cons e events ih => exact ih (h.step e)

theorem sound_opened {p : Persistent} {tree : Files} {mode : FlushMode} {place : Place}
    {now : Duration} (hlog : p.log = .start mode place now) (hholds : tree.Holds path place base) :
    (opened p tree).Sound path base p.ledger := by
  refine ⟨?_, ?_, rfl, fun _ => rfl⟩
  · have htracks := (Course.tracks_of_holds hholds mode now).1
    rw [← hlog] at htracks
    exact htracks
  · by_cases hdead : p.log.stage = .dead
    · exact .inr ⟨hdead, rfl⟩
    · exact .inl ⟨hdead, rfl⟩

/-! ## Stopping -/

/-- What is on the file was written, what was written was dumped, and what was dumped was applied. -/
theorem Sound.onFile_prefix_applied (h : x.Sound path base start)
    {landed onFile inBuffer : List Record} (hl : x.course.Landed path base landed onFile inBuffer) :
    onFile <+: x.applied := by
  refine List.IsPrefix.trans ?_ h.dumped_prefix_applied
  rw [← h.course.dumped, Course.received, ← hl.written]
  simp only [List.append_assoc]
  exact List.prefix_append _ _

/-- The records on a file that was left lead from the ledger at the start to the one restored. -/
theorem restores_of_holds {left : Files} {place : Place} {before kept : List Record} {l : Ledger}
    (hholds : left.Holds path place (base ++ linesOf kept)) (hcomplete : IsComplete base)
    (hread : readContent path base = .ok before) (hbefore : Ledger.empty.replay before = .ok start)
    (hkept : start.replay (encodable kept) = .ok l) :
    readFile left path = .ok (before ++ encodable kept) ∧
      Persistent.restoreLedger left path = .ok l := by
  have hfile : readFile left path = .ok (before ++ encodable kept) := by
    rw [readFile_of_holds hholds]
    exact readContent_append_linesOf hcomplete hread kept
  refine ⟨hfile, ?_⟩
  rw [Persistent.restoreLedger_of_readFile hfile, Ledger.replay_append_of hbefore, hkept]
  rfl

end Live

open Live in
/-- A ledger is opened from its log, is called and closed while the records it sends and the parts of
the steps of the writer come in any order, and is stopped after any of them, when the bytes handed
over last have reached the file or not. The file is then read as what it was read as before, followed
by a first part of the records that were applied, without those that have no line; the part contains
what was received before the last round of the writer came to its end, and all that was written if the
writer is at rest. Restoring leads to the ledger at the opening after this part. -/
theorem restore_of_stopped {files tree : Files} {path : String} {base : List UInt8}
    {storeInterval now : Duration} {p : Persistent} (hready : Ready files path base)
    (hcomplete : IsComplete base)
    (hopen : Persistent.openAt files path storeInterval true now = (.ok p, tree))
    (events : List Event) :
    ∃ before, readContent path base = .ok before ∧ Ledger.empty.replay before = .ok p.ledger ∧
      p.ledger.replay ((opened p tree).run events).applied =
        .ok ((opened p tree).run events).ledger ∧
      ∀ left ∈ [((opened p tree).run events).course.files,
          ((opened p tree).run events).course.settled],
        ∃ kept l, kept <+: ((opened p tree).run events).applied ∧
          ((opened p tree).run events).course.safe <+: kept ∧
          (((opened p tree).run events).course.task = .rest →
            kept = ((opened p tree).run events).course.written) ∧
          readFile left path = .ok (before ++ encodable kept) ∧
          p.ledger.replay (encodable kept) = .ok l ∧
          Persistent.restoreLedger left path = .ok l := by
  obtain ⟨-, before, hread, hbefore⟩ := Persistent.restoreLedger_of_openAt hopen
  rw [hready.reads] at hread
  obtain ⟨place, hfile, hlog, -⟩ := Persistent.openAt_ok hopen
  have hholds := hready.holds_of_openFile hfile
  have hsound := sound_run (sound_opened hlog hholds) events
  have hledger := hsound.ledger
  obtain ⟨landed, onFile, inBuffer, hl⟩ := hsound.course.landing
  have honFile := hsound.onFile_prefix_applied hl
  have hrestores {left : Files} {place : Place} {kept : List Record}
      (hkept : kept <+: ((opened p tree).run events).applied)
      (hleft : left.Holds path place (base ++ linesOf kept)) :
      ∃ l, readFile left path = .ok (before ++ encodable kept) ∧
        p.ledger.replay (encodable kept) = .ok l ∧
        Persistent.restoreLedger left path = .ok l := by
    obtain ⟨more, hmore⟩ := hkept
    rw [← hmore] at hledger
    obtain ⟨k, hk, -⟩ := Ledger.replay_of_append hledger
    obtain ⟨l, hl, -⟩ := Ledger.replay_encodable rfl hk
    obtain ⟨hfile, hrestored⟩ := restores_of_holds hleft hcomplete hread hbefore hl
    exact ⟨l, hfile, hl, hrestored⟩
  refine ⟨before, hread, hbefore, hledger, fun left hleft => ?_⟩
  rw [List.mem_pair] at hleft
  rcases hleft with rfl | rfl
  · obtain ⟨l, hl'⟩ := hrestores honFile hl.delivers.carries.file
    exact ⟨onFile, l, honFile, hl.safe.trans hl.arrived,
      fun hrest => (hl.onFile_of_rest hrest).1, hl'⟩
  · obtain ⟨place', hsettled⟩ := hl.settled
    obtain ⟨l, hl'⟩ := hrestores (hl.arrived.trans honFile) hsettled
    exact ⟨landed, l, hl.arrived.trans honFile, hl.safe, hl.rest, hl'⟩

open Live in
/-- Three records of two calls. The first one is written and flushed, and the writer stops when it has
the batch of the others in hand. -/
def sampleCrash : List Event := [
  .call (.write (.counter "a" 1)), .send, .begin .receive, .begin .tick, .proceed, .proceed,
  .call (.batch [.ofRecord (.counter "a" 2), .ofRecord (.gauge "g" ⟨0⟩)]), .send,
  .begin .receive, .send, .begin .receive, .begin .tick]

open Live in
/-- A log in the working directory, stopped after `sampleCrash`: the file is read as a first part of
what was applied that has the record flushed in it. -/
theorem restore_of_stopped_sampleCrash :
    ∃ p tree, Persistent.openAt .empty "m" (.ofSeconds 1) true ⟨0⟩ = (.ok p, tree) ∧
      ((opened p tree).run sampleCrash).applied =
        [.counter "a" 1, .counter "a" 2, .gauge "g" ⟨0⟩] ∧
      ∃ kept l, [.counter "a" 1] <+: kept ∧ kept <+: ((opened p tree).run sampleCrash).applied ∧
        p.ledger.replay (encodable kept) = .ok l ∧
        Persistent.restoreLedger ((opened p tree).run sampleCrash).course.files "m" = .ok l := by
  have hfile : Pipeline.openFile .empty "m" =
      (.ok ["work", "m"], (Pipeline.openFile .empty "m").2) := Prod.ext (by cbv) rfl
  have hready : Ready .empty "m" [] := ready_of_absent hfile (by decide)
  have hopen : Persistent.openAt .empty "m" (.ofSeconds 1) true ⟨0⟩ =
      (.ok ⟨.empty, .start (.interval (.ofSeconds 1)) ["work", "m"] ⟨0⟩, "m", true⟩,
        (Pipeline.openFile .empty "m").2) := by cbv
  obtain ⟨before, -, -, -, hleft⟩ := restore_of_stopped hready isComplete_nil hopen sampleCrash
  obtain ⟨kept, l, hkept, hsafe, -, -, hl, hrestored⟩ := hleft _ List.mem_cons_self
  obtain ⟨happlied, hflushed⟩ :
      ((opened ⟨.empty, .start (.interval (.ofSeconds 1)) ["work", "m"] ⟨0⟩, "m", true⟩
          (Pipeline.openFile .empty "m").2).run sampleCrash).applied =
        [.counter "a" 1, .counter "a" 2, .gauge "g" ⟨0⟩] ∧
      ((opened ⟨.empty, .start (.interval (.ofSeconds 1)) ["work", "m"] ⟨0⟩, "m", true⟩
          (Pipeline.openFile .empty "m").2).run sampleCrash).course.safe = [.counter "a" 1] := by
    decide +kernel
  rw [hflushed] at hsafe
  exact ⟨_, _, hopen, happlied, kept, l, hsafe, hkept, hl, hrestored⟩

end MetricLedger
