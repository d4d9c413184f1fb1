import Mathlib.Tactic
import MetricLedger.Proofs.Ledger.Sums
import MetricLedger.Proofs.Log.Reading
import MetricLedger.Proofs.Persistent.Appending
import MetricLedger.Proofs.Session.Frame

/-!
# Restoring a log

A log is restored to a ledger in memory as a whole or not at all, whatever the ledger held before,
and no file is written for it. Main statement: `restore_isWhole`.
-/

namespace MetricLedger

variable {τ : Type} (server : Relational.Server τ) {files : Files} {path : String} {l m : Ledger}
  {records : List Record}

namespace Storage

/-! ## The answers -/

theorem runBatch_memory_of_replay (h : l.replay records = .ok m) (t : τ) :
    runBatch server (records.map Op.ofRecord) (.memory l) t = (.ok (), .memory m, t) := by
  rw [runBatch, Batch.run_ofRecord h]
  rfl

theorem runBatch_memory_of_replay_error {f : Failure} (h : l.replay records = .error f) (t : τ) :
    runBatch server (records.map Op.ofRecord) (.memory l) t = (.error f.aborted, .memory l, t) := by
  rw [runBatch, Batch.run_ofRecord_error h]
  rfl

theorem restore_of_replay (hread : Log.readFile files path = .ok records)
    (hreplay : l.replay records = .ok m) (t : τ) :
    restore server files path (.memory l) t = (.ok records.length, .memory m, t) := by
  cases records with
  | nil =>
      obtain rfl := Except.ok.inj hreplay
      simp only [restore, hread, List.length_nil]
  | cons r rest =>
      simp only [restore, hread, runBatch_memory_of_replay server hreplay]
      rfl

theorem restore_of_replay_error {f : Failure} (hread : Log.readFile files path = .ok records)
    (hreplay : l.replay records = .error f) (t : τ) :
    restore server files path (.memory l) t = (.error f.aborted, .memory l, t) := by
  cases records with
  | nil => cases hreplay
  | cons r rest =>
      simp only [restore, hread, runBatch_memory_of_replay_error server hreplay]
      rfl

theorem restore_of_readFile_error {f : Failure} (hread : Log.readFile files path = .error f)
    (t : τ) : restore server files path (.memory l) t = (.error f, .memory l, t) := by
  simp only [restore, hread]

/-- A log is restored as a whole, if it can be read and its records can be replayed, or not at all. -/
theorem restore_memory (files : Files) (path : String) (l : Ledger) (t : τ) :
    (∃ records m, Log.HasRecords files path records ∧ l.replay records = .ok m ∧
      restore server files path (.memory l) t = (.ok records.length, .memory m, t)) ∨
    (∃ f, restore server files path (.memory l) t = (.error f, .memory l, t) ∧
      ∀ records, Log.HasRecords files path records → ¬l.Fits records) := by
  cases hread : Log.readFile files path with
  | error f =>
      refine .inr ⟨f, restore_of_readFile_error server hread t, fun records hrecords => ?_⟩
      rw [Log.readFile_ok_iff.2 hrecords] at hread
      cases hread
  | ok records =>
      cases hreplay : l.replay records with
      | ok m =>
          exact .inl ⟨records, m, Log.readFile_ok_iff.1 hread, hreplay,
            restore_of_replay server hread hreplay t⟩
      | error f =>
          refine .inr ⟨f.aborted, restore_of_replay_error server hread hreplay t, ?_⟩
          intro records' hrecords hfits
          rw [Log.readFile_ok_iff.2 hrecords, Except.ok.injEq] at hread
          obtain ⟨m, hm⟩ := Ledger.exists_replay_iff.2 hfits
          rw [hread, hreplay] at hm
          cases hm

end Storage

namespace Persistent

/-! ## Opening -/

/-- A ledger is opened from its log only if an empty ledger can be restored from it, and then it is
opened as that ledger. -/
theorem restoreLedger_cases (files : Files) (path : String) (t : τ) :
    (∃ f, (Storage.restore server files path (.memory .empty) t).1 = .error f ∧
      restoreLedger files path = .error f) ∨
    (∃ n m, Storage.restore server files path (.memory .empty) t = (.ok n, .memory m, t) ∧
      restoreLedger files path = .ok m) := by
  cases hread : Log.readFile files path with
  | error f =>
      refine .inl ⟨f, by rw [Storage.restore_of_readFile_error server hread], ?_⟩
      simp only [restoreLedger, hread]
      rfl
  | ok records =>
      rw [restoreLedger_of_readFile hread]
      cases hreplay : Ledger.empty.replay records with
      | error f =>
          exact .inl ⟨f.aborted,
            by rw [Storage.restore_of_replay_error server hread hreplay], rfl⟩
      | ok m => exact .inr ⟨_, m, Storage.restore_of_replay server hread hreplay t, rfl⟩

theorem openAt_of_restoreLedger_error {f : Failure} (h : restoreLedger files path = .error f)
    (storeInterval now : Duration) :
    openAt files path storeInterval true now = (.error f, files) := by
  simp only [openAt, if_true, h]

end Persistent

/-! ## Sessions -/

/-- While a log is restored to a ledger in memory, the files become what the writers of other logs
make of them. -/
theorem Session.files_restore {s : Session τ} {name : String} {isLog : Bool}
    (hthere : s.storage? name = some ⟨.memory l, isLog⟩) (path : String) :
    (s.restore server name path).2.files = s.pause.settle.files := by
  have hpause := Session.storage?_pause hthere rfl
  have hmemory : ∃ m, (Storage.restore server s.pause.files path (.memory l) s.pause.server).2 =
      (.memory m, s.pause.server) := by
    obtain ⟨records, m, -, -, h⟩ | ⟨f, h, -⟩ :=
      Storage.restore_memory server s.pause.files path l s.pause.server
    · exact ⟨m, by rw [h]⟩
    · exact ⟨l, by rw [h]⟩
  obtain ⟨m, hm⟩ := hmemory
  simp only [restore, onStorage, hpause, hm]
  rw [Session.settle_withStorage hpause rfl rfl]
  rfl

/-! ## Restoring -/

/-- A log is restored to any ledger in memory as a whole, one record for each line that is not blank,
or the restoring fails and the ledger is what it was. It succeeds exactly if every such line is the
text of a record and no sum on the way leaves the bits of a counter. No file is written for it, and a
log that is refused is not opened. -/
theorem restore_isWhole (files : Files) (path : String) (l : Ledger) (t : τ) :
    ((∃ content records m, Log.logBytes files path = .ok content ∧
        List.Forall₂ Log.Tells (Log.filledLines content) records ∧ l.replay records = .ok m ∧
        Storage.restore server files path (.memory l) t =
          (.ok (Log.filledLines content).length, .memory m, t)) ∨
      ∃ f, Storage.restore server files path (.memory l) t = (.error f, .memory l, t)) ∧
    ((∃ n, (Storage.restore server files path (.memory l) t).1 = .ok n) ↔
      ∃ records, Log.HasRecords files path records ∧ l.Fits records) ∧
    ((∃ f, (Storage.restore server files path (.memory .empty) t).1 = .error f ∧
        ∀ storeInterval now,
          Persistent.openAt files path storeInterval true now = (.error f, files)) ∨
      ∃ n m, Storage.restore server files path (.memory .empty) t = (.ok n, .memory m, t) ∧
        ∀ storeInterval now p tree,
          Persistent.openAt files path storeInterval true now = (.ok p, tree) → p.ledger = m) ∧
    ∀ (s : Session τ) (name : String) (isLog : Bool),
      s.storage? name = some ⟨.memory l, isLog⟩ →
        (s.restore server name path).2.files = s.pause.settle.files := by
  refine ⟨?_, ?_, ?_, fun s name isLog hthere => Session.files_restore server hthere path⟩
  · obtain ⟨records, m, ⟨content, hcontent, htells⟩, hreplay, h⟩ | ⟨f, h, -⟩ :=
      Storage.restore_memory server files path l t
    · rw [← htells.length_eq] at h
      exact .inl ⟨content, records, m, hcontent, htells, hreplay, h⟩
    · exact .inr ⟨f, h⟩
  · obtain ⟨records, m, hrecords, hreplay, h⟩ | ⟨f, h, hnone⟩ :=
      Storage.restore_memory server files path l t
    · rw [h]
      exact iff_of_true ⟨_, rfl⟩ ⟨records, hrecords, Ledger.exists_replay_iff.1 ⟨m, hreplay⟩⟩
    · rw [h]
      refine iff_of_false (fun ⟨n, hn⟩ => by cases hn) ?_
      rintro ⟨records, hrecords, hfits⟩
      exact hnone records hrecords hfits
  · obtain ⟨f, h, hrefused⟩ | ⟨n, m, h, hrestored⟩ :=
      Persistent.restoreLedger_cases server files path t
    · exact .inl ⟨f, h, Persistent.openAt_of_restoreLedger_error hrefused⟩
    · refine .inr ⟨n, m, h, fun storeInterval now p tree hopen => ?_⟩
      have hledger := (Persistent.restoreLedger_of_openAt hopen).1
      exact Except.ok.inj (hledger.symm.trans hrestored)

/-- A ledger with a counter that cannot take more. -/
def fullLedger : Ledger := ⟨Table.empty.insert "a" Int64.maxValue, Table.empty⟩

/-- A log that writes another metric first. -/
def fillingLog : List Record := [.gauge "g" ⟨0x3ff0000000000000⟩, .counter "a" 1]

/-- A database that is not asked. -/
def silentServer : Relational.Server Unit := ⟨fun _ t => (.ok (), t), fun _ t => (.ok [], t)⟩

/-- The log is refused at its second record, and the first one leaves no trace. -/
theorem restore_isWhole_fullLedger :
    (∃ f, Storage.restore silentServer (withLog (Log.linesOf fillingLog)) "m"
      (.memory fullLedger) () = (.error f, .memory fullLedger, ())) ∧
    ∃ s : Session Unit, s.storage? "s" = some ⟨.memory fullLedger, false⟩ ∧
      (s.restore silentServer "s" "m").2.files = s.pause.settle.files := by
  have hread : Log.readFile (withLog (Log.linesOf fillingLog)) "m" = .ok fillingLog := by
    rw [(ready_withLog _).reads]
    exact readContent_linesOf "m" fillingLog
  have hfull : ¬fullLedger.Fits fillingLog := fun hfits =>
    absurd (hfits "a" fillingLog (List.prefix_refl _)) (by decide +kernel)
  obtain ⟨hwhole, -, -, hfiles⟩ :=
    restore_isWhole silentServer (withLog (Log.linesOf fillingLog)) "m" fullLedger ()
  refine ⟨?_, (Session.start .empty ()).withStorage "s" ⟨.memory fullLedger, false⟩, rfl, ?_⟩
  · obtain ⟨content, records, m, hcontent, htells, hreplay, -⟩ | hrefused := hwhole
    · have hrecords := Log.readFile_ok_iff.2 ⟨content, hcontent, htells⟩
      rw [hread, Except.ok.injEq] at hrecords
      rw [← hrecords] at hreplay
      exact absurd (Ledger.exists_replay_iff.1 ⟨m, hreplay⟩) hfull
    · exact hrefused
  · exact hfiles _ "s" false rfl

end MetricLedger
