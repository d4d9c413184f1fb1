import Mathlib
import MetricLedger.CommandLine.Program
import MetricLedger.Proofs.Json.Indented
import MetricLedger.Proofs.Ledger.Account
import MetricLedger.Proofs.Persistent.Interval
import MetricLedger.Proofs.Record.Normal
import MetricLedger.Proofs.Storage.Restore

/-!
# Looking at a log

A log is looked at by opening a ledger on it, printing what the ledger holds, and closing it again.
Main statement: `inspect_isFaithful`, what is printed reads as the sums and the last numbers of the
records, each once and in the order of the names, and nothing is written to the log.
-/

namespace MetricLedger

/-! ## The order of the names -/

namespace Storage

section Sorting

variable {α : Type} (name : α → String) {l m : List α}

theorem pairwise_le_mergeSort (l : List α) :
    (l.mergeSort fun a b => decide (name a ≤ name b)).Pairwise fun a b => name a ≤ name b := by
  have hsorted : (l.mergeSort fun a b => decide (name a ≤ name b)).Pairwise
      fun a b => decide (name a ≤ name b) = true := by
    refine List.pairwise_mergeSort (fun a b c hab hbc => ?_) (fun a b => ?_) l
    · exact decide_eq_true (String.le_trans (of_decide_eq_true hab) (of_decide_eq_true hbc))
    · simpa using String.le_total (name a) (name b)
  exact hsorted.imp of_decide_eq_true

/-- Names that differ are in increasing order once they are sorted. -/
theorem pairwise_lt_mergeSort (h : (l.map name).Nodup) :
    (l.mergeSort fun a b => decide (name a ≤ name b)).Pairwise fun a b => name a < name b := by
  have hperm := List.mergeSort_perm l fun a b => decide (name a ≤ name b)
  have hnodup := List.pairwise_map.1 ((hperm.map name).nodup_iff.2 h)
  refine ((pairwise_le_mergeSort name l).and hnodup).imp ?_
  rintro a b ⟨hle, hne⟩
  exact Table.lt_of_not_lt_of_ne (String.not_lt.2 hle) hne.symm

/-- However names that differ are listed, sorting them gives the same list. -/
theorem mergeSort_eq_of_perm (h : (l.map name).Nodup) (hperm : l.Perm m) :
    l.mergeSort (fun a b => decide (name a ≤ name b)) =
      m.mergeSort fun a b => decide (name a ≤ name b) := by
  have hl := pairwise_lt_mergeSort name h
  have hm := pairwise_lt_mergeSort name ((hperm.map name).nodup_iff.1 h)
  refine List.Perm.eq_of_pairwise (fun a b _ _ hab hba => ?_) hl hm ?_
  · exact absurd hba (String.lt_asymm hab)
  · exact (List.mergeSort_perm ..).trans (hperm.trans (List.mergeSort_perm ..).symm)

end Sorting

end Storage

/-! ## The metrics of a log -/

/-- Counters and gauges are those that some records lead to, each once and in the order of the names:
the counters with the sums of their deltas, the gauges with the last numbers written to them. -/
structure IsView (records : List Record) (counters : List Counter) (gauges : List Gauge) : Prop where
  counters_sorted : counters.Pairwise fun a b => a.name < b.name
  gauges_sorted : gauges.Pairwise fun a b => a.name < b.name
  mem_counters : ∀ c, c ∈ counters ↔
    (∃ r ∈ records, Ledger.Increments c.name r) ∧ c.value.toInt = total c.name records
  mem_gauges : ∀ g, g ∈ gauges ↔ (gaugeWrites g.name records).getLast? = some g.value

namespace Ledger

variable {l : Ledger} {records : List Record}

theorem Carries.mem_allCounters_iff (h : l.Carries records) (c : Counter) :
    c ∈ l.allCounters ↔
      (∃ r ∈ records, Increments c.name r) ∧ c.value.toInt = total c.name records := by
  rw [l.mem_allCounters_iff]
  constructor
  · intro hget
    have hmem : ∃ r ∈ records, Increments c.name r := by
      by_contra hnone
      rw [(h.getCounter_eq_notFound_iff c.name).2 hnone] at hget
      cases hget
    obtain ⟨value, hvalue, hsum⟩ := h.getCounter_of_increments hmem
    rw [hvalue, Except.ok.injEq] at hget
    rw [← hget]
    exact ⟨hget ▸ hmem, hsum⟩
  · rintro ⟨hmem, hsum⟩
    obtain ⟨value, hvalue, htotal⟩ := h.getCounter_of_increments hmem
    rw [hvalue, Int64.toInt_inj.1 (htotal.trans hsum.symm)]

theorem Carries.mem_allGauges_iff (h : l.Carries records) (g : Gauge) :
    g ∈ l.allGauges ↔ (gaugeWrites g.name records).getLast? = some g.value := by
  rw [l.mem_allGauges_iff, h.getGauge_eq]
  obtain ⟨name, value⟩ := g
  cases (gaugeWrites name records).getLast? <;> simp

/-- The sorted metrics of a ledger are those of the records that lead to it. -/
theorem Carries.isView (h : l.Carries records) :
    IsView records (Storage.sortCounters l.allCounters) (Storage.sortGauges l.allGauges) where
  counters_sorted := Storage.pairwise_lt_mergeSort Counter.name l.nodup_names_allCounters
  gauges_sorted := Storage.pairwise_lt_mergeSort Gauge.name l.nodup_names_allGauges
  mem_counters c := by
    rw [Storage.sortCounters, List.mem_mergeSort, h.mem_allCounters_iff]
  mem_gauges g := by
    rw [Storage.sortGauges, List.mem_mergeSort, h.mem_allGauges_iff]

end Ledger

/-- Only records with a line are read from a log. -/
theorem Log.isEncodable_of_hasRecords {files : Files} {path : String} {records : List Record}
    (h : HasRecords files path records) : ∀ r ∈ records, r.isEncodable = true := by
  obtain ⟨content, -, htells⟩ := h
  generalize filledLines content = lines at htells
  induction htells with
  | nil => simp
  | cons htells _ ih =>
      obtain ⟨cs, -, hdecode⟩ := htells
      exact List.forall_mem_cons.2 ⟨Record.isEncodable_of_decode hdecode, ih⟩

theorem isFinite_of_mem_gaugeWrites {name : String} {records : List Record} {value : Binary64}
    (hrecords : ∀ r ∈ records, r.isEncodable = true) (h : value ∈ gaugeWrites name records) :
    value.isFinite = true := by
  obtain ⟨r, hr, hwrite⟩ := List.mem_filterMap.1 h
  have hencodable := hrecords r hr
  cases r with
  | counter n delta => cases hwrite
  | gauge n written =>
      rw [gaugeWrite?] at hwrite
      split_ifs at hwrite
      obtain rfl := Option.some.inj hwrite
      exact hencodable

/-- The gauges of records with a line have finite numbers. -/
theorem IsView.isFinite {records : List Record} {counters : List Counter} {gauges : List Gauge}
    (h : IsView records counters gauges) (hrecords : ∀ r ∈ records, r.isEncodable = true) :
    ∀ g ∈ gauges, g.value.isFinite = true := fun g hg =>
  isFinite_of_mem_gaugeWrites hrecords (List.mem_of_getLast? ((h.mem_gauges g).1 hg))

namespace CommandLine

/-! ## The document -/

/-- What is printed of counters and gauges. -/
def view (counters : List Counter) (gauges : List Gauge) : Json.Value :=
  .object [
    ("backend", .string "persistent"),
    ("counters", .array (counters.map fun c =>
      .object [("name", .string c.name), ("value", .number (.whole c.value.toInt))])),
    ("gauges", .array (gauges.map fun g =>
      .object [("name", .string g.name), ("value", .number (.real g.value))]))]

open Json (Value)

theorem isReadable_metric {depth : ℕ} (name : String) {n : Json.Number} (hn : n.IsReadable) :
    Value.IsReadable (depth + 1) (.object [("name", .string name), ("value", .number n)]) := by
  refine .object ?_ ?_
  · rw [List.forall_mem_cons, List.forall_mem_singleton]
    exact ⟨.string name, .number hn⟩
  · have hlt : "name" < "value" := by decide
    exact List.pairwise_pair.2 hlt

theorem isReadable_view (counters : List Counter) {gauges : List Gauge}
    (hfinite : ∀ g ∈ gauges, g.value.isFinite = true) :
    (view counters gauges).IsReadable Json.maxDepth := by
  show Value.IsReadable (124 + 1 + 1 + 1) (view counters gauges)
  refine .object ?_ ?_
  · rw [List.forall_mem_cons, List.forall_mem_cons, List.forall_mem_singleton]
    refine ⟨.string _, .array ?_, .array ?_⟩
    · intro v hv
      obtain ⟨c, -, rfl⟩ := List.mem_map.1 hv
      have hhigh : c.value.toInt < 2 ^ 63 := Int64.toInt_lt c.value
      exact isReadable_metric c.name ⟨Int64.le_toInt c.value, by omega⟩
    · intro v hv
      obtain ⟨g, hg, rfl⟩ := List.mem_map.1 hv
      exact isReadable_metric g.name (hfinite g hg)
  · have hfirst : "backend" < "counters" := by decide
    have hsecond : "counters" < "gauges" := by decide
    have hthird : "backend" < "gauges" := String.lt_trans hfirst hsecond
    exact List.pairwise_cons.2 ⟨List.forall_mem_cons.2 ⟨hfirst, List.forall_mem_singleton.2 hthird⟩,
      List.pairwise_pair.2 hsecond⟩

theorem document_eq_view (counters : List Counter) {gauges : List Gauge}
    (hfinite : ∀ g ∈ Storage.sortGauges gauges, g.value.isFinite = true) :
    document "persistent" counters gauges =
      view (Storage.sortCounters counters) (Storage.sortGauges gauges) := by
  have hgauges : (Storage.sortGauges gauges).map Gauge.json = (Storage.sortGauges gauges).map fun g =>
      .object [("name", .string g.name), ("value", .number (.real g.value))] := by
    refine List.map_congr_left fun g hg => ?_
    rw [Gauge.json, Binary64.json, if_pos (hfinite g hg)]
  rw [document, view, hgauges]
  rfl

/-- However the metrics are listed, the document is the same. -/
theorem document_eq_of_perm (backend : String) {counters counters' : List Counter}
    {gauges gauges' : List Gauge} (hcounters : (counters.map Counter.name).Nodup)
    (hgauges : (gauges.map Gauge.name).Nodup) (hc : counters.Perm counters') (hg : gauges.Perm gauges') :
    document backend counters gauges = document backend counters' gauges' := by
  have hsortc : Storage.sortCounters counters = Storage.sortCounters counters' :=
    Storage.mergeSort_eq_of_perm Counter.name hcounters hc
  have hsortg : Storage.sortGauges gauges = Storage.sortGauges gauges' :=
    Storage.mergeSort_eq_of_perm Gauge.name hgauges hg
  rw [document, document, hsortc, hsortg]

/-- The text of a document whose gauges are finite reads as what it shows. -/
theorem parse_document (counters : List Counter) {gauges : List Gauge}
    (hfinite : ∀ g ∈ Storage.sortGauges gauges, g.value.isFinite = true) :
    Value.parse (String.ofList ((document "persistent" counters gauges).indented 0) ++ "\n").toList =
      .ok (view (Storage.sortCounters counters) (Storage.sortGauges gauges)) := by
  rw [document_eq_view counters hfinite, String.toList_append, String.toList_ofList]
  exact Json.parse_indented (isReadable_view _ hfinite) rfl

end CommandLine

/-! ## The files -/

namespace Log

/-- The second tree is the first one with a log open in it: at its place there is what was there, or
else an empty file, and only directories were made for it. -/
structure IsOpened (t u : Files) (path : String) (place : Place) : Prop where
  working : u.workingPlace = t.workingPlace
  leads : u.resolve path = .ok place
  log : u.node? place = some ((t.node? place).getD (.file []))
  others : ∀ other, other ≠ place → u.node? other = t.node? other ∨
    t.node? other = none ∧ u.node? other = some .directory

variable {t u : Files} {path : String} {place : Place}

theorem isOpened_of_openFile (h : Pipeline.openFile t path = (.ok place, u)) :
    IsOpened t u path place := by
  have hlog : u.node? place = some ((t.node? place).getD (.file [])) := by
    rcases openFile_keeps h with ⟨node, -, ht, hu⟩ | ⟨ht, hu⟩
    · rw [ht, hu, Option.getD_some]
    · rw [ht, hu, Option.getD_none]
  -- Between the two trees there is the one with the directories, where the log is opened.
  obtain ⟨v, hmake, hopen⟩ := openFile_ok h
  have hadds := (Files.createDirectoriesUpTo_spec ((Files.parentPath path).length + 1) t
    (Files.parentPath path)).1
  rw [Files.createDirectories] at hmake
  rw [hmake] at hadds
  obtain ⟨-, hleads, ⟨node, -, -, rfl⟩ | ⟨hnone, rfl⟩⟩ := Files.openAppend_ok hopen
  · exact ⟨hadds.working, hleads, hlog, fun other _ => hadds.node other⟩
  · have hgrows : Files.Grows v (v.put place (.file [])) :=
      Files.grows_put (by rw [hnone]; simp) (.file [])
    refine ⟨hadds.working, Files.resolve_mono hgrows hleads, hlog, fun other hother => ?_⟩
    rw [Files.node?_put, if_neg hother]
    exact hadds.node other

namespace IsOpened

variable (h : IsOpened t u path place)

include h

theorem grows : Files.Grows t u := by
  refine ⟨h.working, fun other hother => ?_⟩
  by_cases hplace : other = place
  · rw [hplace] at hother ⊢
    rw [h.log, hother, Option.getD_some]
  · obtain hsame | ⟨hnone, -⟩ := h.others other hplace
    · rw [hsame, hother]
    · rw [hother] at hnone
      cases hnone

theorem read : u.read path = u.contentAt place := by
  rw [Files.read, Files.find_of h.leads h.log]
  rfl

/-- A log that is there has the bytes that it had. -/
theorem read_of_read {content : List UInt8} (hread : t.read path = .ok content) :
    u.read path = .ok content := by
  rw [h.read, ← hread, Files.read, Files.find]
  cases hresolve : t.resolve path with
  | error fault => rw [Files.read, Files.find, hresolve] at hread; cases hread
  | ok there =>
      obtain rfl : there = place :=
        Except.ok.inj ((Files.resolve_mono h.grows hresolve).symm.trans h.leads)
      cases hnode : t.node? there with
      | none => simp [Files.read, Files.find, hresolve, hnode, bind, Except.bind] at hread
      | some node =>
          have hlog := h.log
          rw [hnode, Option.getD_some] at hlog
          simp [Files.contentAt, hlog, hnode, bind, Except.bind]

/-- A log that was not there is empty. -/
theorem read_of_absent (habsent : t.node? place = none) : u.read path = .ok [] := by
  have hlog := h.log
  rw [habsent, Option.getD_none] at hlog
  rw [h.read, Files.contentAt, hlog]

end IsOpened

end Log

/-! ## Opening and closing -/

namespace Persistent

variable {files : Files} {path : String} {l : Ledger}

theorem restoreLedger_ok_iff : restoreLedger files path = .ok l ↔
    ∃ records, Log.HasRecords files path records ∧ l.Carries records := by
  simp only [← Log.readFile_ok_iff]
  cases hread : Log.readFile files path with
  | error f => simp [restoreLedger, hread, bind, Except.bind]
  | ok records =>
      rw [restoreLedger_of_readFile hread]
      cases hreplay : Ledger.empty.replay records <;>
        simp [Ledger.Carries, hreplay, Except.mapError]

/-- A writer that lives and has nothing to write finishes without a byte written. -/
theorem shutdown_of_nothing {p : Persistent} {place : Place} (hstage : p.log.stage = .running)
    (hqueue : p.log.queue = []) (hpending : p.log.pending = []) (hwriter : p.log.writer = .on place)
    (hreport : p.hasReport = true) (files : Files) :
    ∃ summary q, p.shutdown files = (.ok (some summary), q, files) := by
  obtain ⟨l, ⟨mode, isOpen, queue, pending, writer, buffers, summary, nextTick, stage⟩, path,
    hasReport⟩ := p
  subst hstage hqueue hpending hwriter hreport
  exact ⟨_, _, rfl⟩

/-- A ledger that nothing was done with is closed without a byte written, and well if its writer
lives. -/
theorem shutdown_start (l : Ledger) (path : String) (place : Place) (interval now : Duration)
    (files : Files) :
    ∃ result q, Persistent.shutdown
        ⟨l, Log.Pipeline.start (.ofInterval interval) place now, path, true⟩ files =
          (result, q, files) ∧
      (result.isOk = true ↔ Log.Pipeline.canShow ⟨now.nanos + interval.nanos⟩ = true) := by
  have hstage := Log.Pipeline.stage_start_eq place interval now
  split_ifs at hstage with hshows
  · obtain ⟨summary, q, hq⟩ := shutdown_of_nothing
      (p := ⟨l, Log.Pipeline.start (.ofInterval interval) place now, path, true⟩) hstage rfl rfl rfl
      rfl files
    exact ⟨_, q, hq, iff_of_true rfl hshows⟩
  · obtain ⟨q, hq⟩ := shutdown_of_dead
      (p := ⟨l, Log.Pipeline.start (.ofInterval interval) place now, path, true⟩) hstage rfl files
    exact ⟨_, q, hq, iff_of_false Bool.false_ne_true hshows⟩

end Persistent

/-! ## The command -/

namespace CommandLine

open Log (HasRecords IsOpened)

variable {τ : Type} (server : Relational.Server τ) {s : Settings} {path : String} {interval : Duration}
  {files tree : Files} {place : Place} {l : Ledger}

/-- A log that leads to a ledger is looked at: the ledger is printed, and the log is closed. -/
theorem perform_inspect (hs : s.selection = .persistent path interval true)
    (hrestore : Persistent.restoreLedger files path = .ok l)
    (hopen : Log.Pipeline.openFile files path = (.ok place, tree)) (t : τ) :
    (perform server .inspect s files t).output =
        String.ofList ((document "persistent" l.allCounters l.allGauges).indented 0) ++ "\n" ∧
      (perform server .inspect s files t).files = tree ∧
      ((perform server .inspect s files t).exitCode = 0 ↔ Log.Pipeline.canShow interval = true) := by
  have hstorage : Storage.openAt server s ⟨0⟩ files t = (⟨.ok (.persistent ⟨l,
      Log.Pipeline.start (.ofInterval interval) place ⟨0⟩, path, true⟩), []⟩, tree, t) := by
    simp only [Storage.openAt, hs, Persistent.openAt, if_true, hrestore, Log.Pipeline.openAt, hopen]
    rfl
  obtain ⟨result, q, hclose, hshows⟩ := Persistent.shutdown_start l path place interval ⟨0⟩ tree
  have hinterval : (⟨(⟨0⟩ : Duration).nanos + interval.nanos⟩ : Duration) = interval := by
    rw [Nat.zero_add]
  rw [hinterval] at hshows
  have hprint (p : Persistent) : print server .inspect (.persistent p) t = (.ok (String.ofList
      ((document "persistent" p.ledger.allCounters p.ledger.allGauges).indented 0) ++ "\n"),
        .persistent p) := rfl
  simp only [perform, hstorage, hprint, Storage.close, hclose]
  cases result with
  | ok summary => exact ⟨rfl, rfl, iff_of_true rfl (hshows.1 rfl)⟩
  | error f => exact ⟨rfl, rfl, iff_of_false Nat.one_ne_zero fun h => Bool.false_ne_true (hshows.2 h)⟩

/-- A log that leads to no ledger is not looked at, and nothing happens to it. -/
theorem perform_inspect_of_error {f : Failure} (hs : s.selection = .persistent path interval true)
    (hrestore : Persistent.restoreLedger files path = .error f) (t : τ) :
    perform server .inspect s files t =
      .failure "" ("Error: " ++ inContext "storage failed to start" f) files := by
  have hstorage : Storage.openAt server s ⟨0⟩ files t = (⟨.error f, []⟩, files, t) := by
    simp only [Storage.openAt, hs, Persistent.openAt_of_restoreLedger_error hrestore]
    rfl
  simp only [perform, hstorage]

/-- A log is looked at with the settings of a ledger on a log that is read first. If the log has
records and they can be replayed, then, as soon as the file can be opened, one JSON document is printed,
whatever order the maps list their metrics in: its counters and its gauges are those of the records,
each once and in the order of the names, with the sums and the very numbers. A log that is there keeps
its bytes, one that is not there is made empty, and apart from it only directories are made. Only a
writer whose clock cannot show the first tick makes the command fail after that. Otherwise nothing is
printed, the command fails and the files are as they were. -/
theorem inspect_isFaithful (hs : s.selection = .persistent path interval true) (files : Files) (t : τ) :
    (∀ records l place tree, HasRecords files path records → Ledger.empty.replay records = .ok l →
      Log.Pipeline.openFile files path = (.ok place, tree) →
        (∃ counters gauges, IsView records counters gauges ∧
          Json.Value.parse (perform server .inspect s files t).output.toList =
            .ok (view counters gauges)) ∧
        (∀ counters gauges, counters.Perm l.allCounters → gauges.Perm l.allGauges →
          (perform server .inspect s files t).output =
            String.ofList ((document "persistent" counters gauges).indented 0) ++ "\n") ∧
        (∀ content, files.read path = .ok content →
          (perform server .inspect s files t).files.read path = .ok content) ∧
        (files.node? place = none → (perform server .inspect s files t).files.read path = .ok []) ∧
        IsOpened files (perform server .inspect s files t).files path place ∧
        ((perform server .inspect s files t).exitCode = 0 ↔ Log.Pipeline.canShow interval = true)) ∧
    ((¬∃ records l, HasRecords files path records ∧ Ledger.empty.replay records = .ok l) →
      (perform server .inspect s files t).output = "" ∧
        (perform server .inspect s files t).exitCode = 1 ∧
        (perform server .inspect s files t).files = files) := by
  constructor
  · intro records l place tree hrecords hreplay hopen
    have hrestore := Persistent.restoreLedger_ok_iff.2 ⟨records, hrecords, hreplay⟩
    have hview := Ledger.Carries.isView hreplay
    obtain ⟨houtput, hfiles, hexit⟩ := perform_inspect server hs hrestore hopen t
    have hopened := Log.isOpened_of_openFile hopen
    rw [hfiles]
    refine ⟨⟨_, _, hview, ?_⟩, fun counters gauges hcounters hgauges => ?_,
      fun content => hopened.read_of_read, hopened.read_of_absent, hopened, hexit⟩
    · rw [houtput]
      exact parse_document _ (hview.isFinite (Log.isEncodable_of_hasRecords hrecords))
    · rw [houtput, document_eq_of_perm _ l.nodup_names_allCounters l.nodup_names_allGauges
        hcounters.symm hgauges.symm]
  · intro hnone
    cases hrestore : Persistent.restoreLedger files path with
    | ok l =>
        obtain ⟨records, hrecords, hl⟩ := Persistent.restoreLedger_ok_iff.1 hrestore
        exact absurd ⟨records, l, hrecords, hl⟩ hnone
    | error f =>
        rw [perform_inspect_of_error server hs hrestore]
        exact ⟨rfl, rfl, rfl⟩

/-- The settings of a ledger on a log in the working directory. -/
def sampleSettings : Settings := Settings.standard.withFileStoragePath "m"

/-- Two counters, one of them incremented twice, and a gauge. -/
def sampleRecords : List Record :=
  [.counter "b" 2, .gauge "g" ⟨0x3ff8000000000000⟩, .counter "a" 1, .counter "b" 3]

def sampleLedger : Ledger :=
  ⟨((Table.empty.insert "b" 2).insert "a" 1).insert "b" 5, Table.empty.insert "g" ⟨0x3ff8000000000000⟩⟩

theorem read_withLog (content : List UInt8) : (withLog content).read "m" = .ok content := by cbv

/-- A log with these records is printed, its metrics in whatever order, and stays as it is. A log that
is no text is refused. -/
theorem inspect_isFaithful_sampleRecords :
    sampleSettings.selection = .persistent "m" (Duration.ofSeconds 300) true ∧
    (perform silentServer .inspect sampleSettings (withLog (Log.linesOf sampleRecords)) ()).output =
      String.ofList ((document "persistent" [⟨"b", 5⟩, ⟨"a", 1⟩]
        [⟨"g", ⟨0x3ff8000000000000⟩⟩]).indented 0) ++ "\n" ∧
    (perform silentServer .inspect sampleSettings
      (withLog (Log.linesOf sampleRecords)) ()).files.read "m" = .ok (Log.linesOf sampleRecords) ∧
    (perform silentServer .inspect sampleSettings (withLog (Log.linesOf sampleRecords)) ()).exitCode = 0 ∧
    (perform silentServer .inspect sampleSettings (withLog [255]) ()).output = "" := by
  have hs : sampleSettings.selection = .persistent "m" (Duration.ofSeconds 300) true := by decide
  have hready := ready_withLog (Log.linesOf sampleRecords)
  have hrecords : HasRecords (withLog (Log.linesOf sampleRecords)) "m" sampleRecords :=
    Log.readFile_ok_iff.1 (hready.reads.trans (readContent_linesOf "m" sampleRecords))
  have hreplay : Ledger.empty.replay sampleRecords = .ok sampleLedger := rfl
  have hread : (withLog (Log.linesOf sampleRecords)).read "m" = .ok (Log.linesOf sampleRecords) :=
    read_withLog _
  obtain ⟨place, tree, hopen, -⟩ := hready.opens
  obtain ⟨hshown, -⟩ := inspect_isFaithful silentServer hs (withLog (Log.linesOf sampleRecords)) ()
  obtain ⟨-, houtput, hkept, -, -, hexit⟩ := hshown _ _ _ _ hrecords hreplay hopen
  obtain ⟨-, hrefused⟩ := inspect_isFaithful silentServer hs (withLog [255]) ()
  refine ⟨hs, houtput _ _ (by decide) (by decide), hkept _ hread, hexit.2 (by decide), ?_⟩
  refine (hrefused ?_).1
  rintro ⟨records, l, hnone, -⟩
  have hread := Log.readFile_ok_iff.2 hnone
  rw [(ready_withLog [255]).reads] at hread
  cases hread

end CommandLine

end MetricLedger
