import Mathlib.Tactic
import MetricLedger.Log.Lines
import MetricLedger.Log.Pipeline

/-!
# Opening a log again

Directories that are there stay there, so that a path leads to the same place when it is taken
again. Main statements: `openFile_of_absent`, a log that was not there is there and empty once it is
open, and `openFile_of_holds`, a log that is there is opened as it is.
-/

namespace MetricLedger

namespace Files

/-! ## Trees that grow -/

/-- Every directory of the first tree is one of the second. -/
structure Grows (t u : Files) : Prop where
  working : u.workingPlace = t.workingPlace
  directory : ∀ place, t.node? place = some .directory → u.node? place = some .directory

theorem Grows.refl (t : Files) : Grows t t := ⟨rfl, fun _ h => h⟩

theorem Grows.trans {t u v : Files} (h : Grows t u) (h' : Grows u v) : Grows t v :=
  ⟨h'.working.trans h.working, fun place hp => h'.directory place (h.directory place hp)⟩

/-- A tree grows by a node where no directory is. -/
theorem grows_put {t : Files} {place : Place} (h : t.node? place ≠ some .directory)
    (node : FileNode) : Grows t (t.put place node) := by
  refine ⟨rfl, fun other ho => ?_⟩
  rw [node?_put, if_neg ?_]
  · exact ho
  · rintro rfl
    exact h ho

/-- The second tree is the first one with directories added. -/
structure AddsDirectories (t u : Files) : Prop where
  working : u.workingPlace = t.workingPlace
  node : ∀ place, u.node? place = t.node? place ∨
    t.node? place = none ∧ u.node? place = some .directory

theorem AddsDirectories.refl (t : Files) : AddsDirectories t t := ⟨rfl, fun _ => .inl rfl⟩

theorem AddsDirectories.trans {t u v : Files} (h : AddsDirectories t u)
    (h' : AddsDirectories u v) : AddsDirectories t v := by
  refine ⟨h'.working.trans h.working, fun place => ?_⟩
  rcases h'.node place with hv | ⟨hu, hv⟩
  · rw [hv]
    exact h.node place
  · rcases h.node place with ht | ⟨-, hd⟩
    · exact .inr ⟨ht ▸ hu, hv⟩
    · rw [hu] at hd
      cases hd

theorem addsDirectories_put {t : Files} {place : Place} (h : t.node? place = none) :
    AddsDirectories t (t.put place .directory) := by
  refine ⟨rfl, fun other => ?_⟩
  rw [node?_put]
  split_ifs with ho
  · exact .inr ⟨ho ▸ h, rfl⟩
  · exact .inl rfl

theorem AddsDirectories.grows {t u : Files} (h : AddsDirectories t u) : Grows t u := by
  refine ⟨h.working, fun place hp => ?_⟩
  rcases h.node place with hu | ⟨hn, -⟩
  · rw [hu, hp]
  · rw [hp] at hn
    cases hn

/-! ## Paths in trees that grow -/

theorem step_mono {t u : Files} (h : Grows t u) {here place : Place} {name : String}
    (hs : t.step here name = .ok place) : u.step here name = .ok place := by
  unfold step at hs ⊢
  split at hs
  next hd =>
    rw [h.directory here hd]
    exact hs
  next => cases hs
  next => cases hs

theorem foldlM_step_mono {t u : Files} (h : Grows t u) {here place : Place} {names : List String}
    (hs : names.foldlM t.step here = .ok place) : names.foldlM u.step here = .ok place := by
  induction names generalizing here with
  | nil => exact hs
  | cons name names ih =>
      rw [List.foldlM_cons] at hs ⊢
      cases hn : t.step here name with
      | error fault =>
          rw [hn] at hs
          cases hs
      | ok next =>
          rw [hn] at hs
          rw [step_mono h hn]
          exact ih hs

/-- A path goes on to lead to its place. -/
theorem resolve_mono {t u : Files} (h : Grows t u) {path : String} {place : Place}
    (hr : t.resolve path = .ok place) : u.resolve path = .ok place := by
  unfold resolve at hr ⊢
  split_ifs at hr ⊢
  rw [h.working]
  exact foldlM_step_mono h hr

theorem step_of_addsDirectories {t u : Files} (h : AddsDirectories t u) (here : Place)
    (name : String) : t.step here name = u.step here name ∨ t.step here name = .error .notFound := by
  unfold step
  rcases h.node here with hn | ⟨hn, -⟩
  · rw [hn]
    exact .inl rfl
  · rw [hn]
    exact .inr rfl

theorem foldlM_step_of_addsDirectories {t u : Files} (h : AddsDirectories t u) {here : Place}
    {names : List String} :
    names.foldlM t.step here = names.foldlM u.step here ∨
      names.foldlM t.step here = .error .notFound := by
  induction names generalizing here with
  | nil => exact .inl rfl
  | cons name names ih =>
      rw [List.foldlM_cons, List.foldlM_cons]
      rcases step_of_addsDirectories h here name with hs | hs
      · rw [hs]
        cases u.step here name with
        | error fault => exact .inl rfl
        | ok next => exact ih
      · rw [hs]
        exact .inr rfl

/-- Without the added directories a path leads to the same place, or to none. -/
theorem resolve_of_addsDirectories {t u : Files} (h : AddsDirectories t u) (path : String) :
    t.resolve path = u.resolve path ∨ t.resolve path = .error .notFound := by
  unfold resolve
  split_ifs
  · exact .inl rfl
  · exact .inl rfl
  · exact .inl rfl
  · rw [h.working]
    exact foldlM_step_of_addsDirectories h

theorem find_of {t : Files} {path : String} {place : Place} {node : FileNode}
    (hr : t.resolve path = .ok place) (hn : t.node? place = some node) :
    t.find path = .ok (place, node) := by
  simp [find, hr, hn, bind, Except.bind]

theorem isDirectory_iff {t : Files} {path : String} :
    t.isDirectory path = true ↔
      ∃ place, t.resolve path = .ok place ∧ t.node? place = some .directory := by
  simp only [isDirectory, find, bind, Except.bind]
  constructor
  · intro h
    cases hr : t.resolve path with
    | error fault => simp [hr] at h
    | ok place =>
        cases hn : t.node? place with
        | none => simp [hr, hn] at h
        | some node =>
            cases node <;> simp [hr, hn] at h
            exact ⟨place, rfl, hn⟩
  · rintro ⟨place, hr, hn⟩
    simp [hr, hn]

theorem isDirectory_mono {t u : Files} (h : Grows t u) {path : String}
    (hd : t.isDirectory path = true) : u.isDirectory path = true := by
  obtain ⟨place, hr, hn⟩ := isDirectory_iff.1 hd
  exact isDirectory_iff.2 ⟨place, resolve_mono h hr, h.directory place hn⟩

/-! ## Making directories -/

/-- Nothing has to be made for a path: it is empty, or the directory is there. -/
def IsMade (t : Files) (path : String) : Prop := path.isEmpty = true ∨ t.isDirectory path = true

theorem IsMade.mono {t u : Files} (h : Grows t u) {path : String} (hm : t.IsMade path) :
    u.IsMade path := hm.imp_right (isDirectory_mono h)

theorem createDirectory_ok {t u : Files} {path : String} (h : t.createDirectory path = .ok u) :
    AddsDirectories t u ∧ u.isDirectory path = true := by
  simp only [createDirectory, bind, Except.bind] at h
  cases hr : t.resolve path with
  | error fault => simp [hr] at h
  | ok place =>
      cases hn : t.node? place with
      | some node => simp [hr, hn] at h
      | none =>
          simp only [hr, hn, Except.ok.injEq] at h
          subst h
          have hadds := addsDirectories_put hn
          refine ⟨hadds, isDirectory_iff.2 ⟨place, resolve_mono hadds.grows hr, ?_⟩⟩
          rw [node?_put, if_pos rfl]

/-- Whatever comes of it, only directories are made; if it succeeds the directory is there. -/
theorem createDirectoriesUpTo_spec (fuel : ℕ) (t : Files) (path : String) :
    AddsDirectories t (createDirectoriesUpTo fuel t path).2 ∧
      ((createDirectoriesUpTo fuel t path).1 = .ok () →
        (createDirectoriesUpTo fuel t path).2.IsMade path) := by
  have hexisting (u : Files) (path : String) (fault : FileFault) :
      (u.orExisting path fault).2 = u ∧
        ((u.orExisting path fault).1 = .ok () → (u.orExisting path fault).2.IsMade path) := by
    refine ⟨rfl, fun h => .inr ?_⟩
    unfold orExisting at h ⊢
    split_ifs at h with hd
    exact hd
  induction fuel generalizing t path with
  | zero => exact ⟨.refl t, fun h => by cases h⟩
  | succ fuel ih =>
      unfold createDirectoriesUpTo
      split_ifs with hempty
      · exact ⟨.refl t, fun _ => .inl hempty⟩
      · split
        next u hu =>
          obtain ⟨hadds, hdir⟩ := createDirectory_ok hu
          exact ⟨hadds, fun _ => .inr hdir⟩
        next =>
          split
          next => exact ⟨.refl t, fun h => by cases h⟩
          next parent _ =>
            obtain ⟨hadds, -⟩ := ih t parent
            rcases hrun : createDirectoriesUpTo fuel t parent with ⟨result, u⟩
            rw [hrun] at hadds
            cases result with
            | error fault => exact ⟨hadds, fun h => by cases h⟩
            | ok _ =>
                simp only
                split
                next v hv =>
                  obtain ⟨hadds', hdir⟩ := createDirectory_ok hv
                  exact ⟨hadds.trans hadds', fun _ => .inr hdir⟩
                next fault _ => exact ⟨hadds, (hexisting u path fault).2⟩
        next fault _ _ => exact ⟨.refl t, (hexisting t path fault).2⟩

/-- Directories that are there are not made again. -/
theorem createDirectories_of_isMade {t : Files} {path : String} (h : t.IsMade path) :
    t.createDirectories path = (.ok (), t) := by
  rw [createDirectories, createDirectoriesUpTo]
  rcases h with h | h
  · rw [if_pos h]
  · by_cases hempty : path.isEmpty = true
    · rw [if_pos hempty]
    · rw [if_neg hempty]
      obtain ⟨place, hr, hn⟩ := isDirectory_iff.1 h
      have hcreate : t.createDirectory path = .error .alreadyExists := by
        simp [createDirectory, hr, hn, bind, Except.bind]
      simp [hcreate, orExisting, h]

/-! ## A log at a path -/

theorem openAppend_ok {t u : Files} {path : String} {place : Place}
    (h : t.openAppend path = .ok (place, u)) :
    Path.hasTrailingSlash path = false ∧ t.resolve path = .ok place ∧
      ((∃ node, node ≠ .directory ∧ t.node? place = some node ∧ u = t) ∨
        t.node? place = none ∧ u = t.put place (.file [])) := by
  simp only [openAppend, bind, Except.bind] at h
  split_ifs at h with hslash
  · cases hr : t.resolve (Path.withoutTrailingSlashes path) <;> simp [hr] at h
  · rw [Bool.not_eq_true] at hslash
    cases hr : t.resolve path with
    | error fault => simp [hr] at h
    | ok place' =>
        simp only [hr] at h
        cases hn : t.node? place' with
        | none =>
            simp only [hn, Except.ok.injEq, Prod.mk.injEq] at h
            obtain ⟨rfl, rfl⟩ := h
            exact ⟨hslash, rfl, .inr ⟨hn, rfl⟩⟩
        | some node =>
            cases node <;> simp only [hn, Except.ok.injEq, Prod.mk.injEq, reduceCtorEq] at h
            all_goals
              obtain ⟨rfl, rfl⟩ := h
              exact ⟨hslash, rfl, .inl ⟨_, by simp, hn, rfl⟩⟩

/-- The directory of a path, in the form in which it is made. -/
def parentPath (path : String) : String := (Path.parent? path).getD ""

/-- The path leads to a file with this content, in a directory that is there. -/
structure Holds (t : Files) (path : String) (place : Place) (content : List UInt8) : Prop where
  leads : t.resolve path = .ok place
  isMade : t.IsMade (parentPath path)
  noSlash : Path.hasTrailingSlash path = false
  node : t.node? place = some (.file content)

theorem Holds.find {t : Files} {path : String} {place : Place} {content : List UInt8}
    (h : t.Holds path place content) : t.find path = .ok (place, .file content) :=
  find_of h.leads h.node

theorem Holds.read {t : Files} {path : String} {place : Place} {content : List UInt8}
    (h : t.Holds path place content) : t.read path = .ok content := by
  simp [Files.read, h.find, contentAt, h.node, bind, Except.bind]

theorem Holds.append {t : Files} {path : String} {place : Place} {content : List UInt8}
    (h : t.Holds path place content) (bytes : List UInt8) :
    ∃ u, t.append place bytes = .ok u ∧ u.Holds path place (content ++ bytes) := by
  have hgrows : Grows t (t.put place (.file (content ++ bytes))) :=
    grows_put (by rw [h.node]; simp) _
  refine ⟨t.put place (.file (content ++ bytes)), by simp [Files.append, h.node], ?_⟩
  refine ⟨resolve_mono hgrows h.leads, h.isMade.mono hgrows, h.noSlash, ?_⟩
  rw [node?_put, if_pos rfl]

/-- The bytes at a place; where no file is there are none. -/
def bytesIn (t : Files) (place : Place) : List UInt8 := ((t.contentAt place).toOption).getD []

end Files

namespace Log

open Files

/-- A log that is there is read. -/
theorem readFile_of_holds {t : Files} {path : String} {place : Place} {content : List UInt8}
    (h : t.Holds path place content) : readFile t path = readContent path content := by
  simp [readFile, h.find, contentAt, h.node]

/-- A log that is there is opened as it is. -/
theorem openFile_of_holds {t : Files} {path : String} {place : Place} {content : List UInt8}
    (h : t.Holds path place content) : Pipeline.openFile t path = (.ok place, t) := by
  have hopen : t.openAppend path = .ok (place, t) := by
    simp [openAppend, h.noSlash, h.leads, h.node, bind, Except.bind]
  have hmade := createDirectories_of_isMade h.isMade
  rw [parentPath] at hmade
  simp [Pipeline.openFile, hmade, hopen]

theorem openFile_ok {t u : Files} {path : String} {place : Place}
    (h : Pipeline.openFile t path = (.ok place, u)) :
    ∃ v, t.createDirectories (parentPath path) = (.ok (), v) ∧
      v.openAppend path = .ok (place, u) := by
  unfold Pipeline.openFile at h
  rcases hmake : t.createDirectories (parentPath path) with ⟨result, v⟩
  rw [parentPath] at hmake
  simp only [hmake] at h
  cases result with
  | error fault => cases h
  | ok _ =>
      refine ⟨v, rfl, ?_⟩
      cases hopen : v.openAppend path with
      | error fault => simp [hopen] at h
      | ok opened =>
          obtain ⟨place', w⟩ := opened
          simp only [hopen, Prod.mk.injEq, Except.ok.injEq] at h
          rw [h.1, h.2]

/-- A log that is open holds what lies at its place. -/
theorem holds_of_openFile {t u : Files} {path : String} {place : Place} {content : List UInt8}
    (h : Pipeline.openFile t path = (.ok place, u)) (hfile : u.node? place = some (.file content)) :
    u.Holds path place content := by
  obtain ⟨v, hmake, hopen⟩ := openFile_ok h
  have hmade := (createDirectoriesUpTo_spec ((parentPath path).length + 1) t (parentPath path)).2
  rw [createDirectories] at hmake
  rw [hmake] at hmade
  obtain ⟨hslash, hleads, ⟨node, -, -, rfl⟩ | ⟨hnone, rfl⟩⟩ := openAppend_ok hopen
  · exact ⟨hleads, hmade rfl, hslash, hfile⟩
  · have hgrows : Grows v (v.put place (.file [])) := grows_put (by rw [hnone]; simp) _
    exact ⟨resolve_mono hgrows hleads, (hmade rfl).mono hgrows, hslash, hfile⟩

/-- Opening a log changes nothing at its place, but makes it there if nothing is. -/
theorem openFile_keeps {t u : Files} {path : String} {place : Place}
    (h : Pipeline.openFile t path = (.ok place, u)) :
    (∃ node, node ≠ .directory ∧ t.node? place = some node ∧ u.node? place = some node) ∨
      t.node? place = none ∧ u.node? place = some (.file []) := by
  obtain ⟨v, hmake, hopen⟩ := openFile_ok h
  have hadds := (createDirectoriesUpTo_spec ((parentPath path).length + 1) t (parentPath path)).1
  rw [createDirectories] at hmake
  rw [hmake] at hadds
  obtain ⟨-, -, ⟨node, hne, hnode, rfl⟩ | ⟨hnone, rfl⟩⟩ := openAppend_ok hopen
  · refine .inl ⟨node, hne, ?_, hnode⟩
    rcases hadds.node place with hv | ⟨-, hv⟩
    · rw [← hv, hnode]
    · exact absurd (Option.some.inj (hnode.symm.trans hv)) hne
  · refine .inr ⟨?_, by rw [node?_put, if_pos rfl]⟩
    rcases hadds.node place with hv | ⟨-, hv⟩
    · rw [← hv, hnone]
    · rw [hnone] at hv
      cases hv

/-- A log on a file, or where a file can be made, is open with the bytes at its place. -/
theorem holds_bytesIn_of_openFile {t u : Files} {path : String} {place : Place}
    (h : Pipeline.openFile t path = (.ok place, u)) (hroom : t.node? place ≠ some .full) :
    u.Holds path place (t.bytesIn place) := by
  apply holds_of_openFile h
  rcases openFile_keeps h with ⟨node, hne, ht, hu⟩ | ⟨ht, hu⟩
  · cases node with
    | directory => exact absurd rfl hne
    | file content => simp [hu, bytesIn, contentAt, ht, Except.toOption]
    | full => exact absurd ht hroom
  · simp [hu, bytesIn, contentAt, ht, Except.toOption]

/-- A log that was not there is there and empty once it is open; before, the path leads nowhere. -/
theorem openFile_of_absent {t u : Files} {path : String} {place : Place}
    (h : Pipeline.openFile t path = (.ok place, u)) (habsent : t.node? place = none) :
    u.Holds path place [] ∧ t.find path = .error .notFound := by
  refine ⟨?_, ?_⟩
  · have hholds := holds_bytesIn_of_openFile h (by rw [habsent]; simp)
    have hempty : t.bytesIn place = [] := by simp [bytesIn, contentAt, habsent, Except.toOption]
    rw [← hempty]
    exact hholds
  · obtain ⟨v, hmake, hopen⟩ := openFile_ok h
    have hadds := (createDirectoriesUpTo_spec ((parentPath path).length + 1) t (parentPath path)).1
    rw [createDirectories] at hmake
    rw [hmake] at hadds
    obtain ⟨-, hleads, -⟩ := openAppend_ok hopen
    rcases resolve_of_addsDirectories hadds path with hr | hr
    · simp [find, hr, hleads, habsent, bind, Except.bind]
    · simp [find, hr, bind, Except.bind]

/-! ## Logs that can be opened -/

/-- The bytes of the log at a path; a log that is not there has none. -/
def bytesAt (t : Files) (path : String) : List UInt8 := ((t.read path).toOption).getD []

/-- The log at a path has this content: so it is read, and so it is opened. -/
structure Ready (t : Files) (path : String) (content : List UInt8) : Prop where
  bytes : bytesAt t path = content
  reads : readFile t path = readContent path content
  opens : ∃ place u, Pipeline.openFile t path = (.ok place, u) ∧ u.Holds path place content

theorem Ready.holds_of_openFile {t u : Files} {path : String} {place : Place}
    {content : List UInt8} (h : Ready t path content)
    (hopen : Pipeline.openFile t path = (.ok place, u)) : u.Holds path place content := by
  obtain ⟨place', u', hopen', hholds⟩ := h.opens
  obtain ⟨rfl, rfl⟩ : place = place' ∧ u = u' := by simpa using hopen.symm.trans hopen'
  exact hholds

/-- A log that is there is ready with its content. -/
theorem ready_of_holds {t : Files} {path : String} {place : Place} {content : List UInt8}
    (h : t.Holds path place content) : Ready t path content := by
  refine ⟨?_, readFile_of_holds h, place, t, openFile_of_holds h, h⟩
  rw [bytesAt, h.read]
  rfl

/-- A log that is not there but can be made is ready, and empty. -/
theorem ready_of_absent {t u : Files} {path : String} {place : Place}
    (h : Pipeline.openFile t path = (.ok place, u)) (habsent : t.node? place = none) :
    Ready t path [] := by
  obtain ⟨hholds, hfind⟩ := openFile_of_absent h habsent
  refine ⟨?_, ?_, place, u, h, hholds⟩
  · simp [bytesAt, Files.read, hfind, bind, Except.bind, Except.toOption]
  · rw [readFile, hfind]
    rfl

end Log

end MetricLedger
