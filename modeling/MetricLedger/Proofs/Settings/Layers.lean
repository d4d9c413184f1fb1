import Mathlib
import MetricLedger.CommandLine.Program
import MetricLedger.Proofs.Settings.Values
import MetricLedger.Proofs.Text.Utf8

/-!
# Layers of settings

The file, the environment and the options are laid over the default settings by three functions of
their own. All three do the same: a layer replaces what it mentions and keeps the rest. So every setting
is that of the topmost layer that mentions it. Main statement: `settings_areLayered`.
-/

namespace MetricLedger

/-! ## What the environment says -/

namespace Environment

variable {α : Type} {env : Environment} {name text : String}
  {read : String → String → Except Failure α} {means : String → α → Prop} {v : Option α}

/-- What the environment says of a setting: nothing if its name is not there, and otherwise what its
text means. -/
def Says (env : Environment) (name : String) (means : String → α → Prop) (v : Option α) : Prop :=
  match env name with
  | none => v = none
  | some text => ∃ a, means text a ∧ v = some a

theorem says_none (h : env name = none) : env.Says name means none := by
  rw [Says, h]

theorem says_some (h : env name = some text) {a : α} (ha : means text a) :
    env.Says name means (some a) := by
  rw [Says, h]
  exact ⟨a, ha, rfl⟩

/-- What is said is said of no text, or it is what the text means. -/
theorem Says.cases (h : env.Says name means v) : env name = none ∧ v = none ∨
    ∃ text a, env name = some text ∧ means text a ∧ v = some a := by
  unfold Says at h
  split at h
  next hnone => exact .inl ⟨hnone, h⟩
  next text htext =>
    obtain ⟨a, ha, rfl⟩ := h
    exact .inr ⟨text, a, htext, ha, rfl⟩

theorem exists_value (h : ∀ text, env name = some text → ∃ a, means text a) :
    ∃ v, env.Says name means v := by
  cases htext : env name with
  | none => exact ⟨none, says_none htext⟩
  | some text =>
      obtain ⟨a, ha⟩ := h text htext
      exact ⟨some a, says_some htext ha⟩

theorem Reads.override_eq_ok (hread : Reads name read means) (h : env.Says name means v)
    (current : α) : env.override name read current = .ok (v.getD current) := by
  unfold override
  obtain ⟨hnone, rfl⟩ | ⟨text, a, htext, ha, rfl⟩ := h.cases
  · rw [hnone]
    rfl
  · rw [htext]
    exact (hread.ok_iff text a).2 ha

theorem Reads.override_of_not_means (hread : Reads name read means) (htext : env name = some text)
    (h : ¬∃ a, means text a) (current : α) :
    ∃ reason, env.override name read current = .error (refuse name text reason) := by
  cases hresult : read name text with
  | ok a => exact absurd ⟨a, (hread.ok_iff text a).1 hresult⟩ h
  | error f =>
      obtain ⟨reason, rfl⟩ := hread.refuses text f hresult
      exact ⟨reason, by simp only [override, htext, hresult]⟩

/-- The settings whose texts have to mean something, in the order in which they are looked at. -/
def readSettings : List (String × (String → Prop)) := [
  ("STORE_INTERVAL", fun text => ∃ d, MeansInterval text d),
  ("RESTORE", fun text => ∃ on, MeansSwitch text on),
  ("METRICSTORE_DB_MAX_RETRIES", fun text => ∃ n, MeansNatural Text.maxUnsigned32 text n),
  ("METRICSTORE_DB_RETRY_BASE_MS", fun text => ∃ n, MeansNatural Text.maxUnsigned64 text n)]

/-- The text of a name is the first one, in the order of some settings, that means nothing. -/
inductive IsFirstFault (env : Environment) :
    List (String × (String → Prop)) → String → String → Prop
  | here {name text : String} {isMeaningful : String → Prop} {rest : List (String × (String → Prop))}
      (htext : env name = some text) (h : ¬isMeaningful text) :
      IsFirstFault env ((name, isMeaningful) :: rest) name text
  | later {name later text : String} {isMeaningful : String → Prop}
      {rest : List (String × (String → Prop))} (h : ∀ text, env name = some text → isMeaningful text)
      (hrest : IsFirstFault env rest later text) :
      IsFirstFault env ((name, isMeaningful) :: rest) later text

/-- All texts mean something, or there is a first one that does not. -/
theorem meaningful_or_isFirstFault (env : Environment) (settings : List (String × (String → Prop))) :
    (∀ s ∈ settings, ∀ text, env s.1 = some text → s.2 text) ∨
      ∃ name text, env.IsFirstFault settings name text := by
  induction settings with
  | nil => exact .inl nofun
  | cons s settings ih =>
      by_cases h : ∀ text, env s.1 = some text → s.2 text
      · obtain hall | ⟨name, text, hrest⟩ := ih
        · exact .inl (List.forall_mem_cons.2 ⟨h, hall⟩)
        · exact .inr ⟨name, text, .later h hrest⟩
      · simp only [not_forall] at h
        obtain ⟨text, htext, hnot⟩ := h
        exact .inr ⟨s.1, text, .here htext hnot⟩

end Environment

/-! ## Layers -/

/-- What a layer mentions of the settings. -/
structure Layer where
  databaseDsn : Option String
  fileStoragePath : Option String
  storeInterval : Option Duration
  restore : Option Bool
  poolMaxSize : Option ℕ
  tablePrefix : Option String
  maxRetries : Option UInt32
  baseDelay : Option UInt64
  maxDelay : Option UInt64

namespace Layer

/-- A file that has a section about repeated attempts mentions all of their settings. -/
def ofFile (file : FileSettings) : Layer where
  databaseDsn := file.databaseDsn
  fileStoragePath := file.fileStoragePath
  storeInterval := file.storeInterval.map Duration.ofSeconds
  restore := file.restore
  poolMaxSize := file.poolMaxSize
  tablePrefix := file.tablePrefix
  maxRetries := file.retry.map (·.maxRetries)
  baseDelay := file.retry.map (·.baseDelay)
  maxDelay := file.retry.map (·.maxDelay)

def ofFlags (f : CommandLine.Flags) : Layer where
  databaseDsn := f.databaseDsn
  fileStoragePath := f.fileStoragePath
  storeInterval := f.storeInterval
  restore := f.restore
  poolMaxSize := none
  tablePrefix := none
  maxRetries := none
  baseDelay := none
  maxDelay := none

/-- The layer mentions what the environment says, each text as what it means. -/
structure IsOf (l : Layer) (env : Environment) : Prop where
  databaseDsn : l.databaseDsn = env "DATABASE_DSN"
  fileStoragePath : l.fileStoragePath = env "FILE_STORAGE_PATH"
  storeInterval : env.Says "STORE_INTERVAL" Environment.MeansInterval l.storeInterval
  restore : env.Says "RESTORE" Environment.MeansSwitch l.restore
  poolMaxSize : l.poolMaxSize = none
  tablePrefix : l.tablePrefix = none
  maxRetries : env.Says "METRICSTORE_DB_MAX_RETRIES"
    (Environment.MeansNatural Text.maxUnsigned32) (l.maxRetries.map UInt32.toNat)
  baseDelay : env.Says "METRICSTORE_DB_RETRY_BASE_MS"
    (Environment.MeansNatural Text.maxUnsigned64) (l.baseDelay.map UInt64.toNat)
  maxDelay : l.maxDelay = none

/-- If all texts mean something, there is a layer of the environment. -/
theorem exists_isOf {env : Environment} (h : ∀ s ∈ Environment.readSettings,
    ∀ text, env s.1 = some text → s.2 text) : ∃ l : Layer, l.IsOf env := by
  simp only [Environment.readSettings, List.forall_mem_cons] at h
  obtain ⟨hinterval, hrestore, hretries, hbase, -⟩ := h
  obtain ⟨interval, hinterval⟩ := Environment.exists_value hinterval
  obtain ⟨restore, hrestore⟩ := Environment.exists_value hrestore
  obtain ⟨retries, hretries⟩ := Environment.exists_value hretries
  obtain ⟨base, hbase⟩ := Environment.exists_value hbase
  -- The numbers are within the limits of their types, so they are kept as they are.
  have hretriesKept : (retries.map UInt32.ofNat).map UInt32.toNat = retries := by
    obtain ⟨-, rfl⟩ | ⟨text, n, -, ⟨_, -, -, hn⟩, rfl⟩ := hretries.cases
    · rfl
    · exact congrArg some (UInt32.toNat_ofNat_of_lt' (Nat.lt_succ_of_le hn))
  have hbaseKept : (base.map UInt64.ofNat).map UInt64.toNat = base := by
    obtain ⟨-, rfl⟩ | ⟨text, n, -, ⟨_, -, -, hn⟩, rfl⟩ := hbase.cases
    · rfl
    · exact congrArg some (UInt64.toNat_ofNat_of_lt' (Nat.lt_succ_of_le hn))
  exact ⟨⟨env "DATABASE_DSN", env "FILE_STORAGE_PATH", interval, restore, none, none,
    retries.map UInt32.ofNat, base.map UInt64.ofNat, none⟩, rfl, rfl, hinterval, hrestore, rfl, rfl,
    by rwa [hretriesKept], by rwa [hbaseKept], rfl⟩

end Layer

/-- What the topmost layer that mentions a setting says of it, and its default if none does. -/
def topmost {α : Type} (layers : List Layer) (mention : Layer → Option α) (otherwise : α) : α :=
  (layers.findSome? mention).getD otherwise

theorem topmost_cons {α : Type} (l : Layer) (layers : List Layer) (mention : Layer → Option α)
    (otherwise : α) :
    topmost (l :: layers) mention otherwise = (mention l).getD (topmost layers mention otherwise) := by
  unfold topmost
  rw [List.findSome?_cons]
  cases mention l <;> rfl

namespace Settings

/-- The address of a database, unless it is blank. -/
def address? (dsn : String) : Option String := if Text.allBlank dsn.toList then none else some dsn

/-- The path of a log, unless it is empty. -/
def path? (path : String) : Option String := if path.isEmpty then none else some path

/-- The settings with those of a layer over them. -/
def withLayer (s : Settings) (l : Layer) : Settings where
  databaseDsn := (l.databaseDsn.map address?).getD s.databaseDsn
  fileStoragePath := (l.fileStoragePath.map path?).getD s.fileStoragePath
  storeInterval := l.storeInterval.getD s.storeInterval
  restore := l.restore.getD s.restore
  poolMaxSize := l.poolMaxSize.getD s.poolMaxSize
  tablePrefix := l.tablePrefix.getD s.tablePrefix
  retry := ⟨l.maxRetries.getD s.retry.maxRetries, l.baseDelay.getD s.retry.baseDelay,
    l.maxDelay.getD s.retry.maxDelay⟩

theorem withOptional_databaseDsn (s : Settings) (v : Option String) :
    withOptional withDatabaseDsn s v =
      { s with databaseDsn := (v.map address?).getD s.databaseDsn } := by
  cases v <;> rfl

theorem withOptional_fileStoragePath (s : Settings) (v : Option String) :
    withOptional withFileStoragePath s v =
      { s with fileStoragePath := (v.map path?).getD s.fileStoragePath } := by
  cases v <;> rfl

theorem withFile_eq (s : Settings) (file : FileSettings) :
    s.withFile file = s.withLayer (.ofFile file) := by
  rw [withFile, withOptional_databaseDsn, withOptional_fileStoragePath]
  cases hretry : file.retry <;> simp [withLayer, Layer.ofFile, hretry]

theorem withFlags_eq (s : Settings) (f : CommandLine.Flags) :
    CommandLine.withFlags s f = s.withLayer (.ofFlags f) := by
  rw [CommandLine.withFlags, withOptional_databaseDsn, withOptional_fileStoragePath]
  cases hinterval : f.storeInterval <;> cases hrestore : f.restore <;>
    simp [withLayer, Layer.ofFlags, hinterval, hrestore, withOptional, withStoreInterval, withRestore]

section Environment

open Environment

/-- An environment whose texts all mean something is a layer. -/
theorem withEnvironment_of_isOf (s : Settings) {l : Layer} {env : Environment} (h : l.IsOf env) :
    s.withEnvironment env = .ok (s.withLayer l) := by
  simp only [withEnvironment, withOptional_databaseDsn, withOptional_fileStoragePath,
    RetryPolicy.withEnvironment, reads_interval.override_eq_ok h.storeInterval,
    (reads_switch _).override_eq_ok h.restore, (reads_natural _ _).override_eq_ok h.maxRetries,
    (reads_natural _ _).override_eq_ok h.baseDelay]
  simp [bind, Except.bind, withLayer, h.databaseDsn, h.fileStoragePath, h.poolMaxSize, h.tablePrefix,
    h.maxDelay]

/-- The first text of the environment that means nothing is refused. -/
theorem withEnvironment_of_isFirstFault (s : Settings) {env : Environment} {name text : String}
    (h : env.IsFirstFault readSettings name text) :
    ∃ reason, s.withEnvironment env = .error (refuse name text reason) := by
  simp only [withEnvironment, withOptional_databaseDsn, withOptional_fileStoragePath,
    RetryPolicy.withEnvironment]
  cases h with
  | here htext hnot =>
      obtain ⟨reason, hrefused⟩ := reads_interval.override_of_not_means htext hnot s.storeInterval
      exact ⟨reason, by rw [hrefused]; rfl⟩
  | later hinterval h =>
  obtain ⟨interval, hinterval⟩ := exists_value hinterval
  rw [reads_interval.override_eq_ok hinterval]
  cases h with
  | here htext hnot =>
      obtain ⟨reason, hrefused⟩ := (reads_switch _).override_of_not_means htext hnot s.restore
      exact ⟨reason, by rw [hrefused]; rfl⟩
  | later hrestore h =>
  obtain ⟨restore, hrestore⟩ := exists_value hrestore
  rw [(reads_switch _).override_eq_ok hrestore]
  cases h with
  | here htext hnot =>
      obtain ⟨reason, hrefused⟩ :=
        (reads_natural _ _).override_of_not_means htext hnot s.retry.maxRetries.toNat
      exact ⟨reason, by rw [hrefused]; rfl⟩
  | later hretries h =>
  obtain ⟨retries, hretries⟩ := exists_value hretries
  rw [(reads_natural _ _).override_eq_ok hretries]
  cases h with
  | here htext hnot =>
      obtain ⟨reason, hrefused⟩ :=
        (reads_natural _ _).override_of_not_means htext hnot s.retry.baseDelay.toNat
      exact ⟨reason, by rw [hrefused]; rfl⟩
  | later _ h => cases h

end Environment

/-! ## Resolved settings -/

/-- Every setting is what the topmost layer that mentions it says, whatever the layers say of the
others. A blank address and an empty path are none. -/
structure IsResolved (layers : List Layer) (s : Settings) : Prop where
  databaseDsn : s.databaseDsn = address? (topmost layers (·.databaseDsn) "")
  fileStoragePath :
    s.fileStoragePath = path? (topmost layers (·.fileStoragePath) "/tmp/metrics-db.json")
  storeInterval : s.storeInterval = topmost layers (·.storeInterval) (Duration.ofSeconds 300)
  restore : s.restore = topmost layers (·.restore) true
  poolMaxSize : s.poolMaxSize = topmost layers (·.poolMaxSize) 20
  tablePrefix : s.tablePrefix = topmost layers (·.tablePrefix) "metrics"
  maxRetries : s.retry.maxRetries = topmost layers (·.maxRetries) 3
  baseDelay : s.retry.baseDelay = topmost layers (·.baseDelay) 1000
  maxDelay : s.retry.maxDelay = topmost layers (·.maxDelay) 5000

variable {s : Settings} {l : Layer} {layers : List Layer}

theorem isResolved_standard : IsResolved [] standard where
  databaseDsn := by decide
  fileStoragePath := by decide
  storeInterval := rfl
  restore := rfl
  poolMaxSize := rfl
  tablePrefix := rfl
  maxRetries := rfl
  baseDelay := rfl
  maxDelay := rfl

/-- One more layer on top. -/
theorem IsResolved.withLayer (h : IsResolved layers s) : IsResolved (l :: layers) (s.withLayer l) where
  databaseDsn := by
    rw [topmost_cons]
    cases hl : l.databaseDsn with
    | none => simp [Settings.withLayer, hl, h.databaseDsn]
    | some dsn => simp [Settings.withLayer, hl]
  fileStoragePath := by
    rw [topmost_cons]
    cases hl : l.fileStoragePath with
    | none => simp [Settings.withLayer, hl, h.fileStoragePath]
    | some path => simp [Settings.withLayer, hl]
  storeInterval := by rw [topmost_cons, ← h.storeInterval, Settings.withLayer]
  restore := by rw [topmost_cons, ← h.restore, Settings.withLayer]
  poolMaxSize := by rw [topmost_cons, ← h.poolMaxSize, Settings.withLayer]
  tablePrefix := by rw [topmost_cons, ← h.tablePrefix, Settings.withLayer]
  maxRetries := by rw [topmost_cons, ← h.maxRetries, Settings.withLayer]
  baseDelay := by rw [topmost_cons, ← h.baseDelay, Settings.withLayer]
  maxDelay := by rw [topmost_cons, ← h.maxDelay, Settings.withLayer]

/-- The backend is a database if the address is not blank, else a log if the path is not empty, else
memory. -/
theorem IsResolved.selection_eq (h : IsResolved layers s) : s.selection =
    let dsn := topmost layers (·.databaseDsn) ""
    let path := topmost layers (·.fileStoragePath) "/tmp/metrics-db.json"
    if ¬Text.allBlank dsn.toList then .relational dsn
    else if path ≠ "" then .persistent path s.storeInterval s.restore
    else .memory := by
  simp only [selection, h.databaseDsn, h.fileStoragePath, address?, path?]
  by_cases hdsn : Text.allBlank (topmost layers (·.databaseDsn) "").toList = true
  · by_cases hpath : topmost layers (·.fileStoragePath) "/tmp/metrics-db.json" = ""
    · simp [hdsn, hpath]
    · simp [hdsn, hpath]
  · simp [hdsn]

end Settings

/-! ## All layers together -/

namespace CommandLine

/-- The settings of the file that the options name, if they name one. -/
inductive IsConfig (files : Files) : Option String → Option FileSettings → Prop
  | none : IsConfig files none none
  | file {path : String} {bytes : List UInt8} {text : List Char} {file : FileSettings}
      (hread : files.read path = .ok bytes) (htext : Text.utf8Decode bytes = .ok text)
      (hparse : FileSettings.parse? text = some file) : IsConfig files (some path) (some file)

/-- The layers from the top down: the options, that of the environment, and the file, if there is
one. -/
def layers (f : Flags) (l : Layer) (file : Option FileSettings) : List Layer :=
  .ofFlags f :: l :: file.toList.map .ofFile

theorem baseSettings_of_isConfig {files : Files} {config : Option String} {file : Option FileSettings}
    (h : IsConfig files config file) :
    ∃ base, baseSettings files config = .ok base ∧ base.IsResolved (file.toList.map .ofFile) := by
  cases h with
  | none => exact ⟨.standard, rfl, Settings.isResolved_standard⟩
  | @file path bytes text file hread htext hparse =>
      refine ⟨Settings.standard.withFile file, ?_, ?_⟩
      · simp [baseSettings, Settings.load, hread, htext, hparse, Except.mapError]
      · rw [Settings.withFile_eq]
        exact Settings.isResolved_standard.withLayer

/-- Either all texts of the environment mean something, and it is a layer, or one of them is the first
that does not, in the order of the four names. If so, this one is refused with its name, whatever the
other layers say. Otherwise there are settings: each is what the topmost layer says that mentions it,
and they ask for a database if the address that comes of this is not blank, else for a log if the path
is not empty, else for memory. -/
theorem settings_areLayered {files : Files} (env : Environment) {f : Flags}
    {file : Option FileSettings} (hfile : IsConfig files f.config file) :
    ((∃ l : Layer, l.IsOf env) ∨
      ∃ name text, env.IsFirstFault Environment.readSettings name text) ∧
    (∀ name text, env.IsFirstFault Environment.readSettings name text → ∃ reason : String,
      settings files env f = .error (Failure.invalidInput s!"{name} '{text}'{reason}").chain) ∧
    ∀ l : Layer, l.IsOf env → ∃ s, settings files env f = .ok s ∧
      s.IsResolved (layers f l file) ∧
      s.selection =
        let dsn := topmost (layers f l file) (·.databaseDsn) ""
        let path := topmost (layers f l file) (·.fileStoragePath) "/tmp/metrics-db.json"
        if ¬Text.allBlank dsn.toList then .relational dsn
        else if path ≠ "" then .persistent path s.storeInterval s.restore
        else .memory := by
  obtain ⟨base, hbase, hresolved⟩ := baseSettings_of_isConfig hfile
  have hsettings : settings files env f =
      (base.withEnvironment env).mapError Failure.chain >>= fun s => .ok (withFlags s f) := by
    unfold settings
    rw [hbase]
    rfl
  refine ⟨?_, fun name text hfault => ?_, fun l hl => ?_⟩
  · exact (env.meaningful_or_isFirstFault Environment.readSettings).imp_left Layer.exists_isOf
  · obtain ⟨reason, hrefused⟩ := base.withEnvironment_of_isFirstFault hfault
    exact ⟨reason, by rw [hsettings, hrefused]; rfl⟩
  · have hall : ((base.withLayer l).withLayer (.ofFlags f)).IsResolved (layers f l file) :=
      hresolved.withLayer.withLayer
    refine ⟨(base.withLayer l).withLayer (.ofFlags f), ?_, hall, hall.selection_eq⟩
    rw [hsettings, base.withEnvironment_of_isOf hl, ← Settings.withFlags_eq]
    rfl

/-- A document with an address, a path and one setting of the repeated attempts. -/
def shortDocument : List Char :=
  "database_dsn = \"db\"\nfile_storage_path = \"m.log\"\n[retry]\nmax_retries = 7\n".toList

def shortFile : FileSettings :=
  ⟨some "db", some "m.log", none, none, none, none, some ⟨7, 1000, 5000⟩⟩

def shortFiles : Files := Files.empty.put ["work", "m"] (.file (Text.utf8Encode shortDocument))

/-- A blank address, and texts for an interval, a switch and a pause. -/
def shortEnvironment : Environment := Environment.ofList
  [("DATABASE_DSN", " "), ("STORE_INTERVAL", "60s"), ("RESTORE", " No"),
    ("METRICSTORE_DB_RETRY_BASE_MS", "+5")]

def shortLayer : Layer where
  databaseDsn := some " "
  fileStoragePath := none
  storeInterval := some (.ofSeconds 60)
  restore := some false
  poolMaxSize := none
  tablePrefix := none
  maxRetries := none
  baseDelay := some 5
  maxDelay := none

theorem isOf_shortEnvironment : shortLayer.IsOf shortEnvironment where
  databaseDsn := rfl
  fileStoragePath := rfl
  storeInterval := Environment.says_some rfl ((Environment.reads_interval.ok_iff "60s" _).1 rfl)
  restore := Environment.says_some rfl (((Environment.reads_switch "").ok_iff " No" _).1 rfl)
  poolMaxSize := rfl
  tablePrefix := rfl
  maxRetries := Environment.says_none rfl
  baseDelay := Environment.says_some rfl (((Environment.reads_natural _ "").ok_iff "+5" _).1 rfl)
  maxDelay := rfl

/-- Two texts that mean nothing, for a number and for a switch. -/
def faultyEnvironment : Environment := Environment.ofList
  [("METRICSTORE_DB_MAX_RETRIES", "many"), ("STORE_INTERVAL", "60s"), ("RESTORE", "maybe")]

theorem isFirstFault_faultyEnvironment :
    faultyEnvironment.IsFirstFault Environment.readSettings "RESTORE" "maybe" := by
  refine .later (fun text htext => ?_) (.here rfl ?_)
  · obtain rfl : "60s" = text := Option.some.inj htext
    exact ⟨_, (Environment.reads_interval.ok_iff "60s" (.ofSeconds 60)).1 rfl⟩
  · rintro ⟨on, hon⟩
    have hread := ((Environment.reads_switch "RESTORE").ok_iff "maybe" on).2 hon
    have hrefused : Environment.switch "RESTORE" "maybe" =
        .error (Environment.refuse "RESTORE" "maybe" " is not a boolean") := rfl
    rw [hrefused] at hread
    cases hread

def shortFlags : Flags := { Flags.empty with config := some "m", fileStoragePath := some "f.log" }

theorem isConfig_shortFile : IsConfig shortFiles shortFlags.config (some shortFile) := by
  have hread : shortFiles.read "m" = .ok (Text.utf8Encode shortDocument) := by
    have hcontent (content : List UInt8) :
        (Files.empty.put ["work", "m"] (.file content)).read "m" = .ok content := by cbv
    exact hcontent _
  have hentries : Toml.parse shortDocument = some [("database_dsn", .string "db"),
      ("file_storage_path", .string "m.log"),
      ("retry", .table .declared [("max_retries", .integer 7)])] := by
    cbv
  refine .file hread (Text.utf8Decode_utf8Encode _) ?_
  rw [FileSettings.parse?, hentries]
  rfl

/-- The blank address of the environment hides that of the file, and every other setting comes from
the topmost layer that mentions it. Of the two texts that mean nothing the one for the switch is
refused, as it is the first to be looked at. -/
theorem settings_areLayered_short : IsConfig shortFiles shortFlags.config (some shortFile) ∧
    (∃ s, settings shortFiles shortEnvironment shortFlags = .ok s ∧
      s.selection = .persistent "f.log" (Duration.ofSeconds 60) false ∧ s.retry = ⟨7, 5, 5000⟩) ∧
    ∃ reason : String, settings shortFiles faultyEnvironment shortFlags =
      .error (Failure.invalidInput s!"RESTORE 'maybe'{reason}").chain := by
  obtain ⟨-, -, hlayers⟩ := settings_areLayered shortEnvironment isConfig_shortFile
  obtain ⟨s, hs, hresolved, hselection⟩ := hlayers shortLayer isOf_shortEnvironment
  obtain ⟨-, hfaults, -⟩ := settings_areLayered faultyEnvironment isConfig_shortFile
  refine ⟨isConfig_shortFile, ⟨s, hs, ?_, ?_⟩,
    hfaults "RESTORE" "maybe" isFirstFault_faultyEnvironment⟩
  · rw [hselection, hresolved.storeInterval, hresolved.restore]
    cbv
  · have hretry : s.retry = ⟨s.retry.maxRetries, s.retry.baseDelay, s.retry.maxDelay⟩ := rfl
    rw [hretry, hresolved.maxRetries, hresolved.baseDelay, hresolved.maxDelay]
    cbv

end CommandLine

end MetricLedger
