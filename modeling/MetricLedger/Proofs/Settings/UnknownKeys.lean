import Mathlib
import MetricLedger.Proofs.Text.Utf8
import MetricLedger.Settings.Basic

/-!
# Unknown keys of a document

A key that is not known is refused at the top of a document and in the section of the relational
backend. In the section of the repeated attempts it is passed over. Main statement:
`load_eq_withoutStray`, a document is refused for its stray keys exactly if one of them stands in the
first two places, and otherwise counts as the document without them.
-/

namespace MetricLedger

namespace Toml

/-! ## Stray keys -/

/-- There is a key that is not among the known ones. -/
def Entries.HasStray (known : List String) (entries : Entries) : Prop :=
  ∃ entry ∈ entries, entry.1 ∉ known

/-- There is a table of this name, with a key that is not among the known ones. -/
def Entries.HasStrayUnder (name : String) (known : List String) (entries : Entries) : Prop :=
  ∃ origin inner, entries.item? name = some (.table origin inner) ∧ HasStray known inner

/-- The entries under known keys. -/
def Entries.keep (known : List String) (entries : Entries) : Entries :=
  entries.filter fun entry => known.contains entry.1

/-- The item with the known keys only, if it is a table. -/
def Item.keep (known : List String) : Item → Item
  | .table origin inner => .table origin (Entries.keep known inner)
  | item => item

/-- The entries with the known keys only in the table of this name. -/
def Entries.keepUnder (name : String) (known : List String) (entries : Entries) : Entries :=
  entries.map fun entry => (entry.1, if entry.1 = name then entry.2.keep known else entry.2)

namespace Entries

variable {name key : String} {known : List String} {entries : Entries}

theorem item?_cons (key' : String) (item : Item) (entries : Entries) :
    Entries.item? ((key', item) :: entries) key =
      if key = key' then some item else entries.item? key := by
  rw [item?, List.lookup_cons]
  by_cases h : key = key'
  · rw [if_pos h, h, beq_self_eq_true]
  · rw [if_neg h, beq_false_of_ne h]
    rfl

theorem item?_keep (h : key ∈ known) : (keep known entries).item? key = entries.item? key := by
  induction entries with
  | nil => rfl
  | cons entry entries ih =>
      obtain ⟨key', item⟩ := entry
      rw [item?_cons, ← ih, keep, List.filter_cons]
      split
      · exact item?_cons ..
      next hk =>
        have hne : key ≠ key' := fun heq => hk (heq ▸ List.contains_iff_mem.2 h)
        rw [if_neg hne]
        rfl

theorem item?_keepUnder : (keepUnder name known entries).item? key =
    (entries.item? key).map fun item => if key = name then item.keep known else item := by
  induction entries with
  | nil => rfl
  | cons entry entries ih =>
      obtain ⟨key', item⟩ := entry
      rw [item?_cons, keepUnder, List.map_cons, item?_cons]
      split
      next heq => rw [heq, Option.map_some]
      next => exact ih

theorem keep_eq_self (h : ¬HasStray known entries) : keep known entries = entries := by
  simp only [HasStray, not_exists, not_and, not_not] at h
  simpa [keep, List.filter_eq_self] using h

/-- Without a stray key there is nothing to take away from the table of this name. -/
theorem item?_keepUnder_of_not_hasStrayUnder (h : ¬HasStrayUnder name known entries) :
    (keepUnder name known entries).item? key = entries.item? key := by
  rw [item?_keepUnder]
  split
  next heq =>
    subst heq
    cases hitem : entries.item? key with
    | none => rfl
    | some item =>
        cases item with
        | table origin inner =>
            have hinner : ¬HasStray known inner := fun hstray => h ⟨origin, inner, hitem, hstray⟩
            rw [Option.map_some, Item.keep, keep_eq_self hinner]
        | _ => rfl
  next => exact Option.map_id'

end Entries

end Toml

namespace FileSettings

open Toml (Item Entries)

variable {name : String} {known known' : List String} {entries inner : Entries}

/-! ## The sections -/

theorem onlyKnown_eq_true_iff : onlyKnown known entries = true ↔ ¬Entries.HasStray known entries := by
  simp [onlyKnown, Entries.HasStray]

theorem onlyKnown_keepUnder :
    onlyKnown known (Entries.keepUnder name known' entries) = onlyKnown known entries := by
  simp [onlyKnown, Entries.keepUnder, Function.comp_def]

/-- A stray key under the name of the relational backend. -/
theorem relationalSection?_of_hasStray {origin : Toml.Origin}
    (h : inner.HasStray relationalKeys) : relationalSection? (.table origin inner) = none := by
  have hunknown : onlyKnown relationalKeys inner = false :=
    Bool.eq_false_iff.2 fun hknown => onlyKnown_eq_true_iff.1 hknown h
  simp [relationalSection?, section?, hunknown]

/-- The section of the repeated attempts is read for its three keys only. -/
theorem retryOf?_keep (item : Item) : retryOf? (item.keep retryKeys) = retryOf? item := by
  cases item with
  | table origin inner =>
      have hkeep (key : String) (h : key ∈ retryKeys) :
          Entries.item? (Entries.keep retryKeys inner) key = Entries.item? inner key :=
        Entries.item?_keep h
      have hretries := hkeep "max_retries" (by decide)
      have hbase := hkeep "base_delay_ms" (by decide)
      have hlongest := hkeep "max_delay_ms" (by decide)
      simp only [retryOf?, Item.keep, section?, Option.bind_eq_bind, Option.bind_some, hretries,
        hbase, hlongest]
  | _ => rfl

/-! ## The document -/

theorem ofEntries?_of_hasStray (h : entries.HasStray topKeys) : ofEntries? entries = none := by
  have hunknown : onlyKnown topKeys entries = false :=
    Bool.eq_false_iff.2 fun hknown => onlyKnown_eq_true_iff.1 hknown h
  simp [ofEntries?, hunknown]

theorem ofEntries?_of_hasStrayUnder (h : entries.HasStrayUnder "postgres" relationalKeys) :
    ofEntries? entries = none := by
  obtain ⟨origin, inner, hitem, hstray⟩ := h
  have hsection : optional? relationalSection? (entries.item? "postgres") = none := by
    rw [hitem, optional?, relationalSection?_of_hasStray hstray]
    rfl
  simp only [ofEntries?, hsection]
  split <;> simp

/-- There is an unknown key where none may stand. -/
def HasRefusedKey (entries : Entries) : Prop :=
  entries.HasStray topKeys ∨ entries.HasStrayUnder "postgres" relationalKeys

/-- The document without its unknown keys, wherever they stand. -/
def withoutStray (entries : Entries) : Entries :=
  ((entries.keep topKeys).keepUnder "postgres" relationalKeys).keepUnder "retry" retryKeys

theorem ofEntries?_of_hasRefusedKey (h : HasRefusedKey entries) : ofEntries? entries = none :=
  h.elim ofEntries?_of_hasStray ofEntries?_of_hasStrayUnder

/-- The settings depend on the items of the document, and on what is read from one of them. -/
theorem ofEntries?_congr {entries' : Entries}
    (hknown : onlyKnown topKeys entries = onlyKnown topKeys entries')
    (hitem : ∀ key ≠ "retry", entries.item? key = entries'.item? key)
    (hretry : optional? retryOf? (entries.item? "retry") =
      optional? retryOf? (entries'.item? "retry")) :
    ofEntries? entries = ofEntries? entries' := by
  simp only [ofEntries?, hknown, hretry, hitem "database_dsn" (by decide),
    hitem "file_storage_path" (by decide), hitem "store_interval_secs" (by decide),
    hitem "restore" (by decide), hitem "postgres" (by decide)]

/-- The unknown keys of the section of the repeated attempts do not matter. -/
theorem ofEntries?_withoutStray (h : ¬HasRefusedKey entries) :
    ofEntries? (withoutStray entries) = ofEntries? entries := by
  obtain ⟨htop, hrelational⟩ := not_or.1 h
  have hitem (key : String) :
      Entries.item? (Entries.keepUnder "postgres" relationalKeys entries) key = entries.item? key :=
    Entries.item?_keepUnder_of_not_hasStrayUnder hrelational
  -- What is left to be taken away stands in the last section.
  rw [withoutStray, Entries.keep_eq_self htop]
  apply ofEntries?_congr
  · rw [onlyKnown_keepUnder, onlyKnown_keepUnder]
  · intro key hkey
    rw [Entries.item?_keepUnder, hitem]
    simp [hkey]
  · rw [Entries.item?_keepUnder, hitem]
    cases entries.item? "retry" with
    | none => rfl
    | some item =>
        rw [Option.map_some, if_pos rfl, optional?, retryOf?_keep]
        rfl

end FileSettings

/-! ## Loading -/

namespace Settings

open FileSettings (HasRefusedKey ofEntries? withoutStray)

variable {files : Files} {path : String} {bytes : List UInt8} {text : List Char}
  {entries : Toml.Entries}

theorem load_of_parse (hread : files.read path = .ok bytes)
    (htext : Text.utf8Decode bytes = .ok text) (hparse : Toml.parse text = some entries) :
    load files path = match ofEntries? entries with
      | some file => .ok (standard.withFile file)
      | none => .error (unreadable path) := by
  cases hfile : ofEntries? entries <;> simp [load, hread, htext, FileSettings.parse?, hparse, hfile]

/-- A document with an unknown key at the top or in the section of the relational backend is refused,
whatever else it says. Otherwise it gives what it would give without its unknown keys: those in the
section of the repeated attempts are passed over. So a document is refused exactly if it has an unknown
key in the first two places, or would be refused without its unknown keys. -/
theorem load_eq_withoutStray (hread : files.read path = .ok bytes)
    (htext : Text.utf8Decode bytes = .ok text) (hparse : Toml.parse text = some entries) :
    (HasRefusedKey entries → load files path = .error (unreadable path)) ∧
    (¬HasRefusedKey entries → load files path = match ofEntries? (withoutStray entries) with
      | some file => .ok (standard.withFile file)
      | none => .error (unreadable path)) ∧
    (load files path = .error (unreadable path) ↔
      HasRefusedKey entries ∨ ofEntries? (withoutStray entries) = none) := by
  have hload := load_of_parse hread htext hparse
  have hrefused (h : HasRefusedKey entries) : load files path = .error (unreadable path) := by
    rw [hload, FileSettings.ofEntries?_of_hasRefusedKey h]
  have hkept (h : ¬HasRefusedKey entries) := FileSettings.ofEntries?_withoutStray h
  refine ⟨hrefused, fun h => by rw [hload, hkept h], ?_⟩
  by_cases h : HasRefusedKey entries
  · exact iff_of_true (hrefused h) (.inl h)
  · rw [hload, ← hkept h]
    cases ofEntries? (withoutStray entries) <;> simp [h]

/-- A document with a misspelt number of repeated attempts. -/
def misspeltDocument : List Char := "[retry]\nmax_retry = 9\n".toList

def misspeltEntries : Toml.Entries := [("retry", .table .declared [("max_retry", .integer 9)])]

def misspeltFiles : Files := Files.empty.put ["work", "c"] (.file (Text.utf8Encode misspeltDocument))

theorem read_misspeltFiles : misspeltFiles.read "c" = .ok (Text.utf8Encode misspeltDocument) := by
  have hcontent (content : List UInt8) :
      (Files.empty.put ["work", "c"] (.file content)).read "c" = .ok content := by cbv
  exact hcontent _

theorem parse_misspeltDocument : Toml.parse misspeltDocument = some misspeltEntries := by cbv

theorem not_hasRefusedKey_misspeltEntries : ¬HasRefusedKey misspeltEntries := by
  rw [HasRefusedKey, not_or]
  constructor
  · simp [Toml.Entries.HasStray, misspeltEntries, FileSettings.topKeys]
  · rintro ⟨origin, inner, hitem, -⟩
    cases hitem

/-- Without the misspelt key the section is empty, and gives the usual policy. -/
theorem load_eq_withoutStray_misspelt : misspeltFiles.read "c" = .ok (Text.utf8Encode misspeltDocument) ∧
    Text.utf8Decode (Text.utf8Encode misspeltDocument) = .ok misspeltDocument ∧
    Toml.parse misspeltDocument = some misspeltEntries ∧ ¬HasRefusedKey misspeltEntries ∧
    withoutStray misspeltEntries = [("retry", .table .declared [])] ∧
    load misspeltFiles "c" = .ok standard := by
  have hread := read_misspeltFiles
  have htext := Text.utf8Decode_utf8Encode misspeltDocument
  have hparse := parse_misspeltDocument
  have h := (load_eq_withoutStray hread htext hparse).2.1 not_hasRefusedKey_misspeltEntries
  exact ⟨hread, htext, hparse, not_hasRefusedKey_misspeltEntries, rfl, h⟩

/-- The misspelt key is in the document, and nothing is refused: the number of repeated attempts is the
usual one, and not the one that was written. -/
theorem misspeltRetries_ignored : Toml.parse misspeltDocument = some misspeltEntries ∧
    misspeltEntries.HasStrayUnder "retry" FileSettings.retryKeys ∧
    load misspeltFiles "c" = .ok standard ∧ standard.retry.maxRetries = 3 := by
  refine ⟨parse_misspeltDocument, ⟨.declared, [("max_retry", .integer 9)], rfl, ?_⟩, ?_, rfl⟩
  · exact ⟨("max_retry", .integer 9), List.mem_singleton_self _, by decide⟩
  · rw [load_of_parse read_misspeltFiles (Text.utf8Decode_utf8Encode _) parse_misspeltDocument]
    rfl

end Settings

end MetricLedger
