import MetricLedger.Metric
import MetricLedger.Relational.Fault
import MetricLedger.Text.Numeral
import MetricLedger.Text.Utf8

/-!
# Rows

A row of an answer is a list of columns, each with a name, a type and a cell. A column is found by
its exact name, or else by its name in any mixture of upper and lower case letters. Of the rows of a
name only the first one counts: each name is kept once (`mem_names_latestUnseen_iff`,
`nodup_names_latestUnseen`), by the item that stands before all others of it
(`eq_or_of_mem_latestUnseen`).
-/

namespace MetricLedger.Relational

inductive ColumnType where
  | text
  /-- The type of the names of tables and columns. -/
  | name
  | int4
  | int8
  | float8
  | bool
  deriving DecidableEq, Repr

/-- What a row holds in a column. -/
inductive Cell where
  | null
  | text (bytes : List UInt8)
  | integer (value : Int)
  | number (value : Binary64)
  | flag (value : Bool)
  deriving DecidableEq, Repr

/-- A column of a row. -/
structure Column where
  name : String
  type : ColumnType
  cell : Cell
  deriving DecidableEq, Repr

/-- A row of an answer. -/
abbrev Row := List Column

namespace Column

def text? (c : Column) : Option String :=
  match c.type, c.cell with
  | .text, .text bytes | .name, .text bytes =>
      (Text.utf8Decode bytes).toOption.map String.ofList
  | _, _ => none

/-- The number of a column of integers of 64 bits. -/
def int64? (c : Column) : Option Int64 :=
  match c.type, c.cell with
  | .int8, .integer n => some (Int64.ofInt n)
  | _, _ => none

/-- The number of a column of integers of 32 bits. -/
def int32? (c : Column) : Option Int :=
  match c.type, c.cell with
  | .int4, .integer n => some n
  | _, _ => none

def number? (c : Column) : Option Binary64 :=
  match c.type, c.cell with
  | .float8, .number x => some x
  | _, _ => none

/-- The truth value of a column. -/
def flag? (c : Column) : Option Bool :=
  match c.type, c.cell with
  | .bool, .flag b => some b
  | _, _ => none

end Column

namespace Row

variable {α : Type}

/-- The place of the column of a name. -/
def indexOf? (row : Row) (name : String) : Option Nat :=
  (row.findIdx? fun c => c.name == name).or
    (row.findIdx? fun c => Text.lowerAscii c.name.toList == Text.lowerAscii name.toList)

/-- Reads the cell at a place; `name` is what the place was asked for by. -/
def readAt (read : Column → Option α) (row : Row) (name : String) (index : Nat) :
    Except ClientFault α :=
  match row[index]? with
  | none => .error (.noColumn name)
  | some c =>
      match read c with
      | some a => .ok a
      | none => .error (.cell index)

def readFirst (read : Column → Option α) (row : Row) : Except ClientFault α :=
  readAt read row "0" 0

def readNamed (read : Column → Option α) (row : Row) (name : String) : Except ClientFault α :=
  match row.indexOf? name with
  | some index => readAt read row name index
  | none => .error (.noColumn name)

def single : List Row → Except ClientFault Row
  | [row] => .ok row
  | _ => .error .rowCount

def single? : List Row → Except ClientFault (Option Row)
  | [] => .ok none
  | [row] => .ok (some row)
  | _ => .error .rowCount

/-- Reads a counter. -/
def counter (row : Row) : Except Failure Counter := do
  let name ← (row.readNamed Column.text? "name").mapError (·.rowFailure "decode_counter")
  let value ← (row.readNamed Column.int64? "value").mapError (·.rowFailure "decode_counter")
  .ok ⟨name, value⟩

/-- Reads a gauge. -/
def gauge (row : Row) : Except Failure Gauge := do
  let name ← (row.readNamed Column.text? "name").mapError (·.rowFailure "decode_gauge")
  let value ← (row.readNamed Column.number? "value").mapError (·.rowFailure "decode_gauge")
  .ok ⟨name, value⟩

end Row

/-- The items whose name is neither among the seen ones nor that of an earlier item. -/
def latestUnseen {α : Type} (name : α → String) : List String → List α → List α
  | _, [] => []
  | seen, a :: rest =>
      if seen.contains (name a) then latestUnseen name seen rest
      else a :: latestUnseen name (name a :: seen) rest

def latestPerName {α : Type} (name : α → String) (items : List α) : List α :=
  latestUnseen name [] items

/-! ## Laws -/

section Latest

variable {α β : Type} {name : α → String} {seen : List String} {a b : α} {items : List α}

theorem latestUnseen_cons_of_mem (h : name a ∈ seen) :
    latestUnseen name seen (a :: items) = latestUnseen name seen items := by
  rw [latestUnseen, if_pos (List.contains_iff_mem.2 h)]

theorem latestUnseen_cons_of_not_mem (h : name a ∉ seen) :
    latestUnseen name seen (a :: items) = a :: latestUnseen name (name a :: seen) items := by
  rw [latestUnseen, if_neg fun hseen => h (List.contains_iff_mem.1 hseen)]

theorem latestUnseen_sublist (name : α → String) (seen : List String) (items : List α) :
    (latestUnseen name seen items).Sublist items := by
  induction items generalizing seen with
  | nil => exact List.Sublist.refl []
  | cons a items ih =>
      by_cases h : name a ∈ seen
      · rw [latestUnseen_cons_of_mem h]
        exact (ih seen).cons a
      · rw [latestUnseen_cons_of_not_mem h]
        exact (ih (name a :: seen)).cons_cons a

/-- Of the names exactly those are kept that were not seen yet. -/
theorem mem_names_latestUnseen_iff {n : String} :
    n ∈ (latestUnseen name seen items).map name ↔ n ∈ items.map name ∧ n ∉ seen := by
  -- For all seen names at once, as each item that is kept adds its own.
  induction items generalizing seen with
  | nil => simp [latestUnseen]
  | cons a items ih =>
      by_cases h : name a ∈ seen
      · rw [latestUnseen_cons_of_mem h, ih, List.map_cons, List.mem_cons]
        refine and_congr_left fun hn => (or_iff_right ?_).symm
        rintro rfl
        exact hn h
      · rw [latestUnseen_cons_of_not_mem h, List.map_cons, List.mem_cons, ih]
        by_cases hn : n = name a <;> simp [hn, h]

theorem nodup_names_latestUnseen (name : α → String) (seen : List String) (items : List α) :
    ((latestUnseen name seen items).map name).Nodup := by
  induction items generalizing seen with
  | nil => exact List.nodup_nil
  | cons a items ih =>
      by_cases h : name a ∈ seen
      · rw [latestUnseen_cons_of_mem h]
        exact ih seen
      · rw [latestUnseen_cons_of_not_mem h]
        refine List.nodup_cons.2 ⟨fun ha => ?_, ih (name a :: seen)⟩
        exact (mem_names_latestUnseen_iff.1 ha).2 List.mem_cons_self

/-- Names that are all different are each the latest of their kind. -/
theorem latestUnseen_of_nodup (name : α → String) (hnodup : (items.map name).Nodup)
    (hseen : ∀ a ∈ items, name a ∉ seen) : latestUnseen name seen items = items := by
  induction items generalizing seen with
  | nil => rfl
  | cons a items ih =>
      obtain ⟨ha, hitems⟩ := List.nodup_cons.1 hnodup
      rw [latestUnseen_cons_of_not_mem (hseen a List.mem_cons_self), ih hitems]
      intro b hb hmem
      rcases List.mem_cons.1 hmem with heq | hmem
      · exact ha (heq ▸ List.mem_map_of_mem hb)
      · exact hseen b (List.mem_cons_of_mem _ hb) hmem

/-- An item that is kept stands before all others of its name. -/
theorem eq_or_of_mem_latestUnseen {before : α → α → Prop} (h : items.Pairwise before)
    (ha : a ∈ latestUnseen name seen items) (hb : b ∈ items) (hname : name b = name a) :
    b = a ∨ before a b := by
  induction items generalizing seen with
  | nil => cases hb
  | cons first items ih =>
      obtain ⟨hfirst, hitems⟩ := List.pairwise_cons.1 h
      have hunseen {seen : List String} (ha : a ∈ latestUnseen name seen items) : name b ∉ seen :=
        hname ▸ (mem_names_latestUnseen_iff.1 (List.mem_map_of_mem ha)).2
      by_cases hseen : name first ∈ seen
      · rw [latestUnseen_cons_of_mem hseen] at ha
        rcases List.mem_cons.1 hb with rfl | hb
        · exact absurd hseen (hunseen ha)
        · exact ih hitems ha hb
      · rw [latestUnseen_cons_of_not_mem hseen] at ha
        rcases List.mem_cons.1 ha with rfl | ha
        · exact (List.mem_cons.1 hb).imp id (hfirst b)
        · rcases List.mem_cons.1 hb with rfl | hb
          · exact absurd List.mem_cons_self (hunseen ha)
          · exact ih hitems ha hb

/-- What belongs to an item beside its name has no part in the choice. -/
theorem latestUnseen_map (name : α → String) (f : β → α) (seen : List String) (items : List β) :
    latestUnseen name seen (items.map f) =
      (latestUnseen (fun b => name (f b)) seen items).map f := by
  induction items generalizing seen with
  | nil => rfl
  | cons b items ih =>
      rw [List.map_cons, latestUnseen, latestUnseen]
      split
      next => exact ih seen
      next => rw [List.map_cons, ih]

/-- The latest items of all names stay as they are. -/
theorem latestPerName_latestPerName (name : α → String) (items : List α) :
    latestPerName name (latestPerName name items) = latestPerName name items :=
  latestUnseen_of_nodup name (nodup_names_latestUnseen name [] items) (by simp)

end Latest

end MetricLedger.Relational
