/-!
# Tables

A table maps names to values and lists them in the order of the names, each name once. Two tables
with the same look-ups are the same table.
-/

namespace MetricLedger

/-- A finite map from names to values, in the order of the names. -/
structure Table (α : Type) where
  entries : List (String × α)
  sorted : entries.Pairwise fun a b => a.1 < b.1

namespace Table

variable {α : Type}

/-! ## Lists in the order of the names -/

/-- Puts a value under a name; an earlier value of that name is replaced. -/
def insertEntry (name : String) (v : α) : List (String × α) → List (String × α)
  | [] => [(name, v)]
  | (n, w) :: rest =>
      if name < n then (name, v) :: (n, w) :: rest
      else if name = n then (name, v) :: rest
      else (n, w) :: insertEntry name v rest

def valueAt? (name : String) : List (String × α) → Option α
  | [] => none
  | (n, w) :: rest => if name = n then some w else valueAt? name rest

theorem mem_insertEntry {name : String} {v : α} {l : List (String × α)} {e : String × α}
    (h : e ∈ insertEntry name v l) : e.1 = name ∨ e ∈ l := by
  induction l with
  | nil => simp only [insertEntry, List.mem_singleton] at h; exact .inl (by rw [h])
  | cons a l ih =>
      simp only [insertEntry] at h
      split at h
      · rcases List.mem_cons.1 h with h | h
        · exact .inl (by rw [h])
        · exact .inr h
      · split at h
        · rcases List.mem_cons.1 h with h | h
          · exact .inl (by rw [h])
          · exact .inr (List.mem_cons_of_mem _ h)
        · rcases List.mem_cons.1 h with h | h
          · exact .inr (h ▸ List.mem_cons_self)
          · exact (ih h).imp id (List.mem_cons_of_mem _)

theorem lt_of_not_lt_of_ne {a b : String} (h : ¬a < b) (hne : a ≠ b) : b < a := by
  rcases String.le_total a b with hab | hba
  · exact absurd (String.le_antisymm hab (String.not_lt.1 h)) hne
  · exact String.not_le.1 fun hab => hne (String.le_antisymm hab hba)

theorem pairwise_insertEntry (name : String) (v : α) {l : List (String × α)}
    (h : l.Pairwise fun a b => a.1 < b.1) :
    (insertEntry name v l).Pairwise fun a b => a.1 < b.1 := by
  induction l with
  | nil => simp [insertEntry]
  | cons a l ih =>
      obtain ⟨hal, hl⟩ := List.pairwise_cons.1 h
      simp only [insertEntry]
      split
      next hlt =>
        refine List.pairwise_cons.2 ⟨fun b hb => ?_, h⟩
        rcases List.mem_cons.1 hb with rfl | hb
        · exact hlt
        · exact String.lt_trans hlt (hal b hb)
      next hlt =>
        split
        next heq => exact List.pairwise_cons.2 ⟨fun b hb => heq ▸ hal b hb, hl⟩
        next hne =>
          refine List.pairwise_cons.2 ⟨fun b hb => ?_, ih hl⟩
          rcases mem_insertEntry hb with hb | hb
          · exact hb ▸ lt_of_not_lt_of_ne hlt hne
          · exact hal b hb

/-! ## Operations -/

/-- The table without any name. -/
def empty : Table α := ⟨[], List.Pairwise.nil⟩

def get? (t : Table α) (name : String) : Option α := valueAt? name t.entries

/-- The table with a value put under a name. -/
def insert (t : Table α) (name : String) (v : α) : Table α :=
  ⟨insertEntry name v t.entries, pairwise_insertEntry name v t.sorted⟩

def erase (t : Table α) (name : String) : Table α :=
  ⟨t.entries.filter (·.1 != name), t.sorted.filter _⟩

/-- The table in which a name has the given value, or none. -/
def set (t : Table α) (name : String) : Option α → Table α
  | some v => t.insert name v
  | none => t.erase name

/-! ## Laws -/

theorem valueAt?_insertEntry (name other : String) (v : α) (l : List (String × α)) :
    valueAt? other (insertEntry name v l) =
      if other = name then some v else valueAt? other l := by
  induction l with
  | nil => rfl
  | cons a l ih =>
      simp only [insertEntry]
      split
      · rfl
      · split
        next heq =>
          subst heq
          simp only [valueAt?]
          split <;> simp_all
        next hne =>
          simp only [valueAt?, ih]
          split
          next h => rw [if_neg (h ▸ fun h => hne h.symm)]
          next => rfl

theorem get?_insert (t : Table α) (name other : String) (v : α) :
    (t.insert name v).get? other = if other = name then some v else t.get? other :=
  valueAt?_insertEntry name other v t.entries

theorem valueAt?_filter (name other : String) (l : List (String × α)) :
    valueAt? other (l.filter (·.1 != name)) =
      if other = name then none else valueAt? other l := by
  induction l with
  | nil => simp [valueAt?]
  | cons a l ih => by_cases h : a.1 = name <;> grind [valueAt?]

theorem get?_erase (t : Table α) (name other : String) :
    (t.erase name).get? other = if other = name then none else t.get? other :=
  valueAt?_filter name other t.entries

theorem get?_set (t : Table α) (name other : String) (v : Option α) :
    (t.set name v).get? other = if other = name then v else t.get? other := by
  cases v with
  | none => exact get?_erase t name other
  | some v => exact get?_insert t name other v

theorem valueAt?_eq_none_of_lt {name : String} {l : List (String × α)}
    (h : ∀ e ∈ l, name < e.1) : valueAt? name l = none := by
  induction l with
  | nil => rfl
  | cons a l ih =>
      have ha : name ≠ a.1 := fun heq => String.lt_irrefl a.1 (heq ▸ h a List.mem_cons_self)
      rw [valueAt?, if_neg ha]
      exact ih fun e he => h e (List.mem_cons_of_mem _ he)

/-- In the order of the names, the entries are the look-ups. -/
theorem mem_iff_valueAt? {l : List (String × α)} (h : l.Pairwise fun a b => a.1 < b.1)
    {name : String} {v : α} : (name, v) ∈ l ↔ valueAt? name l = some v := by
  induction l with
  | nil => simp [valueAt?]
  | cons a l ih =>
      obtain ⟨hal, hl⟩ := List.pairwise_cons.1 h
      by_cases hn : name = a.1
      · subst hn
        have hno : (a.1, v) ∉ l := fun hm => String.lt_irrefl a.1 (hal (a.1, v) hm)
        simp only [List.mem_cons, hno, or_false, valueAt?, if_true, Option.some.injEq]
        constructor
        · intro he; rw [← he]
        · intro he; rw [← he]
      · have hne : (name, v) ≠ a := fun he => hn (by rw [← he])
        simp only [List.mem_cons, hne, false_or, valueAt?, if_neg hn]
        exact ih hl

theorem mem_entries_iff {t : Table α} {name : String} {v : α} :
    (name, v) ∈ t.entries ↔ t.get? name = some v :=
  mem_iff_valueAt? t.sorted

/-- A table lists every name once. -/
theorem nodup_names (t : Table α) : (t.entries.map (·.1)).Nodup := by
  refine List.Pairwise.map _ (fun a b hab => ?_) t.sorted
  exact fun heq => String.lt_irrefl b.1 (heq ▸ hab)

theorem eq_of_valueAt?_eq {l m : List (String × α)} (hl : l.Pairwise fun a b => a.1 < b.1)
    (hm : m.Pairwise fun a b => a.1 < b.1) (h : ∀ name, valueAt? name l = valueAt? name m) :
    l = m := by
  induction l generalizing m with
  | nil =>
      cases m with
      | nil => rfl
      | cons b m => have := h b.1; simp [valueAt?] at this
  | cons a l ih =>
      cases m with
      | nil => have := h a.1; simp [valueAt?] at this
      | cons b m =>
          obtain ⟨hal, hl'⟩ := List.pairwise_cons.1 hl
          obtain ⟨hbm, hm'⟩ := List.pairwise_cons.1 hm
          have hfirst : a.1 = b.1 := by
            refine Decidable.byContradiction fun hne => ?_
            by_cases hlt : a.1 < b.1
            · have h1 := h a.1
              rw [valueAt?_eq_none_of_lt (l := b :: m) (fun e he => ?_)] at h1
              · simp [valueAt?] at h1
              · rcases List.mem_cons.1 he with rfl | he
                · exact hlt
                · exact String.lt_trans hlt (hbm e he)
            · have hgt := lt_of_not_lt_of_ne hlt hne
              have h1 := h b.1
              rw [valueAt?_eq_none_of_lt (l := a :: l) (fun e he => ?_)] at h1
              · simp [valueAt?] at h1
              · rcases List.mem_cons.1 he with rfl | he
                · exact hgt
                · exact String.lt_trans hgt (hal e he)
          have hvalue : a.2 = b.2 := by
            have h1 := h a.1
            simpa [valueAt?, hfirst] using h1
          have hrest : l = m := by
            refine ih hl' hm' fun name => ?_
            by_cases hn : name = a.1
            · rw [valueAt?_eq_none_of_lt (fun e he => hn ▸ hal e he),
                valueAt?_eq_none_of_lt (fun e he => hn ▸ hfirst ▸ hbm e he)]
            · have h1 := h name
              simpa [valueAt?, hn, hfirst ▸ hn] using h1
          rw [hrest, Prod.ext hfirst hvalue]

/-- Two tables with the same look-ups are the same. -/
theorem ext_get? {t u : Table α} (h : ∀ name, t.get? name = u.get? name) : t = u := by
  obtain ⟨l, hl⟩ := t
  obtain ⟨m, hm⟩ := u
  have : l = m := eq_of_valueAt?_eq hl hm h
  subst this
  rfl

/-- Putting back the value that a name had undoes any change of it. -/
theorem set_set_get? (t : Table α) (name : String) (v : Option α) :
    (t.set name v).set name (t.get? name) = t := by
  refine ext_get? fun other => ?_
  rw [get?_set, get?_set]
  split
  next h => rw [h]
  next => rfl

end Table

end MetricLedger
