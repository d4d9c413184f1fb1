import Mathlib.Tactic
import MetricLedger.Session

/-!
# Storages without a log in a session

The writers of a session work without regard to a storage that has no log: another one may stand in
its place. Main statement: `settle_withStorage`.
-/

namespace MetricLedger.Session

variable {τ : Type} {s : Session τ} {name : String} {o o' : OpenStorage}

theorem lookup_cons_eq {α : Type} (name other : String) (a : α) (names : List (String × α)) :
    ((name, a) :: names).lookup other = if other = name then some a else names.lookup other := by
  rw [List.lookup_cons]
  by_cases h : other = name
  · simp [h]
  · rw [beq_false_of_ne h, if_neg h]

theorem lookup_putName {α : Type} (name other : String) (a : α) (names : List (String × α)) :
    (putName name a names).lookup other = if other = name then some a else names.lookup other := by
  induction names with
  | nil => rw [putName, lookup_cons_eq]
  | cons entry names ih =>
      obtain ⟨n, b⟩ := entry
      by_cases hn : n = name
      · rw [putName, if_pos hn, lookup_cons_eq, lookup_cons_eq, hn]
        split_ifs <;> rfl
      · rw [putName, if_neg hn, lookup_cons_eq, lookup_cons_eq, ih]
        by_cases h : other = n
        · rw [if_pos h, if_pos h, if_neg (h ▸ hn)]
        · rw [if_neg h, if_neg h]

theorem putName_comm {α : Type} {first second : String} (hne : first ≠ second) (a b : α)
    (names : List (String × α)) (hfirst : (names.lookup first).isSome)
    (hsecond : (names.lookup second).isSome) :
    putName first a (putName second b names) = putName second b (putName first a names) := by
  induction names with
  | nil => simp at hfirst
  | cons entry names ih =>
      obtain ⟨n, c⟩ := entry
      by_cases hf : n = first
      · simp [putName, hf, hne]
      · by_cases hs : n = second
        · simp [putName, hs, Ne.symm hne]
        · rw [lookup_cons_eq, if_neg (Ne.symm hf)] at hfirst
          rw [lookup_cons_eq, if_neg (Ne.symm hs)] at hsecond
          simp [putName, hf, hs, ih hfirst hsecond]

theorem putName_keys {α : Type} {name : String} (a : α) {names : List (String × α)}
    (h : (names.lookup name).isSome) : (putName name a names).map Prod.fst = names.map Prod.fst := by
  induction names with
  | nil => simp at h
  | cons entry names ih =>
      obtain ⟨n, b⟩ := entry
      by_cases hn : n = name
      · simp [putName, hn]
      · rw [lookup_cons_eq, if_neg (Ne.symm hn)] at h
        simp [putName, hn, ih h]

theorem storage?_withStorage (s : Session τ) (name other : String) (o : OpenStorage) :
    (s.withStorage name o).storage? other = if other = name then some o else s.storage? other :=
  lookup_putName name other o s.storages

theorem pipeline?_withStorage (hthere : s.storage? name = some o) (ho : o.storage.log? = none)
    (ho' : o'.storage.log? = none) (w : WriterName) :
    (s.withStorage name o').pipeline? w = s.pipeline? w := by
  cases w with
  | ofLog n => rfl
  | ofStorage n =>
      rw [pipeline?, pipeline?, storage?_withStorage]
      by_cases hn : n = name
      · simp [hn, hthere, ho, ho']
      · rw [if_neg hn]

/-! ## Writers -/

theorem withPipeline_withStorage (hthere : s.storage? name = some o) (ho : o.storage.log? = none)
    (o' : OpenStorage) {w : WriterName} {p : Log.Pipeline} (hw : s.pipeline? w = some p)
    (q : Log.Pipeline) :
    (s.withStorage name o').withPipeline w q = (s.withPipeline w q).withStorage name o' ∧
      (s.withPipeline w q).storage? name = some o := by
  cases w with
  | ofLog n =>
      cases hlog : s.log? n with
      | none => simp [pipeline?, hlog] at hw
      | some found =>
          have hlog' : (s.withStorage name o').log? n = some found := hlog
          rw [withPipeline, withPipeline, hlog, hlog']
          exact ⟨rfl, hthere⟩
  | ofStorage n =>
      cases hfound : s.storage? n with
      | none => simp [pipeline?, hfound] at hw
      | some found =>
          have hne : n ≠ name := by
            rintro rfl
            obtain rfl := Option.some.inj (hfound.symm.trans hthere)
            simp [pipeline?, hfound, ho] at hw
          have hfound' : (s.withStorage name o').storage? n = some found := by
            rw [storage?_withStorage, if_neg hne, hfound]
          have hfirst : (s.storages.lookup n).isSome := by rw [← storage?, hfound]; rfl
          have hsecond : (s.storages.lookup name).isSome := by rw [← storage?, hthere]; rfl
          rw [withPipeline, withPipeline, hfound, hfound', Option.elim_some, Option.elim_some,
            storage?_withStorage, if_neg (Ne.symm hne)]
          refine ⟨?_, hthere⟩
          simp only [withStorage, putName_comm hne _ _ _ hfirst hsecond]

/-- A writer works without regard to a storage that has no log. -/
theorem letWork_withStorage (work : Log.Pipeline → Files → Log.Pipeline × Files)
    (hthere : s.storage? name = some o) (ho : o.storage.log? = none) (ho' : o'.storage.log? = none)
    (w : WriterName) :
    letWork work (s.withStorage name o') w = (letWork work s w).withStorage name o' ∧
      (letWork work s w).storage? name = some o := by
  rw [letWork, letWork, pipeline?_withStorage hthere ho ho']
  cases hw : s.pipeline? w with
  | none => exact ⟨rfl, hthere⟩
  | some p =>
      obtain ⟨hcomm, hkeeps⟩ := withPipeline_withStorage hthere ho o' hw (work p s.files).1
      have hfiles : (s.withStorage name o').files = s.files := rfl
      simp only [hfiles, hcomm]
      exact ⟨rfl, hkeeps⟩

theorem foldl_letWork_withStorage (work : Log.Pipeline → Files → Log.Pipeline × Files)
    (hthere : s.storage? name = some o) (ho : o.storage.log? = none) (ho' : o'.storage.log? = none)
    (ws : List WriterName) :
    ws.foldl (letWork work) (s.withStorage name o') =
        (ws.foldl (letWork work) s).withStorage name o' ∧
      (ws.foldl (letWork work) s).storage? name = some o := by
  induction ws generalizing s with
  | nil => exact ⟨rfl, hthere⟩
  | cons w ws ih =>
      obtain ⟨hwork, hkeeps⟩ := letWork_withStorage work hthere ho ho' w
      rw [List.foldl_cons, List.foldl_cons, hwork]
      exact ih hkeeps

theorem writers_withStorage (hthere : s.storage? name = some o) (o' : OpenStorage) :
    (s.withStorage name o').writers = s.writers := by
  have hkeys : (putName name o' s.storages).map Prod.fst = s.storages.map Prod.fst :=
    putName_keys o' (by rw [← storage?, hthere]; rfl)
  have hmap := congrArg (List.map WriterName.ofStorage) hkeys
  rw [List.map_map, List.map_map] at hmap
  exact congrArg (· ++ s.logs.map (.ofLog ·.1)) hmap

/-- The writers do the same whatever stands in the place of a storage without a log. -/
theorem settle_withStorage (hthere : s.storage? name = some o) (ho : o.storage.log? = none)
    (ho' : o'.storage.log? = none) :
    (s.withStorage name o').settle = s.settle.withStorage name o' := by
  rw [settle, writers_withStorage hthere]
  exact (foldl_letWork_withStorage _ hthere ho ho' _).1

theorem storage?_pause (hthere : s.storage? name = some o) (ho : o.storage.log? = none) :
    s.pause.storage? name = some o := by
  have hsettle := (foldl_letWork_withStorage Log.Pipeline.settle hthere ho ho s.writers).2
  exact (foldl_letWork_withStorage _ hsettle ho ho _).2

end MetricLedger.Session
