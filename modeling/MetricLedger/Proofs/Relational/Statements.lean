import Mathlib.Tactic
import MetricLedger.Relational.Migration

/-!
# The statements of a migration

A migration is executed with the table prefix in place of the marks of its template, piece by piece
between the semicolons. Which statements these are is said here without filling or splitting a text:
the parts between the marks, and the pieces between the semicolons, are those that give the text when
they are put together again. Main statement: `hasStatements_iff`, a migration has the statements that
it is split into, and no others.
-/

namespace MetricLedger

/-! ## Pieces with marks between them -/

namespace Text

theorem pieces_eq_splitOn (mark : Char) (cs : List Char) : pieces mark cs = cs.splitOn mark := by
  induction cs with
  | nil => rfl
  | cons c cs ih =>
      rw [pieces, ih, List.splitOn_cons_eq_if_modifyHead]
      simp only [beq_iff_eq]

/-- Parts without the mark are the pieces of the text that has marks between them. -/
theorem pieces_intercalate {mark : Char} {parts : List (List Char)} (h : ∀ part ∈ parts, mark ∉ part)
    (hparts : parts ≠ []) : pieces mark ([mark].intercalate parts) = parts := by
  rw [pieces_eq_splitOn, List.splitOn_intercalate mark h hparts]

theorem intercalate_cons_cons_left (mark : List Char) (c : Char) (part : List Char)
    (parts : List (List Char)) :
    mark.intercalate ((c :: part) :: parts) = c :: mark.intercalate (part :: parts) := by
  cases parts with
  | nil => rw [List.intercalate_singleton, List.intercalate_singleton]
  | cons next parts =>
      rw [List.intercalate_cons_cons, List.intercalate_cons_cons, List.append_assoc,
        List.append_assoc, List.cons_append]

theorem prefix_intercalate (mark part : List Char) (parts : List (List Char)) :
    part <+: mark.intercalate (part :: parts) := by
  cases parts with
  | nil => rw [List.intercalate_singleton]
  | cons next parts =>
      rw [List.intercalate_cons_cons, List.append_assoc]
      exact List.prefix_append _ _

end Text

namespace Relational

open Text

namespace Migration

/-! ## Filled templates -/

variable {filling : List Char}

theorem prefixMark_eq : prefixMark = ['\x7b', 'p', 'r', 'e', 'f', 'i', 'x', '\x7d'] := rfl

theorem eq_mark_append {c : Char} {cs : List Char} (h : prefixMark.isPrefixOf (c :: cs) = true) :
    c :: cs = prefixMark ++ cs.drop (prefixMark.length - 1) := by
  obtain ⟨rest, hrest⟩ := List.isPrefixOf_iff_prefix.1 h
  have hdrop : (c :: cs).drop prefixMark.length = rest := by rw [← hrest, List.drop_left]
  rw [← hrest, ← hdrop]
  rfl

theorem fill_of_mark (filling cs : List Char) :
    fill filling (prefixMark ++ cs) = filling ++ fill filling cs := by
  have hprefix : prefixMark.isPrefixOf (prefixMark ++ cs) = true :=
    List.isPrefixOf_iff_prefix.2 (List.prefix_append _ _)
  rw [prefixMark_eq, List.cons_append] at hprefix ⊢
  rw [fill, prefixMark_eq, if_pos hprefix]
  rfl

theorem fill_of_no_mark (filling : List Char) {c : Char} {cs : List Char}
    (h : ¬prefixMark <+: c :: cs) : fill filling (c :: cs) = c :: fill filling cs := by
  rw [fill, if_neg]
  rwa [List.isPrefixOf_iff_prefix]

/-- A template is empty, or it starts with a mark, or with a character that starts no mark. -/
theorem template_induction {motive : List Char → Prop} (nil : motive [])
    (mark : ∀ cs, motive cs → motive (prefixMark ++ cs))
    (char : ∀ c cs, ¬prefixMark <+: c :: cs → motive cs → motive (c :: cs)) (cs : List Char) :
    motive cs := by
  induction cs using fill.induct with
  | case1 => exact nil
  | case2 c cs h ih =>
      rw [eq_mark_append h]
      exact mark _ ih
  | case3 c cs h ih => exact char c cs (by rwa [List.isPrefixOf_iff_prefix] at h) ih

theorem prefix_of_append_cons (xs : List Char) {c : Char} (hc : c ∉ prefixMark) {ys : List Char}
    (h : prefixMark <+: xs ++ c :: ys) : prefixMark <+: xs := by
  by_cases hlength : prefixMark.length ≤ xs.length
  · exact List.prefix_of_prefix_length_le h (List.prefix_append _ _) hlength
  · have hlonger : xs ++ [c] <+: prefixMark := by
      have hbeginning : xs ++ [c] <+: xs ++ c :: ys := by simp
      apply List.prefix_of_prefix_length_le hbeginning h
      rw [List.length_append, List.length_singleton]
      omega
    exact absurd (hlonger.subset (by simp)) hc

/-- A character that no mark holds ends what is filled before it. -/
theorem fill_append_cons (filling : List Char) {c : Char} (hc : c ∉ prefixMark) (xs ys : List Char) :
    fill filling (xs ++ c :: ys) = fill filling xs ++ c :: fill filling ys := by
  induction xs using template_induction with
  | nil =>
      have hnone : ¬prefixMark <+: c :: ys := by
        intro h
        exact absurd (prefix_of_append_cons [] hc h) (by decide)
      rw [List.nil_append, fill_of_no_mark filling hnone, fill, List.nil_append]
  | mark cs ih =>
      rw [List.append_assoc, fill_of_mark, fill_of_mark, ih, List.append_assoc]
  | char d cs hd ih =>
      have hnone : ¬prefixMark <+: d :: (cs ++ c :: ys) := fun h =>
        hd (prefix_of_append_cons (d :: cs) hc h)
      rw [List.cons_append, fill_of_no_mark filling hnone, fill_of_no_mark filling hd, ih,
        List.cons_append]

theorem fill_intercalate (filling : List Char) {c : Char} (hc : c ∉ prefixMark)
    (parts : List (List Char)) :
    fill filling ([c].intercalate parts) = [c].intercalate (parts.map (fill filling)) := by
  induction parts with
  | nil => rw [List.intercalate_nil, fill, List.map_nil, List.intercalate_nil]
  | cons part parts ih =>
      by_cases hparts : parts = []
      · subst hparts
        rw [List.intercalate_singleton, List.map_singleton, List.intercalate_singleton]
      · have hmap : parts.map (fill filling) ≠ [] := by simpa using hparts
        rw [List.map_cons, List.intercalate_cons_of_ne_nil hparts,
          List.intercalate_cons_of_ne_nil hmap, List.append_assoc, List.append_assoc,
          List.singleton_append, fill_append_cons filling hc, ih, List.singleton_append]

theorem mem_or_mem_of_mem_fill {c : Char} {cs : List Char} (h : c ∈ fill filling cs) :
    c ∈ filling ∨ c ∈ cs := by
  induction cs using template_induction with
  | nil => rw [fill] at h; cases h
  | mark cs ih =>
      rw [fill_of_mark, List.mem_append] at h
      obtain h | h := h
      · exact .inl h
      · exact (ih h).imp_right (List.mem_append_right _)
  | char d cs hd ih =>
      rw [fill_of_no_mark filling hd, List.mem_cons] at h
      obtain rfl | h := h
      · exact .inr List.mem_cons_self
      · exact (ih h).imp_right (List.mem_cons_of_mem _)

/-! ## Parts between marks -/

/-- No mark starts in front of a mark and ends inside it. -/
theorem prefix_of_append_mark {xs ys : List Char} (hxs : xs ≠ [])
    (h : prefixMark <+: xs ++ (prefixMark ++ ys)) : prefixMark <+: xs := by
  by_cases hlength : prefixMark.length ≤ xs.length
  · exact List.prefix_of_prefix_length_le h (List.prefix_append _ _) hlength
  · -- A mark would hold its own first character a second time.
    have hlonger : xs ++ ['\x7b'] <+: prefixMark := by
      have hbeginning : xs ++ ['\x7b'] <+: xs ++ (prefixMark ++ ys) := by simp [prefixMark_eq]
      apply List.prefix_of_prefix_length_le hbeginning h
      rw [List.length_append, List.length_singleton]
      omega
    obtain ⟨x, xs, rfl⟩ := List.exists_cons_of_ne_nil hxs
    obtain ⟨rest, hrest⟩ := hlonger
    have hmem : '\x7b' ∈ prefixMark.tail := by
      rw [← hrest]
      simp
    exact absurd hmem (by decide)

theorem fill_of_free (filling : List Char) {part : List Char} (h : ¬prefixMark <:+: part) :
    fill filling part = part := by
  induction part with
  | nil => rw [fill]
  | cons c part ih =>
      rw [fill_of_no_mark filling fun hmark => h hmark.isInfix,
        ih fun hmark => h (List.infix_cons hmark)]

theorem fill_append_mark (filling : List Char) {part : List Char} (h : ¬prefixMark <:+: part)
    (cs : List Char) :
    fill filling (part ++ (prefixMark ++ cs)) = part ++ (filling ++ fill filling cs) := by
  induction part with
  | nil => exact fill_of_mark filling cs
  | cons c part ih =>
      have hnone : ¬prefixMark <+: c :: (part ++ (prefixMark ++ cs)) := fun hmark =>
        h (prefix_of_append_mark (List.cons_ne_nil c part) hmark).isInfix
      rw [List.cons_append, fill_of_no_mark filling hnone, ih fun hmark => h (List.infix_cons hmark),
        List.cons_append]

/-- A text of parts with marks between them is filled by putting the filling between the parts. -/
theorem fill_intercalate_mark (filling : List Char) {parts : List (List Char)}
    (h : ∀ part ∈ parts, ¬prefixMark <:+: part) :
    fill filling (prefixMark.intercalate parts) = filling.intercalate parts := by
  induction parts with
  | nil => rw [List.intercalate_nil, fill, List.intercalate_nil]
  | cons part parts ih =>
      obtain ⟨hpart, hparts⟩ := List.forall_mem_cons.1 h
      cases parts with
      | nil => rw [List.intercalate_singleton, List.intercalate_singleton, fill_of_free filling hpart]
      | cons next parts =>
          rw [List.intercalate_cons_cons, List.intercalate_cons_cons, List.append_assoc,
            fill_append_mark filling hpart, ih hparts, List.append_assoc]

/-- Every text is parts without a mark, with marks between them. -/
theorem exists_parts (cs : List Char) :
    ∃ parts, prefixMark.intercalate parts = cs ∧ ∀ part ∈ parts, ¬prefixMark <:+: part := by
  -- The first part starts every character that starts no mark, so the parts are never none.
  suffices h : ∃ first parts, prefixMark.intercalate (first :: parts) = cs ∧
      ∀ part ∈ first :: parts, ¬prefixMark <:+: part by
    obtain ⟨first, parts, h⟩ := h
    exact ⟨first :: parts, h⟩
  induction cs using template_induction with
  | nil => exact ⟨[], [], rfl, by decide⟩
  | mark cs ih =>
      obtain ⟨first, parts, hcs, hfree⟩ := ih
      refine ⟨[], first :: parts, ?_, List.forall_mem_cons.2 ⟨by decide, hfree⟩⟩
      rw [List.intercalate_cons_cons, hcs, List.nil_append]
  | char c cs hc ih =>
      obtain ⟨first, parts, hcs, hfree⟩ := ih
      obtain ⟨hfirst, hparts⟩ := List.forall_mem_cons.1 hfree
      refine ⟨c :: first, parts, by rw [intercalate_cons_cons_left, hcs],
        List.forall_mem_cons.2 ⟨fun hmark => ?_, hparts⟩⟩
      obtain hmark | hmark := List.infix_cons_iff.1 hmark
      · apply hc
        rw [← hcs, ← intercalate_cons_cons_left]
        exact hmark.trans (prefix_intercalate _ _ _)
      · exact hfirst hmark

/-! ## Statements between semicolons -/

/-- Parts without a semicolon, trimmed, with the blank ones left out, are the statements of the text
that has semicolons between them. -/
theorem statementsOf_intercalate {parts : List (List Char)} (h : ∀ part ∈ parts, ';' ∉ part) :
    statementsOf ([';'].intercalate parts) = (parts.map trim).filter (!·.isEmpty) := by
  by_cases hparts : parts = []
  · subst hparts
    decide
  · rw [statementsOf, pieces_intercalate h hparts]

/-- These texts are what a migration executes with a table prefix. Its template is parts with marks
between them, and with the prefix between them the parts are pieces with semicolons between them; the
texts are the pieces without the blanks at their ends, in their order, blank ones left out. -/
def HasStatements (m : Migration) (tablePrefix : String) (texts : List String) : Prop :=
  ∃ parts pieces : List (List Char),
    prefixMark.intercalate parts = m.template.toList ∧ (∀ part ∈ parts, ¬prefixMark <:+: part) ∧
    [';'].intercalate pieces = tablePrefix.toList.intercalate parts ∧
    (∀ piece ∈ pieces, ';' ∉ piece) ∧
    texts = ((pieces.map trim).filter (!·.isEmpty)).map String.ofList

/-- A migration executes the statements that it is split into, and no others. -/
theorem hasStatements_iff {m : Migration} {tablePrefix : String} {texts : List String} :
    m.HasStatements tablePrefix texts ↔ texts = m.statements tablePrefix := by
  constructor
  · rintro ⟨parts, pieces, htemplate, hfree, hpieces, hunmarked, rfl⟩
    rw [statements, ← htemplate, fill_intercalate_mark _ hfree, ← hpieces,
      statementsOf_intercalate hunmarked]
  · rintro rfl
    obtain ⟨parts, htemplate, hfree⟩ := exists_parts m.template.toList
    refine ⟨parts, pieces ';' (fill tablePrefix.toList m.template.toList), htemplate, hfree, ?_,
      fun piece => not_mem_of_mem_pieces, rfl⟩
    rw [intercalate_pieces, ← htemplate, fill_intercalate_mark _ hfree]

/-- One after the other, migrations execute the statements that they are split into. -/
theorem forall₂_hasStatements_iff {ms : List Migration} {tablePrefix : String}
    {texts : List (List String)} :
    List.Forall₂ (fun m => m.HasStatements tablePrefix) ms texts ↔
      texts = ms.map (·.statements tablePrefix) := by
  rw [eq_comm, ← List.forall₂_eq_eq_eq, List.forall₂_map_left_iff]
  exact ⟨fun h => h.imp fun _ _ h => (hasStatements_iff.1 h).symm,
    fun h => h.imp fun _ _ h => hasStatements_iff.2 h.symm⟩

end Migration

end Relational

end MetricLedger
