import MetricLedger.Text.Blank

/-!
# Pieces of a text

The parts of a text between the occurrences of a mark, the part in front of the first mark, and the
words between the blank characters.
-/

namespace MetricLedger.Text

/-- The parts of a text between the marks, empty ones included. -/
def pieces (mark : Char) : List Char → List (List Char)
  | [] => [[]]
  | c :: cs => if c = mark then [] :: pieces mark cs else (pieces mark cs).modifyHead (c :: ·)

/-- The part in front of the first character that stops it, and the rest from there on. -/
def cut? (stops : Char → Bool) (cs : List Char) : Option (List Char × List Char) :=
  match cs.dropWhile (!stops ·) with
  | [] => none
  | rest => some (cs.takeWhile (!stops ·), rest)

/-- The parts in front of and behind the first mark. -/
def cutAround? (mark : Char) (cs : List Char) : Option (List Char × List Char) :=
  (cut? (· == mark) cs).map fun (before, rest) => (before, rest.drop 1)

/-- The text with one space in place of every run of blank characters inside, and none outside. -/
def singleSpaced (cs : List Char) : List Char :=
  let step (c : Char) (rest : List Char) : List Char :=
    if !isBlank c then c :: rest
    else
      match rest with
      | ' ' :: _ => rest
      | _ => ' ' :: rest
  (trim cs).foldr step []

/-- The word stands somewhere in the text. -/
def holds (word : List Char) : List Char → Bool
  | [] => word.isEmpty
  | c :: cs => word.isPrefixOf (c :: cs) || holds word cs

/-! ## Laws -/

theorem pieces_ne_nil (mark : Char) (cs : List Char) : pieces mark cs ≠ [] := by
  induction cs with
  | nil => simp [pieces]
  | cons c cs ih =>
      unfold pieces
      split
      · simp
      · cases h : pieces mark cs <;> simp_all

theorem not_mem_of_mem_pieces {mark : Char} {cs piece : List Char} (h : piece ∈ pieces mark cs) :
    mark ∉ piece := by
  induction cs generalizing piece with
  | nil => simp only [pieces, List.mem_singleton] at h; simp [h]
  | cons c cs ih =>
      unfold pieces at h
      split at h
      · rcases List.mem_cons.1 h with rfl | h
        · simp
        · exact ih h
      next hc =>
        cases hp : pieces mark cs with
        | nil => exact absurd hp (pieces_ne_nil mark cs)
        | cons first rest =>
            rw [hp] at h ih
            rcases List.mem_cons.1 h with rfl | h
            · simpa [Ne.symm hc] using ih (List.mem_cons_self ..)
            · exact ih (List.mem_cons_of_mem _ h)

/-- The pieces with the marks between them are the text. -/
theorem intercalate_pieces (mark : Char) (cs : List Char) :
    [mark].intercalate (pieces mark cs) = cs := by
  induction cs with
  | nil => rfl
  | cons c cs ih =>
      unfold pieces
      split
      next hc =>
        cases hp : pieces mark cs with
        | nil => exact absurd hp (pieces_ne_nil mark cs)
        | cons first rest => rw [hp] at ih; simp [List.intercalate, hc, ← ih]
      next hc =>
        cases hp : pieces mark cs with
        | nil => exact absurd hp (pieces_ne_nil mark cs)
        | cons first rest =>
            rw [hp] at ih
            cases rest <;> simp_all [List.intercalate]

end MetricLedger.Text
