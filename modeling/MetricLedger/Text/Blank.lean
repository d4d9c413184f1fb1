/-!
# Blank characters

The characters that count as white space in names of settings, in values taken from the
environment and in lines of a log, with the trimming of a text at both ends.
-/

namespace MetricLedger.Text

/-- The characters of the Unicode property `White_Space`. -/
def isBlank (c : Char) : Bool :=
  let n := c.toNat
  (9 ≤ n && n ≤ 13) || n == 0x20 || n == 0x85 || n == 0xA0 || n == 0x1680 ||
    (0x2000 ≤ n && n ≤ 0x200A) || n == 0x2028 || n == 0x2029 || n == 0x202F ||
    n == 0x205F || n == 0x3000

def trimStart (cs : List Char) : List Char := cs.dropWhile isBlank

def trimEnd (cs : List Char) : List Char := (cs.reverse.dropWhile isBlank).reverse

/-- The text without the blank characters at its two ends. -/
def trim (cs : List Char) : List Char := trimEnd (trimStart cs)

/-- The text holds blank characters only. -/
def allBlank (cs : List Char) : Bool := cs.all isBlank

/-- The text with the letters `A` to `Z` in lower case and every other character kept. -/
def lowerAscii (cs : List Char) : List Char := cs.map Char.toLower

/-- The first character, if there is one, is no blank. -/
def StartsFilled (cs : List Char) : Prop := ∀ c ∈ cs.head?, isBlank c = false

/-- The last character, if there is one, is no blank. -/
def EndsFilled (cs : List Char) : Prop := ∀ c ∈ cs.getLast?, isBlank c = false

/-! ## Laws -/

theorem trimStart_eq_nil_iff {cs : List Char} : trimStart cs = [] ↔ allBlank cs := by
  induction cs with
  | nil => simp [trimStart, allBlank]
  | cons c cs ih => by_cases h : isBlank c <;> simp_all [trimStart, allBlank]

theorem trimStart_trimStart (cs : List Char) : trimStart (trimStart cs) = trimStart cs := by
  induction cs with
  | nil => rfl
  | cons c cs ih => by_cases h : isBlank c <;> simp_all [trimStart]

theorem allBlank_trimStart_iff {cs : List Char} : allBlank (trimStart cs) ↔ allBlank cs := by
  rw [← trimStart_eq_nil_iff, trimStart_trimStart, trimStart_eq_nil_iff]

/-- A text trims to nothing exactly when it holds blank characters only. -/
theorem trim_eq_nil_iff {cs : List Char} : trim cs = [] ↔ allBlank cs := by
  have h : trim cs = [] ↔ trimStart (trimStart cs).reverse = [] := by
    simp [trim, trimEnd, trimStart]
  have hr : allBlank (trimStart cs).reverse ↔ allBlank (trimStart cs) := by simp [allBlank]
  rw [h, trimStart_eq_nil_iff, hr, allBlank_trimStart_iff]

theorem trimStart_of_startsFilled {cs : List Char} (h : StartsFilled cs) : trimStart cs = cs := by
  cases cs with
  | nil => rfl
  | cons c cs => exact List.dropWhile_cons_of_neg (by simp [h c rfl])

theorem trimEnd_of_endsFilled {cs : List Char} (h : EndsFilled cs) : trimEnd cs = cs := by
  have hreverse : StartsFilled cs.reverse := by
    intro c hc
    exact h c (by rwa [List.head?_reverse] at hc)
  have hstart : cs.reverse.dropWhile isBlank = cs.reverse := trimStart_of_startsFilled hreverse
  rw [trimEnd, hstart, List.reverse_reverse]

theorem trimEnd_concat_of_blank {cs : List Char} {c : Char} (h : isBlank c = true) :
    trimEnd (cs ++ [c]) = trimEnd cs := by
  simp [trimEnd, h]

theorem EndsFilled.append {xs ys : List Char} (hxs : EndsFilled xs) (hys : EndsFilled ys) :
    EndsFilled (xs ++ ys) := by
  intro c hc
  rw [List.getLast?_append, Option.mem_def, Option.or_eq_some_iff] at hc
  obtain hc | ⟨-, hc⟩ := hc
  · exact hys c hc
  · exact hxs c hc

theorem EndsFilled.of_append (xs : List Char) {ys : List Char} (h : EndsFilled (xs ++ ys)) :
    EndsFilled ys := by
  intro c hc
  apply h c
  rw [List.getLast?_append, Option.mem_def, Option.or_eq_some_iff]
  exact .inl hc

end MetricLedger.Text
