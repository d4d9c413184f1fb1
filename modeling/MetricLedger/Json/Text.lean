import MetricLedger.Json.Fault
import MetricLedger.Text.Numeral

/-!
# JSON strings

The reading of a string after its opening quote, strictly or only far enough to skip it, and the
writing of a string. Main statement: `readText_writeText`, every written string reads back.
-/

namespace MetricLedger.Json

/-- Reads something at the head of a text and returns what is left behind it. -/
abbrev Reader (α : Type) := List Char → Except Fault (α × List Char)

/-! ## Reading -/

/-- The value of four digits in base sixteen. -/
def fourHexValue? (a b c d : Char) : Option Nat := do
  let a ← Text.hexValue? a
  let b ← Text.hexValue? b
  let c ← Text.hexValue? c
  let d ← Text.hexValue? d
  some (((a * 16 + b) * 16 + c) * 16 + d)

/-- The number of bytes that a text takes. -/
def byteLength (cs : List Char) : Nat := (cs.map Char.utf8Size).foldr (· + ·) 0

/-- Reads four digits in base sixteen; a text of fewer than four bytes ends too early. -/
def readFourHex : Reader Nat
  | a :: b :: c :: d :: rest =>
      match fourHexValue? a b c d with
      | some n => .ok (n, rest)
      | none => .error .invalidEscape
  | short => .error (if byteLength short < 4 then .eofInString else .invalidEscape)

/-- Reads the second half of a surrogate pair whose first half is `high`. -/
def readLowSurrogate (high : Nat) : Reader Char
  | [] => .error .eofInString
  | ['\\'] => .error .eofInString
  | '\\' :: 'u' :: rest => do
      let (low, rest) ← readFourHex rest
      if low < 0xDC00 ∨ 0xDFFF < low then .error .loneSurrogate
      else .ok (Char.ofNat ((high - 0xD800) * 1024 + (low - 0xDC00) + 0x10000), rest)
  | _ => .error .unfinishedSurrogatePair

/-- The character that a one-letter escape stands for. -/
def shortEscape? (c : Char) : Option Char :=
  if c == '"' then some '"'
  else if c == '\\' then some '\\'
  else if c == '/' then some '/'
  else if c == 'b' then some '\x08'
  else if c == 'f' then some '\x0c'
  else if c == 'n' then some '\n'
  else if c == 'r' then some '\r'
  else if c == 't' then some '\t'
  else none

/-- Reads an escape behind its backslash. -/
def readEscape : Reader Char
  | [] => .error .eofInString
  | c :: rest =>
      if c == 'u' then do
        let (n, rest) ← readFourHex rest
        if 0xDC00 ≤ n ∧ n ≤ 0xDFFF then .error .loneSurrogate
        else if 0xD800 ≤ n ∧ n ≤ 0xDBFF then readLowSurrogate n rest
        else .ok (Char.ofNat n, rest)
      else
        match shortEscape? c with
        | some d => .ok (d, rest)
        | none => .error .invalidEscape

/-- Reads a string up to its closing quote, in at most `fuel` characters. -/
def readTextUpTo : Nat → Reader (List Char)
  | 0, _ => .error .eofInString
  | _ + 1, [] => .error .eofInString
  | fuel + 1, c :: cs =>
      if c == '"' then .ok ([], cs)
      else if c == '\\' then do
        let (d, rest) ← readEscape cs
        let (ds, rest) ← readTextUpTo fuel rest
        .ok (d :: ds, rest)
      else if c.toNat < 0x20 then .error .controlCharacter
      else do
        let (ds, rest) ← readTextUpTo fuel cs
        .ok (c :: ds, rest)

/-- Reads a string behind its opening quote. -/
def readText (cs : List Char) : Except Fault (List Char × List Char) :=
  readTextUpTo (cs.length + 1) cs

/-! ## Skipping -/

/-- Skips an escape behind its backslash; a surrogate may stand alone. -/
def skipEscape : List Char → Except Fault (List Char)
  | [] => .error .eofInString
  | c :: rest =>
      if c == 'u' then (·.2) <$> readFourHex rest
      else if (shortEscape? c).isSome then .ok rest
      else .error .invalidEscape

/-- Skips a string up to its closing quote, in at most `fuel` characters. -/
def skipTextUpTo : Nat → List Char → Except Fault (List Char)
  | 0, _ => .error .eofInString
  | _ + 1, [] => .error .eofInString
  | fuel + 1, c :: cs =>
      if c == '"' then .ok cs
      else if c == '\\' then do
        let rest ← skipEscape cs
        skipTextUpTo fuel rest
      else if c.toNat < 0x20 then .error .controlCharacter
      else skipTextUpTo fuel cs

/-- Skips a string behind its opening quote. -/
def skipText (cs : List Char) : Except Fault (List Char) := skipTextUpTo (cs.length + 1) cs

/-! ## Writing -/

/-- A digit in base sixteen, in lower case. -/
def hexDigit (n : Nat) : Char := Nat.digitChar n

/-- The written form of a character inside a string: only quotes, backslashes and the characters
below the space are escaped. -/
def writeChar (c : Char) : List Char :=
  if c == '"' then ['\\', '"']
  else if c == '\\' then ['\\', '\\']
  else if c == '\x08' then ['\\', 'b']
  else if c == '\t' then ['\\', 't']
  else if c == '\n' then ['\\', 'n']
  else if c == '\x0c' then ['\\', 'f']
  else if c == '\r' then ['\\', 'r']
  else if c.toNat < 0x20 then
    ['\\', 'u', '0', '0', hexDigit (c.toNat / 16), hexDigit (c.toNat % 16)]
  else [c]

/-- A string between its quotes. -/
def writeText (cs : List Char) : List Char := '"' :: (cs.flatMap writeChar ++ ['"'])

/-! ## Laws -/

theorem writeChar_ne_nil (c : Char) : writeChar c ≠ [] := by
  unfold writeChar
  repeat' split
  all_goals simp

/-- No written character breaks the line. -/
theorem newline_not_mem_writeChar (c : Char) : '\n' ∉ writeChar c := by
  unfold writeChar
  repeat' split
  all_goals try simp
  case _ h =>
    have h1 : c.toNat / 16 < 2 := by omega
    have h2 : c.toNat % 16 < 16 := by omega
    generalize c.toNat / 16 = a at h1
    generalize c.toNat % 16 = b at h2
    have ha : ∀ a < 2, '\n' ≠ hexDigit a := by decide
    have hb : ∀ b < 16, '\n' ≠ hexDigit b := by decide
    exact ⟨ha a h1, hb b h2⟩
  case _ h => rintro rfl; simp_all

theorem fourHexValue?_hexDigit {n : Nat} (h : n < 32) :
    fourHexValue? '0' '0' (hexDigit (n / 16)) (hexDigit (n % 16)) = some n := by
  have : ∀ n < 32, fourHexValue? '0' '0' (hexDigit (n / 16)) (hexDigit (n % 16)) = some n := by
    decide
  exact this n h

theorem readTextUpTo_escape {fuel : Nat} {cs rest : List Char} {c : Char}
    (h : readEscape cs = .ok (c, rest)) :
    readTextUpTo (fuel + 1) ('\\' :: cs) =
      (readTextUpTo fuel rest).map fun r => (c :: r.1, r.2) := by
  rw [readTextUpTo, if_neg (by decide), if_pos (by decide), h]
  simp only [bind, Except.bind]
  cases readTextUpTo fuel rest <;> rfl

theorem readEscape_of_shortEscape? {c d : Char} (rest : List Char) (hu : (c == 'u') = false)
    (h : shortEscape? c = some d) : readEscape (c :: rest) = .ok (d, rest) := by
  simp [readEscape, hu, h]

theorem readEscape_hexDigit {c : Char} (rest : List Char) (h : c.toNat < 0x20) :
    readEscape ('u' :: '0' :: '0' :: hexDigit (c.toNat / 16) :: hexDigit (c.toNat % 16) :: rest) =
      .ok (c, rest) := by
  have h1 : ¬(0xDC00 ≤ c.toNat ∧ c.toNat ≤ 0xDFFF) := by omega
  have h2 : ¬(0xD800 ≤ c.toNat ∧ c.toNat ≤ 0xDBFF) := by omega
  simp only [readEscape, readFourHex, fourHexValue?_hexDigit h, beq_self_eq_true, if_true, bind,
    Except.bind, if_neg h1, if_neg h2, Char.ofNat_toNat]

/-- A written character is read as itself. -/
theorem readTextUpTo_writeChar (fuel : Nat) (c : Char) (cs : List Char) :
    readTextUpTo (fuel + 1) (writeChar c ++ cs) =
      (readTextUpTo fuel cs).map fun r => (c :: r.1, r.2) := by
  unfold writeChar
  split
  next h => rw [beq_iff_eq.1 h]; exact readTextUpTo_escape (readEscape_of_shortEscape? _ rfl rfl)
  split
  next h => rw [beq_iff_eq.1 h]; exact readTextUpTo_escape (readEscape_of_shortEscape? _ rfl rfl)
  split
  next h => rw [beq_iff_eq.1 h]; exact readTextUpTo_escape (readEscape_of_shortEscape? _ rfl rfl)
  split
  next h => rw [beq_iff_eq.1 h]; exact readTextUpTo_escape (readEscape_of_shortEscape? _ rfl rfl)
  split
  next h => rw [beq_iff_eq.1 h]; exact readTextUpTo_escape (readEscape_of_shortEscape? _ rfl rfl)
  split
  next h => rw [beq_iff_eq.1 h]; exact readTextUpTo_escape (readEscape_of_shortEscape? _ rfl rfl)
  split
  next h => rw [beq_iff_eq.1 h]; exact readTextUpTo_escape (readEscape_of_shortEscape? _ rfl rfl)
  split
  next h => exact readTextUpTo_escape (readEscape_hexDigit _ h)
  next h1 h2 _ _ _ _ _ h =>
    rw [List.singleton_append, readTextUpTo, if_neg h1, if_neg h2, if_neg h]
    cases readTextUpTo fuel cs <;> rfl

theorem readTextUpTo_flatMap (cs rest : List Char) {fuel : Nat} (h : cs.length ≤ fuel) :
    readTextUpTo (fuel + 1) (cs.flatMap writeChar ++ '"' :: rest) = .ok (cs, rest) := by
  induction cs generalizing fuel with
  | nil => rfl
  | cons c cs ih =>
      obtain ⟨fuel, rfl⟩ : ∃ n, fuel = n + 1 := ⟨fuel - 1, by simp at h; omega⟩
      rw [List.flatMap_cons, List.append_assoc, readTextUpTo_writeChar,
        ih (by simpa using h)]
      rfl

theorem length_le_length_flatMap_writeChar (cs : List Char) :
    cs.length ≤ (cs.flatMap writeChar).length := by
  induction cs with
  | nil => simp
  | cons c cs ih =>
      have := List.length_pos_iff.2 (writeChar_ne_nil c)
      simp only [List.flatMap_cons, List.length_append, List.length_cons]
      omega

/-- A written string reads back, whatever follows it. -/
theorem readText_writeText (cs rest : List Char) :
    readText (cs.flatMap writeChar ++ '"' :: rest) = .ok (cs, rest) := by
  refine readTextUpTo_flatMap cs rest ?_
  have := length_le_length_flatMap_writeChar cs
  simp only [List.length_append]
  omega

end MetricLedger.Json
