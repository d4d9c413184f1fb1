import Mathlib.Data.List.TakeWhile
import Mathlib.Tactic
import MetricLedger.Log.Mode

/-!
# What the texts of settings mean

The environment gives texts to switches, whole numbers and intervals. What a text means is said here
without its being read: a number by the place values of its digits, a switch by its spelling, and both
with blanks around them. The readers read the texts that mean something, as what they mean, and refuse
the others with the text as it was given.
-/

namespace MetricLedger

/-! ## Blanks around a word -/

namespace Text

/-- The text is the word with blanks around it. -/
def IsPadded (word cs : List Char) : Prop :=
  ∃ before after, cs = before ++ word ++ after ∧ (∀ c ∈ before, isBlank c = true) ∧
    ∀ c ∈ after, isBlank c = true

theorem trimEnd_append_blank {cs after : List Char} (h : ∀ c ∈ after, isBlank c = true) :
    trimEnd (cs ++ after) = trimEnd cs := by
  induction after using List.reverseRecOn with
  | nil => rw [List.append_nil]
  | append_singleton after c ih =>
      rw [← List.append_assoc, trimEnd_concat_of_blank (h c (by simp)),
        ih fun d hd => h d (List.mem_append_left _ hd)]

/-- A word that has no blank is what is left of it when blanks around it are trimmed. -/
theorem IsPadded.trim_eq {word cs : List Char} (h : IsPadded word cs)
    (hword : ∀ c ∈ word, isBlank c = false) : trim cs = word := by
  obtain ⟨before, after, rfl, hbefore, hafter⟩ := h
  have hstart : trimStart (before ++ word ++ after) = trimStart (word ++ after) := by
    rw [List.append_assoc]
    exact List.dropWhile_append_of_pos hbefore
  cases word with
  | nil =>
      have hnone : trimStart after = [] := trimStart_eq_nil_iff.2 (List.all_eq_true.2 hafter)
      rw [trim, hstart, List.nil_append, hnone]
      rfl
  | cons c word =>
      have hfilled : trimStart (c :: word ++ after) = c :: word ++ after := by
        apply trimStart_of_startsFilled
        rintro d ⟨⟩
        exact hword _ List.mem_cons_self
      rw [trim, hstart, hfilled, trimEnd_append_blank hafter]
      exact trimEnd_of_endsFilled fun d hd => hword d (List.mem_of_mem_getLast? hd)

/-- Every text is what is left of it when it is trimmed, with blanks around it. -/
theorem isPadded_trim (cs : List Char) : IsPadded (trim cs) cs := by
  refine ⟨cs.takeWhile isBlank, ((trimStart cs).reverse.takeWhile isBlank).reverse, ?_,
    fun c hc => List.mem_takeWhile_imp hc,
    fun c hc => List.mem_takeWhile_imp (List.mem_reverse.1 hc)⟩
  have hend : trimStart cs = trim cs ++ ((trimStart cs).reverse.takeWhile isBlank).reverse := by
    rw [trim, trimEnd, ← List.reverse_append, List.takeWhile_append_dropWhile, List.reverse_reverse]
  rw [List.append_assoc, ← hend]
  exact (List.takeWhile_append_dropWhile ..).symm

/-! ## Numerals -/

/-- Decimal digits, behind one plus sign or none, and the number that they stand for. -/
inductive IsNumeral : List Char → ℕ → Prop
  | digits {digits : List Char} (hne : digits ≠ []) (hdigits : ∀ c ∈ digits, c.isDigit = true) :
      IsNumeral digits (Nat.ofDigitChars 10 digits 0)
  | plus {digits : List Char} (hne : digits ≠ []) (hdigits : ∀ c ∈ digits, c.isDigit = true) :
      IsNumeral ('+' :: digits) (Nat.ofDigitChars 10 digits 0)

theorem le_ofDigitChars (cs : List Char) (acc : ℕ) : acc ≤ Nat.ofDigitChars 10 cs acc := by
  induction cs generalizing acc with
  | nil => exact le_rfl
  | cons c cs ih =>
      have hnext := ih (10 * acc + (c.toNat - '0'.toNat))
      rw [Nat.ofDigitChars_cons]
      omega

/-- Digits are read as the number that they stand for, if it is within the limit. -/
theorem readDigits_eq_ok_iff {limit acc n : ℕ} {beyond : NumeralFault} {cs : List Char}
    (hacc : acc ≤ limit) : readDigits limit beyond acc cs = .ok n ↔
      (∀ c ∈ cs, c.isDigit = true) ∧ n = Nat.ofDigitChars 10 cs acc ∧ n ≤ limit := by
  induction cs generalizing acc with
  | nil =>
      have hnil : Nat.ofDigitChars 10 [] acc = acc := rfl
      rw [readDigits, hnil, Except.ok.injEq]
      constructor
      · rintro rfl
        exact ⟨List.forall_mem_nil _, rfl, hacc⟩
      · rintro ⟨-, rfl, -⟩
        rfl
  | cons c cs ih =>
      have hvalue : Nat.ofDigitChars 10 (c :: cs) acc =
          Nat.ofDigitChars 10 cs (10 * acc + digitValue c) := Nat.ofDigitChars_cons
      rw [readDigits, hvalue, List.forall_mem_cons]
      by_cases hc : c.isDigit = true
      · rw [hc]
        by_cases hnext : limit < 10 * acc + digitValue c
        · have hle := le_ofDigitChars cs (10 * acc + digitValue c)
          simp only [Bool.not_true, Bool.false_eq_true, if_false, if_pos hnext]
          constructor
          · intro h
            cases h
          · rintro ⟨-, hn, hlimit⟩
            omega
        · simp only [Bool.not_true, Bool.false_eq_true, if_false, if_neg hnext, true_and]
          exact ih (Nat.le_of_not_lt hnext)
      · rw [Bool.not_eq_true] at hc
        rw [hc]
        constructor
        · intro h
          cases h
        · rintro ⟨⟨hdigit, -⟩, -⟩
          cases hdigit

theorem readNatural_eq_ok_iff {limit n : ℕ} {cs : List Char} :
    readNatural limit cs = .ok n ↔ IsNumeral cs n ∧ n ≤ limit := by
  have hread (ds : List Char) : readDigits limit .tooLarge 0 ds = .ok n ↔
      (∀ c ∈ ds, c.isDigit = true) ∧ n = Nat.ofDigitChars 10 ds 0 ∧ n ≤ limit :=
    readDigits_eq_ok_iff (Nat.zero_le limit)
  unfold readNatural
  split
  · refine ⟨nofun, fun ⟨h, _⟩ => ?_⟩
    cases h with
    | digits hne => exact absurd rfl hne
  · refine ⟨nofun, fun ⟨h, _⟩ => ?_⟩
    cases h with
    | digits _ hdigits => exact absurd (hdigits '+' List.mem_cons_self) (by decide)
    | plus hne => exact absurd rfl hne
  next ds hne =>
    rw [hread]
    constructor
    · rintro ⟨hdigits, rfl, hlimit⟩
      exact ⟨.plus (fun hds => hne (hds ▸ rfl)) hdigits, hlimit⟩
    · rintro ⟨h, hlimit⟩
      cases h with
      | digits _ hdigits => exact absurd (hdigits '+' List.mem_cons_self) (by decide)
      | plus _ hdigits => exact ⟨hdigits, rfl, hlimit⟩
  next hnil _ hplus =>
    rw [hread]
    constructor
    · rintro ⟨hdigits, rfl, hlimit⟩
      exact ⟨.digits hnil hdigits, hlimit⟩
    · rintro ⟨h, hlimit⟩
      cases h with
      | digits _ hdigits => exact ⟨hdigits, rfl, hlimit⟩
      | plus => exact absurd rfl (hplus _)

theorem isBlank_of_isDigit {c : Char} (h : c.isDigit = true) : isBlank c = false := by
  simp only [Char.isDigit, Bool.and_eq_true, decide_eq_true_eq] at h
  have hlow : 48 ≤ c.toNat := h.1
  have hhigh : c.toNat ≤ 57 := h.2
  simp only [isBlank, Bool.or_eq_false_iff, Bool.and_eq_false_iff, decide_eq_false_iff_not,
    beq_eq_false_iff_ne]
  omega

theorem IsNumeral.plus_or_isDigit {cs : List Char} {n : ℕ} (h : IsNumeral cs n) {c : Char}
    (hc : c ∈ cs) : c = '+' ∨ c.isDigit = true := by
  cases h with
  | digits _ hdigits => exact .inr (hdigits c hc)
  | plus _ hdigits => exact (List.mem_cons.1 hc).imp_right (hdigits c)

theorem IsNumeral.isBlank_eq_false {cs : List Char} {n : ℕ} (h : IsNumeral cs n) {c : Char}
    (hc : c ∈ cs) : isBlank c = false := by
  obtain rfl | hdigit := h.plus_or_isDigit hc
  · decide
  · exact isBlank_of_isDigit hdigit

/-! ## Letters -/

/-- A blank character is no letter, so it is its own lower case. -/
theorem toLower_of_isBlank {c : Char} (h : isBlank c = true) : c.toLower = c := by
  unfold Char.toLower
  split_ifs with hletter
  · exfalso
    have hlow : 65 ≤ c.toNat := hletter.1
    have hhigh : c.toNat ≤ 90 := hletter.2
    simp only [isBlank, Bool.or_eq_true, Bool.and_eq_true, decide_eq_true_eq, beq_iff_eq] at h
    omega
  · rfl

theorem isBlank_eq_false_of_toLower {c : Char} (h : isBlank c.toLower = false) :
    isBlank c = false := by
  by_contra hblank
  rw [Bool.not_eq_false] at hblank
  rw [toLower_of_isBlank hblank, hblank] at h
  cases h

end Text

/-! ## Meanings and readers -/

namespace Environment

/-- The text is a whole number of at most `limit`, with blanks around it. -/
def MeansNatural (limit : ℕ) (text : String) (n : ℕ) : Prop :=
  ∃ word, Text.IsPadded word text.toList ∧ Text.IsNumeral word n ∧ n ≤ limit

/-- The words for a switch that is on, and for one that is off. -/
def switchWords : Bool → List String
  | true => ["1", "true", "yes", "on"]
  | false => ["0", "false", "no", "off"]

/-- The text is a word for a switch, in small or capital letters, with blanks around it. -/
def MeansSwitch (text : String) (on : Bool) : Prop :=
  ∃ word, Text.IsPadded word text.toList ∧ String.ofList (word.map Char.toLower) ∈ switchWords on

/-- The text is a whole number of seconds of at most 64 bits, with or without an `s` behind it, and with
blanks around both. -/
def MeansInterval (text : String) (d : Duration) : Prop :=
  ∃ digits unit n, Text.IsPadded (digits ++ unit) text.toList ∧ (unit = [] ∨ unit = ['s']) ∧
    Text.IsNumeral digits n ∧ n ≤ Text.maxUnsigned64 ∧ d = .ofSeconds n

/-- The reader reads the texts that mean something, as what they mean, and refuses the others with the
name and the text. -/
structure Reads {α : Type} (name : String) (read : String → String → Except Failure α)
    (means : String → α → Prop) : Prop where
  ok_iff : ∀ text a, read name text = .ok a ↔ means text a
  refuses : ∀ text f, read name text = .error f → ∃ reason, f = refuse name text reason

theorem reads_natural (limit : ℕ) (name : String) :
    Reads name (natural limit) (MeansNatural limit) where
  ok_iff text n := by
    have hok : natural limit name text = .ok n ↔
        Text.readNatural limit (Text.trim text.toList) = .ok n := by
      unfold natural
      split
      next m hm => rw [hm, Except.ok.injEq, Except.ok.injEq]
      next fault hfault =>
        rw [hfault]
        exact ⟨nofun, nofun⟩
    rw [hok, Text.readNatural_eq_ok_iff]
    constructor
    · rintro ⟨hword, hn⟩
      exact ⟨_, Text.isPadded_trim _, hword, hn⟩
    · rintro ⟨word, hpadded, hword, hn⟩
      rw [hpadded.trim_eq fun _ => hword.isBlank_eq_false]
      exact ⟨hword, hn⟩
  refuses text f h := by
    unfold natural at h
    split at h
    · cases h
    · exact ⟨_, (Except.error.inj h).symm⟩

theorem isBlank_of_mem_switchWords {on : Bool} {word : String} (h : word ∈ switchWords on) :
    ∀ c ∈ word.toList, Text.isBlank c = false := by
  have hwords : ∀ word ∈ switchWords on, word.toList.all (!Text.isBlank ·) = true := by
    cases on <;> decide +kernel
  intro c hc
  have hfilled := List.all_eq_true.1 (hwords word h) c hc
  rwa [Bool.not_eq_true'] at hfilled

theorem switch_eq_ok_iff {name text : String} {on : Bool} : switch name text = .ok on ↔
    String.ofList ((Text.trim text.toList).map Char.toLower) ∈ switchWords on := by
  have hdisjoint : ∀ word ∈ switchWords true, word ∉ switchWords false := by decide +kernel
  suffices h : ∀ word, (if switchedOn.contains word then .ok true
      else if switchedOff.contains word then .ok false
      else .error (refuse name text " is not a boolean")) = (.ok on : Except Failure Bool) ↔
        word ∈ switchWords on from h _
  intro word
  have hon : switchedOn.contains word = true ↔ word ∈ switchWords true := List.contains_iff_mem
  have hoff : switchedOff.contains word = true ↔ word ∈ switchWords false := List.contains_iff_mem
  by_cases htrue : word ∈ switchWords true
  · rw [if_pos (hon.2 htrue)]
    cases on with
    | true => exact iff_of_true rfl htrue
    | false => exact iff_of_false nofun (hdisjoint word htrue)
  · rw [if_neg (mt hon.1 htrue)]
    by_cases hfalse : word ∈ switchWords false
    · rw [if_pos (hoff.2 hfalse)]
      cases on with
      | true => exact iff_of_false nofun htrue
      | false => exact iff_of_true rfl hfalse
    · rw [if_neg (mt hoff.1 hfalse)]
      cases on with
      | true => exact iff_of_false nofun htrue
      | false => exact iff_of_false nofun hfalse

theorem reads_switch (name : String) : Reads name switch MeansSwitch where
  ok_iff text on := by
    rw [switch_eq_ok_iff]
    constructor
    · intro hword
      exact ⟨_, Text.isPadded_trim _, hword⟩
    · rintro ⟨word, hpadded, hword⟩
      have hfilled : ∀ c ∈ word, Text.isBlank c = false := by
        intro c hc
        apply Text.isBlank_eq_false_of_toLower
        apply isBlank_of_mem_switchWords hword
        rw [String.toList_ofList]
        exact List.mem_map_of_mem hc
      rwa [hpadded.trim_eq hfilled]
  refuses text f h := by
    unfold switch at h
    simp only at h
    split_ifs at h
    exact ⟨_, (Except.error.inj h).symm⟩

/-! ## Intervals -/

theorem withoutSecondsUnit_append (cs : List Char) : withoutSecondsUnit (cs ++ ['s']) = cs := by
  simp [withoutSecondsUnit]

theorem withoutSecondsUnit_of_not_mem {cs : List Char} (h : 's' ∉ cs) :
    withoutSecondsUnit cs = cs := by
  unfold withoutSecondsUnit
  split
  next rest hrest =>
    exact absurd (List.mem_reverse.1 (by rw [hrest]; exact List.mem_cons_self)) h
  next => rfl

theorem exists_unit (cs : List Char) :
    ∃ unit, (unit = [] ∨ unit = ['s']) ∧ cs = withoutSecondsUnit cs ++ unit := by
  unfold withoutSecondsUnit
  split
  next rest hrest =>
    refine ⟨['s'], .inr rfl, ?_⟩
    rw [← List.reverse_cons, ← hrest, List.reverse_reverse]
  next => exact ⟨[], .inl rfl, (List.append_nil cs).symm⟩

theorem reads_interval :
    Reads "STORE_INTERVAL" (fun _ => parseStoreInterval) MeansInterval where
  ok_iff text d := by
    have hok : parseStoreInterval text = .ok d ↔ ∃ n, Text.readNatural Text.maxUnsigned64
        (withoutSecondsUnit (Text.trim text.toList)) = .ok n ∧ d = .ofSeconds n := by
      unfold parseStoreInterval
      simp only
      split
      next m hm =>
        rw [hm]
        simp only [Except.ok.injEq]
        exact ⟨fun h => ⟨m, rfl, h.symm⟩, fun ⟨n, hn, hd⟩ => by rw [hn, hd]⟩
      next fault hfault =>
        rw [hfault]
        exact ⟨nofun, fun ⟨_, h, _⟩ => nomatch h⟩
    rw [hok]
    simp only [Text.readNatural_eq_ok_iff]
    constructor
    · rintro ⟨n, ⟨hdigits, hn⟩, hd⟩
      obtain ⟨unit, hunit, htrim⟩ := exists_unit (Text.trim text.toList)
      refine ⟨_, unit, n, ?_, hunit, hdigits, hn, hd⟩
      rw [← htrim]
      exact Text.isPadded_trim _
    · rintro ⟨digits, unit, n, hpadded, hunit, hdigits, hn, hd⟩
      have hfilled : ∀ c ∈ digits ++ unit, Text.isBlank c = false := by
        intro c hc
        obtain hc | hc := List.mem_append.1 hc
        · exact hdigits.isBlank_eq_false hc
        · obtain rfl | rfl := hunit
          · cases hc
          · rw [List.mem_singleton.1 hc]
            decide
      have hwithout : withoutSecondsUnit (digits ++ unit) = digits := by
        obtain rfl | rfl := hunit
        · rw [List.append_nil]
          refine withoutSecondsUnit_of_not_mem fun hs => ?_
          obtain hs | hs := hdigits.plus_or_isDigit hs
          · exact absurd hs (by decide)
          · exact absurd hs (by decide)
        · exact withoutSecondsUnit_append digits
      rw [hpadded.trim_eq hfilled, hwithout]
      exact ⟨n, ⟨hdigits, hn⟩, hd⟩
  refuses text f h := by
    unfold parseStoreInterval at h
    simp only at h
    split at h
    · cases h
    · exact ⟨_, (Except.error.inj h).symm⟩

end Environment

end MetricLedger
