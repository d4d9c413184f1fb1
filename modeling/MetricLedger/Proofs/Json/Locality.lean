import Mathlib.Data.List.DropRight
import Mathlib.Data.List.TakeWhile
import Mathlib.Tactic
import MetricLedger.Json.Fields

/-!
# Reading does not look ahead

What is read at the head of a text stays the same when more text is put behind it. Of a number this
holds only if something is left, since more digits may follow; what ends with a bracket or a quote
may be the end of the text. Main statements: `readValue_local`, `Shape.parse_append_of_space` and
`Shape.parse_append_error`, behind a whole value there is room for blank space and nothing else.
-/

namespace MetricLedger.Json

/-- What is left of a text is left with more text behind it, if that follows the text. -/
def Closed {α : Type} (read : Reader α) : Prop :=
  ∀ cs a rest more, read cs = .ok (a, rest) → read (cs ++ more) = .ok (a, rest ++ more)

/-- So it is if something is left. -/
def Local {α : Type} (read : Reader α) : Prop :=
  ∀ cs a rest more, read cs = .ok (a, rest) → rest ≠ [] →
    read (cs ++ more) = .ok (a, rest ++ more)

theorem Closed.local {α : Type} {read : Reader α} (h : Closed read) : Local read :=
  fun cs a rest more hread _ => h cs a rest more hread

variable {α β : Type} {cs rest more : List Char}

theorem ok_of_bind {x : Except Fault α} {f : α → Except Fault β} {b : β}
    (h : (x >>= f) = .ok b) : ∃ a, x = .ok a ∧ f a = .ok b := by
  cases x with
  | error fault => cases h
  | ok a => exact ⟨a, rfl, h⟩

theorem bind_of_ok {x : Except Fault α} {a : α} (h : x = .ok a) (f : α → Except Fault β) :
    (x >>= f) = f a := by
  rw [h]
  rfl

/-! ## Blank space and words -/

theorem skipSpace_append {c : Char} (h : skipSpace cs = c :: rest) (more : List Char) :
    skipSpace (cs ++ more) = c :: (rest ++ more) := by
  induction cs with
  | nil => cases h
  | cons d cs ih =>
      rw [skipSpace, List.dropWhile_cons] at h
      rw [List.cons_append, skipSpace, List.dropWhile_cons]
      split_ifs at h ⊢
      · exact ih h
      · rw [← List.cons_append, h, List.cons_append]

theorem skipSpace_eq_nil (h : cs.all isSpace = true) : skipSpace cs = [] :=
  List.dropWhile_eq_nil_iff.2 (List.all_eq_true.1 h)

theorem skipSpace_append_of_nil (h : skipSpace cs = []) (more : List Char) :
    skipSpace (cs ++ more) = skipSpace more := by
  induction cs with
  | nil => rfl
  | cons d cs ih =>
      rw [skipSpace, List.dropWhile_cons] at h
      rw [List.cons_append, skipSpace, List.dropWhile_cons]
      split_ifs at h ⊢
      exact ih h

theorem skipSpace_skipSpace (cs : List Char) : skipSpace (skipSpace cs) = skipSpace cs :=
  List.dropWhile_idempotent _ _

/-- A value is read behind any blank space. -/
theorem readValue_congr {depth : ℕ} {ds : List Char} (h : skipSpace cs = skipSpace ds) :
    readValue depth cs = readValue depth ds := by
  cases depth <;> rw [readValue, readValueWith, readValueWith, h]

/-- What is read behind blank space starts with a character. -/
theorem ok_of_skipSpace {fault : Fault} {f : Char → List Char → Except Fault α} {a : α}
    (h : (match skipSpace cs with
      | [] => Except.error fault
      | c :: rest => f c rest) = .ok a) :
    ∃ c tail, skipSpace cs = c :: tail ∧ f c tail = .ok a := by
  cases hcs : skipSpace cs with
  | nil =>
      rw [hcs] at h
      cases h
  | cons c tail =>
      rw [hcs] at h
      exact ⟨c, tail, rfl, h⟩

theorem expectWord_append {word : List Char} (h : expectWord word cs = .ok rest)
    (more : List Char) : expectWord word (cs ++ more) = .ok (rest ++ more) := by
  induction word generalizing cs with
  | nil =>
      obtain rfl := Except.ok.inj h
      rfl
  | cons w ws ih =>
      cases cs with
      | nil => cases h
      | cons c cs =>
          rw [expectWord] at h
          rw [List.cons_append, expectWord]
          split_ifs at h ⊢
          exact ih h

theorem expectColon_append (h : expectColon cs = .ok rest) (more : List Char) :
    expectColon (cs ++ more) = .ok (rest ++ more) := by
  unfold expectColon at h ⊢
  obtain ⟨c, tail, hcs, h⟩ := ok_of_skipSpace h
  rw [skipSpace_append hcs]
  simp only at h ⊢
  split_ifs at h ⊢
  rw [Except.ok.inj h]

/-! ## Strings -/

theorem readFourHex_closed : Closed readFourHex := by
  intro cs n rest more h
  unfold readFourHex at h
  split at h
  next a b c d tail =>
    split at h
    next hvalue =>
      obtain ⟨rfl, rfl⟩ := Prod.mk.inj (Except.ok.inj h)
      simp only [List.cons_append, readFourHex, hvalue]
    next => cases h
  next => cases h

theorem readLowSurrogate_closed (high : ℕ) : Closed (readLowSurrogate high) := by
  intro cs c rest more h
  unfold readLowSurrogate at h
  split at h
  next => cases h
  next => cases h
  next tail =>
    obtain ⟨⟨low, tail'⟩, hlow, hrest⟩ := ok_of_bind h
    simp only at hrest
    split_ifs at hrest with hrange
    obtain ⟨rfl, rfl⟩ := Prod.mk.inj (Except.ok.inj hrest)
    rw [List.cons_append, List.cons_append, readLowSurrogate,
      bind_of_ok (readFourHex_closed _ _ _ more hlow)]
    simp only [if_neg hrange]
  next => cases h

theorem readEscape_closed : Closed readEscape := by
  intro cs d rest more h
  cases cs with
  | nil => cases h
  | cons c cs =>
      rw [readEscape] at h
      rw [List.cons_append, readEscape]
      by_cases hu : (c == 'u') = true
      · rw [if_pos hu] at h ⊢
        obtain ⟨⟨n, tail⟩, hn, hrest⟩ := ok_of_bind h
        rw [bind_of_ok (readFourHex_closed _ _ _ more hn)]
        simp only at hrest ⊢
        split_ifs at hrest ⊢
        · exact readLowSurrogate_closed n _ _ _ more hrest
        · obtain ⟨rfl, rfl⟩ := Prod.mk.inj (Except.ok.inj hrest)
          rfl
      · rw [if_neg hu] at h ⊢
        cases hshort : shortEscape? c with
        | none =>
            rw [hshort] at h
            cases h
        | some e =>
            rw [hshort] at h
            obtain ⟨rfl, rfl⟩ := Prod.mk.inj (Except.ok.inj h)
            rfl

theorem readTextUpTo_append {fuel fuel' : ℕ} (hle : fuel ≤ fuel') {text : List Char}
    (h : readTextUpTo fuel cs = .ok (text, rest)) (more : List Char) :
    readTextUpTo fuel' (cs ++ more) = .ok (text, rest ++ more) := by
  induction fuel generalizing fuel' cs text with
  | zero => cases h
  | succ fuel ih =>
      obtain ⟨fuel', rfl⟩ : ∃ n, fuel' = n + 1 := ⟨fuel' - 1, by omega⟩
      have hle' : fuel ≤ fuel' := by omega
      cases cs with
      | nil => cases h
      | cons c cs =>
          rw [readTextUpTo] at h
          rw [List.cons_append, readTextUpTo]
          by_cases hquote : (c == '"') = true
          · rw [if_pos hquote] at h ⊢
            obtain ⟨rfl, rfl⟩ := Prod.mk.inj (Except.ok.inj h)
            rfl
          · rw [if_neg hquote] at h ⊢
            split_ifs at h ⊢
            · obtain ⟨⟨d, tail⟩, hescape, hrest⟩ := ok_of_bind h
              obtain ⟨⟨ds, tail'⟩, htext, hend⟩ := ok_of_bind hrest
              obtain ⟨rfl, rfl⟩ := Prod.mk.inj (Except.ok.inj hend)
              rw [bind_of_ok (readEscape_closed _ _ _ more hescape)]
              simp only
              rw [bind_of_ok (ih hle' htext)]
            · obtain ⟨⟨ds, tail'⟩, htext, hend⟩ := ok_of_bind h
              obtain ⟨rfl, rfl⟩ := Prod.mk.inj (Except.ok.inj hend)
              rw [bind_of_ok (ih hle' htext)]

theorem readText_closed : Closed readText := by
  intro cs text rest more h
  refine readTextUpTo_append ?_ h more
  rw [List.length_append]
  omega

theorem skipEscape_append (h : skipEscape cs = .ok rest) (more : List Char) :
    skipEscape (cs ++ more) = .ok (rest ++ more) := by
  cases cs with
  | nil => cases h
  | cons c cs =>
      rw [skipEscape] at h
      rw [List.cons_append, skipEscape]
      by_cases hu : (c == 'u') = true
      · rw [if_pos hu] at h ⊢
        cases hhex : readFourHex cs with
        | error fault =>
            rw [hhex] at h
            cases h
        | ok r =>
            rw [hhex] at h
            rw [readFourHex_closed _ _ _ more hhex]
            obtain rfl := Except.ok.inj h
            rfl
      · rw [if_neg hu] at h ⊢
        split_ifs at h ⊢
        rw [Except.ok.inj h]

theorem skipTextUpTo_append {fuel fuel' : ℕ} (hle : fuel ≤ fuel')
    (h : skipTextUpTo fuel cs = .ok rest) (more : List Char) :
    skipTextUpTo fuel' (cs ++ more) = .ok (rest ++ more) := by
  induction fuel generalizing fuel' cs with
  | zero => cases h
  | succ fuel ih =>
      obtain ⟨fuel', rfl⟩ : ∃ n, fuel' = n + 1 := ⟨fuel' - 1, by omega⟩
      have hle' : fuel ≤ fuel' := by omega
      cases cs with
      | nil => cases h
      | cons c cs =>
          rw [skipTextUpTo] at h
          rw [List.cons_append, skipTextUpTo]
          by_cases hquote : (c == '"') = true
          · rw [if_pos hquote] at h ⊢
            rw [Except.ok.inj h]
          · rw [if_neg hquote] at h ⊢
            split_ifs at h ⊢
            · obtain ⟨tail, hescape, hrest⟩ := ok_of_bind h
              rw [bind_of_ok (skipEscape_append hescape more)]
              exact ih hle' hrest
            · exact ih hle' h

theorem skipText_append (h : skipText cs = .ok rest) (more : List Char) :
    skipText (cs ++ more) = .ok (rest ++ more) := by
  refine skipTextUpTo_append ?_ h more
  rw [List.length_append]
  omega

/-! ## Numbers -/

theorem splitDigits_append_of_rest {digits : List Char} (h : splitDigits cs = (digits, rest))
    (hrest : rest ≠ []) (more : List Char) : splitDigits (cs ++ more) = (digits, rest ++ more) := by
  induction cs generalizing digits with
  | nil => exact absurd (Prod.mk.inj h).2.symm hrest
  | cons c cs ih =>
      simp only [splitDigits, List.dropWhile_cons, List.takeWhile_cons, List.cons_append] at h ih ⊢
      split_ifs at h ⊢
      · obtain ⟨rfl, hdrop⟩ := Prod.mk.inj h
        obtain ⟨htake, hmore⟩ := Prod.mk.inj (ih (Prod.ext rfl hdrop))
        rw [htake, hmore]
      · obtain ⟨rfl, rfl⟩ := Prod.mk.inj h
        rfl

theorem readWhole_local : Local readWhole := by
  intro cs digits rest more h hrest
  cases cs with
  | nil => cases h
  | cons c cs =>
      rw [readWhole.eq_def] at h ⊢
      simp only [List.cons_append] at h ⊢
      by_cases hzero : (c == '0') = true
      · rw [if_pos hzero] at h ⊢
        cases cs with
        | nil =>
            obtain ⟨-, rfl⟩ := Prod.mk.inj (Except.ok.inj h)
            exact absurd rfl hrest
        | cons d cs =>
            simp only [List.cons_append] at h ⊢
            split_ifs at h ⊢
            obtain ⟨rfl, rfl⟩ := Prod.mk.inj (Except.ok.inj h)
            rfl
      · rw [if_neg hzero] at h ⊢
        split_ifs at h ⊢
        exact congrArg Except.ok (splitDigits_append_of_rest (Except.ok.inj h) hrest more)

theorem readFraction_local : Local readFraction := by
  intro cs digits rest more h hrest
  unfold readFraction at h
  split at h
  next tail =>
    rcases hsplit : splitDigits tail with ⟨places, tail'⟩
    rw [hsplit] at h
    simp only at h
    split_ifs at h with hempty
    obtain ⟨rfl, rfl⟩ := Prod.mk.inj (Except.ok.inj h)
    simp only [List.cons_append, readFraction, splitDigits_append_of_rest hsplit hrest more,
      if_neg hempty]
  next hpoint =>
    obtain ⟨rfl, rfl⟩ := Prod.mk.inj (Except.ok.inj h)
    cases cs with
    | nil => exact absurd rfl hrest
    | cons c cs =>
        unfold readFraction
        split
        next tail heq => exact absurd (congrArg (· :: cs) (List.cons.inj heq).1) (hpoint cs)
        next => rfl

theorem exponentSign_append (h : cs ≠ []) (more : List Char) :
    exponentSign (cs ++ more) = ((exponentSign cs).1, (exponentSign cs).2 ++ more) := by
  cases cs with
  | nil => exact absurd rfl h
  | cons c cs =>
      by_cases hminus : c = '-'
      · rw [hminus]
        rfl
      · by_cases hplus : c = '+'
        · rw [hplus]
          rfl
        · simp [exponentSign, hminus, hplus]

theorem readExponent_local : Local readExponent := by
  intro cs exponent rest more h hrest
  cases cs with
  | nil =>
      obtain ⟨-, rfl⟩ := Prod.mk.inj (Except.ok.inj h)
      exact absurd rfl hrest
  | cons c cs =>
      rw [readExponent] at h
      rw [List.cons_append, readExponent]
      by_cases hletter : (c == 'e' || c == 'E') = true
      · rw [if_pos hletter] at h ⊢
        rcases hsign : exponentSign cs with ⟨negative, unsigned⟩
        rcases hsplit : splitDigits unsigned with ⟨digits, tail⟩
        simp only [hsign, hsplit] at h
        by_cases hempty : digits.isEmpty = true
        · rw [if_pos hempty] at h
          cases h
        · rw [if_neg hempty] at h
          obtain ⟨rfl, rfl⟩ := Prod.mk.inj (Except.ok.inj h)
          have hcs : cs ≠ [] := by
            rintro rfl
            obtain ⟨-, rfl⟩ := Prod.mk.inj hsign
            exact hrest (Prod.mk.inj hsplit).2.symm
          rw [exponentSign_append hcs, hsign]
          simp only [splitDigits_append_of_rest hsplit hrest more, if_neg hempty]
      · rw [if_neg hletter] at h ⊢
        obtain ⟨rfl, rfl⟩ := Prod.mk.inj (Except.ok.inj h)
        rfl

theorem readLiteral_local (negative : Bool) : Local (readLiteral negative) := by
  intro cs l rest more h hrest
  obtain ⟨⟨whole, cs₁⟩, hwhole, h⟩ := ok_of_bind h
  obtain ⟨⟨fraction, cs₂⟩, hfraction, h⟩ := ok_of_bind h
  obtain ⟨⟨exponent, cs₃⟩, hexponent, h⟩ := ok_of_bind h
  obtain ⟨rfl, rfl⟩ := Prod.mk.inj (Except.ok.inj h)
  -- Nothing is read behind the end of the text.
  have hcs₂ : cs₂ ≠ [] := by
    rintro rfl
    obtain ⟨-, hend⟩ := Prod.mk.inj (Except.ok.inj hexponent)
    exact hrest hend.symm
  have hcs₁ : cs₁ ≠ [] := by
    rintro rfl
    obtain ⟨-, hend⟩ := Prod.mk.inj (Except.ok.inj hfraction)
    exact hcs₂ hend.symm
  rw [readLiteral, bind_of_ok (readWhole_local _ _ _ more hwhole hcs₁)]
  simp only
  rw [bind_of_ok (readFraction_local _ _ _ more hfraction hcs₂)]
  simp only
  rw [bind_of_ok (readExponent_local _ _ _ more hexponent hrest)]

theorem readNumber_local (negative : Bool) : Local (readNumber negative) := by
  intro cs n rest more h hrest
  obtain ⟨⟨l, cs₁⟩, hliteral, h⟩ := ok_of_bind h
  obtain ⟨m, hnumber, h⟩ := ok_of_bind h
  obtain ⟨rfl, rfl⟩ := Prod.mk.inj (Except.ok.inj h)
  rw [readNumber, bind_of_ok (readLiteral_local negative _ _ _ more hliteral hrest)]
  simp only
  rw [bind_of_ok hnumber]

theorem skipNumber_append (h : skipNumber cs = .ok rest) (hrest : rest ≠ []) (more : List Char) :
    skipNumber (cs ++ more) = .ok (rest ++ more) := by
  unfold skipNumber at h ⊢
  cases hliteral : readLiteral false cs with
  | error fault =>
      rw [hliteral] at h
      cases h
  | ok r =>
      obtain ⟨l, tail⟩ := r
      rw [hliteral] at h
      obtain rfl := Except.ok.inj h
      rw [readLiteral_local false _ _ _ more hliteral hrest]

/-! ## Sequences -/

/-- The turn with more text behind it. -/
def Turn.append (more : List Char) : Turn → Turn
  | .close rest => .close (rest ++ more)
  | .item rest => .item (rest ++ more)

theorem arrayTurn_append {first : Bool} {t : Turn} (h : arrayTurn first cs = .ok t)
    (more : List Char) : arrayTurn first (cs ++ more) = .ok (t.append more) := by
  unfold arrayTurn at h ⊢
  obtain ⟨c, tail, hcs, h⟩ := ok_of_skipSpace h
  rw [skipSpace_append hcs]
  simp only at h ⊢
  split_ifs at h ⊢
  · rw [← Except.ok.inj h]
    rfl
  · rw [← Except.ok.inj h]
    rfl
  · obtain ⟨d, tail', htail, h⟩ := ok_of_skipSpace h
    rw [skipSpace_append htail]
    simp only at h ⊢
    split_ifs at h ⊢
    rw [← Except.ok.inj h]
    rfl

theorem objectTurn_append {first : Bool} {t : Turn} (h : objectTurn first cs = .ok t)
    (more : List Char) : objectTurn first (cs ++ more) = .ok (t.append more) := by
  unfold objectTurn at h ⊢
  obtain ⟨c, tail, hcs, h⟩ := ok_of_skipSpace h
  rw [skipSpace_append hcs]
  simp only at h ⊢
  split_ifs at h ⊢
  · rw [← Except.ok.inj h]
    rfl
  · rw [← Except.ok.inj h]
    rfl
  · obtain ⟨d, tail', htail, h⟩ := ok_of_skipSpace h
    rw [skipSpace_append htail]
    simp only at h ⊢
    split_ifs at h ⊢
    rw [← Except.ok.inj h]
    rfl

theorem readItems_nil (item : Reader Value) (fuel : ℕ) (first : Bool) :
    readItems item fuel first [] = .error .eofInList := by
  cases fuel <;> rfl

theorem readItems_append {item : Reader Value} (hitem : Local item) {fuel fuel' : ℕ}
    (hle : fuel ≤ fuel') {first : Bool} {vs : List Value}
    (h : readItems item fuel first cs = .ok (vs, rest)) (more : List Char) :
    readItems item fuel' first (cs ++ more) = .ok (vs, rest ++ more) := by
  induction fuel generalizing fuel' first cs vs with
  | zero => cases h
  | succ fuel ih =>
      obtain ⟨fuel', rfl⟩ : ∃ n, fuel' = n + 1 := ⟨fuel' - 1, by omega⟩
      rw [readItems] at h ⊢
      obtain ⟨t, hturn, h⟩ := ok_of_bind h
      rw [bind_of_ok (arrayTurn_append hturn more)]
      cases t with
      | close tail =>
          obtain ⟨rfl, rfl⟩ := Prod.mk.inj (Except.ok.inj h)
          rfl
      | item tail =>
          obtain ⟨⟨v, tail₁⟩, hv, h⟩ := ok_of_bind h
          obtain ⟨⟨vs', tail₂⟩, hvs, h⟩ := ok_of_bind h
          obtain ⟨rfl, rfl⟩ := Prod.mk.inj (Except.ok.inj h)
          have htail₁ : tail₁ ≠ [] := by
            rintro rfl
            rw [readItems_nil] at hvs
            cases hvs
          simp only [Turn.append]
          rw [bind_of_ok (hitem _ _ _ more hv htail₁)]
          simp only
          rw [bind_of_ok (ih (by omega) hvs)]

theorem readMembers_nil (item : Reader Value) (fuel : ℕ) (first : Bool)
    (members : List (String × Value)) :
    readMembers item fuel first members [] = .error .eofInObject := by
  cases fuel <;> rfl

theorem readMembers_append {item : Reader Value} (hitem : Local item) {fuel fuel' : ℕ}
    (hle : fuel ≤ fuel') {first : Bool} {members ms : List (String × Value)}
    (h : readMembers item fuel first members cs = .ok (ms, rest)) (more : List Char) :
    readMembers item fuel' first members (cs ++ more) = .ok (ms, rest ++ more) := by
  induction fuel generalizing fuel' first cs members with
  | zero => cases h
  | succ fuel ih =>
      obtain ⟨fuel', rfl⟩ : ∃ n, fuel' = n + 1 := ⟨fuel' - 1, by omega⟩
      rw [readMembers] at h ⊢
      obtain ⟨t, hturn, h⟩ := ok_of_bind h
      rw [bind_of_ok (objectTurn_append hturn more)]
      cases t with
      | close tail =>
          obtain ⟨rfl, rfl⟩ := Prod.mk.inj (Except.ok.inj h)
          rfl
      | item tail =>
          obtain ⟨⟨name, tail₁⟩, hname, h⟩ := ok_of_bind h
          obtain ⟨tail₂, hcolon, h⟩ := ok_of_bind h
          obtain ⟨⟨v, tail₃⟩, hv, h⟩ := ok_of_bind h
          have htail₃ : tail₃ ≠ [] := by
            rintro rfl
            simp only [readMembers_nil] at h
            cases h
          simp only [Turn.append]
          rw [bind_of_ok (readText_closed _ _ _ more hname)]
          simp only
          rw [bind_of_ok (expectColon_append hcolon more)]
          rw [bind_of_ok (hitem _ _ _ more hv htail₃)]
          exact ih (by omega) h

/-! ## Values -/

theorem readValueWith_local {inner : Option (Reader Value)} (hinner : ∀ item ∈ inner, Local item) :
    Local (readValueWith inner) := by
  intro cs v rest more h hrest
  unfold readValueWith at h ⊢
  obtain ⟨c, tail, hcs, h⟩ := ok_of_skipSpace h
  rw [skipSpace_append hcs]
  have hlength : tail.length + 1 ≤ (tail ++ more).length + 1 := by
    rw [List.length_append]
    omega
  simp only at h ⊢
  split_ifs at h ⊢
  · obtain ⟨⟨text, tail'⟩, htext, h⟩ := ok_of_bind h
    obtain ⟨rfl, rfl⟩ := Prod.mk.inj (Except.ok.inj h)
    rw [bind_of_ok (readText_closed _ _ _ more htext)]
  · cases hitem : inner with
    | none =>
        rw [hitem] at h
        cases h
    | some item =>
        rw [hitem] at h
        obtain ⟨⟨vs, tail'⟩, hvs, h⟩ := ok_of_bind h
        obtain ⟨rfl, rfl⟩ := Prod.mk.inj (Except.ok.inj h)
        simp only
        rw [bind_of_ok (readItems_append (hinner item hitem) hlength hvs more)]
  · cases hitem : inner with
    | none =>
        rw [hitem] at h
        cases h
    | some item =>
        rw [hitem] at h
        obtain ⟨⟨ms, tail'⟩, hms, h⟩ := ok_of_bind h
        obtain ⟨rfl, rfl⟩ := Prod.mk.inj (Except.ok.inj h)
        simp only
        rw [bind_of_ok (readMembers_append (hinner item hitem) hlength hms more)]
  · obtain ⟨tail', hword, h⟩ := ok_of_bind h
    obtain ⟨rfl, rfl⟩ := Prod.mk.inj (Except.ok.inj h)
    rw [bind_of_ok (expectWord_append hword more)]
  · obtain ⟨tail', hword, h⟩ := ok_of_bind h
    obtain ⟨rfl, rfl⟩ := Prod.mk.inj (Except.ok.inj h)
    rw [bind_of_ok (expectWord_append hword more)]
  · obtain ⟨tail', hword, h⟩ := ok_of_bind h
    obtain ⟨rfl, rfl⟩ := Prod.mk.inj (Except.ok.inj h)
    rw [bind_of_ok (expectWord_append hword more)]
  · obtain ⟨⟨n, tail'⟩, hn, h⟩ := ok_of_bind h
    obtain ⟨rfl, rfl⟩ := Prod.mk.inj (Except.ok.inj h)
    rw [bind_of_ok (readNumber_local true _ _ _ more hn hrest)]
  · obtain ⟨⟨n, tail'⟩, hn, h⟩ := ok_of_bind h
    obtain ⟨rfl, rfl⟩ := Prod.mk.inj (Except.ok.inj h)
    rw [← List.cons_append, bind_of_ok (readNumber_local false _ _ _ more hn hrest)]

/-- A value is read without a look at what follows what is left. -/
theorem readValue_local (depth : ℕ) : Local (readValue depth) := by
  induction depth with
  | zero => exact readValueWith_local fun item hitem => by cases hitem
  | succ depth ih =>
      refine readValueWith_local fun item hitem => ?_
      rw [← Option.some.inj hitem]
      exact ih

/-! ## Values that are stepped over -/

theorem skipScalar_append {c : Char} (h : skipScalar c cs = .ok rest) (hrest : rest ≠ [])
    (more : List Char) : skipScalar c (cs ++ more) = .ok (rest ++ more) := by
  unfold skipScalar at h ⊢
  split_ifs at h ⊢
  · exact skipText_append h more
  · exact expectWord_append h more
  · exact expectWord_append h more
  · exact expectWord_append h more
  · exact skipNumber_append h hrest more
  · rw [← List.cons_append]
    exact skipNumber_append h hrest more

theorem skipItemName_append {frame : Frame} (h : frame.skipItemName cs = .ok rest)
    (more : List Char) : frame.skipItemName (cs ++ more) = .ok (rest ++ more) := by
  cases frame with
  | list =>
      obtain rfl := Except.ok.inj h
      rfl
  | object =>
      rw [Frame.skipItemName] at h ⊢
      unfold skipName at h ⊢
      obtain ⟨c, tail, hcs, h⟩ := ok_of_skipSpace h
      rw [skipSpace_append hcs]
      simp only at h ⊢
      split_ifs at h ⊢
      obtain ⟨tail', htext, h⟩ := ok_of_bind h
      rw [bind_of_ok (skipText_append htext more)]
      exact expectColon_append h more

theorem skipSteps_items_nil {fuel : ℕ} {comma : Bool} {frames : List Frame}
    (h : skipSteps fuel (.items comma) frames [] = .ok rest) : rest = [] := by
  cases fuel with
  | zero => cases h
  | succ fuel =>
      cases frames with
      | nil => exact (Except.ok.inj h).symm
      | cons frame frames => cases h

theorem skipSteps_append {fuel fuel' : ℕ} (hle : fuel ≤ fuel') {state : SkipState}
    {frames : List Frame} (h : skipSteps fuel state frames cs = .ok rest) (hrest : rest ≠ [])
    (more : List Char) : skipSteps fuel' state frames (cs ++ more) = .ok (rest ++ more) := by
  induction fuel generalizing fuel' state frames cs with
  | zero => cases h
  | succ fuel ih =>
      obtain ⟨fuel', rfl⟩ : ∃ n, fuel' = n + 1 := ⟨fuel' - 1, by omega⟩
      have hle' : fuel ≤ fuel' := by omega
      cases state with
      | value =>
          rw [skipSteps] at h ⊢
          obtain ⟨c, tail, hcs, h⟩ := ok_of_skipSpace h
          rw [skipSpace_append hcs]
          simp only at h ⊢
          split_ifs at h ⊢
          · exact ih hle' h
          · exact ih hle' h
          · obtain ⟨tail', hscalar, h⟩ := ok_of_bind h
            have htail' : tail' ≠ [] := by
              rintro rfl
              exact hrest (skipSteps_items_nil h)
            rw [bind_of_ok (skipScalar_append hscalar htail' more)]
            exact ih hle' h
      | items comma =>
          cases frames with
          | nil =>
              obtain rfl := Except.ok.inj h
              rfl
          | cons frame frames =>
              rw [skipSteps] at h ⊢
              obtain ⟨c, tail, hcs, h⟩ := ok_of_skipSpace h
              rw [skipSpace_append hcs]
              simp only at h ⊢
              split_ifs at h ⊢
              · obtain ⟨tail', hname, h⟩ := ok_of_bind h
                rw [bind_of_ok (skipItemName_append hname more)]
                exact ih hle' h
              · exact ih hle' h
              · obtain ⟨tail', hname, h⟩ := ok_of_bind h
                rw [← List.cons_append, bind_of_ok (skipItemName_append hname more)]
                exact ih hle' h

theorem skipValue_append (h : skipValue cs = .ok rest) (hrest : rest ≠ []) (more : List Char) :
    skipValue (cs ++ more) = .ok (rest ++ more) := by
  refine skipSteps_append ?_ h hrest more
  rw [List.length_append]
  omega

/-! ## Shapes -/

theorem readString_closed : Closed readString := by
  intro cs v rest more h
  unfold readString at h ⊢
  obtain ⟨c, tail, hcs, h⟩ := ok_of_skipSpace h
  rw [skipSpace_append hcs]
  simp only at h ⊢
  split_ifs at h ⊢
  obtain ⟨⟨text, tail'⟩, htext, h⟩ := ok_of_bind h
  obtain ⟨rfl, rfl⟩ := Prod.mk.inj (Except.ok.inj h)
  rw [bind_of_ok (readText_closed _ _ _ more htext)]

theorem readSlots_nil (fields : List Field) (fuel : ℕ) (first : Bool)
    (slots : List (Option Value)) :
    readSlots fields fuel first slots [] = .error .eofInObject := by
  cases fuel <;> rfl

variable {fields : List Field}

theorem readSlots_append (hfields : ∀ f ∈ fields, Local f.read) {fuel fuel' : ℕ}
    (hle : fuel ≤ fuel') {first : Bool} {slots slots' : List (Option Value)}
    (h : readSlots fields fuel first slots cs = .ok (slots', rest)) (more : List Char) :
    readSlots fields fuel' first slots (cs ++ more) = .ok (slots', rest ++ more) := by
  induction fuel generalizing fuel' first cs slots with
  | zero => cases h
  | succ fuel ih =>
      obtain ⟨fuel', rfl⟩ : ∃ n, fuel' = n + 1 := ⟨fuel' - 1, by omega⟩
      rw [readSlots] at h ⊢
      obtain ⟨t, hturn, h⟩ := ok_of_bind h
      rw [bind_of_ok (objectTurn_append hturn more)]
      cases t with
      | close tail =>
          obtain ⟨rfl, rfl⟩ := Prod.mk.inj (Except.ok.inj h)
          rfl
      | item tail =>
          obtain ⟨⟨name, tail₁⟩, hname, h⟩ := ok_of_bind h
          simp only [Turn.append]
          rw [bind_of_ok (readText_closed _ _ _ more hname)]
          simp only at h ⊢
          cases hindex : fields.findIdx? (·.name == String.ofList name) with
          | none =>
              simp only [hindex] at h ⊢
              obtain ⟨tail₂, hcolon, h⟩ := ok_of_bind h
              obtain ⟨tail₃, hskip, h⟩ := ok_of_bind h
              have htail₃ : tail₃ ≠ [] := by
                rintro rfl
                rw [readSlots_nil] at h
                cases h
              rw [bind_of_ok (expectColon_append hcolon more),
                bind_of_ok (skipValue_append hskip htail₃ more)]
              exact ih (by omega) h
          | some i =>
              simp only [hindex] at h ⊢
              split_ifs at h ⊢
              obtain ⟨tail₂, hcolon, h⟩ := ok_of_bind h
              rw [bind_of_ok (expectColon_append hcolon more)]
              cases hfield : fields[i]? with
              | none =>
                  rw [hfield] at h
                  cases h
              | some field =>
                  simp only [hfield] at h ⊢
                  obtain ⟨⟨v, tail₃⟩, hv, h⟩ := ok_of_bind h
                  have htail₃ : tail₃ ≠ [] := by
                    rintro rfl
                    simp only [readSlots_nil] at h
                    cases h
                  rw [bind_of_ok (hfields field (List.mem_of_getElem? hfield) _ _ _ more hv
                    htail₃)]
                  exact ih (by omega) h

theorem readPositions_nil {title : String} {read : ℕ} {vs : List Value}
    (h : readPositions title read fields [] = .ok (vs, rest)) : rest = [] := by
  cases fields with
  | nil => exact (Prod.mk.inj (Except.ok.inj h)).2.symm
  | cons f fs => cases h

theorem readPositions_local (hfields : ∀ f ∈ fields, Local f.read) (title : String) (read : ℕ) :
    Local (readPositions title read fields) := by
  intro cs vs rest more h hrest
  induction fields generalizing cs vs read with
  | nil =>
      obtain ⟨rfl, rfl⟩ := Prod.mk.inj (Except.ok.inj h)
      rfl
  | cons f fs ih =>
      rw [readPositions] at h ⊢
      obtain ⟨t, hturn, h⟩ := ok_of_bind h
      rw [bind_of_ok (arrayTurn_append hturn more)]
      cases t with
      | close tail => cases h
      | item tail =>
          obtain ⟨⟨v, tail₁⟩, hv, h⟩ := ok_of_bind h
          obtain ⟨⟨vs', tail₂⟩, hvs, h⟩ := ok_of_bind h
          obtain ⟨rfl, rfl⟩ := Prod.mk.inj (Except.ok.inj h)
          have htail₁ : tail₁ ≠ [] := by
            rintro rfl
            exact hrest (readPositions_nil hvs)
          simp only [Turn.append]
          rw [bind_of_ok (hfields f List.mem_cons_self _ _ _ more hv htail₁)]
          simp only
          rw [bind_of_ok (ih (fun g hg => hfields g (List.mem_cons_of_mem f hg)) _ _ _ hvs)]

theorem closePositions_append (h : closePositions cs = .ok rest) (more : List Char) :
    closePositions (cs ++ more) = .ok (rest ++ more) := by
  unfold closePositions at h ⊢
  obtain ⟨c, tail, hcs, h⟩ := ok_of_skipSpace h
  rw [skipSpace_append hcs]
  simp only at h ⊢
  split_ifs at h ⊢
  · rw [Except.ok.inj h]
  · split at h <;> cases h

theorem Shape.read_closed {shape : Shape} (hfields : ∀ f ∈ shape.fields, Local f.read) :
    Closed shape.read := by
  intro cs vs rest more h
  unfold Shape.read at h ⊢
  obtain ⟨c, tail, hcs, h⟩ := ok_of_skipSpace h
  rw [skipSpace_append hcs]
  simp only at h ⊢
  split_ifs at h ⊢
  · obtain ⟨⟨vs', tail₁⟩, hpositions, h⟩ := ok_of_bind h
    obtain ⟨tail₂, hclose, h⟩ := ok_of_bind h
    obtain ⟨rfl, rfl⟩ := Prod.mk.inj (Except.ok.inj h)
    have htail₁ : tail₁ ≠ [] := by
      rintro rfl
      cases hclose
    rw [bind_of_ok (readPositions_local hfields _ _ _ _ _ more hpositions htail₁)]
    simp only
    rw [bind_of_ok (closePositions_append hclose more)]
  · obtain ⟨⟨slots, tail₁⟩, hslots, h⟩ := ok_of_bind h
    obtain ⟨vs', hcomplete, h⟩ := ok_of_bind h
    obtain ⟨rfl, rfl⟩ := Prod.mk.inj (Except.ok.inj h)
    have hlength : tail.length + 1 ≤ (tail ++ more).length + 1 := by
      rw [List.length_append]
      omega
    rw [bind_of_ok (readSlots_append hfields hlength hslots more)]
    simp only
    rw [bind_of_ok hcomplete]

/-- What is read of a whole text is the head of a longer one, with blank space behind it. -/
theorem Shape.read_append_of_parse {shape : Shape} (hfields : ∀ f ∈ shape.fields, Local f.read)
    {vs : List Value} (h : shape.parse cs = .ok vs) (more : List Char) :
    ∃ rest, skipSpace rest = [] ∧ shape.read (cs ++ more) = .ok (vs, rest ++ more) := by
  obtain ⟨⟨vs', rest⟩, hread, h⟩ := ok_of_bind h
  obtain ⟨u, hend, h⟩ := ok_of_bind h
  obtain rfl := Except.ok.inj h
  unfold expectEnd at hend
  split_ifs at hend with hempty
  exact ⟨rest, List.isEmpty_iff.1 hempty, Shape.read_closed hfields _ _ _ more hread⟩

/-- Behind a whole value there is room for blank space. -/
theorem Shape.parse_append_of_space {shape : Shape} (hfields : ∀ f ∈ shape.fields, Local f.read)
    {vs : List Value} (h : shape.parse cs = .ok vs) (hmore : skipSpace more = []) :
    shape.parse (cs ++ more) = .ok vs := by
  obtain ⟨rest, hrest, hread⟩ := Shape.read_append_of_parse hfields h more
  rw [Shape.parse, readWholeText, bind_of_ok hread]
  simp only
  rw [expectEnd, skipSpace_append_of_nil hrest, hmore]
  rfl

/-- Behind a whole value there is room for nothing else. -/
theorem Shape.parse_append_error {shape : Shape} (hfields : ∀ f ∈ shape.fields, Local f.read)
    {vs : List Value} (h : shape.parse cs = .ok vs) (hmore : skipSpace more ≠ []) :
    shape.parse (cs ++ more) = .error .trailingCharacters := by
  obtain ⟨rest, hrest, hread⟩ := Shape.read_append_of_parse hfields h more
  rw [Shape.parse, readWholeText, bind_of_ok hread]
  simp only
  rw [expectEnd, skipSpace_append_of_nil hrest, if_neg (by simpa using hmore)]
  rfl

end MetricLedger.Json
