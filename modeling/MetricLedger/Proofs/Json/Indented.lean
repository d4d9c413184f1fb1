import MetricLedger.Proofs.Record.RoundTrip

/-!
# The indented form read back

Whatever can be read as a JSON value reads back from its indented text, with all its names, items and
bits. Main statement: `parse_indented`.
-/

namespace MetricLedger.Json

/-! ## Values that can be read -/

/-- A number that a numeral may be kept as and be written again. -/
def Number.IsReadable : Number → Prop
  | .whole n => -2 ^ 63 ≤ n ∧ n < 2 ^ 64
  | .real x => x.isFinite = true

/-- A value with at most `depth` containers inside one another, whose numbers can be read, and whose
objects have their members in the order of the names. -/
inductive Value.IsReadable : ℕ → Value → Prop
  | null {depth : ℕ} : IsReadable depth .null
  | bool {depth : ℕ} (b : Bool) : IsReadable depth (.bool b)
  | number {depth : ℕ} {n : Number} (h : n.IsReadable) : IsReadable depth (.number n)
  | string {depth : ℕ} (s : String) : IsReadable depth (.string s)
  | array {depth : ℕ} {items : List Value} (h : ∀ v ∈ items, IsReadable depth v) :
      IsReadable (depth + 1) (.array items)
  | object {depth : ℕ} {members : List (String × Value)} (h : ∀ m ∈ members, IsReadable depth m.2)
      (hsorted : members.Pairwise fun a b => a.1 < b.1) : IsReadable (depth + 1) (.object members)

/-! ## Blank space -/

variable {depth level : ℕ} {cs rest tail : List Char}

theorem skipSpace_lineBreak (level : ℕ) (cs : List Char) :
    skipSpace (lineBreak level ++ cs) = skipSpace cs := by
  refine skipSpace_append_of_nil (skipSpace_eq_nil ?_) cs
  simp [lineBreak, isSpace]

theorem endsNumber_of_all_isSpace (h : cs.all isSpace = true) : EndsNumber cs := by
  intro c hc
  have hspace : isSpace c = true := List.all_eq_true.1 h c (List.mem_of_mem_head? hc)
  simp only [isSpace, Bool.or_eq_true, beq_iff_eq] at hspace
  obtain ((rfl | rfl) | rfl) | rfl := hspace <;> decide

theorem readValue_lineBreak (level : ℕ) (cs : List Char) :
    readValue depth (lineBreak level ++ cs) = readValue depth cs :=
  readValue_congr (skipSpace_lineBreak level cs)

/-! ## Lines of a container -/

/-- The lines behind an item: those of the items that follow, and the one of the closing bracket. -/
def restItems (level : ℕ) : List (List Char) → List Char
  | [] => lineBreak level
  | item :: items => ',' :: (lineBreak (level + 1) ++ (item ++ restItems level items))

theorem blockItems_cons (level : ℕ) (item : List Char) (items : List (List Char)) :
    blockItems level (item :: items) = lineBreak (level + 1) ++ (item ++ restItems level items) := by
  induction items generalizing item with
  | nil => rw [blockItems, restItems, List.append_assoc]
  | cons next items ih => rw [blockItems, ih, restItems, List.append_assoc]; simp

theorem endsNumber_restItems (level : ℕ) (items : List (List Char)) (rest : List Char) :
    EndsNumber (restItems level items ++ rest) := by
  intro c hc
  cases items with
  | nil =>
      obtain rfl : '\n' = c := Option.some.inj hc
      decide
  | cons item items =>
      obtain rfl : ',' = c := Option.some.inj hc
      decide

theorem length_le_length_restItems (level : ℕ) (items : List (List Char)) :
    items.length ≤ (restItems level items).length := by
  induction items with
  | nil => exact Nat.zero_le _
  | cons item items ih =>
      simp only [restItems, List.length_cons, List.length_append]
      omega

theorem length_le_length_blockItems (level : ℕ) (items : List (List Char)) :
    items.length ≤ (blockItems level items).length := by
  cases items with
  | nil => exact Nat.zero_le _
  | cons item items =>
      have hrest := length_le_length_restItems level items
      rw [blockItems_cons, lineBreak]
      simp only [List.length_append, List.length_cons]
      omega

theorem indentedItems_eq (level : ℕ) (items : List Value) :
    indentedItems level items = items.map (Value.indented level) := by
  induction items with
  | nil => rfl
  | cons v items ih => rw [indentedItems, ih, List.map_cons]

/-- The indented text of a member. -/
def indentedMember (level : ℕ) (m : String × Value) : List Char :=
  writeText m.1.toList ++ ':' :: ' ' :: m.2.indented level

theorem indentedMembers_eq (level : ℕ) (members : List (String × Value)) :
    indentedMembers level members = members.map (indentedMember level) := by
  induction members with
  | nil => rfl
  | cons m members ih =>
      obtain ⟨name, v⟩ := m
      rw [indentedMembers, ih, List.map_cons, indentedMember]

/-! ## Arrays -/

/-- What can be read as a value does not look like the end of an array. -/
theorem exists_cons_of_readValue {v : Value} (h : readValue depth cs = .ok (v, rest)) :
    ∃ c tail, skipSpace cs = c :: tail ∧ c ≠ ']' := by
  obtain ⟨inner, h⟩ : ∃ inner, readValueWith inner cs = .ok (v, rest) := by
    cases depth with
    | zero => exact ⟨_, h⟩
    | succ depth => exact ⟨_, h⟩
  obtain ⟨c, tail, hcs, h⟩ := ok_of_skipSpace h
  refine ⟨c, tail, hcs, ?_⟩
  rintro rfl
  cases h

/-- The text of an item, behind a comma unless it is the first one. -/
def inTurn (first : Bool) (cs : List Char) : List Char := if first then cs else ',' :: cs

theorem arrayTurn_inTurn (first : Bool) {v : Value} (h : readValue depth cs = .ok (v, rest)) :
    arrayTurn first (inTurn first cs) = .ok (.item (skipSpace cs)) := by
  obtain ⟨c, tail, hcs, hc⟩ := exists_cons_of_readValue h
  have hbracket : (c == ']') = false := beq_false_of_ne hc
  cases first with
  | true => simp [arrayTurn, inTurn, hcs, hbracket]
  | false => simp [arrayTurn, inTurn, skipSpace_cons (c := ',') rfl, hcs, hbracket]

theorem readItems_inTurn {fuel : ℕ} (first : Bool) {v : Value} {vs : List Value}
    (h : readValue depth cs = .ok (v, rest))
    (hrest : readItems (readValue depth) fuel false rest = .ok (vs, tail)) :
    readItems (readValue depth) (fuel + 1) first (inTurn first cs) = .ok (v :: vs, tail) := by
  have hskip : readValue depth (skipSpace cs) = .ok (v, rest) := by
    rw [← h]
    exact readValue_congr (skipSpace_skipSpace cs)
  rw [readItems, bind_of_ok (arrayTurn_inTurn first h)]
  simp only
  rw [bind_of_ok hskip]
  simp only
  rw [bind_of_ok hrest]

/-- The items that follow are read up to the bracket. -/
theorem readItems_restItems {items : List Value} {fuel : ℕ} (hfuel : items.length < fuel)
    (hread : ∀ v ∈ items, ∀ rest, EndsNumber rest →
      readValue depth (v.indented (level + 1) ++ rest) = .ok (v, rest)) (rest : List Char) :
    readItems (readValue depth) fuel false
      (restItems level (items.map (Value.indented (level + 1))) ++ ']' :: rest) = .ok (items, rest) := by
  induction items generalizing fuel with
  | nil =>
      obtain ⟨fuel, rfl⟩ := Nat.exists_eq_succ_of_ne_zero hfuel.ne'
      have hturn : arrayTurn false (lineBreak level ++ ']' :: rest) = .ok (.close rest) := by
        simp [arrayTurn, skipSpace_lineBreak, skipSpace_cons (c := ']') rfl]
      rw [List.map_nil, restItems, readItems, bind_of_ok hturn]
  | cons v items ih =>
      obtain ⟨fuel, rfl⟩ := Nat.exists_eq_succ_of_ne_zero (Nat.ne_zero_of_lt hfuel)
      obtain ⟨hv, hitems⟩ := List.forall_mem_cons.1 hread
      have hitem := hv _ (endsNumber_restItems level (items.map (Value.indented (level + 1))) (']' :: rest))
      rw [← readValue_lineBreak (level + 1)] at hitem
      have hturn := readItems_inTurn false hitem (ih (Nat.lt_of_succ_lt_succ hfuel) hitems)
      rw [List.map_cons, restItems, List.cons_append, List.append_assoc, List.append_assoc]
      exact hturn

/-- The items of an array are read up to the bracket. -/
theorem readItems_blockItems (level : ℕ) {items : List Value} {fuel : ℕ}
    (hfuel : (blockItems level (items.map (Value.indented (level + 1)))).length < fuel)
    (hread : ∀ v ∈ items, ∀ rest, EndsNumber rest →
      readValue depth (v.indented (level + 1) ++ rest) = .ok (v, rest)) (rest : List Char) :
    readItems (readValue depth) fuel true
      (blockItems level (items.map (Value.indented (level + 1))) ++ ']' :: rest) = .ok (items, rest) := by
  obtain ⟨fuel, rfl⟩ := Nat.exists_eq_succ_of_ne_zero (Nat.ne_zero_of_lt hfuel)
  -- A character of the text is enough for an item, so the fuel lasts to the bracket.
  have hlength := length_le_length_blockItems level (items.map (Value.indented (level + 1)))
  cases items with
  | nil =>
      have hturn : arrayTurn true (']' :: rest) = .ok (.close rest) := by
        simp [arrayTurn, skipSpace_cons (c := ']') rfl]
      rw [List.map_nil, blockItems, List.nil_append, readItems, bind_of_ok hturn]
  | cons v items =>
      obtain ⟨hv, hitems⟩ := List.forall_mem_cons.1 hread
      have hitem := hv _ (endsNumber_restItems level (items.map (Value.indented (level + 1))) (']' :: rest))
      rw [← readValue_lineBreak (level + 1)] at hitem
      rw [List.length_map, List.length_cons] at hlength
      have hnext : readItems (readValue depth) fuel false _ = .ok (items, rest) :=
        readItems_restItems (by omega) hitems rest
      have hturn := readItems_inTurn true hitem hnext
      rw [List.map_cons, blockItems_cons, List.append_assoc, List.append_assoc]
      exact hturn

/-! ## Objects -/

/-- Behind all names that are there, a member comes last. -/
theorem insertEntry_of_lt {name : String} {v : Value} {members : List (String × Value)}
    (h : ∀ m ∈ members, m.1 < name) :
    Table.insertEntry name v members = members ++ [(name, v)] := by
  induction members with
  | nil => rfl
  | cons m members ih =>
      obtain ⟨hm, hmembers⟩ := List.forall_mem_cons.1 h
      have hnot : ¬name < m.1 := String.lt_asymm hm
      have hne : name ≠ m.1 := fun heq => String.lt_irrefl m.1 (heq ▸ hm)
      rw [Table.insertEntry, if_neg hnot, if_neg hne, ih hmembers, List.cons_append]

theorem objectTurn_inTurn (first : Bool) (h : skipSpace cs = '"' :: tail) :
    objectTurn first (inTurn first cs) = .ok (.item tail) := by
  cases first with
  | true => simp [objectTurn, inTurn, h]
  | false => simp [objectTurn, inTurn, skipSpace_cons (c := ',') rfl, h]

theorem readMembers_inTurn {fuel : ℕ} (first : Bool) {m : String × Value}
    {members found : List (String × Value)} (level : ℕ)
    (h : readValue depth (m.2.indented (level + 1) ++ rest) = .ok (m.2, rest))
    (hrest : readMembers (readValue depth) fuel false (Table.insertEntry m.1 m.2 members) rest =
      .ok (found, tail)) :
    readMembers (readValue depth) (fuel + 1) first members
      (inTurn first (lineBreak (level + 1) ++ (indentedMember (level + 1) m ++ rest))) =
        .ok (found, tail) := by
  have hquote : skipSpace (lineBreak (level + 1) ++ (indentedMember (level + 1) m ++ rest)) =
      '"' :: (m.1.toList.flatMap writeChar ++
        '"' :: ':' :: ' ' :: (m.2.indented (level + 1) ++ rest)) := by
    rw [skipSpace_lineBreak, indentedMember, List.append_assoc, writeText_append,
      skipSpace_cons (c := '"') rfl]
    rfl
  have hblank : readValue depth (' ' :: (m.2.indented (level + 1) ++ rest)) = .ok (m.2, rest) := by
    rw [← h]
    exact readValue_congr (skipSpace_append_of_nil (show skipSpace [' '] = [] from rfl) _)
  rw [readMembers, bind_of_ok (objectTurn_inTurn first hquote)]
  simp only
  rw [bind_of_ok (readText_writeText _ _)]
  simp only
  rw [bind_of_ok (expectColon_cons _), bind_of_ok hblank]
  simp only [String.ofList_toList]
  exact hrest

/-- The members that follow are read up to the brace. -/
theorem readMembers_restItems {members before : List (String × Value)} {fuel : ℕ}
    (hfuel : members.length < fuel) (hsorted : (before ++ members).Pairwise fun a b => a.1 < b.1)
    (hread : ∀ m ∈ members, ∀ rest, EndsNumber rest →
      readValue depth (m.2.indented (level + 1) ++ rest) = .ok (m.2, rest)) (rest : List Char) :
    readMembers (readValue depth) fuel false before
      (restItems level (members.map (indentedMember (level + 1))) ++ '\x7d' :: rest) =
        .ok (before ++ members, rest) := by
  induction members generalizing fuel before with
  | nil =>
      obtain ⟨fuel, rfl⟩ := Nat.exists_eq_succ_of_ne_zero hfuel.ne'
      have hturn : objectTurn false (lineBreak level ++ '\x7d' :: rest) = .ok (.close rest) := by
        simp [objectTurn, skipSpace_lineBreak, skipSpace_cons (c := '\x7d') rfl]
      rw [List.map_nil, restItems, readMembers, bind_of_ok hturn, List.append_nil]
  | cons m members ih =>
      obtain ⟨fuel, rfl⟩ := Nat.exists_eq_succ_of_ne_zero (Nat.ne_zero_of_lt hfuel)
      obtain ⟨hm, hmembers⟩ := List.forall_mem_cons.1 hread
      have hbefore : ∀ e ∈ before, e.1 < m.1 := fun e he =>
        (List.pairwise_append.1 hsorted).2.2 e he m List.mem_cons_self
      have hitem := hm _ (endsNumber_restItems level (members.map (indentedMember (level + 1)))
        ('\x7d' :: rest))
      have hsorted' : (before ++ [m] ++ members).Pairwise fun a b => a.1 < b.1 := by
        rwa [List.append_assoc]
      have hnext := ih (Nat.lt_of_succ_lt_succ hfuel) hsorted' hmembers
      rw [← insertEntry_of_lt hbefore] at hnext
      have hturn := readMembers_inTurn false level hitem hnext
      rw [insertEntry_of_lt hbefore, List.append_assoc] at hturn
      rw [List.map_cons, restItems, List.cons_append, List.append_assoc, List.append_assoc]
      exact hturn

/-- The members of an object are read up to the brace. -/
theorem readMembers_blockItems (level : ℕ) {members : List (String × Value)} {fuel : ℕ}
    (hfuel : (blockItems level (members.map (indentedMember (level + 1)))).length < fuel)
    (hsorted : members.Pairwise fun a b => a.1 < b.1)
    (hread : ∀ m ∈ members, ∀ rest, EndsNumber rest →
      readValue depth (m.2.indented (level + 1) ++ rest) = .ok (m.2, rest)) (rest : List Char) :
    readMembers (readValue depth) fuel true []
      (blockItems level (members.map (indentedMember (level + 1))) ++ '\x7d' :: rest) =
        .ok (members, rest) := by
  obtain ⟨fuel, rfl⟩ := Nat.exists_eq_succ_of_ne_zero (Nat.ne_zero_of_lt hfuel)
  have hlength := length_le_length_blockItems level (members.map (indentedMember (level + 1)))
  cases members with
  | nil =>
      have hturn : objectTurn true ('\x7d' :: rest) = .ok (.close rest) := objectTurn_close true rest
      rw [List.map_nil, blockItems, List.nil_append, readMembers, bind_of_ok hturn]
  | cons m members =>
      obtain ⟨hm, hmembers⟩ := List.forall_mem_cons.1 hread
      have hitem := hm _ (endsNumber_restItems level (members.map (indentedMember (level + 1)))
        ('\x7d' :: rest))
      rw [List.length_map, List.length_cons] at hlength
      have hnext : readMembers (readValue depth) fuel false [m] _ = .ok (m :: members, rest) :=
        readMembers_restItems (by omega) hsorted hmembers rest
      have hturn : readMembers (readValue depth) (fuel + 1) true [] _ = .ok (m :: members, rest) :=
        readMembers_inTurn true level hitem hnext
      rw [List.map_cons, blockItems_cons, List.append_assoc, List.append_assoc]
      exact hturn

/-! ## The round trip -/

theorem readValue_bracket {items : List Value}
    (h : readItems (readValue depth) (cs.length + 1) true cs = .ok (items, rest)) :
    readValue (depth + 1) ('[' :: cs) = .ok (.array items, rest) := by
  simp [readValue, readValueWith, skipSpace_cons (c := '[') rfl, h, bind, Except.bind]

theorem readValue_brace {members : List (String × Value)}
    (h : readMembers (readValue depth) (cs.length + 1) true [] cs = .ok (members, rest)) :
    readValue (depth + 1) ('\x7b' :: cs) = .ok (.object members, rest) := by
  simp [readValue, readValueWith, skipSpace_cons (c := '\x7b') rfl, h, bind, Except.bind]

theorem length_lt_length_append_succ (cs ds : List Char) : cs.length < (cs ++ ds).length + 1 := by
  rw [List.length_append]
  omega

/-- The indented text of a value that can be read is read as the value, whatever follows it. -/
theorem Value.IsReadable.readValue_indented {v : Value} (h : v.IsReadable depth) (level : ℕ)
    {rest : List Char} (hr : EndsNumber rest) :
    readValue depth (v.indented level ++ rest) = .ok (v, rest) := by
  -- On the value, for whatever follows: behind an item there are the lines of the others.
  induction h generalizing level rest with
  | @null depth => cases depth <;> rfl
  | @bool depth b => cases depth <;> cases b <;> rfl
  | @number depth n hn =>
      cases n with
      | whole n => exact readValue_wholeText depth hn.1 hn.2 hr
      | real x => exact Record.readValue_logText depth hn hr
  | @string depth s =>
      have htext : readText (s.toList.flatMap writeChar ++ '"' :: rest) = .ok (s.toList, rest) :=
        readText_writeText _ _
      show readValue depth (writeText s.toList ++ rest) = .ok (.string s, rest)
      rw [writeText_append]
      cases depth <;>
        simp [readValue, readValueWith, skipSpace_cons (c := '"') rfl, htext, bind, Except.bind]
  | @array depth items _ ih =>
      have hitems := readItems_blockItems level (length_lt_length_append_succ _ (']' :: rest))
        (fun v hv rest hrest => ih v hv (level + 1) hrest) rest
      rw [Value.indented, indentedItems_eq, List.cons_append, List.append_assoc]
      exact readValue_bracket hitems
  | @object depth members _ hsorted ih =>
      have hmembers := readMembers_blockItems level
        (length_lt_length_append_succ _ ('\x7d' :: rest)) hsorted
        (fun m hm rest hrest => ih m hm (level + 1) hrest) rest
      rw [Value.indented, indentedMembers_eq, List.cons_append, List.append_assoc]
      exact readValue_brace hmembers

/-- A value that can be read from a text reads back from its indented text. -/
theorem parse_indented {v : Value} (h : v.IsReadable maxDepth) {ending : List Char}
    (hending : ending.all isSpace = true) : Value.parse (v.indented 0 ++ ending) = .ok v := by
  have hread := h.readValue_indented 0 (endsNumber_of_all_isSpace hending)
  have hends : expectEnd ending = .ok () := by rw [expectEnd, skipSpace_eq_nil hending]; rfl
  rw [Value.parse, readWholeText, bind_of_ok hread]
  simp only
  rw [bind_of_ok hends]

end MetricLedger.Json
