import MetricLedger.Proofs.Json.Locality

/-!
# A field that is read in another way

A shape one field of which is given another reader. What a text is read as with it tells what the
text is read as without it: the other fields are read alike, and so is what stands between them.
Main statement: `Shape.parse_withReader`.
-/

namespace MetricLedger.Json

/-- The field with another reader. -/
def Field.withReader (read : Reader Value) (f : Field) : Field := { f with read := read }

/-- The shape whose field `i` has another reader. -/
def Shape.withReader (shape : Shape) (i : ℕ) (read : Reader Value) : Shape :=
  { shape with fields := shape.fields.modify i (Field.withReader read) }

/-- The slots with `r` in slot `i`, if that one is filled. -/
def refill (i : ℕ) (r : Except Fault Value) (slots : List (Option Value)) :
    Except Fault (List (Option Value)) :=
  match slots.getD i none with
  | none => .ok slots
  | some _ => r.map fun v => slots.set i (some v)

variable {fields : List Field} {f : Field} {i : ℕ} {read : Reader Value} {u : Value}
  {r : Except Fault Value} {cs rest : List Char} {slots slots' t : List (Option Value)}

/-! ## Slots -/

theorem getD_set_of_ne {j : ℕ} (h : i ≠ j) (x : Option Value) :
    (slots.set i x).getD j none = slots.getD j none := by
  simp [List.getD_eq_getElem?_getD, h]

theorem getD_set_self (h : i < slots.length) (x : Option Value) :
    (slots.set i x).getD i none = x := by
  simp [List.getD_eq_getElem?_getD, h]

theorem refill_of_none (h : slots.getD i none = none) : refill i r slots = .ok slots := by
  rw [refill, h]

theorem refill_of_some {v : Value} (h : slots.getD i none = some v) :
    refill i r slots = r.map fun v => slots.set i (some v) := by
  rw [refill, h]

/-- The other slots are left alone. -/
theorem getD_of_refill (h : refill i r slots = .ok t) {j : ℕ} (hj : i ≠ j) :
    t.getD j none = slots.getD j none := by
  cases hslot : slots.getD i none with
  | none =>
      rw [refill_of_none hslot] at h
      rw [Except.ok.inj h]
  | some v =>
      rw [refill_of_some hslot] at h
      cases r with
      | error fault => cases h
      | ok w =>
          rw [← Except.ok.inj h]
          exact getD_set_of_ne hj _

theorem refill_set (h : refill i r slots = .ok t) {j : ℕ} (hj : i ≠ j) (x : Option Value) :
    refill i r (slots.set j x) = .ok (t.set j x) := by
  have hslot : (slots.set j x).getD i none = slots.getD i none := getD_set_of_ne hj.symm x
  unfold refill at h ⊢
  rw [hslot]
  cases hi : slots.getD i none with
  | none =>
      rw [hi] at h
      rw [← Except.ok.inj h]
  | some v =>
      rw [hi] at h
      cases r with
      | error fault => cases h
      | ok w =>
          rw [← Except.ok.inj h]
          exact congrArg Except.ok (List.set_comm x (some w) hj.symm)

theorem map_name_modify (read : Reader Value) (fields : List Field) (i : ℕ) :
    (fields.modify i (Field.withReader read)).map Field.name = fields.map Field.name := by
  induction fields generalizing i with
  | nil => cases i <;> rfl
  | cons f fields ih =>
      cases i with
      | zero => rfl
      | succ i => rw [List.modify_succ_cons, List.map_cons, List.map_cons, ih]

theorem findIdx?_modify (name : String) :
    (fields.modify i (Field.withReader read)).findIdx? (·.name == name) =
      fields.findIdx? (·.name == name) := by
  have hnames (fields : List Field) :
      fields.findIdx? (·.name == name) = (fields.map Field.name).findIdx? (· == name) := by
    rw [List.findIdx?_map]
    rfl
  rw [hnames, map_name_modify, ← hnames]

/-! ## Members of an object -/

/-- A member of this name starts at the head of a text, its value at the head of `value`. -/
def IsMember (first : Bool) (cs : List Char) (name : String) (value : List Char) : Prop :=
  ∃ quoted text behind, objectTurn first cs = .ok (.item quoted) ∧
    readText quoted = .ok (text, behind) ∧ String.ofList text = name ∧
    expectColon behind = .ok value

variable {fuel : ℕ} {first : Bool} {name : String} {value : List Char}

theorem readSlots_of_close (h : objectTurn first cs = .ok (.close rest)) :
    readSlots fields (fuel + 1) first slots cs = .ok (slots, rest) := by
  rw [readSlots, bind_of_ok h]

/-- A member that is no field is stepped over. -/
theorem readSlots_of_unknown (hmember : IsMember first cs name value)
    (hindex : fields.findIdx? (·.name == name) = none) (hskip : skipValue value = .ok rest) :
    readSlots fields (fuel + 1) first slots cs = readSlots fields fuel false slots rest := by
  obtain ⟨quoted, text, behind, hturn, htext, rfl, hcolon⟩ := hmember
  rw [readSlots, bind_of_ok hturn]
  simp only
  rw [bind_of_ok htext]
  simp only [hindex]
  rw [bind_of_ok hcolon, bind_of_ok hskip]

/-- A member that is a field is read into the slot of the field. -/
theorem readSlots_of_known {j : ℕ} (hmember : IsMember first cs name value)
    (hindex : fields.findIdx? (·.name == name) = some j) (hfree : slots.getD j none = none)
    (hfield : fields[j]? = some f) :
    readSlots fields (fuel + 1) first slots cs = (do
      let (v, rest) ← f.read value
      readSlots fields fuel false (slots.set j (some v)) rest) := by
  obtain ⟨quoted, text, behind, hturn, htext, rfl, hcolon⟩ := hmember
  rw [readSlots, bind_of_ok hturn]
  simp only
  rw [bind_of_ok htext]
  simp only [hindex, hfree, Option.isSome_none, Bool.false_eq_true, if_false]
  rw [bind_of_ok hcolon]
  simp only [hfield]

/-- What the members of an object are read as: nothing, if it is closed; or what they are read as
behind a member that is no field, or behind a field that is read into its slot. -/
theorem readSlots_cases (h : readSlots fields (fuel + 1) first slots cs = .ok (slots', rest)) :
    (objectTurn first cs = .ok (.close rest) ∧ slots' = slots) ∨
    (∃ name value tail, IsMember first cs name value ∧
      fields.findIdx? (·.name == name) = none ∧ skipValue value = .ok tail ∧
      readSlots fields fuel false slots tail = .ok (slots', rest)) ∨
    ∃ name value j f v tail, IsMember first cs name value ∧
      fields.findIdx? (·.name == name) = some j ∧ slots.getD j none = none ∧
      fields[j]? = some f ∧ f.read value = .ok (v, tail) ∧
      readSlots fields fuel false (slots.set j (some v)) tail = .ok (slots', rest) := by
  rw [readSlots] at h
  obtain ⟨turn, hturn, h⟩ := ok_of_bind h
  cases turn with
  | close tail =>
      obtain ⟨rfl, rfl⟩ := Prod.mk.inj (Except.ok.inj h)
      exact .inl ⟨hturn, rfl⟩
  | item quoted =>
      obtain ⟨⟨text, behind⟩, htext, h⟩ := ok_of_bind h
      simp only at h
      cases hindex : fields.findIdx? (·.name == String.ofList text) with
      | none =>
          simp only [hindex] at h
          obtain ⟨value, hcolon, h⟩ := ok_of_bind h
          obtain ⟨tail, hskip, h⟩ := ok_of_bind h
          exact .inr (.inl ⟨_, value, tail, ⟨quoted, text, behind, hturn, htext, rfl, hcolon⟩,
            hindex, hskip, h⟩)
      | some j =>
          simp only [hindex] at h
          split_ifs at h with hfree
          obtain ⟨value, hcolon, h⟩ := ok_of_bind h
          cases hfield : fields[j]? with
          | none =>
              rw [hfield] at h
              cases h
          | some f =>
              simp only [hfield] at h
              obtain ⟨⟨v, tail⟩, hv, h⟩ := ok_of_bind h
              exact .inr (.inr ⟨_, value, j, f, v, tail,
                ⟨quoted, text, behind, hturn, htext, rfl, hcolon⟩, hindex, by simpa using hfree,
                hfield, hv, h⟩)

/-- A slot that is filled keeps its value. -/
theorem readSlots_keeps (h : readSlots fields fuel first slots cs = .ok (slots', rest))
    (hslot : slots.getD i none = some u) : slots'.getD i none = some u := by
  induction fuel generalizing first slots cs with
  | zero => cases h
  | succ fuel ih =>
      obtain ⟨-, rfl⟩ | ⟨name, value, tail, -, -, -, h⟩ |
        ⟨name, value, j, f, v, tail, -, -, hfree, -, -, h⟩ := readSlots_cases h
      · exact hslot
      · exact ih h hslot
      · refine ih h ?_
        rw [getD_set_of_ne, hslot]
        rintro rfl
        rw [hslot] at hfree
        cases hfree

/-- Members that are read with the other reader of field `i` are read without it alike, except that
slot `i` is filled with `r`. -/
theorem readSlots_withReader (hfield : fields[i]? = some f)
    (hread : ∀ cs rest, read cs = .ok (u, rest) → f.read cs = r.map (·, rest))
    (hlength : i < slots.length)
    (h : readSlots (fields.modify i (Field.withReader read)) fuel first slots cs =
      .ok (slots', rest))
    (hu : slots'.getD i none = some u) (ht : refill i r slots = .ok t) :
    readSlots fields fuel first t cs = (refill i r slots').map (·, rest) := by
  induction fuel generalizing first slots cs t with
  | zero => cases h
  | succ fuel ih =>
      obtain ⟨hturn, rfl⟩ | ⟨name, value, tail, hmember, hindex, hskip, h⟩ |
        ⟨name, value, j, g, v, tail, hmember, hindex, hfree, hg, hv, h⟩ := readSlots_cases h
      · rw [readSlots_of_close hturn, ht]
        rfl
      · rw [findIdx?_modify] at hindex
        rw [readSlots_of_unknown hmember hindex hskip]
        exact ih hlength h ht
      · rw [findIdx?_modify] at hindex
        rw [List.getElem?_modify] at hg
        by_cases hj : i = j
        · subst hj
          rw [hfield] at hg
          obtain rfl : f.withReader read = g := by simpa using hg
          have hvu : (slots.set i (some v)).getD i none = some v := getD_set_self hlength _
          -- The slot keeps what it is filled with, so this is the value that is left in it.
          obtain rfl : v = u := Option.some.inj ((readSlots_keeps h hvu).symm.trans hu)
          rw [refill_of_none hfree] at ht
          obtain rfl := Except.ok.inj ht
          rw [readSlots_of_known hmember hindex hfree hfield, hread value tail hv]
          cases r with
          | error fault =>
              rw [refill_of_some hu]
              rfl
          | ok w =>
              refine ih (by rwa [List.length_set]) h ?_
              rw [refill_of_some hvu]
              exact congrArg Except.ok (List.set_set _)
        · have hg' : fields[j]? = some g := by simpa [hj] using hg
          have hfree' : t.getD j none = none := (getD_of_refill ht hj).trans hfree
          rw [readSlots_of_known hmember hindex hfree' hg', hv]
          exact ih (by rwa [List.length_set]) h (refill_set ht hj _)

/-! ## Items of an array -/

section Positions

variable {title : String} {n : ℕ} {vs : List Value} {item : List Char}

theorem readPositions_item (hturn : arrayTurn (n == 0) cs = .ok (.item item)) :
    readPositions title n (f :: fields) cs = (do
      let (v, rest) ← f.read item
      let (vs, rest) ← readPositions title (n + 1) fields rest
      .ok (v :: vs, rest)) := by
  rw [readPositions, bind_of_ok hturn]

theorem readPositions_cases (h : readPositions title n (f :: fields) cs = .ok (vs, rest)) :
    ∃ item v tail vs', arrayTurn (n == 0) cs = .ok (.item item) ∧ f.read item = .ok (v, tail) ∧
      readPositions title (n + 1) fields tail = .ok (vs', rest) ∧ vs = v :: vs' := by
  rw [readPositions] at h
  obtain ⟨turn, hturn, h⟩ := ok_of_bind h
  cases turn with
  | close tail => cases h
  | item item =>
      obtain ⟨⟨v, tail⟩, hv, h⟩ := ok_of_bind h
      obtain ⟨⟨vs', tail'⟩, hvs, h⟩ := ok_of_bind h
      obtain ⟨rfl, rfl⟩ := Prod.mk.inj (Except.ok.inj h)
      exact ⟨item, v, tail, vs', hturn, hv, hvs, rfl⟩

/-- Items that are read with the other reader of field `i` are read without it alike, except that
item `i` is `r`. -/
theorem readPositions_withReader (hfield : fields[i]? = some f)
    (hread : ∀ cs rest, read cs = .ok (u, rest) → f.read cs = r.map (·, rest))
    (h : readPositions title n (fields.modify i (Field.withReader read)) cs = .ok (vs, rest))
    (hu : vs[i]? = some u) :
    readPositions title n fields cs = r.map fun v => (vs.set i v, rest) := by
  induction fields generalizing i n cs vs with
  | nil => cases hfield
  | cons g fields ih =>
      cases i with
      | zero =>
          obtain ⟨item, v, tail, vs', hturn, hv, hvs, rfl⟩ := readPositions_cases h
          obtain rfl : g = f := Option.some.inj hfield
          obtain rfl : v = u := Option.some.inj hu
          rw [readPositions_item hturn, hread item tail hv]
          cases r with
          | error fault => rfl
          | ok w => exact bind_of_ok hvs _
      | succ i =>
          obtain ⟨item, v, tail, vs', hturn, hv, hvs, rfl⟩ := readPositions_cases h
          rw [readPositions_item hturn, bind_of_ok hv]
          simp only
          rw [ih hfield hvs hu]
          cases r <;> rfl

end Positions

/-! ## Shapes -/

theorem completeFields_cons {vs : List Value} (h : completeFields fields slots = .ok vs)
    (v : Value) :
    completeFields (f :: fields) (some v :: slots) = .ok (v :: vs) := by
  rw [completeFields, h]
  rfl

theorem completeFields_cases {vs : List Value} (h : completeFields (f :: fields) slots = .ok vs) :
    ∃ v slots' vs', slots = some v :: slots' ∧ completeFields fields slots' = .ok vs' ∧
      vs = v :: vs' := by
  match slots with
  | [] => cases h
  | none :: _ => cases h
  | some v :: slots' =>
      rw [completeFields] at h
      cases hslots : completeFields fields slots' with
      | error fault =>
          rw [hslots] at h
          cases h
      | ok vs' =>
          rw [hslots] at h
          exact ⟨v, slots', vs', rfl, hslots, (Except.ok.inj h).symm⟩

/-- The value of field `i` is the one in its slot. -/
theorem completeFields_withReader {vs : List Value} (hi : i < fields.length)
    (h : completeFields (fields.modify i (Field.withReader read)) slots = .ok vs)
    (hu : vs[i]? = some u) :
    slots.getD i none = some u ∧
      ∀ v, completeFields fields (slots.set i (some v)) = .ok (vs.set i v) := by
  induction fields generalizing i slots vs with
  | nil => cases hi
  | cons f fields ih =>
      cases i with
      | zero =>
          obtain ⟨w, slots', vs', rfl, hslots, rfl⟩ := completeFields_cases h
          exact ⟨congrArg some (Option.some.inj hu), fun v => completeFields_cons hslots v⟩
      | succ i =>
          obtain ⟨w, slots', vs', rfl, hslots, rfl⟩ := completeFields_cases h
          obtain ⟨hslot, hset⟩ := ih (Nat.lt_of_succ_lt_succ hi) hslots hu
          exact ⟨hslot, fun v => completeFields_cons (hset v) w⟩

theorem Shape.read_withReader {shape : Shape} {vs : List Value}
    (hfield : shape.fields[i]? = some f)
    (hread : ∀ cs rest, read cs = .ok (u, rest) → f.read cs = r.map (·, rest))
    (h : (shape.withReader i read).read cs = .ok (vs, rest)) (hu : vs[i]? = some u) :
    shape.read cs = r.map fun v => (vs.set i v, rest) := by
  have htitle : (shape.withReader i read).lengthTitle = shape.lengthTitle := by
    simp [Shape.lengthTitle, Shape.withReader]
  have hi : i < shape.fields.length := (List.getElem?_eq_some_iff.1 hfield).1
  unfold Shape.read at h ⊢
  obtain ⟨c, tail, hcs, h⟩ := ok_of_skipSpace h
  rw [hcs]
  simp only at h ⊢
  split_ifs at h ⊢
  · obtain ⟨⟨vs', tail₁⟩, hpositions, h⟩ := ok_of_bind h
    obtain ⟨tail₂, hclose, h⟩ := ok_of_bind h
    obtain ⟨rfl, rfl⟩ := Prod.mk.inj (Except.ok.inj h)
    rw [htitle] at hpositions
    rw [readPositions_withReader hfield hread hpositions hu]
    cases r with
    | error fault => rfl
    | ok v => exact bind_of_ok hclose _
  · obtain ⟨⟨slots, tail₁⟩, hslots, h⟩ := ok_of_bind h
    obtain ⟨vs', hcomplete, h⟩ := ok_of_bind h
    obtain ⟨rfl, rfl⟩ := Prod.mk.inj (Except.ok.inj h)
    have hnone : (shape.withReader i read).fields.map (fun _ => (none : Option Value)) =
        shape.fields.map fun _ => none := by
      simp [Shape.withReader, List.map_const']
    rw [hnone] at hslots
    obtain ⟨hslot, hset⟩ := completeFields_withReader hi hcomplete hu
    rw [readSlots_withReader hfield hread (by rwa [List.length_map]) hslots hslot
      (refill_of_none (by simp [hi])), refill_of_some hslot]
    cases r with
    | error fault => rfl
    | ok v =>
        simp only [Except.map, bind, Except.bind, hset v]

/-- A text that a shape with another reader of field `i` reads is read by the shape itself alike,
except that field `i` is `r`, if the own reader of the field finds `r` wherever the other one finds
what it has found there. -/
theorem Shape.parse_withReader {shape : Shape} {vs : List Value}
    (hfield : shape.fields[i]? = some f)
    (hread : ∀ cs rest, read cs = .ok (u, rest) → f.read cs = r.map (·, rest))
    (h : (shape.withReader i read).parse cs = .ok vs) (hu : vs[i]? = some u) :
    shape.parse cs = r.map fun v => vs.set i v := by
  obtain ⟨⟨vs', rest⟩, hshape, h⟩ := ok_of_bind h
  obtain ⟨_, hend, h⟩ := ok_of_bind h
  obtain rfl := Except.ok.inj h
  rw [Shape.parse, readWholeText, Shape.read_withReader hfield hread hshape hu]
  cases r with
  | error fault => rfl
  | ok v => exact bind_of_ok hend _

end MetricLedger.Json
