import Mathlib.Tactic
import MetricLedger.Text.Utf8

/-!
# Decoding what was encoded

The strict decoder gives back every text that was encoded and takes no other bytes, and no byte of a
character outside ASCII is an ASCII byte. Main statement: `utf8Decode_eq_ok_iff`.
-/

namespace MetricLedger.Text

/-! ## Comparisons of bytes -/

theorem ofNat_lt_iff {a b : Nat} (ha : a < 256) (hb : b < 256) :
    UInt8.ofNat a < UInt8.ofNat b ↔ a < b := by
  rw [UInt8.lt_iff_toNat_lt, UInt8.toNat_ofNat', UInt8.toNat_ofNat', Nat.mod_eq_of_lt ha,
    Nat.mod_eq_of_lt hb]

theorem ofNat_le_iff {a b : Nat} (ha : a < 256) (hb : b < 256) :
    UInt8.ofNat a ≤ UInt8.ofNat b ↔ a ≤ b := by
  rw [UInt8.le_iff_toNat_le, UInt8.toNat_ofNat', UInt8.toNat_ofNat', Nat.mod_eq_of_lt ha,
    Nat.mod_eq_of_lt hb]

theorem ofNat_beq_iff {a b : Nat} (ha : a < 256) (hb : b < 256) :
    (UInt8.ofNat a == UInt8.ofNat b) = true ↔ a = b := by
  rw [beq_iff_eq, ← UInt8.toNat_inj, UInt8.toNat_ofNat', UInt8.toNat_ofNat', Nat.mod_eq_of_lt ha,
    Nat.mod_eq_of_lt hb]

theorem isContinuation_ofNat {b : Nat} (h : 0x80 ≤ b) (h' : b ≤ 0xBF) :
    isContinuation (UInt8.ofNat b) = true := by
  rw [isContinuation, Bool.and_eq_true, decide_eq_true_eq, decide_eq_true_eq]
  exact ⟨(ofNat_le_iff (by decide) (by omega)).2 h, (ofNat_le_iff (by omega) (by decide)).2 h'⟩

theorem lowSix_ofNat {b : Nat} (h : b < 256) : lowSix (UInt8.ofNat b) = b % 64 := by
  rw [lowSix, UInt8.toNat_ofNat', Nat.mod_eq_of_lt h]

/-- The bytes that may follow the first byte of a longer character, by value. -/
def SecondOk (a b : Nat) : Prop :=
  0x80 ≤ b ∧ b ≤ 0xBF ∧ (a = 0xE0 → 0xA0 ≤ b) ∧ (a = 0xED → b ≤ 0x9F) ∧ (a = 0xF0 → 0x90 ≤ b) ∧
    (a = 0xF4 → b ≤ 0x8F)

theorem secondByteOk_ofNat {a b : Nat} (ha : a < 256) (h : SecondOk a b) :
    secondByteOk (UInt8.ofNat a) (UInt8.ofNat b) = true := by
  obtain ⟨hlow, hhigh, hE0, hED, hF0, hF4⟩ := h
  have le (c d : Nat) (hc : c < 256) (hd : d < 256) (hcd : c ≤ d) :
      decide (UInt8.ofNat c ≤ UInt8.ofNat d) = true :=
    decide_eq_true ((ofNat_le_iff hc hd).2 hcd)
  unfold secondByteOk
  split_ifs with h1 h2 h3 h4
  · have := hE0 ((ofNat_beq_iff ha (by decide)).1 h1)
    rw [Bool.and_eq_true]
    exact ⟨le 0xA0 b (by decide) (by omega) this, le b 0xBF (by omega) (by decide) hhigh⟩
  · have := hED ((ofNat_beq_iff ha (by decide)).1 h2)
    rw [Bool.and_eq_true]
    exact ⟨le 0x80 b (by decide) (by omega) hlow, le b 0x9F (by omega) (by decide) this⟩
  · have := hF0 ((ofNat_beq_iff ha (by decide)).1 h3)
    rw [Bool.and_eq_true]
    exact ⟨le 0x90 b (by decide) (by omega) this, le b 0xBF (by omega) (by decide) hhigh⟩
  · have := hF4 ((ofNat_beq_iff ha (by decide)).1 h4)
    rw [Bool.and_eq_true]
    exact ⟨le 0x80 b (by decide) (by omega) hlow, le b 0x8F (by omega) (by decide) this⟩
  · exact isContinuation_ofNat hlow hhigh

/-! ## Single characters -/

theorem utf8DecodeFrom_one (i : Nat) {a : Nat} (ha : a < 0x80) (rest : List UInt8) :
    utf8DecodeFrom i (UInt8.ofNat a :: rest) =
      (Char.ofNat a :: ·) <$> utf8DecodeFrom (i + 1) rest := by
  have h : UInt8.ofNat a < 0x80 := (ofNat_lt_iff (by omega) (by decide)).2 ha
  have hn : (UInt8.ofNat a).toNat = a := by rw [UInt8.toNat_ofNat']; omega
  rw [utf8DecodeFrom.eq_def]
  simp only [if_pos h, hn]

/-- The first byte of a longer character is neither an ASCII byte nor out of range. -/
theorem firstByte_ofNat {a : Nat} (ha : 0xC2 ≤ a) (ha' : a ≤ 0xF4) :
    ¬UInt8.ofNat a < 0x80 ∧ ¬(UInt8.ofNat a < 0xC2 || 0xF4 < UInt8.ofNat a) = true := by
  have h1 := (ofNat_lt_iff (b := 0x80) (show a < 256 by omega) (by decide)).not.2 (by omega)
  have h2 := (ofNat_lt_iff (b := 0xC2) (show a < 256 by omega) (by decide)).not.2 (by omega)
  have h3 := (ofNat_lt_iff (a := 0xF4) (by decide) (show a < 256 by omega)).not.2 (by omega)
  refine ⟨h1, ?_⟩
  rw [Bool.or_eq_true, decide_eq_true_eq, decide_eq_true_eq]
  rintro (h | h)
  · exact h2 h
  · exact h3 h

theorem utf8DecodeFrom_two (i : Nat) {a b : Nat} (ha : 0xC2 ≤ a) (ha' : a < 0xE0)
    (h : SecondOk a b) (rest : List UInt8) :
    utf8DecodeFrom i (UInt8.ofNat a :: UInt8.ofNat b :: rest) =
      (Char.ofNat (a % 32 * 64 + b % 64) :: ·) <$> utf8DecodeFrom (i + 2) rest := by
  obtain ⟨h1, h2⟩ := firstByte_ofNat ha (by omega)
  have h3 : UInt8.ofNat a < 0xE0 := (ofNat_lt_iff (by omega) (by decide)).2 ha'
  have hn : (UInt8.ofNat a).toNat = a := by rw [UInt8.toNat_ofNat']; omega
  have hs := secondByteOk_ofNat (by omega) h
  have hb : b < 256 := by have := h.2.1; omega
  rw [utf8DecodeFrom.eq_def]
  simp only [if_neg h1, if_neg h2, hs, if_pos h3, hn, lowSix_ofNat hb, Bool.not_true,
    Bool.false_eq_true, if_false]

theorem utf8DecodeFrom_three (i : Nat) {a b c : Nat} (ha : 0xE0 ≤ a) (ha' : a < 0xF0)
    (h : SecondOk a b) (hc : 0x80 ≤ c) (hc' : c ≤ 0xBF) (rest : List UInt8) :
    utf8DecodeFrom i (UInt8.ofNat a :: UInt8.ofNat b :: UInt8.ofNat c :: rest) =
      (Char.ofNat (a % 16 * 4096 + b % 64 * 64 + c % 64) :: ·) <$>
        utf8DecodeFrom (i + 3) rest := by
  obtain ⟨h1, h2⟩ := firstByte_ofNat (show 0xC2 ≤ a by omega) (by omega)
  have h3 : ¬UInt8.ofNat a < 0xE0 :=
    (ofNat_lt_iff (b := 0xE0) (by omega) (by decide)).not.2 (by omega)
  have h4 : UInt8.ofNat a < 0xF0 := (ofNat_lt_iff (by omega) (by decide)).2 ha'
  have hn : (UInt8.ofNat a).toNat = a := by rw [UInt8.toNat_ofNat']; omega
  have hs := secondByteOk_ofNat (by omega) h
  have hb : b < 256 := by have := h.2.1; omega
  rw [utf8DecodeFrom.eq_def]
  simp only [if_neg h1, if_neg h2, hs, if_neg h3, if_pos h4, hn, lowSix_ofNat hb,
    lowSix_ofNat (show c < 256 by omega), isContinuation_ofNat hc hc', Bool.not_true,
    Bool.false_eq_true, if_false]

theorem utf8DecodeFrom_four (i : Nat) {a b c d : Nat} (ha : 0xF0 ≤ a) (ha' : a ≤ 0xF4)
    (h : SecondOk a b) (hc : 0x80 ≤ c) (hc' : c ≤ 0xBF) (hd : 0x80 ≤ d) (hd' : d ≤ 0xBF)
    (rest : List UInt8) :
    utf8DecodeFrom i (UInt8.ofNat a :: UInt8.ofNat b :: UInt8.ofNat c :: UInt8.ofNat d :: rest) =
      (Char.ofNat (a % 8 * 262144 + b % 64 * 4096 + c % 64 * 64 + d % 64) :: ·) <$>
        utf8DecodeFrom (i + 4) rest := by
  obtain ⟨h1, h2⟩ := firstByte_ofNat (show 0xC2 ≤ a by omega) ha'
  have h3 : ¬UInt8.ofNat a < 0xE0 :=
    (ofNat_lt_iff (b := 0xE0) (by omega) (by decide)).not.2 (by omega)
  have h4 : ¬UInt8.ofNat a < 0xF0 :=
    (ofNat_lt_iff (b := 0xF0) (by omega) (by decide)).not.2 (by omega)
  have hn : (UInt8.ofNat a).toNat = a := by rw [UInt8.toNat_ofNat']; omega
  have hs := secondByteOk_ofNat (by omega) h
  have hb : b < 256 := by have := h.2.1; omega
  rw [utf8DecodeFrom.eq_def]
  simp only [if_neg h1, if_neg h2, hs, if_neg h3, if_neg h4, hn, lowSix_ofNat hb,
    lowSix_ofNat (show c < 256 by omega), lowSix_ofNat (show d < 256 by omega),
    isContinuation_ofNat hc hc', isContinuation_ofNat hd hd', Bool.not_true,
    Bool.false_eq_true, if_false]

/-- The bytes of a character are read as that character. -/
theorem utf8DecodeFrom_utf8EncodeChar (i : Nat) (c : Char) (rest : List UInt8) :
    utf8DecodeFrom i (String.utf8EncodeChar c ++ rest) =
      (c :: ·) <$> utf8DecodeFrom (i + (String.utf8EncodeChar c).length) rest := by
  have hvalid : c.val.toNat < 0xD800 ∨ 0xDFFF < c.val.toNat ∧ c.val.toNat < 0x110000 := c.valid
  have hc : Char.ofNat c.val.toNat = c := Char.ofNat_toNat c
  unfold String.utf8EncodeChar
  generalize c.val.toNat = v at hvalid hc
  simp only
  split_ifs with h1 h2 h3
  · rw [List.singleton_append, utf8DecodeFrom_one i (by omega), hc]
    rfl
  · have hv : (v / 64 % 32 + 0xC0) % 32 * 64 + (v % 64 + 0x80) % 64 = v := by omega
    refine (utf8DecodeFrom_two i (by omega) (by omega) ?_ rest).trans ?_
    · refine ⟨?_, ?_, ?_, ?_, ?_, ?_⟩ <;> omega
    · rw [hv, hc]
      rfl
  · have hv : (v / 4096 % 16 + 0xE0) % 16 * 4096 + (v / 64 % 64 + 0x80) % 64 * 64 +
        (v % 64 + 0x80) % 64 = v := by omega
    refine (utf8DecodeFrom_three i (by omega) (by omega) ?_ (by omega) (by omega) rest).trans ?_
    · refine ⟨?_, ?_, ?_, ?_, ?_, ?_⟩ <;> omega
    · rw [hv, hc]
      rfl
  · have hv : (v / 262144 % 8 + 0xF0) % 8 * 262144 + (v / 4096 % 64 + 0x80) % 64 * 4096 +
        (v / 64 % 64 + 0x80) % 64 * 64 + (v % 64 + 0x80) % 64 = v := by omega
    refine (utf8DecodeFrom_four i (by omega) (by omega) ?_ (by omega) (by omega) (by omega)
      (by omega) rest).trans ?_
    · refine ⟨?_, ?_, ?_, ?_, ?_, ?_⟩ <;> omega
    · rw [hv, hc]
      rfl

/-! ## Texts -/

theorem utf8DecodeFrom_utf8Encode (i : Nat) (cs : List Char) :
    utf8DecodeFrom i (utf8Encode cs) = .ok cs := by
  induction cs generalizing i with
  | nil => rfl
  | cons c cs ih =>
      rw [utf8Encode, List.flatMap_cons, utf8DecodeFrom_utf8EncodeChar]
      exact congrArg ((c :: ·) <$> ·) (ih _)

/-- Every text is decoded from its bytes. -/
theorem utf8Decode_utf8Encode (cs : List Char) : utf8Decode (utf8Encode cs) = .ok cs :=
  utf8DecodeFrom_utf8Encode 0 cs

theorem utf8Encode_append (cs ds : List Char) :
    utf8Encode (cs ++ ds) = utf8Encode cs ++ utf8Encode ds := List.flatMap_append

/-- An ASCII byte stands for its own character only. -/
theorem eq_of_mem_utf8EncodeChar {c : Char} {n : Nat} (hn : n < 0x80)
    (h : UInt8.ofNat n ∈ String.utf8EncodeChar c) : c = Char.ofNat n := by
  have hc : Char.ofNat c.val.toNat = c := Char.ofNat_toNat c
  have inj {a : Nat} (ha : a < 256) (e : UInt8.ofNat n = UInt8.ofNat a) : n = a :=
    (ofNat_beq_iff (by omega) ha).1 (by rw [e]; exact beq_self_eq_true _)
  unfold String.utf8EncodeChar at h
  generalize c.val.toNat = v at h hc
  simp only at h
  split_ifs at h <;> simp only [List.mem_cons, List.not_mem_nil, or_false] at h
  · rw [inj (by omega) h, hc]
  · rcases h with h | h <;> have := inj (by omega) h <;> omega
  · rcases h with h | h | h <;> have := inj (by omega) h <;> omega
  · rcases h with h | h | h | h <;> have := inj (by omega) h <;> omega

theorem not_mem_utf8Encode {cs : List Char} {n : Nat} (hn : n < 0x80) (h : Char.ofNat n ∉ cs) :
    UInt8.ofNat n ∉ utf8Encode cs := by
  intro hm
  obtain ⟨c, hc, hb⟩ := List.mem_flatMap.1 hm
  exact h (eq_of_mem_utf8EncodeChar hn hb ▸ hc)

/-! ## Texts in parts -/

theorem ok_of_cons_map {x : Except Utf8Fault (List Char)} {c : Char} {cs : List Char}
    (h : (c :: ·) <$> x = .ok cs) : ∃ ds, x = .ok ds ∧ cs = c :: ds := by
  cases x with
  | error fault => cases h
  | ok ds => exact ⟨ds, rfl, (Except.ok.inj h).symm⟩

/-- Bytes that are a text may be decoded in parts. -/
theorem utf8DecodeFrom_append {i : ℕ} {bs : List UInt8} {cs : List Char}
    (h : utf8DecodeFrom i bs = .ok cs) (more : List UInt8) :
    utf8DecodeFrom i (bs ++ more) = (cs ++ ·) <$> utf8DecodeFrom (i + bs.length) more := by
  -- A character in front of the others, read in `n` bytes.
  have hcons {i n : ℕ} {c : Char} {rest : List UInt8} {cs : List Char}
      (ih : ∀ {cs}, utf8DecodeFrom (i + n) rest = .ok cs → utf8DecodeFrom (i + n) (rest ++ more) =
        (cs ++ ·) <$> utf8DecodeFrom (i + n + rest.length) more)
      (h : (c :: ·) <$> utf8DecodeFrom (i + n) rest = .ok cs) :
      (c :: ·) <$> utf8DecodeFrom (i + n) (rest ++ more) =
        (cs ++ ·) <$> utf8DecodeFrom (i + (rest.length + n)) more := by
    obtain ⟨ds, hds, rfl⟩ := ok_of_cons_map h
    rw [ih hds, Nat.add_assoc, Nat.add_comm n]
    cases utf8DecodeFrom (i + (rest.length + n)) more <;> rfl
  fun_induction utf8DecodeFrom i bs generalizing cs with
  | case1 i =>
      obtain rfl := Except.ok.inj h
      rw [List.nil_append]
      show _ = ([] ++ ·) <$> utf8DecodeFrom i more
      cases utf8DecodeFrom i more <;> rfl
  | case2 i b₀ r₀ h₀ ih =>
      rw [List.cons_append, utf8DecodeFrom.eq_def]
      simp only [if_pos h₀]
      exact hcons ih h
  | case6 i b₀ h₀ h₁ b₁ r₁ h₂ h₃ ih =>
      rw [List.cons_append, List.cons_append, utf8DecodeFrom.eq_def]
      simp only [if_neg h₀, if_neg h₁, if_neg h₂, if_pos h₃]
      exact hcons ih h
  | case9 i b₀ h₀ h₁ b₁ h₂ h₃ b₂ r₂ h₄ h₅ ih =>
      rw [List.cons_append, List.cons_append, List.cons_append, utf8DecodeFrom.eq_def]
      simp only [if_neg h₀, if_neg h₁, if_neg h₂, if_neg h₃, if_neg h₄, if_pos h₅]
      exact hcons ih h
  | case12 i b₀ h₀ h₁ b₁ h₂ h₃ b₂ h₄ h₅ b₃ r₃ h₆ ih =>
      rw [List.cons_append, List.cons_append, List.cons_append, List.cons_append,
        utf8DecodeFrom.eq_def]
      simp only [if_neg h₀, if_neg h₁, if_neg h₂, if_neg h₃, if_neg h₄, if_neg h₅, if_neg h₆]
      exact hcons ih h
  | _ => cases h

theorem utf8Decode_append_utf8Encode {bs : List UInt8} {cs : List Char}
    (h : utf8Decode bs = .ok cs) (ds : List Char) :
    utf8Decode (bs ++ utf8Encode ds) = .ok (cs ++ ds) := by
  rw [utf8Decode, utf8DecodeFrom_append h, utf8DecodeFrom_utf8Encode]
  rfl

/-! ## The bytes of a text -/

theorem val_ofNat {n : ℕ} (h : n < 0xD800 ∨ 0xDFFF < n ∧ n < 0x110000) :
    (Char.ofNat n).val.toNat = n := by
  have hvalid : n.isValidChar := h
  rw [Char.ofNat, dif_pos hvalid]
  rfl

theorem ofNat_eq_of_toNat {n : ℕ} {b : UInt8} (h : n = b.toNat) : UInt8.ofNat n = b := by
  rw [h, UInt8.ofNat_toNat]

theorem isContinuation_iff {b : UInt8} :
    isContinuation b = true ↔ 0x80 ≤ b.toNat ∧ b.toNat ≤ 0xBF := by
  rw [isContinuation, Bool.and_eq_true, decide_eq_true_eq, decide_eq_true_eq,
    UInt8.le_iff_toNat_le, UInt8.le_iff_toNat_le]
  rfl

/-- The bytes that are taken for second bytes may follow their first byte. -/
theorem secondOk_toNat {a b : UInt8} (h : secondByteOk a b = true) :
    SecondOk a.toNat b.toNat := by
  have hand {x y : UInt8} (h : (decide (x ≤ b) && decide (b ≤ y)) = true) :
      x.toNat ≤ b.toNat ∧ b.toNat ≤ y.toNat := by
    rw [Bool.and_eq_true, decide_eq_true_eq, decide_eq_true_eq] at h
    exact ⟨UInt8.le_iff_toNat_le.1 h.1, UInt8.le_iff_toNat_le.1 h.2⟩
  have hne {x : UInt8} (h : ¬(a == x) = true) : a.toNat ≠ x.toNat :=
    fun he => h (beq_iff_eq.2 (UInt8.toNat_inj.1 he))
  have heq {x : UInt8} (h : (a == x) = true) : a.toNat = x.toNat :=
    congrArg UInt8.toNat (beq_iff_eq.1 h)
  unfold secondByteOk at h
  unfold SecondOk
  split_ifs at h with h1 h2 h3 h4
  · have ha : a.toNat = 0xE0 := heq h1
    have hb : 0xA0 ≤ b.toNat ∧ b.toNat ≤ 0xBF := hand h
    omega
  · have ha : a.toNat = 0xED := heq h2
    have hb : 0x80 ≤ b.toNat ∧ b.toNat ≤ 0x9F := hand h
    omega
  · have ha : a.toNat = 0xF0 := heq h3
    have hb : 0x90 ≤ b.toNat ∧ b.toNat ≤ 0xBF := hand h
    omega
  · have ha : a.toNat = 0xF4 := heq h4
    have hb : 0x80 ≤ b.toNat ∧ b.toNat ≤ 0x8F := hand h
    omega
  · have hE0 : a.toNat ≠ 0xE0 := hne h1
    have hED : a.toNat ≠ 0xED := hne h2
    have hF0 : a.toNat ≠ 0xF0 := hne h3
    have hF4 : a.toNat ≠ 0xF4 := hne h4
    have hb := isContinuation_iff.1 h
    omega

theorem utf8EncodeChar_ofNat {n : ℕ} (hn : n < 0x80) :
    String.utf8EncodeChar (Char.ofNat n) = [UInt8.ofNat n] := by
  rw [String.utf8EncodeChar, val_ofNat (by omega), if_pos (by omega)]

theorem utf8EncodeChar_two {a b : UInt8} (ha : 0xC2 ≤ a.toNat) (ha' : a.toNat < 0xE0)
    (h : SecondOk a.toNat b.toNat) :
    String.utf8EncodeChar (Char.ofNat (a.toNat % 32 * 64 + lowSix b)) = [a, b] := by
  obtain ⟨hlow, hhigh, -⟩ := h
  rw [String.utf8EncodeChar, lowSix, val_ofNat (by omega), if_neg (by omega), if_pos (by omega),
    ofNat_eq_of_toNat (b := a) (by omega), ofNat_eq_of_toNat (b := b) (by omega)]

theorem utf8EncodeChar_three {a b c : UInt8} (ha : 0xE0 ≤ a.toNat) (ha' : a.toNat < 0xF0)
    (h : SecondOk a.toNat b.toNat) (hc : isContinuation c = true) :
    String.utf8EncodeChar (Char.ofNat (a.toNat % 16 * 4096 + lowSix b * 64 + lowSix c)) =
      [a, b, c] := by
  obtain ⟨hlow, hhigh, hE0, hED, -⟩ := h
  obtain ⟨hc1, hc2⟩ := isContinuation_iff.1 hc
  rw [String.utf8EncodeChar, lowSix, lowSix, val_ofNat (by omega), if_neg (by omega),
    if_neg (by omega), if_pos (by omega), ofNat_eq_of_toNat (b := a) (by omega),
    ofNat_eq_of_toNat (b := b) (by omega), ofNat_eq_of_toNat (b := c) (by omega)]

theorem utf8EncodeChar_four {a b c d : UInt8} (ha : 0xF0 ≤ a.toNat) (ha' : a.toNat ≤ 0xF4)
    (h : SecondOk a.toNat b.toNat) (hc : isContinuation c = true) (hd : isContinuation d = true) :
    String.utf8EncodeChar
      (Char.ofNat (a.toNat % 8 * 262144 + lowSix b * 4096 + lowSix c * 64 + lowSix d)) =
      [a, b, c, d] := by
  obtain ⟨hlow, hhigh, -, -, hF0, hF4⟩ := h
  obtain ⟨hc1, hc2⟩ := isContinuation_iff.1 hc
  obtain ⟨hd1, hd2⟩ := isContinuation_iff.1 hd
  rw [String.utf8EncodeChar, lowSix, lowSix, lowSix, val_ofNat (by omega), if_neg (by omega),
    if_neg (by omega), if_neg (by omega), ofNat_eq_of_toNat (b := a) (by omega),
    ofNat_eq_of_toNat (b := b) (by omega), ofNat_eq_of_toNat (b := c) (by omega),
    ofNat_eq_of_toNat (b := d) (by omega)]

/-- Only the bytes of a text are decoded as it. -/
theorem utf8Encode_of_utf8DecodeFrom {i : ℕ} {bs : List UInt8} {cs : List Char}
    (h : utf8DecodeFrom i bs = .ok cs) : utf8Encode cs = bs := by
  -- A character in front of the others, with its bytes.
  have hcons {i : ℕ} {c : Char} {front rest : List UInt8} {cs : List Char}
      (ih : ∀ {cs}, utf8DecodeFrom i rest = .ok cs → utf8Encode cs = rest)
      (hc : String.utf8EncodeChar c = front)
      (h : (c :: ·) <$> utf8DecodeFrom i rest = .ok cs) : utf8Encode cs = front ++ rest := by
    obtain ⟨ds, hds, rfl⟩ := ok_of_cons_map h
    rw [utf8Encode, List.flatMap_cons, hc, ← utf8Encode, ih hds]
  have hfirst {a : UInt8} (h : ¬(decide (a < 0xC2) || decide (0xF4 < a)) = true) :
      0xC2 ≤ a.toNat ∧ a.toNat ≤ 0xF4 := by
    rw [Bool.or_eq_true, decide_eq_true_eq, decide_eq_true_eq, not_or, UInt8.not_lt,
      UInt8.not_lt, UInt8.le_iff_toNat_le, UInt8.le_iff_toNat_le] at h
    exact h
  have hnot {b : Bool} (h : ¬(!b) = true) : b = true := by simpa using h
  fun_induction utf8DecodeFrom i bs generalizing cs with
  | case1 i =>
      obtain rfl := Except.ok.inj h
      rfl
  | case2 i b₀ r₀ h₀ ih =>
      have hc := utf8EncodeChar_ofNat (UInt8.lt_iff_toNat_lt.1 h₀)
      rw [UInt8.ofNat_toNat] at hc
      exact hcons ih hc h
  | case6 i b₀ h₀ h₁ b₁ r₁ h₂ h₃ ih =>
      exact hcons ih (utf8EncodeChar_two (hfirst h₁).1 (UInt8.lt_iff_toNat_lt.1 h₃)
        (secondOk_toNat (hnot h₂))) h
  | case9 i b₀ h₀ h₁ b₁ h₂ h₃ b₂ r₂ h₄ h₅ ih =>
      exact hcons ih (utf8EncodeChar_three (UInt8.le_iff_toNat_le.1 (UInt8.not_lt.1 h₃))
        (UInt8.lt_iff_toNat_lt.1 h₅) (secondOk_toNat (hnot h₂)) (hnot h₄)) h
  | case12 i b₀ h₀ h₁ b₁ h₂ h₃ b₂ h₄ h₅ b₃ r₃ h₆ ih =>
      exact hcons ih (utf8EncodeChar_four (UInt8.le_iff_toNat_le.1 (UInt8.not_lt.1 h₅))
        (hfirst h₁).2 (secondOk_toNat (hnot h₂)) (hnot h₄) (hnot h₆)) h
  | _ => cases h

/-- The strict decoder takes the bytes of a text and no others. -/
theorem utf8Decode_eq_ok_iff {bs : List UInt8} {cs : List Char} :
    utf8Decode bs = .ok cs ↔ bs = utf8Encode cs := by
  constructor
  · exact fun h => (utf8Encode_of_utf8DecodeFrom h).symm
  · rintro rfl
    exact utf8Decode_utf8Encode cs

theorem utf8Encode_singleton {n : ℕ} (hn : n < 0x80) :
    utf8Encode [Char.ofNat n] = [UInt8.ofNat n] := by
  rw [utf8Encode, List.flatMap_singleton, utf8EncodeChar_ofNat hn]

/-- An ASCII byte behind bytes is its character behind their text. -/
theorem utf8Decode_snoc_iff {n : ℕ} (hn : n < 0x80) {bs : List UInt8} {cs : List Char} :
    utf8Decode (bs ++ [UInt8.ofNat n]) = .ok cs ↔
      ∃ ds, utf8Decode bs = .ok ds ∧ cs = ds ++ [Char.ofNat n] := by
  constructor
  · intro h
    have hbytes := utf8Decode_eq_ok_iff.1 h
    cases cs using List.reverseRecOn with
    | nil => exact absurd hbytes (by simp [utf8Encode])
    | append_singleton ds c =>
        have hc : c = Char.ofNat n := by
          refine eq_of_mem_utf8EncodeChar hn (List.mem_of_getLast? ?_)
          have hlast := congrArg List.getLast? hbytes
          rw [List.getLast?_concat, utf8Encode_append, utf8Encode, utf8Encode,
            List.flatMap_singleton,
            List.getLast?_append_of_ne_nil _ String.utf8EncodeChar_ne_nil] at hlast
          exact hlast.symm
        rw [hc, utf8Encode_append, utf8Encode_singleton hn] at hbytes
        exact ⟨ds, utf8Decode_eq_ok_iff.2 (List.append_cancel_right hbytes), by rw [hc]⟩
  · rintro ⟨ds, hds, rfl⟩
    rw [← utf8Encode_singleton hn]
    exact utf8Decode_append_utf8Encode hds _

end MetricLedger.Text
