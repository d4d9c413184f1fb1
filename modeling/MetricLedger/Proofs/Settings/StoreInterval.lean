import Mathlib.Tactic
import MetricLedger.CommandLine.Arguments
import MetricLedger.Proofs.Json.Number
import MetricLedger.Proofs.Settings.Values
import MetricLedger.Settings.File

/-!
# Store intervals that are taken

A store interval is read from a text of the environment, from an option or from a document. Main
statement: `isConfigurable_iff`, the intervals that are taken are the whole seconds of 64 bits.
-/

namespace MetricLedger

open CommandLine

/-- The interval is taken from a text, from the options or from a document of settings. -/
inductive IsConfigurable : Duration → Prop
  | text {value : String} {d : Duration} (h : parseStoreInterval value = .ok d) : IsConfigurable d
  | option {args : List String} {f : Flags} {c : Command} {d : Duration}
      (h : Request.parse args = .run f c) (hd : f.storeInterval = some d) : IsConfigurable d
  | document {cs : List Char} {file : FileSettings} {n : ℕ}
      (h : FileSettings.parse? cs = some file) (hn : file.storeInterval = some n) :
      IsConfigurable (.ofSeconds n)

/-! ## Texts -/

theorem parseStoreInterval_ok {value : String} {d : Duration}
    (h : parseStoreInterval value = .ok d) : ∃ n ≤ Text.maxUnsigned64, d = .ofSeconds n := by
  obtain ⟨-, -, n, -, -, -, hn, hd⟩ := (Environment.reads_interval.ok_iff value d).1 h
  exact ⟨n, hn, hd⟩

/-- Every number of 64 bits is taken as it is written. -/
theorem parseStoreInterval_decimal {n : ℕ} (h : n ≤ Text.maxUnsigned64) :
    parseStoreInterval (String.ofList (Text.decimal n)) = .ok (.ofSeconds n) := by
  have hnumeral : Text.IsNumeral (Text.decimal n) n := by
    have hdigits := Text.IsNumeral.digits (Json.decimal_ne_nil n) (Json.allDigits_decimal n)
    rwa [Text.decimal, Nat.ofDigitChars_ten_toDigits] at hdigits
  refine (Environment.reads_interval.ok_iff _ _).2
    ⟨Text.decimal n, [], n, ⟨[], [], ?_, nofun, nofun⟩, .inl rfl, hnumeral, h, rfl⟩
  simp

/-! ## Options -/

namespace CommandLine

/-- The store interval of the options, if they have one, was read from a text. -/
def Flags.IsRead (f : Flags) : Prop :=
  ∀ d, f.storeInterval = some d → ∃ value, parseStoreInterval value = .ok d

theorem isRead_empty : Flags.empty.IsRead := fun _ h => nomatch h

theorem Flags.IsRead.within {inner outer : Flags} (hi : inner.IsRead) (ho : outer.IsRead) :
    (inner.within outer).IsRead := by
  intro d hd
  rcases Option.or_eq_some_iff.1 hd with hd | ⟨-, hd⟩
  · exact hi d hd
  · exact ho d hd

theorem once_eq_some {α : Type} {set : α → Flags} {before value : Option α} {g : Flags}
    (h : Valued.once set before value = some g) : ∃ a, value = some a ∧ g = set a := by
  unfold Valued.once at h
  split at h
  next a => exact ⟨a, rfl, (Option.some.inj h).symm⟩
  next => cases h

variable {f g : Flags} {o : Valued} {waiting : Option Valued}

theorem Flags.IsRead.set (hf : f.IsRead) {value : String} (h : o.set value f = some g) :
    g.IsRead := by
  cases o with
  | storeInterval =>
      obtain ⟨a, ha, rfl⟩ := once_eq_some h
      intro d hd
      obtain rfl := Option.some.inj hd
      refine ⟨value, ?_⟩
      cases hvalue : parseStoreInterval value with
      | ok d =>
          rw [hvalue] at ha
          obtain rfl := Option.some.inj ha
          rfl
      | error fault =>
          rw [hvalue] at ha
          cases ha
  | config | databaseDsn | fileStoragePath | restore =>
      obtain ⟨a, -, rfl⟩ := once_eq_some h
      exact hf

theorem Flags.IsRead.setValued (hf : f.IsRead) {value : List Char}
    (h : setValued o value f = .ok g) : g.IsRead := by
  unfold CommandLine.setValued at h
  split at h
  next hset =>
    obtain rfl := Except.ok.inj h
    exact hf.set hset
  next => cases h

theorem Flags.IsRead.setVerbose (hf : f.IsRead) (h : setVerbose f = .ok g) : g.IsRead := by
  unfold CommandLine.setVerbose at h
  split at h
  · cases h
  · obtain rfl := Except.ok.inj h
    exact hf

/-- An option with its value at hand. -/
theorem Flags.IsRead.setNow (hf : f.IsRead) {value : List Char}
    (h : (do return (← CommandLine.setValued o value f, none)) =
      (.ok (g, waiting) : Except Stop (Flags × Option Valued))) : g.IsRead := by
  cases hset : CommandLine.setValued o value f with
  | error stop =>
      rw [hset] at h
      cases h
  | ok next =>
      rw [hset] at h
      cases h
      exact hf.setValued hset

theorem Flags.IsRead.readLetters (hf : f.IsRead) {hasVersion : Bool} {cs : List Char}
    (h : readLetters hasVersion f cs = .ok (g, waiting)) : g.IsRead := by
  induction cs generalizing f with
  | nil =>
      cases h
      exact hf
  | cons c cs ih =>
      unfold CommandLine.readLetters at h
      split_ifs at h
      · cases hverbose : CommandLine.setVerbose f with
        | error stop =>
            rw [hverbose] at h
            cases h
        | ok next =>
            rw [hverbose] at h
            exact ih (hf.setVerbose hverbose) h
      · split at h
        next => cases h
        next =>
          cases h
          exact hf
        next => exact hf.setNow h
        next => exact hf.setNow h

theorem Flags.IsRead.readWord (hf : f.IsRead) {hasVersion : Bool} {cs : List Char}
    (h : readWord hasVersion f cs = .ok (g, waiting)) : g.IsRead := by
  unfold CommandLine.readWord at h
  simp only at h
  split at h
  next => exact hf.setNow h
  next =>
    cases h
    exact hf
  next => cases h
  next =>
    split_ifs at h
    cases hverbose : CommandLine.setVerbose f with
    | error stop =>
        rw [hverbose] at h
        cases h
    | ok next =>
        rw [hverbose] at h
        cases h
        exact hf.setVerbose hverbose

theorem Flags.IsRead.readOption (hf : f.IsRead) {hasVersion : Bool} {arg : String}
    (h : readOption hasVersion f arg = .ok (g, waiting)) : g.IsRead := by
  unfold CommandLine.readOption at h
  split at h
  next => exact hf.readWord h
  next => exact hf.readLetters h
  next => cases h

theorem Flags.IsRead.readOptions (hf : f.IsRead) {hasVersion : Bool} {args rest : List String}
    (h : readOptions hasVersion f args = .ok (g, rest)) : g.IsRead := by
  fun_induction CommandLine.readOptions hasVersion f args with
  | case1 | case2 | case3 =>
      cases h
      exact hf
  | case4 | case5 | case7 | case8 | case10 => cases h
  | case6 _ _ _ _ _ _ hoption ih => exact ih (hf.readOption hoption) h
  | case9 _ _ _ _ _ _ _ _ hoption _ _ hvalue ih =>
      exact ih ((hf.readOption hoption).setValued hvalue) h

/-- The store interval of the options was read from a text. -/
theorem isRead_of_parse {args : List String} {c : Command} (h : Request.parse args = .run f c) :
    f.IsRead := by
  unfold Request.parse at h
  split at h
  next stop _ => cases stop <;> cases h
  next => cases h
  next outer name rest houter =>
    split at h
    next =>
      unfold helpOn at h
      split_ifs at h
      split at h
      next => cases h
      next name => cases hname : Command.ofName? name <;> rw [hname] at h <;> cases h
      next => cases h
    next command _ =>
      split at h
      next stop _ => cases stop <;> cases h
      next inner hinner =>
        cases h
        exact (isRead_empty.readOptions hinner).within (isRead_empty.readOptions houter)
      next => cases h

end CommandLine

/-! ## Documents -/

theorem storeInterval_le_of_parse {cs : List Char} {file : FileSettings} {n : ℕ}
    (h : FileSettings.parse? cs = some file) (hn : file.storeInterval = some n) :
    n ≤ Text.maxUnsigned64 := by
  unfold FileSettings.parse? at h
  obtain ⟨entries, -, h⟩ := Option.bind_eq_some_iff.1 h
  unfold FileSettings.ofEntries? at h
  split_ifs at h
  obtain ⟨dsn, -, h⟩ := Option.bind_eq_some_iff.1 h
  obtain ⟨path, -, h⟩ := Option.bind_eq_some_iff.1 h
  obtain ⟨interval, hinterval, h⟩ := Option.bind_eq_some_iff.1 h
  obtain ⟨restore, -, h⟩ := Option.bind_eq_some_iff.1 h
  obtain ⟨relational, -, h⟩ := Option.bind_eq_some_iff.1 h
  obtain ⟨size, -, h⟩ := Option.bind_eq_some_iff.1 h
  obtain ⟨tablePrefix, -, h⟩ := Option.bind_eq_some_iff.1 h
  obtain ⟨retry, -, h⟩ := Option.bind_eq_some_iff.1 h
  obtain rfl := Option.some.inj h
  simp only at hn
  subst hn
  cases hitem : entries.item? "store_interval_secs" with
  | none =>
      rw [hitem] at hinterval
      cases hinterval
  | some item =>
      rw [hitem] at hinterval
      obtain ⟨m, hm, hmn⟩ := Option.map_eq_some_iff.1 hinterval
      obtain rfl := Option.some.inj hmn
      unfold FileSettings.naturalOf? at hm
      split at hm
      next k =>
        split_ifs at hm with hrange
        obtain rfl := Option.some.inj hm
        omega
      next => cases hm

/-- The intervals that are taken are the whole seconds of 64 bits. -/
theorem isConfigurable_iff {d : Duration} :
    IsConfigurable d ↔ ∃ n ≤ Text.maxUnsigned64, d = .ofSeconds n := by
  constructor
  · rintro (h | ⟨h, hd⟩ | ⟨h, hn⟩)
    · exact parseStoreInterval_ok h
    · obtain ⟨value, hvalue⟩ := isRead_of_parse h d hd
      exact parseStoreInterval_ok hvalue
    · exact ⟨_, storeInterval_le_of_parse h hn, rfl⟩
  · rintro ⟨n, hn, rfl⟩
    exact .text (parseStoreInterval_decimal hn)

end MetricLedger
