import Mathlib.Tactic
import Mathlib.Data.ENat.Lattice
import MetricLedger.Proofs.Retry.Pauses

/-!
# The attempts of a run

A run of attempts beside the loop that makes them one at a time, whose numbers are words of 32 and
64 bits. Main statement: `run_eq_attempts`, the run and the loop make one attempt more than there
are faults of the connection at the head of the outcomes, or as many as are admitted, after the
pauses of the policy.
-/

namespace MetricLedger.RetryPolicy

variable {α : Type} (p : RetryPolicy)

/-! ## Outcomes -/

/-- The connection could not be had. -/
def isConnectionFault : Except Failure α → Bool
  | .error (.connection ..) => true
  | _ => false

/-- Calls that give outcomes one after the other, counted from the first one. -/
def replies (outcomes : ℕ → Except Failure α) : ℕ → Except Failure α × ℕ :=
  fun i => (outcomes i, i + 1)

/-- The number of faults of the connection in front of the first other outcome. -/
noncomputable def leadingFaults (outcomes : ℕ → Except Failure α) : ℕ∞ :=
  ⨅ i : {i // isConnectionFault (outcomes i) = false}, ((i : ℕ) : ℕ∞)

variable {outcomes : ℕ → Except Failure α} {outcome : Except Failure α} {k : ℕ}

theorem isConnectionFault_error (f : Failure) :
    isConnectionFault (.error f : Except Failure α) = f.isRetryable := by cases f <;> rfl

theorem exists_error_of_isConnectionFault (h : isConnectionFault outcome = true) :
    ∃ f, outcome = .error f ∧ f.isRetryable = true := by
  cases outcome with
  | ok a => cases h
  | error f => exact ⟨f, rfl, (isConnectionFault_error f).symm.trans h⟩

/-- The outcomes up to `k` are repeated, and the one at `k` is not, with at most `limit`
repetitions. -/
structure EndsAt (outcomes : ℕ → Except Failure α) (limit k : ℕ) : Prop where
  le : k ≤ limit
  fault : ∀ i < k, isConnectionFault (outcomes i) = true
  last : k = limit ∨ isConnectionFault (outcomes k) = false

theorem exists_endsAt (outcomes : ℕ → Except Failure α) (limit : ℕ) :
    ∃ k, EndsAt outcomes limit k := by
  induction limit with
  | zero => exact ⟨0, le_rfl, fun _ hi => absurd hi (Nat.not_lt_zero _), .inl rfl⟩
  | succ limit ih =>
      obtain ⟨k, hle, hfault, hlast⟩ := ih
      cases hk : isConnectionFault (outcomes k) with
      | false => exact ⟨k, hle.trans (Nat.le_succ _), hfault, .inr hk⟩
      | true =>
          obtain rfl : k = limit := hlast.resolve_right (by rw [hk]; decide)
          refine ⟨k + 1, le_rfl, fun i hi => ?_, .inl rfl⟩
          obtain hi | rfl := Nat.lt_succ_iff_lt_or_eq.1 hi
          · exact hfault i hi
          · exact hk

theorem EndsAt.eq_min {limit : ℕ} (h : EndsAt outcomes limit k) :
    (k : ℕ∞) = min (leadingFaults outcomes) limit := by
  refine le_antisymm (le_min (le_iInf fun i => Nat.cast_le.2 ?_) (Nat.cast_le.2 h.le)) ?_
  · by_contra hlt
    have hfault := h.fault i (Nat.lt_of_not_le hlt)
    rw [i.2] at hfault
    cases hfault
  · obtain hk | hk := h.last
    · exact hk ▸ min_le_right _ _
    · exact (min_le_left _ _).trans (iInf_le_of_le ⟨k, hk⟩ le_rfl)

/-! ## Runs -/

theorem runFrom_of_last {left : ℕ} (h : left = 0 ∨ isConnectionFault (outcomes k) = false)
    (attempt : ℕ) :
    p.runFrom (replies outcomes) left attempt k = (⟨outcomes k, []⟩, k + 1) := by
  cases left with
  | zero => rfl
  | succ left =>
      have hlast := h.resolve_left (Nat.succ_ne_zero left)
      simp only [runFrom, replies]
      cases houtcome : outcomes k with
      | ok a => rfl
      | error f =>
          rw [houtcome, isConnectionFault_error] at hlast
          simp [hlast]

theorem runFrom_of_fault (h : isConnectionFault (outcomes k) = true) (left attempt : ℕ) :
    p.runFrom (replies outcomes) (left + 1) attempt k =
      ((⟨(p.runFrom (replies outcomes) left (attempt + 1) (k + 1)).1.result,
        p.delay (attempt + 1) ::
          (p.runFrom (replies outcomes) left (attempt + 1) (k + 1)).1.pauses⟩ : Attempts α),
        (p.runFrom (replies outcomes) left (attempt + 1) (k + 1)).2) := by
  obtain ⟨f, houtcome, hf⟩ := exists_error_of_isConnectionFault h
  rw [runFrom]
  simp only [replies, houtcome, hf, if_true]

/-- With the outcomes repeated up to `k`, a run that has come to outcome `i` makes the pauses that
are left and ends with outcome `k`. -/
theorem runFrom_eq {limit : ℕ} (h : EndsAt outcomes limit k) {i : ℕ} (hi : i ≤ k) :
    p.runFrom (replies outcomes) (limit - i) i i =
      (⟨outcomes k, (List.range' i (k - i)).map fun j => p.delay (j + 1)⟩, k + 1) := by
  induction hn : k - i generalizing i with
  | zero =>
      obtain rfl : i = k := by omega
      have hlast : limit - i = 0 ∨ isConnectionFault (outcomes i) = false :=
        h.last.imp_left fun hk => by omega
      exact p.runFrom_of_last hlast i
  | succ n ih =>
      have hlt : i < k := by omega
      have hleft : limit - i = limit - (i + 1) + 1 := by
        have := h.le
        omega
      rw [hleft, p.runFrom_of_fault (h.fault i hlt), ih hlt (by omega)]
      rfl

theorem run_eq (h : EndsAt outcomes p.maxRetries.toNat k) :
    p.run (replies outcomes) 0 =
      (⟨outcomes k, (List.range k).map fun j => p.delay (j + 1)⟩, k + 1) := by
  have hrun := p.runFrom_eq h (Nat.zero_le k)
  rwa [Nat.sub_zero, Nat.sub_zero, ← List.range_eq_range'] at hrun

/-! ## Times -/

theorem startsFrom_eq (start : ℕ) (pauses : List ℕ) :
    Attempts.startsFrom start pauses =
      (List.range (pauses.length + 1)).map fun i => start + (pauses.take i).sum := by
  induction pauses generalizing start with
  | nil => rfl
  | cons pause pauses ih =>
      rw [Attempts.startsFrom, ih, List.length_cons,
        List.range_succ_eq_map (n := pauses.length + 1), List.map_cons, List.map_map]
      simp [Function.comp_def, Nat.add_assoc]

theorem sum_take_map_range (f : ℕ → ℕ) {i k : ℕ} (h : i ≤ k) :
    (((List.range k).map f).take i).sum = ∑ j ∈ Finset.range i, f j := by
  rw [← List.map_take, List.take_range, min_eq_left h]
  rfl

/-- Attempts begin at the sums of the first pauses. -/
theorem callTimes_eq {a : Attempts α} {f : ℕ → ℕ} (h : a.pauses = (List.range k).map f) :
    a.callTimes = (List.range (k + 1)).map fun i => ∑ j ∈ Finset.range i, f j := by
  rw [Attempts.callTimes, startsFrom_eq, h, List.length_map, List.length_range]
  refine List.map_congr_left fun i hi => ?_
  rw [Nat.zero_add, sum_take_map_range f (Nat.le_of_lt_succ (List.mem_range.1 hi))]

/-! ## Words -/

/-- The next number of 32 bits, if there is one. -/
def next? (n : UInt32) : Option UInt32 := if n.toNat + 1 < UInt32.size then some (n + 1) else none

/-- The number before, if there is one. -/
def previous? (n : UInt32) : Option UInt32 := if n = 0 then none else some (n - 1)

/-- The power of two with an exponent below 64. -/
def twoPow? (n : UInt32) : Option UInt64 := if n < 64 then some (1 <<< n.toUInt64) else none

/-- The product, or the greatest number of 64 bits instead of a greater one. -/
def cappedMul (a b : UInt64) : UInt64 :=
  if a.toNat * b.toNat < UInt64.size then a * b else UInt64.ofNat Text.maxUnsigned64

/-- The pause before the repetition of a number, unless a number on the way has no word. -/
def delayWord? (n : UInt32) : Option UInt64 :=
  if n = 0 then some 0
  else do
    let doublings ← previous? n
    let factor ← twoPow? (min doublings 16)
    some (min (cappedMul p.baseDelay factor) (max p.maxDelay p.baseDelay))

/-- The number of the next repetition and the pause before it. -/
def repetition? (n : UInt32) : Option (UInt32 × UInt64) := do
  let next ← next? n
  let pause ← p.delayWord? next
  some (next, pause)

theorem next?_of_lt {n m : UInt32} (h : n.toNat < m.toNat) :
    ∃ next, next? n = some next ∧ next.toNat = n.toNat + 1 := by
  have hm := m.toNat_lt
  have hfits : n.toNat + 1 < UInt32.size := by
    show n.toNat + 1 < 2 ^ 32
    omega
  refine ⟨n + 1, if_pos hfits, ?_⟩
  rw [UInt32.toNat_add]
  exact Nat.mod_eq_of_lt hfits

theorem twoPow?_of_le {n : UInt32} (h : n.toNat ≤ 16) :
    ∃ factor, twoPow? n = some factor ∧ factor.toNat = 2 ^ n.toNat := by
  have hlt : n < 64 := UInt32.lt_iff_toNat_lt.2 (h.trans_lt (by decide))
  refine ⟨_, if_pos hlt, ?_⟩
  have hpow : 2 ^ n.toNat < 2 ^ 64 := Nat.pow_lt_pow_right (by decide) (h.trans_lt (by decide))
  rw [UInt64.toNat_shiftLeft, UInt32.toNat_toUInt64, Nat.mod_eq_of_lt (h.trans_lt (by decide)),
    UInt64.toNat_one, Nat.one_shiftLeft, Nat.mod_eq_of_lt hpow]

theorem toNat_cappedMul (a b : UInt64) :
    (cappedMul a b).toNat = min (a.toNat * b.toNat) Text.maxUnsigned64 := by
  unfold cappedMul
  split
  next h =>
    rw [UInt64.toNat_mul, Nat.mod_eq_of_lt h]
    exact (min_eq_left (Nat.le_pred_of_lt h)).symm
  next h => exact (min_eq_right ((Nat.pred_le _).trans (Nat.le_of_not_lt h))).symm

/-- No number on the way to a pause exceeds its word. -/
theorem exists_delayWord (n : UInt32) :
    ∃ pause, p.delayWord? n = some pause ∧ pause.toNat = p.delay n.toNat := by
  unfold delayWord?
  split
  next h => exact ⟨0, rfl, by rw [h]; rfl⟩
  next h =>
    have hpos : n.toNat ≠ 0 := fun h0 => h (UInt32.toNat_inj.1 h0)
    have hprevious : (n - 1).toNat = n.toNat - 1 := by
      have hle : 1 ≤ n := UInt32.le_iff_toNat_le.2 (Nat.one_le_iff_ne_zero.2 hpos)
      rw [UInt32.toNat_sub_of_le _ _ hle]
      rfl
    have hdoublings : (min (n - 1) 16).toNat = min (n.toNat - 1) maxDoublings := by
      rw [UInt32.toNat_min, hprevious]
      rfl
    obtain ⟨factor, hfactor, hvalue⟩ :=
      twoPow?_of_le (n := min (n - 1) 16) (hdoublings ▸ min_le_right _ _)
    refine ⟨min (cappedMul p.baseDelay factor) (max p.maxDelay p.baseDelay), ?_, ?_⟩
    · simp only [previous?, if_neg h, Option.bind_eq_bind, Option.bind_some, hfactor]
    · rw [UInt64.toNat_min, UInt64.toNat_max, toNat_cappedMul, hvalue, hdoublings, delay,
        if_neg hpos]

theorem exists_repetition {n : UInt32} (h : n.toNat < p.maxRetries.toNat) :
    ∃ next pause, p.repetition? n = some (next, pause) ∧ next.toNat = n.toNat + 1 ∧
      pause.toNat = p.delay (n.toNat + 1) := by
  obtain ⟨next, hnext, hvalue⟩ := next?_of_lt h
  obtain ⟨pause, hpause, hdelay⟩ := p.exists_delayWord next
  refine ⟨next, pause, ?_, hvalue, by rw [hdelay, hvalue]⟩
  simp only [repetition?, hnext, hpause, Option.bind_eq_bind, Option.bind_some]

/-! ## The loop -/

/-- Where the loop of the attempts stands. -/
inductive Loop (α : Type) where
  /-- A call is due, after so many repetitions and these pauses. -/
  | calling (repetitions : UInt32) (pauses : List UInt64)
  | ended (result : Except Failure α) (pauses : List UInt64)
  /-- A number had no word. -/
  | overflowed

namespace Loop

/-- What the loop does with the outcome of a call. -/
def turn (outcome : Except Failure α) : Loop α → Loop α
  | .calling n pauses =>
      match outcome with
      | .ok a => .ended (.ok a) pauses
      | .error f =>
          if f.isRetryable && n < p.maxRetries then
            match p.repetition? n with
            | some (next, pause) => .calling next (pauses ++ [pause])
            | none => .overflowed
          else .ended (.error f) pauses
  | l => l

/-- The loop after the given number of calls. -/
def after (outcomes : ℕ → Except Failure α) : ℕ → Loop α
  | 0 => .calling 0 []
  | n + 1 => turn p (outcomes n) (after outcomes n)

variable {n : UInt32} (pauses : List UInt64)

theorem turn_ended (result : Except Failure α) :
    turn p outcome (.ended result pauses) = .ended result pauses := rfl

theorem turn_of_fault (h : isConnectionFault outcome = true) (hn : n.toNat < p.maxRetries.toNat) :
    ∃ next pause, turn p outcome (.calling n pauses) = .calling next (pauses ++ [pause]) ∧
      next.toNat = n.toNat + 1 ∧ pause.toNat = p.delay (n.toNat + 1) := by
  obtain ⟨f, rfl, hf⟩ := exists_error_of_isConnectionFault h
  obtain ⟨next, pause, hrepetition, hnext, hpause⟩ := p.exists_repetition hn
  refine ⟨next, pause, ?_, hnext, hpause⟩
  simp only [turn, hf, Bool.true_and, decide_eq_true (UInt32.lt_iff_toNat_lt.2 hn), if_true,
    hrepetition]

theorem turn_of_last (h : n.toNat = p.maxRetries.toNat ∨ isConnectionFault outcome = false) :
    turn p outcome (.calling n pauses) = .ended outcome pauses := by
  cases outcome with
  | ok a => rfl
  | error f =>
      have hstop : (f.isRetryable && decide (n < p.maxRetries)) = false := by
        obtain hn | hf := h
        · have hlt : ¬n < p.maxRetries := fun hlt => (UInt32.lt_iff_toNat_lt.1 hlt).ne hn
          rw [decide_eq_false hlt, Bool.and_false]
        · rw [← isConnectionFault_error (α := α), hf, Bool.false_and]
      simp only [turn, hstop, Bool.false_eq_true, if_false]

/-- Up to the last outcome the loop goes on, and its words are the numbers of the policy. -/
theorem after_of_le (h : EndsAt outcomes p.maxRetries.toNat k) {i : ℕ} (hi : i ≤ k) :
    ∃ n pauses, after p outcomes i = .calling n pauses ∧ n.toNat = i ∧
      pauses.map UInt64.toNat = (List.range i).map fun j => p.delay (j + 1) := by
  induction i with
  | zero => exact ⟨0, [], rfl, rfl, rfl⟩
  | succ i ih =>
      obtain ⟨n, pauses, hafter, rfl, hpauses⟩ := ih (Nat.le_of_succ_le hi)
      obtain ⟨next, pause, hturn, hnext, hpause⟩ :=
        turn_of_fault p pauses (h.fault _ hi) (Nat.lt_of_lt_of_le hi h.le)
      refine ⟨next, pauses ++ [pause], by rw [after, hafter, hturn], hnext, ?_⟩
      rw [List.map_append, hpauses, List.range_succ, List.map_append, List.map_singleton, hpause,
        List.map_singleton]

/-- Behind the last outcome the loop has ended with it. -/
theorem after_of_lt (h : EndsAt outcomes p.maxRetries.toNat k) {i : ℕ} (hi : k < i) :
    ∃ pauses, after p outcomes i = .ended (outcomes k) pauses ∧
      pauses.map UInt64.toNat = (List.range k).map fun j => p.delay (j + 1) := by
  induction i, hi using Nat.le_induction with
  | base =>
      obtain ⟨n, pauses, hafter, rfl, hpauses⟩ := after_of_le p h le_rfl
      exact ⟨pauses, by rw [after, hafter, turn_of_last p pauses h.last], hpauses⟩
  | succ i _ ih =>
      obtain ⟨pauses, hafter, hpauses⟩ := ih
      exact ⟨pauses, by rw [after, hafter, turn_ended], hpauses⟩

end Loop

/-! ## The number of attempts -/

/-- A run makes one attempt more than there are faults of the connection in front of the first other
outcome, or than repetitions are admitted if these are fewer, and ends with the outcome of its last
attempt. The attempts begin at the sums of the pauses of the policy, which never grow shorter and
never exceed its ceiling. The loop makes the same attempts after the same pauses and stops then, and
no number in it exceeds its word. -/
theorem run_eq_attempts (outcomes : ℕ → Except Failure α) :
    ∃ (k : ℕ) (a : Attempts α), (k : ℕ∞) = min (leadingFaults outcomes) p.maxRetries.toNat ∧
      p.run (replies outcomes) 0 = (a, k + 1) ∧ a.calls = k + 1 ∧ a.result = outcomes k ∧
      a.pauses = (List.range k).map (fun i => p.delay (i + 1)) ∧
      a.callTimes = (List.range (k + 1)).map (fun i => ∑ j ∈ Finset.range i, p.delay (j + 1)) ∧
      Monotone p.delay ∧ (∀ i, p.delay i ≤ max p.baseDelay.toNat p.maxDelay.toNat) ∧
      (∀ i ≤ k, ∃ n pauses, Loop.after p outcomes i = .calling n pauses ∧ n.toNat = i ∧
        pauses.map UInt64.toNat = a.pauses.take i) ∧
      ∀ i, k < i → ∃ pauses, Loop.after p outcomes i = .ended a.result pauses ∧
        pauses.map UInt64.toNat = a.pauses := by
  obtain ⟨k, hk⟩ := exists_endsAt outcomes p.maxRetries.toNat
  refine ⟨k, _, hk.eq_min, p.run_eq hk, ?_, rfl, rfl, callTimes_eq rfl, p.delay_mono,
    fun i => (p.delay_le_ceiling i).trans (max_comm _ _).le, fun i hi => ?_,
    fun i hi => Loop.after_of_lt p hk hi⟩
  · rw [Attempts.calls, List.length_map, List.length_range]
  · obtain ⟨n, pauses, hafter, hn, hpauses⟩ := Loop.after_of_le p hk hi
    exact ⟨n, pauses, hafter, hn,
      by rw [hpauses, ← List.map_take, List.take_range, min_eq_left hi]⟩

/-- With the greatest numbers that a policy may have, a connection that cannot be had is asked for
`2 ^ 32` times. -/
theorem run_eq_attempts_greatestPolicy :
    ∃ a : Attempts Unit, (⟨4294967295, 18446744073709551615, 0⟩ : RetryPolicy).run
        (replies fun _ => .error (.connection "connect" "refused")) 0 = (a, 2 ^ 32) ∧
      a.calls = 2 ^ 32 ∧ a.result = .error (.connection "connect" "refused") := by
  obtain ⟨k, a, hk, hrun, hcalls, hresult, -⟩ :=
    run_eq_attempts (α := Unit) ⟨4294967295, 18446744073709551615, 0⟩
      fun _ => .error (.connection "connect" "refused")
  have hall :
      leadingFaults (α := Unit) (fun _ => .error (.connection "connect" "refused")) = ⊤ := by
    have : IsEmpty {i : ℕ // isConnectionFault (α := Unit)
        (.error (.connection "connect" "refused")) = false} := ⟨fun i => by cases i.2⟩
    exact iInf_of_empty _
  rw [hall, min_eq_right le_top, Nat.cast_inj] at hk
  obtain rfl : k = 4294967295 := hk
  exact ⟨a, hrun, hcalls, hresult⟩

end MetricLedger.RetryPolicy
