import Mathlib.Data.Finset.Card
import MetricLedger.Log.Buffers
import MetricLedger.Record.Line

/-!
# Reuse of buffers

Whoever takes buffers may write anything into them before giving them back, and may give buffers that
were never taken. Main statement: `run_refines_stack`, every buffer that is taken is empty, and the
pool is a stack of bounded size.
-/

namespace MetricLedger.Log.Buffers

/-! ## Uses of a pool -/

/-- What can be done with a pool and the buffers that were taken from it. -/
inductive Use where
  | take
  /-- Writes into one of the buffers that are out. -/
  | append (index : ℕ) (bytes : List UInt8)
  /-- Gives back one of the buffers that are out. -/
  | giveBack (index : ℕ)
  /-- Gives a buffer from elsewhere. -/
  | giveForeign (b : Buffer)

/-- What happens at the pool. -/
inductive Event where
  | took (b : Buffer)
  | gave (b : Buffer)

/-- A pool and the buffers that are out, in the order in which they were taken. -/
structure Lending where
  pool : Buffers
  out : List Buffer

namespace Lending

/-- Nothing is out, and nothing idle. -/
def start (limit freshCapacity : ℕ) : Lending := ⟨fresh limit freshCapacity, []⟩

/-- The state after a use, with what happens at the pool by it. -/
def use (l : Lending) : Use → Lending × List Event
  | .take => (⟨l.pool.take.2, l.out ++ [l.pool.take.1]⟩, [.took l.pool.take.1])
  | .append index bytes => (⟨l.pool, l.out.modify index (·.append bytes)⟩, [])
  | .giveBack index =>
      match l.out[index]? with
      | some b => (⟨l.pool.give b, l.out.eraseIdx index⟩, [.gave b])
      | none => (l, [])
  | .giveForeign b => (⟨l.pool.give b, l.out⟩, [.gave b])

/-- The state after some uses, with all that happens at the pool by them. -/
def run (l : Lending) : List Use → Lending × List Event
  | [] => (l, [])
  | u :: uses =>
      let (l, events) := l.use u
      let (l, more) := l.run uses
      (l, events ++ more)

end Lending

/-! ## Stacks -/

/-- A buffer that was kept: when it was given, and the room it had. -/
structure Kept where
  moment : ℕ
  capacity : ℕ
  deriving DecidableEq

/-- The events are those of a stack of at most `limit` buffers, which holds the given ones at the end.
A buffer that is taken is empty. It is the one that was kept last among those that were kept and not
taken since, and a new one if there is none of them. A buffer that is given is kept unless there are
enough of them. -/
inductive IsStack (limit freshCapacity : ℕ) : List Event → Finset Kept → Prop
  | start : IsStack limit freshCapacity [] ∅
  | tookLast {events : List Event} {s : Finset Kept} {k : Kept} (h : IsStack limit freshCapacity events s)
      (hk : k ∈ s) (hlast : ∀ other ∈ s, other.moment ≤ k.moment) :
      IsStack limit freshCapacity (events ++ [.took ⟨[], k.capacity⟩]) (s.erase k)
  | tookNew {events : List Event} (h : IsStack limit freshCapacity events ∅) :
      IsStack limit freshCapacity (events ++ [.took ⟨[], freshCapacity⟩]) ∅
  | gaveKept {events : List Event} {s : Finset Kept} {b : Buffer} (h : IsStack limit freshCapacity events s)
      (hroom : s.card < limit) :
      IsStack limit freshCapacity (events ++ [.gave b]) (insert ⟨events.length, b.capacity⟩ s)
  | gaveDropped {events : List Event} {s : Finset Kept} {b : Buffer}
      (h : IsStack limit freshCapacity events s) (hfull : limit ≤ s.card) :
      IsStack limit freshCapacity (events ++ [.gave b]) s

variable {limit freshCapacity : ℕ} {events : List Event} {s : Finset Kept}

theorem IsStack.bytes_eq_nil (h : IsStack limit freshCapacity events s) {b : Buffer}
    (hb : .took b ∈ events) : b.bytes = [] := by
  induction h with
  | start => cases hb
  | tookLast _ _ _ ih | tookNew _ ih =>
      rcases List.mem_append.1 hb with hb | hb
      · exact ih hb
      · obtain rfl := Event.took.inj (List.mem_singleton.1 hb)
        rfl
  | gaveKept _ _ ih | gaveDropped _ _ ih =>
      rcases List.mem_append.1 hb with hb | hb
      · exact ih hb
      · cases List.mem_singleton.1 hb

/-! ## The pool as a stack -/

/-- The pool with these buffers idle. -/
def holding (limit freshCapacity : ℕ) (kept : List Kept) : Buffers :=
  ⟨kept.map fun k => Buffer.empty k.capacity, limit, freshCapacity⟩

/-- The idle buffers of the pool are those that the stack of the events holds, the last one first. -/
structure Tracks (limit freshCapacity : ℕ) (p : Buffers) (events : List Event) (kept : List Kept) :
    Prop where
  eq_holding : p = holding limit freshCapacity kept
  isStack : IsStack limit freshCapacity events kept.toFinset
  earlier : ∀ k ∈ kept, k.moment < events.length
  sorted : kept.Pairwise fun a b => b.moment < a.moment
  bounded : kept.length ≤ limit

variable {p : Buffers} {kept : List Kept}

theorem tracks_fresh (limit freshCapacity : ℕ) :
    (fresh limit freshCapacity).Tracks limit freshCapacity [] [] where
  eq_holding := rfl
  isStack := .start
  earlier := by simp
  sorted := .nil
  bounded := Nat.zero_le _

namespace Tracks

variable (h : p.Tracks limit freshCapacity events kept)

include h

theorem length_idle : p.idle.length = kept.length := by
  rw [h.eq_holding, holding, List.length_map]

theorem nodup : kept.Nodup := by
  refine h.sorted.imp ?_
  rintro a b hlt rfl
  exact Nat.lt_irrefl a.moment hlt

theorem card : kept.toFinset.card = kept.length := List.toFinset_card_of_nodup h.nodup

/-- The moments of the kept buffers stay in the past. -/
theorem earlier_append (event : Event) : ∀ k ∈ kept, k.moment < (events ++ [event]).length := by
  intro k hk
  have := h.earlier k hk
  rw [List.length_append]
  omega

theorem take : ∃ kept', p.take.2.Tracks limit freshCapacity (events ++ [.took p.take.1]) kept' := by
  obtain ⟨rfl, hstack, -, hsorted, hbounded⟩ := id h
  have hearlier := h.earlier_append (.took (holding limit freshCapacity kept).take.1)
  cases kept with
  | nil => exact ⟨[], rfl, hstack.tookNew, hearlier, .nil, hbounded⟩
  | cons k kept =>
      obtain ⟨hk, hsorted⟩ := List.pairwise_cons.1 hsorted
      -- The moments fall along the list, so its head is the last one of the stack.
      have hlast : ∀ other ∈ (k :: kept).toFinset, other.moment ≤ k.moment := by
        intro other hother
        rcases List.mem_cons.1 (List.mem_toFinset.1 hother) with rfl | hother
        · exact le_rfl
        · exact (hk other hother).le
      have hrest : (k :: kept).toFinset.erase k = kept.toFinset := by
        rw [List.toFinset_cons, Finset.erase_insert]
        exact List.mem_toFinset.not.2 (List.nodup_cons.1 h.nodup).1
      refine ⟨kept, rfl, ?_, (List.forall_mem_cons.1 hearlier).2, hsorted, Nat.le_of_lt hbounded⟩
      rw [← hrest]
      exact hstack.tookLast (List.mem_toFinset.2 List.mem_cons_self) hlast

theorem give (b : Buffer) :
    ∃ kept', (p.give b).Tracks limit freshCapacity (events ++ [.gave b]) kept' := by
  have hlength := h.length_idle
  have hcard := h.card
  have hearlier := h.earlier_append (.gave b)
  obtain ⟨rfl, hstack, hbefore, hsorted, hbounded⟩ := id h
  rw [Buffers.give, hlength]
  by_cases hroom : kept.length < limit
  · refine ⟨⟨events.length, b.capacity⟩ :: kept, if_pos hroom, ?_, ?_, ?_, hroom⟩
    · rw [List.toFinset_cons]
      exact hstack.gaveKept (hcard ▸ hroom)
    · exact List.forall_mem_cons.2 ⟨by simp, hearlier⟩
    · exact List.pairwise_cons.2 ⟨hbefore, hsorted⟩
  · exact ⟨kept, if_neg hroom, hstack.gaveDropped (hcard ▸ Nat.not_lt.1 hroom), hearlier, hsorted,
      hbounded⟩

end Tracks

/-- A full pool drops what it is given. -/
theorem give_of_full (h : p.limit ≤ p.idle.length) (b : Buffer) : p.give b = p :=
  if_neg (Nat.not_lt.2 h)

/-! ## Runs -/

namespace Lending

variable {l : Lending} {kept : List Kept}

theorem tracks_use (h : l.pool.Tracks limit freshCapacity events kept) (u : Use) :
    ∃ kept', (l.use u).1.pool.Tracks limit freshCapacity (events ++ (l.use u).2) kept' := by
  cases u with
  | take => exact h.take
  | append index bytes =>
      refine ⟨kept, ?_⟩
      rw [use, List.append_nil]
      exact h
  | giveBack index =>
      rw [use]
      split
      · exact h.give _
      · exact ⟨kept, by rwa [List.append_nil]⟩
  | giveForeign b => exact h.give b

theorem tracks_run (uses : List Use) (h : l.pool.Tracks limit freshCapacity events kept) :
    ∃ kept', (l.run uses).1.pool.Tracks limit freshCapacity (events ++ (l.run uses).2) kept' := by
  -- On the uses, from any events before them, since the moments go on counting.
  induction uses generalizing l events kept with
  | nil => exact ⟨kept, by rwa [run, List.append_nil]⟩
  | cons u uses ih =>
      obtain ⟨kept', hu⟩ := tracks_use h u
      rw [run, ← List.append_assoc]
      exact ih hu

/-- However a pool is used, whatever is written into its buffers and whatever is given to it from
elsewhere: a buffer that is taken is empty, so that a record encoded into it gives its own line and no
more. There are never more idle buffers than may be kept, and a full pool does not change by what it is
given. All that happens is that of a stack, which has as many buffers as are idle. -/
theorem run_refines_stack (limit freshCapacity : ℕ) (uses : List Use) :
    let (l, events) := (start limit freshCapacity).run uses
    (∀ b, .took b ∈ events → b.bytes = [] ∧
      ∀ r : Record, r.isEncodable = true → r.encodeInto b.bytes = .ok r.lineBytes) ∧
    l.pool.idle.length ≤ limit ∧
    (l.pool.idle.length = limit → ∀ b, l.pool.give b = l.pool) ∧
    ∃ s, IsStack limit freshCapacity events s ∧ s.card = l.pool.idle.length := by
  obtain ⟨kept, h⟩ := tracks_run uses (l := start limit freshCapacity)
    (tracks_fresh limit freshCapacity)
  rw [List.nil_append] at h
  have hlimit : ((start limit freshCapacity).run uses).1.pool.limit = limit := by
    rw [h.eq_holding, holding]
  refine ⟨fun b hb => ?_, h.length_idle ▸ h.bounded, fun hfull b => ?_, kept.toFinset, h.isStack, ?_⟩
  · have hempty := h.isStack.bytes_eq_nil hb
    refine ⟨hempty, fun r hr => ?_⟩
    rw [Record.encodeInto_of_isEncodable hr, hempty, List.nil_append]
  · exact give_of_full (by omega) b
  · rw [h.card, h.length_idle]

/-- A buffer that has grown is taken again with the room it has grown to. -/
example : ((start 4 16).run [.take, .append 0 (List.replicate 64 7), .giveBack 0, .take]).1.out =
    [Buffer.empty 64] := by decide

end Lending

end MetricLedger.Log.Buffers
