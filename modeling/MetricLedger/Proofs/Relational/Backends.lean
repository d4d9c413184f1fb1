import MetricLedger.Proofs.Batch.Atomicity
import MetricLedger.Proofs.Relational.Tables

/-!
# One batch on two backends

A batch on a ledger in memory goes on after a write that was refused, if its operations do. In a
database the refusal fails the transaction: all later writes are refused, and a commit undoes
everything, and is answered well. Main statement: `Storage.runBatch_agrees`, the two backends agree on
a batch as long as no write of it is refused, or its operations pass every refusal on; after a refusal
that was kept quiet they agree only if the batch in memory came to nothing as well.
-/

namespace MetricLedger

/-! ## Refused writes -/

/-- Some write of the operation is refused, if it is performed on the ledger. -/
def Op.meetsRefusal : Op → Ledger → Bool
  | .done _, _ => false
  | .suspend op, l => op.meetsRefusal l
  | .write r next, l =>
      match l.apply r with
      | .ok m => (next (.ok ())).meetsRefusal m
      | .error _ => true

/-- Some write of the operations is refused, if they are performed on the ledger. -/
def Batch.meetsRefusal : List Op → Ledger → Bool
  | [], _ => false
  | op :: ops, l =>
      op.meetsRefusal l ||
        match op.perform l with
        | (.ok _, _, m) => meetsRefusal ops m
        | (.error _, _, _) => false

/-- The operation fails, whatever becomes of its writes. -/
def Op.Fails : Op → Prop
  | .done result => ∃ f, result = .error f
  | .suspend op => op.Fails
  | .write _ next => ∀ result, (next result).Fails

/-- The operation fails as soon as a write of it is refused. -/
def Op.PassesOn : Op → Prop
  | .done _ => True
  | .suspend op => op.PassesOn
  | .write _ next => (next (.ok ())).PassesOn ∧ ∀ f, (next (.error f)).Fails

namespace Op

theorem passesOn_ofRecord (r : Record) : (ofRecord r).PassesOn := ⟨trivial, fun f => ⟨f, rfl⟩⟩

theorem Fails.passesOn {op : Op} (h : op.Fails) : op.PassesOn := by
  induction op with
  | done result => trivial
  | suspend op ih => exact ih h
  | write r next ih => exact ⟨ih (.ok ()) (h _), fun f => h _⟩

theorem Fails.andThen {op : Op} (h : op.Fails) {next : Except Failure Unit → Op}
    (herror : ∀ f, (next (.error f)).Fails) : (op.andThen next).Fails := by
  induction op with
  | done result =>
      obtain ⟨f, rfl⟩ := h
      exact herror f
  | suspend op ih => exact ih h
  | write r after ih => exact fun result => ih result (h result)

theorem PassesOn.andThen {op : Op} (h : op.PassesOn) {next : Except Failure Unit → Op}
    (hok : (next (.ok ())).PassesOn) (herror : ∀ f, (next (.error f)).Fails) :
    (op.andThen next).PassesOn := by
  induction op with
  | done result =>
      cases result with
      | ok u => exact hok
      | error f => exact (herror f).passesOn
  | suspend op ih => exact ih h
  | write r after ih => exact ⟨ih (.ok ()) h.1, fun f => (h.2 f).andThen herror⟩

/-- Operations one after the other pass a refusal on if each of them does. -/
theorem passesOn_inTurn {ops : List Op} (h : ∀ op ∈ ops, op.PassesOn) : (inTurn ops).PassesOn := by
  induction ops with
  | nil => trivial
  | cons op ops ih =>
      rw [inTurn]
      exact (h op List.mem_cons_self).andThen (ih fun op hop => h op (List.mem_cons_of_mem _ hop))
        fun f => ⟨f, rfl⟩

theorem Fails.perform {op : Op} (h : op.Fails) (l : Ledger) : ∃ f, (op.perform l).1 = .error f := by
  induction op generalizing l with
  | done result => exact h
  | suspend op ih => exact ih h l
  | write r next ih =>
      rw [Op.perform]
      cases l.apply r with
      | ok m => exact ih (.ok ()) (h _) m
      | error f => exact ih (.error f) (h _) l

theorem Fails.runOp {σ : Type} {op : Op} (h : op.Fails) (db : Relational.Database σ) (s : σ) :
    ∃ f, (db.runOp op s).1 = .error f := by
  induction op generalizing s with
  | done result => exact h
  | suspend op ih => exact ih h s
  | write r next ih => exact ih _ (h _) _

theorem PassesOn.perform {op : Op} (h : op.PassesOn) {l : Ledger}
    (hrefused : op.meetsRefusal l = true) : ∃ f, (op.perform l).1 = .error f := by
  induction op generalizing l with
  | done result => cases hrefused
  | suspend op ih => exact ih h hrefused
  | write r next ih =>
      rw [meetsRefusal] at hrefused
      rw [Op.perform]
      cases happly : l.apply r with
      | ok m =>
          rw [happly] at hrefused
          exact ih (.ok ()) h.1 hrefused
      | error f => exact (h.2 f).perform l

end Op

theorem Batch.performAll_of_passesOn {ops : List Op} (h : ∀ op ∈ ops, op.PassesOn) {l : Ledger}
    (hrefused : meetsRefusal ops l = true) : ∃ f, (performAll ops l).1 = .error f := by
  induction ops generalizing l with
  | nil => cases hrefused
  | cons op ops ih =>
      rw [meetsRefusal, Bool.or_eq_true] at hrefused
      rw [performAll]
      rcases hperform : op.perform l with ⟨result, records, m⟩
      rw [hperform] at hrefused
      cases result with
      | error f => exact ⟨f, rfl⟩
      | ok u =>
          rcases hrefused with hop | hops
          · obtain ⟨f, hf⟩ := (h op List.mem_cons_self).perform hop
            rw [hperform] at hf
            cases hf
          · exact ih (fun op hop => h op (List.mem_cons_of_mem _ hop)) hops

/-! ## Batches of a database -/

namespace Relational

section Batches

open Exchange Tables

variable {τ : Type} {server : Server τ} {tablePrefix : String} {view : τ → Holding Tables}
  {calm : τ → Prop} {l : Ledger} {d contents : Tables} {σ : Pool × τ}

/-- The contents that the server is left with if it commits. -/
def Holding.committed {α : Type} (h : Holding α) : α :=
  match h.transaction with
  | .underWay changed => changed
  | _ => h.contents

theorem answer_commit {α : Type} (effect : Effect α) (h : Holding α) :
    h.answer effect .commit = (.ok [], ⟨h.committed, .none⟩) := by
  obtain ⟨contents, _ | changed | _⟩ := h <;> rfl

/-- A failed transaction stays so, whatever is written in it. -/
theorem runOp_of_failed
    (hserver : server.KeepsLedgers tablePrefix view calm) (login : Login)
    (op : Op) (hσ : IsAt view calm True ⟨contents, .failed⟩ σ) :
    IsAt view calm True ⟨contents, .failed⟩
      ((Pool.database server login tablePrefix).runOp op σ).2 := by
  induction op generalizing σ with
  | done result => exact hσ
  | suspend op ih => exact ih hσ
  | write r next ih =>
      obtain ⟨σ', htell, hσ'⟩ := tell_of_refused hserver login
        (ClientFault.queryFailure (Database.batchWriteName r.kind)) (s := .upsert r) trivial trivial
        rfl hσ
      rw [Database.runOp, htell]
      exact ih _ hσ'

theorem runOps_of_failed
    (hserver : server.KeepsLedgers tablePrefix view calm) (login : Login)
    (ops : List Op) (hσ : IsAt view calm True ⟨contents, .failed⟩ σ) :
    IsAt view calm True ⟨contents, .failed⟩
      ((Pool.database server login tablePrefix).runOps ops σ).2 := by
  induction ops generalizing σ with
  | nil => exact hσ
  | cons op ops ih =>
      have hop := runOp_of_failed hserver login op hσ
      rw [Database.runOps]
      rcases hrun : (Pool.database server login tablePrefix).runOp op σ with ⟨_ | _, next⟩
      · rwa [hrun] at hop
      · rw [hrun] at hop
        exact ih hop

/-- An upsert of a record that the ledger takes goes well in a transaction under way. -/
theorem tell_upsert_of_ok
    (hserver : server.KeepsLedgers tablePrefix view calm) (login : Login)
    (failure : ClientFault → Failure) {r : Record} {m : Ledger} (hd : d.Holds l)
    (happly : l.apply r = .ok m) (hσ : IsAt view calm True ⟨contents, .underWay d⟩ σ) :
    ∃ next changed, (Pool.database server login tablePrefix).tell failure (.upsert r) σ =
        (.ok (), next) ∧
      IsAt view calm True ⟨contents, .underWay changed⟩ next ∧ changed.Holds m := by
  obtain ⟨changed, heffect, hchanged⟩ := effect_upsert_of_ok hd happly
  obtain ⟨_, next, htell, hnext⟩ := (ensures_tell
    (fun σ hσ => send_of_isAt hserver login (s := .upsert r) trivial hσ)
    (Holding.answer_of_ok ⟨by simp, by simp, by simp⟩ heffect)).exists_ok
    (fun _ hint => hint.not_live trivial) hσ
  exact ⟨next, changed, htell, hnext, hchanged⟩

/-- As long as no write is refused, an operation does to the tables what it does to the ledger. -/
theorem runOp_of_accepted
    (hserver : server.KeepsLedgers tablePrefix view calm) (login : Login)
    {op : Op} (hd : d.Holds l) (hσ : IsAt view calm True ⟨contents, .underWay d⟩ σ)
    (haccepted : op.meetsRefusal l = false) :
    ∃ next changed, (Pool.database server login tablePrefix).runOp op σ = ((op.perform l).1, next) ∧
      IsAt view calm True ⟨contents, .underWay changed⟩ next ∧ changed.Holds (op.perform l).2.2 := by
  induction op generalizing l d σ with
  | done result => exact ⟨σ, d, rfl, hσ, hd⟩
  | suspend op ih => exact ih hd hσ haccepted
  | write r next ih =>
      rw [Op.meetsRefusal] at haccepted
      cases happly : l.apply r with
      | error f =>
          rw [happly] at haccepted
          cases haccepted
      | ok m =>
          rw [happly] at haccepted
          obtain ⟨σ', changed, htell, hσ', hchanged⟩ := tell_upsert_of_ok hserver login
            (ClientFault.queryFailure (Database.batchWriteName r.kind)) hd happly hσ
          rw [Database.runOp, htell, Op.perform, happly]
          exact ih (.ok ()) hchanged hσ' haccepted

/-- The first refused write of an operation fails the transaction. -/
theorem runOp_of_refused
    (hserver : server.KeepsLedgers tablePrefix view calm) (login : Login)
    {op : Op} (hd : d.Holds l) (hσ : IsAt view calm True ⟨contents, .underWay d⟩ σ)
    (hrefused : op.meetsRefusal l = true) :
    ∃ result next, (Pool.database server login tablePrefix).runOp op σ = (result, next) ∧
      IsAt view calm True ⟨contents, .failed⟩ next ∧
      (op.PassesOn → ∃ f, result = .error f) := by
  induction op generalizing l d σ with
  | done result => cases hrefused
  | suspend op ih => exact ih hd hσ hrefused
  | write r next ih =>
      rw [Op.meetsRefusal] at hrefused
      cases happly : l.apply r with
      | ok m =>
          rw [happly] at hrefused
          obtain ⟨σ', changed, htell, hσ', hchanged⟩ := tell_upsert_of_ok hserver login
            (ClientFault.queryFailure (Database.batchWriteName r.kind)) hd happly hσ
          obtain ⟨result, final, hrun, hfinal, hpass⟩ := ih (.ok ()) hchanged hσ' hrefused
          rw [Database.runOp, htell]
          exact ⟨result, final, hrun, hfinal, fun h => hpass h.1⟩
      | error f =>
          obtain ⟨σ', htell, hσ'⟩ := tell_of_refused hserver login
            (ClientFault.queryFailure (Database.batchWriteName r.kind)) (s := .upsert r) trivial
            trivial (Holding.answer_of_error ⟨by simp, by simp, by simp⟩
              (effect_upsert_of_error hd happly)) hσ
          rw [Database.runOp, htell]
          exact ⟨_, _, rfl, runOp_of_failed hserver login _ hσ', fun h => (h.2 _).runOp _ _⟩

theorem runOps_of_accepted
    (hserver : server.KeepsLedgers tablePrefix view calm) (login : Login)
    {ops : List Op} (hd : d.Holds l) (hσ : IsAt view calm True ⟨contents, .underWay d⟩ σ)
    (haccepted : Batch.meetsRefusal ops l = false) :
    ∃ next changed, (Pool.database server login tablePrefix).runOps ops σ =
        ((Batch.performAll ops l).1, next) ∧
      IsAt view calm True ⟨contents, .underWay changed⟩ next ∧
      changed.Holds (Batch.performAll ops l).2.2 := by
  induction ops generalizing l d σ with
  | nil => exact ⟨σ, d, rfl, hσ, hd⟩
  | cons op ops ih =>
      rw [Batch.meetsRefusal, Bool.or_eq_false_iff] at haccepted
      obtain ⟨next, changed, hrun, hnext, hchanged⟩ :=
        runOp_of_accepted hserver login hd hσ haccepted.1
      have hrest := haccepted.2
      rw [Database.runOps, hrun, Batch.performAll]
      rcases hperform : op.perform l with ⟨_ | _, records, m⟩
      · rw [hperform] at hchanged
        exact ⟨next, changed, rfl, hnext, hchanged⟩
      · rw [hperform] at hchanged hrest
        exact ih hchanged hnext hrest

theorem runOps_of_refused
    (hserver : server.KeepsLedgers tablePrefix view calm) (login : Login)
    {ops : List Op} (hd : d.Holds l) (hσ : IsAt view calm True ⟨contents, .underWay d⟩ σ)
    (hrefused : Batch.meetsRefusal ops l = true) :
    ∃ result next, (Pool.database server login tablePrefix).runOps ops σ = (result, next) ∧
      IsAt view calm True ⟨contents, .failed⟩ next ∧
      ((∀ op ∈ ops, op.PassesOn) → ∃ f, result = .error f) := by
  induction ops generalizing l d σ with
  | nil => cases hrefused
  | cons op ops ih =>
      rw [Batch.meetsRefusal, Bool.or_eq_true] at hrefused
      rw [Database.runOps]
      cases hop : op.meetsRefusal l with
      | true =>
          obtain ⟨result, next, hrun, hnext, hpass⟩ :=
            runOp_of_refused hserver login hd hσ hop
          rw [hrun]
          cases result with
          | error f => exact ⟨_, _, rfl, hnext, fun _ => ⟨f, rfl⟩⟩
          | ok u =>
              refine ⟨_, _, rfl, runOps_of_failed hserver login ops hnext, fun h => ?_⟩
              obtain ⟨f, hf⟩ := hpass (h op List.mem_cons_self)
              cases hf
      | false =>
          obtain ⟨next, changed, hrun, hnext, hchanged⟩ :=
            runOp_of_accepted hserver login hd hσ hop
          have hrest := hrefused.resolve_left (by simp [hop])
          rw [hrun]
          rcases hperform : op.perform l with ⟨_ | _, records, m⟩
          · rw [hperform] at hrest
            cases hrest
          · rw [hperform] at hrest hchanged
            obtain ⟨result, final, hops, hfinal, hpass⟩ := ih hchanged hnext hrest
            exact ⟨result, final, hops, hfinal, fun h =>
              hpass fun op hop => h op (List.mem_cons_of_mem _ hop)⟩

/-- What a database holds at the end of a batch: what was committed, if its operations succeeded. -/
theorem finish_of_isAt
    (hserver : server.KeepsLedgers tablePrefix view calm) (login : Login)
    (result : Except Failure Unit) {h : Holding Tables} (hσ : IsAt view calm True h σ) :
    ∃ next, (Pool.database server login tablePrefix).finish (result, σ) =
        (result.mapError Failure.aborted, next) ∧
      IsIdle tablePrefix view calm True
        (match result with
        | .ok _ => h.committed
        | .error _ => h.contents) next := by
  cases result with
  | ok u =>
      obtain ⟨_, next, htell, hnext⟩ := (ensures_tell
        (fun σ hσ => send_of_isAt hserver login (s := .commit) trivial hσ)
        (answer_commit effect h)).exists_ok (fun _ hint => hint.not_live trivial) hσ
      exact ⟨next, htell, hnext.isIdle rfl⟩
  | error f =>
      obtain ⟨-, hnext⟩ := (send_of_isAt hserver login (s := .rollback) trivial
        hσ).resolve_right fun hint => hint.2.not_live trivial
      exact ⟨_, rfl, hnext.isIdle rfl⟩

/-- A batch begins with the contents of the database, and ends as its operations do. -/
theorem runBatch_of_isIdle
    (hserver : server.KeepsLedgers tablePrefix view calm) (login : Login)
    (ops : List Op) (hσ : IsIdle tablePrefix view calm True contents σ) :
    ∃ begun, IsAt view calm True ⟨contents, .underWay contents⟩ begun ∧
      (Pool.database server login tablePrefix).runBatch ops σ =
        (Pool.database server login tablePrefix).finish
          ((Pool.database server login tablePrefix).runOps ops begun) := by
  obtain ⟨_, taken, htake, htaken⟩ :=
    (ensures_take hserver login PoolFault.poolFailure).exists_ok
      (fun _ hnot => hnot.1 trivial) hσ
  obtain ⟨_, begun, hstart, hbegun⟩ :=
    (ensures_start hserver trivial trivial login
      (ClientFault.queryFailure "postgres_tx_begin")).exists_ok (fun _ hnot => hnot.1 trivial) htaken
  refine ⟨begun, hbegun, ?_⟩
  simp only [Database.runBatch, bind_apply, htake, hstart]

end Batches

end Relational

/-! ## The two backends -/

namespace Storage

open Relational

variable {τ : Type} {server : Server τ} {view : τ → Holding Tables} {calm : τ → Prop}

/-- The answer to a batch is that it succeeded, or that it was undone. -/
def IsBatchAnswer (answer : Except Failure Unit) : Prop :=
  answer = .ok () ∨ ∃ f, answer = .error (.transaction f)

theorem isBatchAnswer_mapError (result : Except Failure Unit) :
    IsBatchAnswer (result.mapError Failure.aborted) := by
  cases result with
  | ok u => exact .inl rfl
  | error f => cases f <;> exact .inr ⟨_, rfl⟩

theorem runBatch_memory (server : Server τ) (ops : List Op) (l : Ledger) (t : τ) :
    runBatch server ops (.memory l) t =
      ((Batch.performAll ops l).1.mapError Failure.aborted, .memory (Batch.run ops l).2, t) := by
  rw [runBatch, Batch.run_eq_performAll]
  rcases Batch.performAll ops l with ⟨_ | _, records, m⟩ <;> rfl

theorem runBatch_of_accepted {l : Ledger} {s : Relational.Storage} {t : τ}
    (hserver : server.KeepsLedgers s.tablePrefix view calm) (hs : s.Keeps view calm l t)
    {ops : List Op} (haccepted : Batch.meetsRefusal ops l = false) :
    ∃ s' t', runBatch server ops (.relational s) t =
        ((Batch.performAll ops l).1.mapError Failure.aborted, .relational s', t') ∧
      s'.Keeps view calm (Batch.run ops l).2 t' := by
  obtain ⟨d, hd, hidle⟩ := hs
  obtain ⟨begun, hbegun, hbatch⟩ := runBatch_of_isIdle hserver s.login ops hidle
  obtain ⟨ended, changed, hops, hended, hchanged⟩ :=
    runOps_of_accepted hserver s.login hd hbegun haccepted
  obtain ⟨⟨pool, u⟩, hfinish, hnext⟩ :=
    finish_of_isAt hserver s.login (Batch.performAll ops l).1 hended
  rw [hops, hfinish] at hbatch
  refine ⟨{ s with pool }, u, by simp only [runBatch, Relational.Storage.run, hbatch], _, ?_, hnext⟩
  rw [Batch.run_eq_performAll]
  rcases hperform : Batch.performAll ops l with ⟨_ | _, records, m⟩
  · exact hd
  · rwa [hperform] at hchanged

/-- A database keeps nothing of a batch with a refused write, whether the batch succeeds or not. -/
theorem runBatch_of_refused {l : Ledger} {s : Relational.Storage} {t : τ}
    (hserver : server.KeepsLedgers s.tablePrefix view calm) (hs : s.Keeps view calm l t)
    {ops : List Op} (hrefused : Batch.meetsRefusal ops l = true) :
    ∃ (result : Except Failure Unit) (s' : Relational.Storage) (t' : τ),
      runBatch server ops (.relational s) t =
        (result.mapError Failure.aborted, .relational s', t') ∧
      s'.Keeps view calm l t' ∧ ((∀ op ∈ ops, op.PassesOn) → ∃ f, result = .error f) := by
  obtain ⟨d, hd, hidle⟩ := hs
  obtain ⟨begun, hbegun, hbatch⟩ := runBatch_of_isIdle hserver s.login ops hidle
  obtain ⟨result, ended, hops, hended, hpass⟩ :=
    runOps_of_refused hserver s.login hd hbegun hrefused
  obtain ⟨⟨pool, u⟩, hfinish, hnext⟩ := finish_of_isAt hserver s.login result hended
  rw [hops, hfinish] at hbatch
  refine ⟨result, { s with pool }, u, by simp only [runBatch, Relational.Storage.run, hbatch],
    ⟨d, hd, ?_⟩, hpass⟩
  cases result <;> exact hnext

/-- Two backends, one of them in memory, agree after a batch: they both took it or both undid it, and
the database keeps the ledger that is in memory. -/
structure Agree (view : τ → Holding Tables) (calm : τ → Prop) (answer answer' : Except Failure Unit)
    (m : Ledger) (s : Relational.Storage) (t : τ) : Prop where
  answers : answer' = .ok () ↔ answer = .ok ()
  contents : s.Keeps view calm m t

/-- A batch on a ledger in memory and on a database that keeps the same ledger. Both succeed or are
undone. They agree as long as no write is refused, and give the same answer then; and they agree if
every operation passes a refusal on. The database keeps nothing of a batch with a refused write,
whatever the answer to it is, so that they agree on such a batch exactly if it came to nothing in
memory, and the answers say the same. -/
theorem runBatch_agrees {l : Ledger} {s : Relational.Storage} {t : τ}
    (hserver : server.KeepsLedgers s.tablePrefix view calm) (hs : s.Keeps view calm l t)
    (ops : List Op) :
    ∃ answer m answer' s' t',
      runBatch server ops (.memory l) t = (answer, .memory m, t) ∧
      runBatch server ops (.relational s) t = (answer', .relational s', t') ∧
      (IsBatchAnswer answer ∧ IsBatchAnswer answer') ∧
      (Batch.meetsRefusal ops l = false → answer' = answer ∧ s'.Keeps view calm m t') ∧
      (Batch.meetsRefusal ops l = true → s'.Keeps view calm l t') ∧
      ((∀ op ∈ ops, op.PassesOn) → Agree view calm answer answer' m s' t') ∧
      (Agree view calm answer answer' m s' t' ↔
        (Batch.meetsRefusal ops l = true → m = l ∧ (answer' = .ok () ↔ answer = .ok ()))) := by
  have hmemory := runBatch_memory server ops l t
  cases hrefusal : Batch.meetsRefusal ops l with
  | false =>
      obtain ⟨s', t', hrun, hkeeps⟩ := runBatch_of_accepted hserver hs hrefusal
      exact ⟨_, _, _, s', t', hmemory, hrun, ⟨isBatchAnswer_mapError _, isBatchAnswer_mapError _⟩,
        fun _ => ⟨rfl, hkeeps⟩, nofun, fun _ => ⟨Iff.rfl, hkeeps⟩, fun _ => nofun,
        fun _ => ⟨Iff.rfl, hkeeps⟩⟩
  | true =>
      obtain ⟨result, s', t', hrun, hkeeps, hpass⟩ :=
        runBatch_of_refused hserver hs hrefusal
      refine ⟨_, _, _, s', t', hmemory, hrun,
        ⟨isBatchAnswer_mapError _, isBatchAnswer_mapError _⟩, nofun, fun _ => hkeeps,
        fun hops => ?_, fun hagree _ => ⟨?_, hagree.answers⟩, fun h => ⟨(h rfl).2, ?_⟩⟩
      · -- Both are undone: the first refusal is the end of the batch.
        obtain ⟨f, hfails⟩ := Batch.performAll_of_passesOn hops hrefusal
        obtain ⟨f', rfl⟩ := hpass hops
        have hundone : (Batch.run ops l).2 = l := by
          rw [Batch.run_eq_performAll]
          rcases hperform : Batch.performAll ops l with ⟨result, records, m⟩
          rw [hperform] at hfails
          obtain rfl : result = .error f := hfails
          rfl
        rw [hfails, hundone]
        exact ⟨by simp [Except.mapError], hkeeps⟩
      · obtain ⟨d, hd, hidle⟩ := hagree.contents
        obtain ⟨d', hd', hidle'⟩ := hkeeps
        obtain rfl : d' = d := hidle'.contents.symm.trans hidle.contents
        exact hd.unique hd'
      · rw [(h rfl).1]
        exact hkeeps

/-- The statement of a command of a ledger whose tables are called `m_counters` and `m_gauges`. -/
def statementOf (c : Command) : Option Statement :=
  match c.parameters with
  | [.text name, .integer delta] => some (.upsert (.counter name (Int64.ofInt delta)))
  | [.text name, .number value] => some (.upsert (.gauge name value))
  | [.text name] =>
      some (.select (if c.text = (Statement.select .counter name).text "m" then .counter else .gauge)
        name)
  | _ =>
      [.startTransaction, .commit, .rollback, .selectAll .counter, .selectAll .gauge].find?
        (·.command "m" = c)

theorem statementOf_command (s : Statement) (hs : s.IsOfLedger) :
    statementOf (s.command "m") = some s := by
  cases s with
  | startTransaction => decide +kernel
  | commit => decide +kernel
  | rollback => decide +kernel
  | upsert r =>
      cases r with
      | counter name delta => simp [statementOf, Statement.command, Statement.parameters]
      | gauge name value => rfl
  | select kind name =>
      cases kind with
      | counter => simp [statementOf, Statement.command, Statement.parameters]
      | gauge =>
          have htables : (Statement.select .gauge "").text "m" ≠
              (Statement.select .counter "").text "m" := by decide +kernel
          have hne : (Statement.select .gauge name).text "m" ≠
              (Statement.select .counter name).text "m" := htables
          simp [statementOf, Statement.command, Statement.parameters, hne]
  | selectAll kind => cases kind <;> decide +kernel
  | probe => cases hs
  | createVersionTable => cases hs
  | hasVersionTable => cases hs
  | currentVersion => cases hs
  | recordVersion version description => cases hs
  | schema text => cases hs

/-- A server of such a ledger on which nothing goes wrong but for a plan. -/
def ledgerServer : Server (Holding Tables × Plan) := plannedServer statementOf Tables.effect

theorem keepsLedgers_ledgerServer : ledgerServer.KeepsLedgers "m" Prod.fst (·.2 = []) :=
  plannedServer_isTransactional statementOf_command

/-- A ledger with a counter that cannot grow. -/
def fullLedger : Ledger := ⟨Table.empty.insert "b" Int64.maxValue, Table.empty⟩

/-- A server without any plan that holds the full ledger. -/
def fullStart : Holding Tables × Plan := (⟨⟨[("b", Int64.maxValue)], []⟩, .none⟩, [])

/-- The storage in front of it, before its first connection. -/
def fullStorage : Relational.Storage :=
  ⟨⟨"root", none, "ledger", ["localhost"], 5432⟩, "m", Pool.fresh⟩

theorem keeps_fullStorage : fullStorage.Keeps Prod.fst (·.2 = []) fullLedger fullStart :=
  ⟨_, ⟨List.Perm.refl _, List.Perm.refl _⟩, isIdle_fresh rfl fun _ => rfl⟩

/-- An operation that makes two increments, the second of which is refused, and fails with it. -/
def carefulOp : Op := .inTurn [.ofRecord (.counter "a" 1), .ofRecord (.counter "b" 1)]

/-- Both backends undo the operation. -/
theorem runBatch_agrees_careful :
    ∃ answer m answer' s' t',
      runBatch ledgerServer [carefulOp] (.memory fullLedger) fullStart =
        (answer, .memory m, fullStart) ∧
      runBatch ledgerServer [carefulOp] (.relational fullStorage) fullStart =
        (answer', .relational s', t') ∧
      Agree Prod.fst (·.2 = []) answer answer' m s' t' ∧
      Relational.Storage.Keeps Prod.fst (·.2 = []) fullLedger s' t' := by
  obtain ⟨answer, m, answer', s', t', hmemory, hrelational, -, -, hrefused, hpass, -⟩ :=
    runBatch_agrees keepsLedgers_ledgerServer keeps_fullStorage [carefulOp]
  have hop : carefulOp.PassesOn := Op.passesOn_inTurn (by simp [Op.passesOn_ofRecord])
  exact ⟨answer, m, answer', s', t', hmemory, hrelational, hpass (by simpa using hop),
    hrefused (by decide +kernel)⟩

/-- An operation that makes the same two increments, and does not look at what comes of them. -/
def carelessOp : Op := .regardless [.ofRecord (.counter "a" 1), .ofRecord (.counter "b" 1)]

/-- Nothing goes wrong on the server, the two storages keep the same ledger, and both say that the
batch succeeded. In memory the first increment is there; in the database, where it was accepted too,
it is not. -/
theorem runBatch_disagrees_careless :
    ledgerServer.KeepsLedgers "m" Prod.fst (·.2 = []) ∧
    fullStorage.Keeps Prod.fst (·.2 = []) fullLedger fullStart ∧
    let memory := runBatch ledgerServer [carelessOp] (.memory fullLedger) fullStart
    let database := runBatch ledgerServer [carelessOp] (.relational fullStorage) fullStart
    memory.1 = .ok () ∧
      (getCounter ledgerServer "a" memory.2.1 memory.2.2).1 = .ok ⟨"a", 1⟩ ∧
      database.1 = .ok () ∧
      (getCounter ledgerServer "a" database.2.1 database.2.2).1 = .error (.notFound .counter "a") :=
  ⟨keepsLedgers_ledgerServer, keeps_fullStorage, by decide +kernel⟩

end Storage

end MetricLedger
