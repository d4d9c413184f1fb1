import MetricLedger.Proofs.Batch.Rollback
import MetricLedger.Proofs.Relational.Exchanges

/-!
# What is said in a batch

A batch talks to the database one statement after the other: it starts a transaction, sends the upserts
of the writes that its operations ask for, up to the first operation that fails, and ends the
transaction. Main statement: `transaction_talk`.
-/

namespace MetricLedger

/-! ## What operations ask for -/

/-- A run that an operation can make: it asks for one write after the other, and goes on with the
answers. -/
inductive Op.Makes : Op → Op.Run → Prop where
  | done (result : Except Failure Unit) : Makes (.done result) ⟨[], result⟩
  | suspend {op : Op} {run : Op.Run} (h : Makes op run) : Makes (.suspend op) run
  | write {r : Record} {next : Except Failure Unit → Op} {answer : Except Failure Unit}
      {run : Op.Run} (h : Makes (next answer) run) :
      Makes (.write r next) ⟨(r, answer) :: run.writes, run.result⟩

/-- Runs that the operations of a batch can make, up to and including the first one that fails, and
what comes of them all. -/
inductive Batch.Makes : List Op → List Op.Run → Except Failure Unit → Prop where
  | nil : Makes [] [] (.ok ())
  | ok {op : Op} {ops : List Op} {run : Op.Run} {runs : List Op.Run} {result : Except Failure Unit}
      (hop : op.Makes run) (hrun : run.result = .ok ()) (hops : Makes ops runs result) :
      Makes (op :: ops) (run :: runs) result
  | error {op : Op} {ops : List Op} {run : Op.Run} {f : Failure}
      (hop : op.Makes run) (hrun : run.result = .error f) : Makes (op :: ops) [run] (.error f)

namespace Relational

/-! ## Conversations -/

/-- What is said to a question. -/
abbrev Reply := Except ClientFault (List Row)

/-- What comes of a statement whose answer says no more than that it succeeded. -/
def outcomeOf (failure : ClientFault → Failure) : Reply → Except Failure Unit
  | .ok _ => .ok ()
  | .error fault => .error (failure fault)

/-- Statements that were sent or meant to be sent one after the other, with the replies. -/
abbrev Talk := List (Statement × Reply)

/-- The statement is the upsert of the write, and the reply to it is the answer to the write. -/
def IsUpsertOf (asked : Statement × Reply) (write : Record × Except Failure Unit) : Prop :=
  asked.1 = .upsert write.1 ∧
    write.2 = outcomeOf (ClientFault.queryFailure (Database.batchWriteName write.1.kind)) asked.2

/-- The upserts of the writes of some runs, in order. -/
def AreUpsertsOf (upserts : Talk) (runs : List Op.Run) : Prop :=
  List.Forall₂ IsUpsertOf upserts (runs.flatMap (·.writes))

section Batches

variable {σ : Type} {db : Database σ} {I : Talk → σ → Prop}

/-- What is true of a conversation and the state it leads to stays true with every statement. -/
def Database.Keeps (db : Database σ) (I : Talk → σ → Prop) : Prop :=
  ∀ talk s statement, I talk s →
    I (talk ++ [(statement, (db.send statement s).1)]) (db.send statement s).2

theorem tell_talk (hdb : db.Keeps I) {talk : Talk} {s : σ} (hs : I talk s)
    (failure : ClientFault → Failure) (statement : Statement) :
    ∃ reply next, db.send statement s = (reply, next) ∧
      db.tell failure statement s = (outcomeOf failure reply, next) ∧
      I (talk ++ [(statement, reply)]) next := by
  have hnext := hdb talk s statement hs
  rcases hsend : db.send statement s with ⟨reply, next⟩
  rw [hsend] at hnext
  refine ⟨reply, next, rfl, ?_, hnext⟩
  cases reply <;> simp only [Database.tell, Database.ask, hsend] <;> rfl

/-- An operation sends the upserts of the writes that it asks for, and goes on with what comes of
them. -/
theorem runOp_talk (hdb : db.Keeps I) (op : Op) {talk : Talk} {s : σ} (hs : I talk s) :
    ∃ run upserts next, op.Makes run ∧ List.Forall₂ IsUpsertOf upserts run.writes ∧
      db.runOp op s = (run.result, next) ∧ I (talk ++ upserts) next := by
  induction op generalizing talk s with
  | done result => exact ⟨_, [], s, .done result, .nil, rfl, by rwa [List.append_nil]⟩
  | suspend op ih =>
      obtain ⟨run, upserts, next, hmakes, hupserts, hrun, hnext⟩ := ih hs
      exact ⟨run, upserts, next, hmakes.suspend, hupserts, hrun, hnext⟩
  | write r after ih =>
      obtain ⟨reply, mid, -, htell, hmid⟩ := tell_talk hdb hs
        (ClientFault.queryFailure (Database.batchWriteName r.kind)) (.upsert r)
      obtain ⟨run, upserts, next, hmakes, hupserts, hrun, hnext⟩ := ih _ hmid
      have hasked : IsUpsertOf (.upsert r, reply)
          (r, outcomeOf (ClientFault.queryFailure (Database.batchWriteName r.kind)) reply) :=
        ⟨rfl, rfl⟩
      refine ⟨_, (.upsert r, reply) :: upserts, next, hmakes.write, .cons hasked hupserts, ?_, ?_⟩
      · rw [Database.runOp, htell]
        exact hrun
      · rwa [List.append_assoc] at hnext

/-- The operations of a batch send the upserts of their writes, up to the first one that fails. -/
theorem runOps_talk (hdb : db.Keeps I) (ops : List Op) {talk : Talk} {s : σ} (hs : I talk s) :
    ∃ runs upserts result next, Batch.Makes ops runs result ∧ AreUpsertsOf upserts runs ∧
      db.runOps ops s = (result, next) ∧ I (talk ++ upserts) next := by
  induction ops generalizing talk s with
  | nil => exact ⟨[], [], _, s, .nil, .nil, rfl, by rwa [List.append_nil]⟩
  | cons op ops ih =>
      obtain ⟨⟨writes, outcome⟩, first, mid, hmakes, hfirst, hrun, hmid⟩ := runOp_talk hdb op hs
      cases outcome with
      | error f =>
          refine ⟨_, first, _, mid, .error hmakes rfl, ?_, by simp only [Database.runOps, hrun], hmid⟩
          rwa [AreUpsertsOf, List.flatMap_singleton]
      | ok u =>
          obtain ⟨runs, rest, result, next, hops, hrest, hruns, hnext⟩ := ih hmid
          refine ⟨_, first ++ rest, result, next, .ok hmakes rfl hops, ?_, ?_, ?_⟩
          · rw [AreUpsertsOf, List.flatMap_cons]
            exact List.rel_append hfirst hrest
          · simp only [Database.runOps, hrun, hruns]
          · rwa [← List.append_assoc]

/-- What can be said on a connection whose transaction was started: the upserts of the operations up
to the first one that fails, and a commit if there is none, or else a rollback, whatever is replied to
that. -/
inductive EndsTalk (ops : List Op) : Talk → Except Failure Unit → Prop where
  | commit {runs : List Op.Run} {upserts : Talk} (hruns : Batch.Makes ops runs (.ok ()))
      (hupserts : AreUpsertsOf upserts runs) (reply : Reply) :
      EndsTalk ops (upserts ++ [(.commit, reply)])
        (outcomeOf (fun fault => .transaction (fault.queryFailure "postgres_tx_commit")) reply)
  | rollback {runs : List Op.Run} {upserts : Talk} {f cause : Failure}
      (hruns : Batch.Makes ops runs (.error f)) (hupserts : AreUpsertsOf upserts runs)
      (hcause : f = .transaction cause ∨ f = cause ∧ ∀ source, f ≠ .transaction source)
      (reply : Reply) : EndsTalk ops (upserts ++ [(.rollback, reply)]) (.error (.transaction cause))

/-- The failure of a batch is wrapped, unless it was before. -/
theorem aborted_cases (f : Failure) : ∃ cause, f.aborted = .transaction cause ∧
    (f = .transaction cause ∨ f = cause ∧ ∀ source, f ≠ .transaction source) := by
  cases f with
  | transaction source => exact ⟨source, rfl, .inl rfl⟩
  | _ => exact ⟨_, rfl, .inr ⟨rfl, nofun⟩⟩

theorem aborted_queryFailure (operation : String) (fault : ClientFault) :
    (fault.queryFailure operation).aborted = .transaction (fault.queryFailure operation) := by
  unfold ClientFault.queryFailure
  split_ifs <;> rfl

theorem finish_talk (hdb : db.Keeps I) (ops : List Op) {talk : Talk} {s : σ} (hs : I talk s) :
    ∃ ending result next, EndsTalk ops ending result ∧ db.finish (db.runOps ops s) = (result, next) ∧
      I (talk ++ ending) next := by
  obtain ⟨runs, upserts, result, mid, hruns, hupserts, hmid, hI⟩ := runOps_talk hdb ops hs
  rw [hmid]
  cases result with
  | ok u =>
      obtain ⟨reply, next, -, htell, hnext⟩ := tell_talk hdb hI
        (fun fault => (fault.queryFailure "postgres_tx_commit").aborted) .commit
      rw [List.append_assoc] at hnext
      refine ⟨_, _, next, .commit hruns hupserts reply, ?_, hnext⟩
      simp only [Database.finish, aborted_queryFailure] at htell ⊢
      exact htell
  | error f =>
      have hnext := hdb _ _ .rollback hI
      rw [List.append_assoc] at hnext
      obtain ⟨cause, haborted, hcause⟩ := aborted_cases f
      refine ⟨_, _, _, .rollback hruns hupserts hcause _, ?_, hnext⟩
      rw [Database.finish, haborted]

/-- The start of a transaction is refused, or its operations are run. -/
theorem transaction_talk (hdb : db.Keeps I) (ops : List Op) {s mid : σ} {reply : Reply}
    (hsend : db.send .startTransaction s = (reply, mid)) (hmid : I [(.startTransaction, reply)] mid) :
    (∃ fault, reply = .error fault ∧ ∀ others,
      (db.start (ClientFault.queryFailure "postgres_tx_begin") >>= fun _ s =>
        db.finish (db.runOps others s) : Exchange σ Unit) s =
          (.error (fault.queryFailure "postgres_tx_begin"), db.abandon mid)) ∨
    ∃ rows ending result next, reply = .ok rows ∧ EndsTalk ops ending result ∧
      (db.start (ClientFault.queryFailure "postgres_tx_begin") >>= fun _ s =>
        db.finish (db.runOps ops s) : Exchange σ Unit) s = (result, next) ∧
      I ((.startTransaction, .ok rows) :: ending) next := by
  cases reply with
  | error fault =>
      have hstart : db.start (ClientFault.queryFailure "postgres_tx_begin") s =
          (.error (fault.queryFailure "postgres_tx_begin"), db.abandon mid) := by
        simp only [Database.start, Database.orAbandon, Database.tell, Database.ask, hsend]
        rfl
      exact .inl ⟨fault, rfl, fun others => by rw [Exchange.bind_apply, hstart]⟩
  | ok rows =>
      have hstart : db.start (ClientFault.queryFailure "postgres_tx_begin") s = (.ok (), mid) := by
        simp only [Database.start, Database.orAbandon, Database.tell, Database.ask, hsend]
        rfl
      obtain ⟨ending, result, next, hends, hfinish, hnext⟩ := finish_talk hdb ops hmid
      exact .inr ⟨rows, ending, result, next, rfl, hends,
        by rw [Exchange.bind_apply, hstart]; exact hfinish, hnext⟩

end Batches

end Relational

end MetricLedger
