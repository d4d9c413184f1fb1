import MetricLedger.Proofs.Relational.Talk
import MetricLedger.Storage

/-!
# What a server hears of a batch

A server that keeps a record of what it hears sees a batch as a conversation on one connection. The
conversation breaks off with the reply that cuts the connection, and the end of a transaction whose
start was refused is left to whatever is sent next. Main statement: `runBatch_conversation`.
-/

namespace MetricLedger.Relational

/-! ## Records of what is heard -/

/-- What a server hears: the wish for a connection, or a command on the open one. -/
inductive Heard where
  | login (login : Login) (reply : Except ClientFault Unit)
  | command (command : Command) (reply : Reply)

/-- The server that keeps a record of what it hears. -/
def Server.recorded {τ : Type} (server : Server τ) : Server (τ × List Heard) where
  connect login := fun (t, heard) =>
    let (reply, t) := server.connect login t
    (reply, t, heard ++ [.login login reply])
  answer command := fun (t, heard) =>
    let (reply, t) := server.answer command t
    (reply, t, heard ++ [.command command reply])

theorem recorded_connect {τ : Type} (server : Server τ) (login : Login) (t : τ)
    (heard : List Heard) :
    server.recorded.connect login (t, heard) = ((server.connect login t).1,
      (server.connect login t).2, heard ++ [.login login (server.connect login t).1]) := rfl

theorem recorded_answer {τ : Type} (server : Server τ) (command : Command) (t : τ)
    (heard : List Heard) :
    server.recorded.answer command (t, heard) = ((server.answer command t).1,
      (server.answer command t).2, heard ++ [.command command (server.answer command t).1]) := rfl

/-- The reply cuts the connection. -/
def cuts : Command × Reply → Bool
  | (_, .error .closed) => true
  | _ => false

/-- All that is sent: the commands up to and including the one whose reply cuts the connection. -/
def uptoCut : List (Command × Reply) → List (Command × Reply)
  | [] => []
  | x :: xs => if cuts x then [x] else x :: uptoCut xs

theorem uptoCut_of_uncut {xs : List (Command × Reply)} (h : xs.any cuts = false) :
    uptoCut xs = xs := by
  induction xs with
  | nil => rfl
  | cons x xs ih =>
      obtain ⟨hx, hxs⟩ := Bool.or_eq_false_iff.1 h
      rw [uptoCut, hx, ih hxs]
      rfl

theorem uptoCut_append_of_uncut {xs : List (Command × Reply)} (h : xs.any cuts = false)
    (ys : List (Command × Reply)) : uptoCut (xs ++ ys) = xs ++ uptoCut ys := by
  induction xs with
  | nil => rfl
  | cons x xs ih =>
      obtain ⟨hx, hxs⟩ := Bool.or_eq_false_iff.1 h
      rw [List.cons_append, uptoCut, hx, ih hxs]
      rfl

theorem uptoCut_append_of_cut {xs : List (Command × Reply)} (h : xs.any cuts = true)
    (ys : List (Command × Reply)) : uptoCut (xs ++ ys) = uptoCut xs := by
  induction xs with
  | nil => cases h
  | cons x xs ih =>
      rw [List.cons_append, uptoCut, uptoCut]
      cases hx : cuts x with
      | true => rfl
      | false =>
          rw [List.any_cons, hx, Bool.false_or] at h
          rw [ih h]

/-- What is heard of commands that are sent one after the other. -/
def heardOf (sent : List (Command × Reply)) : List Heard :=
  (uptoCut sent).map fun x => .command x.1 x.2

theorem heardOf_append_of_uncut {xs : List (Command × Reply)} (h : xs.any cuts = false)
    (ys : List (Command × Reply)) : heardOf (xs ++ ys) = heardOf xs ++ heardOf ys := by
  rw [heardOf, uptoCut_append_of_uncut h, List.map_append, heardOf, uptoCut_of_uncut h, heardOf]

theorem heardOf_append_of_cut {xs : List (Command × Reply)} (h : xs.any cuts = true)
    (ys : List (Command × Reply)) : heardOf (xs ++ ys) = heardOf xs := by
  rw [heardOf, uptoCut_append_of_cut h, heardOf]

theorem heardOf_singleton (x : Command × Reply) : heardOf [x] = [.command x.1 x.2] := by
  rw [heardOf, uptoCut, uptoCut]
  split_ifs <;> rfl

section Connections

variable {τ : Type} {server : Server τ} {before : List Heard} {sent : List (Command × Reply)}

/-- What a connection has come to, after some commands were sent on it or meant to be sent: the server
has heard them up to the reply that cuts the connection, and after it there is none. -/
structure Exchanged (before : List Heard) (sent : List (Command × Reply))
    (σ : Pool × τ × List Heard) : Prop where
  isOpen : σ.1.isOpen = true
  connection : σ.1.connection = if sent.any cuts then none else some []
  heard : σ.2.2 = before ++ heardOf sent
  /-- Once the connection is cut, every later command has this reply as well. -/
  closed : sent.Pairwise fun x y => cuts x = true → cuts y = true

theorem pairwise_concat {x : Command × Reply} (h : sent.Pairwise fun x y => cuts x = true → cuts y = true)
    (hx : sent.any cuts = true → cuts x = true) :
    (sent ++ [x]).Pairwise fun x y => cuts x = true → cuts y = true := by
  refine List.pairwise_append.2 ⟨h, List.pairwise_singleton _ _, fun y hy z hz hcut => ?_⟩
  rw [List.mem_singleton.1 hz]
  exact hx (List.any_eq_true.2 ⟨y, hy, hcut⟩)

/-- A command is sent as long as the connection is not cut. -/
theorem Exchanged.send {σ : Pool × τ × List Heard} (hσ : Exchanged before sent σ)
    (server : Server τ) (c : Command) :
    Exchanged before (sent ++ [(c, (Pool.send server.recorded c σ).1)])
      (Pool.send server.recorded c σ).2 := by
  obtain ⟨p, t, heard⟩ := σ
  obtain ⟨hisOpen, hconnection, hheard, hclosed⟩ := hσ
  simp only at hisOpen hconnection hheard
  cases hcut : sent.any cuts with
  | true =>
      rw [hcut, if_pos rfl] at hconnection
      have hsend : Pool.send server.recorded c (p, t, heard) = (.error .closed, p, t, heard) := by
        simp only [Pool.send, hconnection]
      rw [hsend]
      refine ⟨hisOpen, ?_, ?_, pairwise_concat hclosed fun _ => rfl⟩
      · rw [List.any_append, hcut, Bool.true_or, if_pos rfl, hconnection]
      · rw [heardOf_append_of_cut hcut, hheard]
  | false =>
      rw [hcut, if_neg Bool.false_ne_true] at hconnection
      rcases hanswer : server.answer c t with ⟨reply, t'⟩
      have hsend : Pool.send server.recorded c (p, t, heard) =
          (reply, { p with connection := if cuts (c, reply) then none else some [] }, t',
            heard ++ [.command c reply]) := by
        simp only [Pool.send, hconnection, Pool.sendUnsent, recorded_answer, hanswer]
        rcases reply with fault | rows
        · cases fault <;> rfl
        · rfl
      rw [hsend]
      refine ⟨hisOpen, ?_, ?_, pairwise_concat hclosed fun h => ?_⟩
      · rw [List.any_append, hcut, Bool.false_or, List.any_cons, List.any_nil, Bool.or_false]
      · rw [heardOf_append_of_uncut hcut, heardOf_singleton, hheard, List.append_assoc]
      · rw [hcut] at h
        cases h

/-- The commands that were left over are sent ahead of the next one. -/
theorem sendUnsent_recorded (server : Server τ) (cs : List Command) (t : τ) (heard : List Heard) :
    ∃ idle next, idle.map Prod.fst = cs ∧
      Pool.sendUnsent server.recorded cs (t, heard) =
        (!idle.any cuts, next, heard ++ heardOf idle) ∧
      idle.Pairwise fun x y => cuts x = true → cuts y = true := by
  induction cs generalizing t heard with
  | nil => exact ⟨[], t, rfl, by simp [Pool.sendUnsent, heardOf, uptoCut], .nil⟩
  | cons c cs ih =>
      rcases hanswer : server.answer c t with ⟨reply, t'⟩
      cases hcut : cuts (c, reply) with
      | true =>
          obtain rfl : reply = .error .closed := by
            rcases reply with fault | rows
            · cases fault <;> first | rfl | cases hcut
            · cases hcut
          have hlater : ∀ y ∈ cs.map ((·, .error .closed) : Command → Command × Reply),
              cuts y = true := by
            intro y hy
            obtain ⟨d, -, rfl⟩ := List.mem_map.1 hy
            rfl
          refine ⟨(c, .error .closed) :: cs.map (·, .error .closed), t',
            by simp [Function.comp_def], ?_, ?_⟩
          · simp only [Pool.sendUnsent, recorded_answer, hanswer]
            rw [heardOf, uptoCut, hcut, List.any_cons, hcut]
            rfl
          · refine List.pairwise_cons.2 ⟨fun y hy _ => hlater y hy, ?_⟩
            exact List.pairwise_iff_forall_sublist.2 fun hsub _ =>
              hlater _ (hsub.subset (by simp))
      | false =>
          obtain ⟨idle, next, hidle, hsend, hclosed⟩ := ih t' (heard ++ [.command c reply])
          refine ⟨(c, reply) :: idle, next, by rw [List.map_cons, hidle], ?_, ?_⟩
          · have hgoOn : Pool.sendUnsent server.recorded (c :: cs) (t, heard) =
                Pool.sendUnsent server.recorded cs (t', heard ++ [.command c reply]) := by
              simp only [Pool.sendUnsent, recorded_answer, hanswer]
              rcases reply with fault | rows
              · cases fault <;> first | rfl | cases hcut
              · rfl
            rw [hgoOn, hsend, heardOf, heardOf, uptoCut, hcut, List.any_cons, hcut]
            simp
          · exact List.pairwise_cons.2 ⟨fun y _ h => by simp [hcut] at h, hclosed⟩

/-- A command is sent behind those that were left over. -/
theorem send_behind_unsent (server : Server τ) {p : Pool} {unsent : List Command}
    (hopen : p.isOpen = true) (hconnection : p.connection = some unsent) (t : τ)
    (heard : List Heard) :
    ∃ idle σ, idle.map Prod.fst = unsent ∧ Exchanged heard idle σ ∧ ∀ c,
      Pool.send server.recorded c (p, t, heard) = Pool.send server.recorded c σ := by
  obtain ⟨idle, next, hidle, hsend, hclosed⟩ :=
    sendUnsent_recorded server unsent t heard
  refine ⟨idle, ({ p with connection := if idle.any cuts then none else some [] }, next,
    heard ++ heardOf idle), hidle, ⟨hopen, rfl, rfl, hclosed⟩, fun c => ?_⟩
  cases hcut : idle.any cuts with
  | true => simp [Pool.send, hconnection, hsend, hcut]
  | false => simp [Pool.send, hconnection, hsend, hcut, Pool.sendUnsent]

end Connections

/-! ## Databases with and without a record -/

section Images

variable {σ ρ α β : Type} {db : Database σ} {db' : Database ρ} {f : σ → ρ}

/-- One exchange does what the other does to the image of its state. -/
def Exchange.IsImage (x : Exchange σ α) (y : Exchange ρ α) (f : σ → ρ) : Prop :=
  ∀ s, y (f s) = ((x s).1, f (x s).2)

theorem Exchange.IsImage.bind {x : Exchange σ α} {y : Exchange ρ α} {k : α → Exchange σ β}
    {k' : α → Exchange ρ β} (hx : x.IsImage y f) (hk : ∀ a, Exchange.IsImage (k a) (k' a) f) :
    Exchange.IsImage (x >>= k) (y >>= k') f := by
  intro s
  rw [Exchange.bind_apply, Exchange.bind_apply, hx s]
  rcases x s with ⟨_ | a, next⟩
  · rfl
  · exact hk a next

/-- One database does what the other does to the image of its state. -/
structure Database.IsImage (db : Database σ) (db' : Database ρ) (f : σ → ρ) : Prop where
  acquire : ∀ s, db'.acquire (f s) = ((db.acquire s).1, f (db.acquire s).2)
  send : ∀ statement s, db'.send statement (f s) =
    ((db.send statement s).1, f (db.send statement s).2)
  abandon : ∀ s, db'.abandon (f s) = f (db.abandon s)

namespace Database.IsImage

theorem take (h : db.IsImage db' f) (failure : PoolFault → Failure) :
    (db.take failure).IsImage (db'.take failure) f := fun s => by
  simp only [Database.take, h.acquire]

theorem tell (h : db.IsImage db' f) (failure : ClientFault → Failure) (statement : Statement) :
    (db.tell failure statement).IsImage (db'.tell failure statement) f := fun s => by
  simp only [Database.tell, Database.ask, h.send]

theorem start (h : db.IsImage db' f) (failure : ClientFault → Failure) :
    (db.start failure).IsImage (db'.start failure) f := fun s => by
  simp only [Database.start, Database.orAbandon, h.tell failure .startTransaction s]
  rcases db.tell failure .startTransaction s with ⟨_ | _, next⟩
  · simp only [h.abandon]
  · rfl

theorem runOp (h : db.IsImage db' f) (op : Op) : Exchange.IsImage (db.runOp op) (db'.runOp op) f := by
  induction op with
  | done result => exact fun s => rfl
  | suspend op ih => exact ih
  | write r next ih =>
      intro s
      simp only [Database.runOp, h.tell _ _ s]
      exact ih _ _

theorem runOps (h : db.IsImage db' f) (ops : List Op) :
    Exchange.IsImage (db.runOps ops) (db'.runOps ops) f := by
  induction ops with
  | nil => exact fun s => rfl
  | cons op ops ih =>
      intro s
      simp only [Database.runOps, h.runOp op s]
      rcases db.runOp op s with ⟨_ | _, next⟩
      · rfl
      · exact ih next

theorem finish (h : db.IsImage db' f) (result : Except Failure Unit) :
    Exchange.IsImage (fun s => db.finish (result, s)) (fun s => db'.finish (result, s)) f := by
  intro s
  cases result with
  | ok u => exact h.tell _ _ s
  | error g => simp only [Database.finish, h.send]

theorem runBatch (h : db.IsImage db' f) (ops : List Op) :
    (db.runBatch ops).IsImage (db'.runBatch ops) f := by
  refine (h.take _).bind fun _ => (h.start _).bind fun _ s => ?_
  simp only [h.runOps ops s]
  exact h.finish _ _

end Database.IsImage

end Images

section Records

variable {τ : Type} {server : Server τ}

theorem sendUnsent_forget (cs : List Command) (t : τ) (heard : List Heard) :
    Pool.sendUnsent server cs t =
      ((Pool.sendUnsent server.recorded cs (t, heard)).1,
        (Pool.sendUnsent server.recorded cs (t, heard)).2.1) := by
  induction cs generalizing t heard with
  | nil => rfl
  | cons c cs ih =>
      simp only [Pool.sendUnsent, recorded_answer]
      rcases server.answer c t with ⟨fault | rows, next⟩
      · cases fault <;> first | rfl | exact ih next _
      · exact ih next _

/-- The record changes nothing that a pool does. -/
theorem isImage_recorded (server : Server τ) (login : Login) (tablePrefix : String) :
    (Pool.database server.recorded login tablePrefix).IsImage
      (Pool.database server login tablePrefix) fun σ => (σ.1, σ.2.1) where
  acquire := by
    rintro ⟨p, t, heard⟩
    simp only [Pool.database, Pool.acquire, recorded_connect]
    split_ifs
    · rfl
    · cases p.connection with
      | some unsent => rfl
      | none => rcases server.connect login t with ⟨_ | _, next⟩ <;> rfl
  send := by
    rintro statement ⟨p, t, heard⟩
    simp only [Pool.database, Pool.send]
    cases p.connection with
    | none => rfl
    | some unsent =>
        simp only [sendUnsent_forget unsent t heard]
        rcases Pool.sendUnsent server.recorded unsent (t, heard) with ⟨_ | _, next, heard'⟩
        · rfl
        · simp only [recorded_answer]
          rcases server.answer (statement.command tablePrefix) next with ⟨fault | rows, last⟩
          · cases fault <;> rfl
          · rfl
  abandon _ := rfl

end Records

/-! ## Batches -/

section Batches

variable {τ : Type} {server : Server τ} {before : List Heard}

/-- The statements of a conversation as the server gets to see them. -/
def commands (tablePrefix : String) (talk : Talk) : List (Command × Reply) :=
  talk.map fun x => (x.1.command tablePrefix, x.2)

theorem keeps_exchanged (server : Server τ) (login : Login) (tablePrefix : String)
    (before : List Heard) (idle : List (Command × Reply)) :
    (Pool.database server.recorded login tablePrefix).Keeps fun talk σ =>
      Exchanged before (idle ++ commands tablePrefix talk) σ := by
  intro talk σ statement hσ
  rw [commands, List.map_append, ← List.append_assoc]
  exact hσ.send server _

theorem getLast?_heardOf_of_cut {xs : List (Command × Reply)} (h : xs.any cuts = true) :
    ∃ c, (heardOf xs).getLast? = some (.command c (.error .closed)) := by
  induction xs with
  | nil => cases h
  | cons x xs ih =>
      cases hx : cuts x with
      | true =>
          obtain ⟨c, fault | rows⟩ := x
          · cases fault <;> first | exact ⟨c, by rw [heardOf, uptoCut, hx]; rfl⟩ | cases hx
          · cases hx
      | false =>
          rw [List.any_cons, hx, Bool.false_or] at h
          obtain ⟨c, hc⟩ := ih h
          refine ⟨c, ?_⟩
          rw [← List.singleton_append, heardOf_append_of_uncut (by simp [hx]), List.getLast?_append, hc]
          rfl

/-- The last thing that is heard is a success exactly if the last command was answered with one. -/
theorem getLast?_heardOf_iff {xs : List (Command × Reply)} {c d : Command} {reply : Reply}
    (hclosed : (xs ++ [(c, reply)]).Pairwise fun x y => cuts x = true → cuts y = true)
    (before : List Heard) :
    (∃ rows, (before ++ heardOf (xs ++ [(c, reply)])).getLast? = some (.command d (.ok rows))) ↔
      c = d ∧ ∃ rows, reply = .ok rows := by
  cases hcut : xs.any cuts with
  | false =>
      rw [heardOf_append_of_uncut hcut, heardOf_singleton, ← List.append_assoc,
        List.getLast?_append_of_ne_nil _ (by simp)]
      simp
  | true =>
      obtain ⟨x, hx, hxcut⟩ := List.any_eq_true.1 hcut
      have hreply := (List.pairwise_append.1 hclosed).2.2 x hx _ (List.mem_singleton.2 rfl) hxcut
      obtain ⟨e, he⟩ := getLast?_heardOf_of_cut hcut
      rw [heardOf_append_of_cut hcut, List.getLast?_append, he]
      refine iff_of_false (by simp) ?_
      rintro ⟨-, rows, rfl⟩
      cases hreply

/-- The server hears a conversation on one connection: on the open one, behind the commands that were
left over, or else on a new one. It hears it up to the reply that cuts the connection, and all that is
said later is replied to in the same way. -/
def IsHeard (s : Storage) (talk : Talk) (heard : List Heard) (isCut : Bool) : Prop :=
  ∃ idle : List (Command × Reply), idle.map Prod.fst = s.pool.connection.getD [] ∧
    heard = (if s.pool.connection.isSome then [] else [.login s.login (.ok ())]) ++
      heardOf (idle ++ commands s.tablePrefix talk) ∧
    ((idle ++ commands s.tablePrefix talk).Pairwise fun x y => cuts x = true → cuts y = true) ∧
    isCut = (idle ++ commands s.tablePrefix talk).any cuts

theorem Exchanged.isHeard {s : Storage} {idle : List (Command × Reply)} {talk : Talk}
    {σ : Pool × τ × List Heard} (hidle : idle.map Prod.fst = s.pool.connection.getD [])
    (hσ : Exchanged (if s.pool.connection.isSome then [] else [.login s.login (.ok ())])
      (idle ++ commands s.tablePrefix talk) σ) :
    ∃ isCut, IsHeard s talk σ.2.2 isCut ∧ σ.1 = ⟨true, if isCut then none else some []⟩ := by
  refine ⟨_, ⟨idle, hidle, hσ.heard, hσ.closed, rfl⟩, ?_⟩
  obtain ⟨⟨isOpen, connection⟩, t, heard⟩ := σ
  obtain rfl : isOpen = true := hσ.isOpen
  obtain rfl : connection = _ := hσ.connection
  rfl

/-- The success of a commit is heard last exactly if the batch succeeds. -/
theorem IsHeard.ok_iff {s : Storage} (talk : Talk) {statement : Statement} {reply : Reply}
    {heard : List Heard} {isCut : Bool} (h : IsHeard s (talk ++ [(statement, reply)]) heard isCut)
    (d : Command) :
    (∃ rows, heard.getLast? = some (.command d (.ok rows))) ↔
      statement.command s.tablePrefix = d ∧ ∃ rows, reply = .ok rows := by
  obtain ⟨idle, -, rfl, hclosed, -⟩ := h
  rw [commands, List.map_append, ← List.append_assoc] at hclosed ⊢
  exact getLast?_heardOf_iff hclosed _

/-- A conversation ends with a commit that succeeds exactly if the batch does. -/
theorem EndsTalk.ok_iff {ops : List Op} {ending : Talk} {result : Except Failure Unit}
    (h : EndsTalk ops ending result) (tablePrefix : String) :
    ∃ upserts statement reply, ending = upserts ++ [(statement, reply)] ∧
      (result = .ok () ↔ statement.command tablePrefix = Statement.commit.command tablePrefix ∧
        ∃ rows, reply = .ok rows) := by
  cases h with
  | @commit runs upserts hruns hupserts reply =>
      refine ⟨upserts, .commit, reply, rfl, ?_⟩
      cases reply <;> simp [outcomeOf]
  | @rollback runs upserts f cause hruns hupserts hcause reply =>
      refine ⟨upserts, .rollback, reply, rfl, iff_of_false (by simp) ?_⟩
      rintro ⟨hcommand, -⟩
      exact absurd (congrArg Command.text hcommand) (by decide : "ROLLBACK" ≠ "COMMIT")

/-- A pool gives no connection, or one on which the commands that were left over are sent first. -/
theorem acquire_recorded (server : Server τ) (s : Storage) (t : τ) :
    (∃ fault next heard,
      Pool.acquire server.recorded s.login (s.pool, t, []) = (.error fault, s.pool, next, heard) ∧
      (fault = .closed ∧ heard = [] ∨
        ∃ refusal, fault = .creation refusal ∧ heard = [.login s.login (.error refusal)])) ∨
    ∃ taken idle σ, Pool.acquire server.recorded s.login (s.pool, t, []) = (.ok (), taken) ∧
      idle.map Prod.fst = s.pool.connection.getD [] ∧
      Exchanged (if s.pool.connection.isSome then [] else [.login s.login (.ok ())]) idle σ ∧
      ∀ c, Pool.send server.recorded c taken = Pool.send server.recorded c σ := by
  cases hopen : s.pool.isOpen with
  | false => exact .inl ⟨.closed, t, [], by simp [Pool.acquire, hopen], .inl ⟨rfl, rfl⟩⟩
  | true =>
      cases hconnection : s.pool.connection with
      | some unsent =>
          obtain ⟨idle, σ, hidle, hσ, hsend⟩ :=
            send_behind_unsent server hopen hconnection t []
          exact .inr ⟨_, idle, σ, by simp [Pool.acquire, hopen, hconnection], hidle, hσ, hsend⟩
      | none =>
          rcases hconnect : server.connect s.login t with ⟨refusal | _, next⟩
          · refine .inl ⟨.creation refusal, next, [.login s.login (.error refusal)], ?_,
              .inr ⟨refusal, rfl, rfl⟩⟩
            simp [Pool.acquire, hopen, hconnection, recorded_connect, hconnect]
          · refine .inr ⟨({ s.pool with connection := some [] }, next, [.login s.login (.ok ())]), [],
              _, ?_, rfl, ⟨hopen, rfl, rfl, .nil⟩, fun c => rfl⟩
            simp [Pool.acquire, hopen, hconnection, recorded_connect, hconnect]

section Runs

variable {s : Storage} {ops : List Op} {t : τ}

theorem run_of_runBatch {result : Except Failure Unit} {pool : Pool} {next : τ}
    {heard : List Heard}
    (h : (Pool.database server.recorded s.login s.tablePrefix).runBatch ops (s.pool, t, []) =
      (result, pool, next, heard)) :
    s.run server.recorded (·.runBatch ops) (t, []) = (result, { s with pool }, next, heard) ∧
      s.run server (·.runBatch ops) t = (result, { s with pool }, next) := by
  have hforget := (isImage_recorded server s.login s.tablePrefix).runBatch ops (s.pool, t, [])
  rw [h] at hforget
  exact ⟨by simp only [Storage.run, h], by simp only [Storage.run, hforget]⟩

theorem runBatch_of_refused (ops : List Op) {fault : PoolFault} {σ : Pool × τ × List Heard}
    (h : Pool.acquire server.recorded s.login (s.pool, t, []) = (.error fault, σ)) :
    (Pool.database server.recorded s.login s.tablePrefix).runBatch ops (s.pool, t, []) =
      (.error fault.poolFailure, σ) := by
  rw [Database.runBatch, Exchange.bind_apply]
  simp only [Database.take, Pool.database, h, Except.mapError]

theorem runBatch_of_taken (ops : List Op) {taken : Pool × τ × List Heard}
    (h : Pool.acquire server.recorded s.login (s.pool, t, []) = (.ok (), taken)) :
    (Pool.database server.recorded s.login s.tablePrefix).runBatch ops (s.pool, t, []) =
      ((Pool.database server.recorded s.login s.tablePrefix).start
          (ClientFault.queryFailure "postgres_tx_begin") >>= fun _ σ =>
        (Pool.database server.recorded s.login s.tablePrefix).finish
          ((Pool.database server.recorded s.login s.tablePrefix).runOps ops σ) :
        Exchange (Pool × τ × List Heard) Unit) taken := by
  have htake : (Pool.database server.recorded s.login s.tablePrefix).take PoolFault.poolFailure
      (s.pool, t, []) = (.ok (), taken) := by
    simp only [Database.take, Pool.database, h, Except.mapError]
  rw [Database.runBatch, Exchange.bind_apply, htake]

end Runs

/-- What a batch says to a server, whatever the server replies. Without a connection no operation is
run. Neither is one if the start of the transaction is refused; a rollback is then left to be sent
ahead of the next command. Otherwise the server hears, on the connection of the start, the upserts of
the writes that the operations ask for, up to and including the first operation that fails, and then a
commit if there is none, or else a rollback; a reply that cuts the connection is the last that is heard.
The batch succeeds exactly if the last that was heard is a commit, and that with success; the failure
of an operation or of the commit is wrapped once, and a rollback does not count. -/
theorem runBatch_conversation (server : Server τ) (s : Storage) (ops : List Op) (t : τ) :
    ∃ result pool next heard,
      s.run server.recorded (·.runBatch ops) (t, []) = (result, { s with pool }, next, heard) ∧
      s.run server (·.runBatch ops) t = (result, { s with pool }, next) ∧
      (result = .ok () ↔ ∃ rows, heard.getLast? =
        some (.command (Statement.commit.command s.tablePrefix) (.ok rows))) ∧
      ((∃ fault : PoolFault, result = .error fault.poolFailure ∧ pool = s.pool ∧
          (fault = .closed ∧ heard = [] ∨
            ∃ refusal, fault = .creation refusal ∧ heard = [.login s.login (.error refusal)]) ∧
          ∀ others, s.run server.recorded (·.runBatch others) (t, []) =
            (result, { s with pool }, next, heard)) ∨
        (∃ fault isCut, result = .error (fault.queryFailure "postgres_tx_begin") ∧
          IsHeard s [(.startTransaction, .error fault)] heard isCut ∧
          pool = ⟨true, if isCut then none else some [Statement.rollback.command s.tablePrefix]⟩ ∧
          ∀ others, s.run server.recorded (·.runBatch others) (t, []) =
            (result, { s with pool }, next, heard)) ∨
        ∃ rows ending isCut, EndsTalk ops ending result ∧
          IsHeard s ((.startTransaction, .ok rows) :: ending) heard isCut ∧
          pool = ⟨true, if isCut then none else some []⟩) := by
  obtain ⟨fault, next, heard, hacquire, hfault⟩ | ⟨taken, idle, σ, hacquire, hidle, hσ, hsend⟩ :=
    acquire_recorded server s t
  · have hall (others : List Op) := run_of_runBatch (runBatch_of_refused others hacquire)
    refine ⟨_, _, next, heard, (hall ops).1, (hall ops).2, ?_,
      .inl ⟨fault, rfl, rfl, hfault, fun others => (hall others).1⟩⟩
    obtain ⟨-, rfl⟩ | ⟨refusal, -, rfl⟩ := hfault <;> simp
  · rcases hstart : (Pool.database server.recorded s.login s.tablePrefix).send .startTransaction
      taken with ⟨reply, mid⟩
    have hmid := hσ.send server (Statement.startTransaction.command s.tablePrefix)
    rw [← hsend, show Pool.send server.recorded _ taken = _ from hstart] at hmid
    obtain ⟨fault, rfl, hrefused⟩ |
      ⟨rows, ending, result, ⟨pool, next, heard⟩, rfl, hends, hrun, hlast⟩ :=
      transaction_talk (keeps_exchanged server s.login s.tablePrefix _ idle) ops hstart hmid
    · obtain ⟨pool, next, heard⟩ := mid
      have hmid : Exchanged _ (idle ++ commands s.tablePrefix [(.startTransaction, .error fault)])
        (pool, next, heard) := hmid
      obtain ⟨isCut, hheard, hpool⟩ := Exchanged.isHeard hidle hmid
      obtain rfl : pool = _ := hpool
      have hall (others : List Op) := run_of_runBatch
        ((runBatch_of_taken others hacquire).trans (hrefused others))
      refine ⟨_, _, next, heard, (hall ops).1, (hall ops).2, ?_, .inr (.inl ⟨fault, isCut, rfl, hheard,
        ?_, fun others => (hall others).1⟩)⟩
      · rw [hheard.ok_iff []]
        simp
      · cases isCut <;> rfl
    · obtain ⟨isCut, hheard, hpool⟩ := Exchanged.isHeard hidle hlast
      obtain ⟨hrecorded, hplain⟩ := run_of_runBatch ((runBatch_of_taken ops hacquire).trans hrun)
      obtain ⟨upserts, statement, reply, rfl, hok⟩ := hends.ok_iff s.tablePrefix
      refine ⟨_, pool, next, heard, hrecorded, hplain, ?_,
        .inr (.inr ⟨rows, _, isCut, hends, hheard, hpool⟩)⟩
      rw [hok, hheard.ok_iff ((.startTransaction, .ok rows) :: upserts)]

/-- A server that gives its replies one after the other, and has nothing more to say then. -/
def scriptedServer : Server (List Reply) where
  connect _ replies := (.ok (), replies)
  answer _
    | [] => (.ok [], [])
    | reply :: replies => (reply, replies)

def scriptedLogin : Login := ⟨"root", none, "ledger", ["localhost"], 5432⟩

/-- Two writes, whatever comes of them. -/
def carelessOps : List Op :=
  [.regardless [.ofRecord (.counter "a" 1), .ofRecord (.counter "b" 1)]]

/-- The rollback of a transaction whose start was refused is heard with the next batch. A reply that
cuts the connection is the last that is heard of a batch: no other upsert and no end of the
transaction. -/
theorem conversation_breaksOff :
    (⟨scriptedLogin, "m", Pool.fresh⟩ : Storage).run scriptedServer.recorded
        (·.runBatch carelessOps) ([.error (.database "40001")], []) =
      (.error (.failed "postgres_tx_begin" "db error"),
        ⟨scriptedLogin, "m", ⟨true, some [Statement.rollback.command "m"]⟩⟩, [],
        [.login scriptedLogin (.ok ()),
          .command (Statement.startTransaction.command "m") (.error (.database "40001"))]) ∧
    (⟨scriptedLogin, "m", ⟨true, some [Statement.rollback.command "m"]⟩⟩ : Storage).run
        scriptedServer.recorded (·.runBatch carelessOps)
        ([.ok [], .ok [], .error .closed], []) =
      (.error (.transaction (.connection "postgres_tx_commit" "connection closed")),
        ⟨scriptedLogin, "m", ⟨true, none⟩⟩, [],
        [.command (Statement.rollback.command "m") (.ok []),
          .command (Statement.startTransaction.command "m") (.ok []),
          .command ((Statement.upsert (.counter "a" 1)).command "m") (.error .closed)]) := by
  constructor
  · rfl
  · rfl

end Batches

end MetricLedger.Relational
