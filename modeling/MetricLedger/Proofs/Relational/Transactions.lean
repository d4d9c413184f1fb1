import Mathlib.Tactic
import MetricLedger.Relational.Pool

/-!
# Servers that keep transactions

A server holds contents, and the transaction of the open connection, whose changes become contents at
its end. A statement is answered by what it does to the contents, or it meets a mishap: the client
gets a fault, and the statement has taken effect or not. Main statements: `acquire_cases`, all that
can come of asking the pool for a connection, and `send_of_isIdle` and `send_of_isAt`, all that can
come of the first and of a later statement of an exchange.
-/

namespace MetricLedger.Relational

/-! ## What a server holds -/

/-- The transaction of the open connection. -/
inductive Transaction (α : Type) where
  | none
  /-- A transaction under way, with the contents as it has changed them. -/
  | underWay (changed : α)
  /-- A transaction one statement of which has failed. -/
  | failed
  deriving DecidableEq, Repr

/-- What a server holds. -/
@[ext] structure Holding (α : Type) where
  contents : α
  transaction : Transaction α
  deriving DecidableEq, Repr

/-- What statements do to contents: the rows of the answer and the contents after it, or the code of
the refusal. -/
abbrev Effect (α : Type) := Statement → α → Except String (List Row × α)

namespace Holding

variable {α : Type}

/-- The code of a statement that comes after a failed one of its transaction. -/
def failedTransaction : String := "25P02"

/-- What comes of a statement that is no command to begin or end a transaction. -/
def execute (effect : Effect α) (s : Statement) (h : Holding α) :
    Except ClientFault (List Row) × Holding α :=
  match h.transaction with
  | .none =>
      match effect s h.contents with
      | .ok (rows, contents) => (.ok rows, ⟨contents, .none⟩)
      | .error code => (.error (.database code), h)
  | .underWay changed =>
      match effect s changed with
      | .ok (rows, changed) => (.ok rows, ⟨h.contents, .underWay changed⟩)
      | .error code => (.error (.database code), ⟨h.contents, .failed⟩)
  | .failed => (.error (.database failedTransaction), h)

/-- What comes of a statement. The end of a failed transaction is answered well, and undoes it. -/
def answer (effect : Effect α) (s : Statement) (h : Holding α) :
    Except ClientFault (List Row) × Holding α :=
  match s with
  | .startTransaction =>
      match h.transaction with
      | .none => (.ok [], ⟨h.contents, .underWay h.contents⟩)
      | .underWay _ => (.ok [], h)
      | .failed => (.error (.database failedTransaction), h)
  | .commit =>
      match h.transaction with
      | .underWay changed => (.ok [], ⟨changed, .none⟩)
      | _ => (.ok [], ⟨h.contents, .none⟩)
  | .rollback => (.ok [], ⟨h.contents, .none⟩)
  | s => h.execute effect s

/-- A statement that changes the contents, in a transaction under way. -/
theorem answer_of_ok {effect : Effect α} {s : Statement} {contents changed next : α}
    {rows : List Row} (hs : s ≠ .startTransaction ∧ s ≠ .commit ∧ s ≠ .rollback)
    (heffect : effect s changed = .ok (rows, next)) :
    (⟨contents, .underWay changed⟩ : Holding α).answer effect s =
      (.ok rows, ⟨contents, .underWay next⟩) := by
  unfold answer
  split
  · exact absurd rfl hs.1
  · exact absurd rfl hs.2.1
  · exact absurd rfl hs.2.2
  · simp [execute, heffect]

/-- A statement that is refused fails the transaction under way. -/
theorem answer_of_error {effect : Effect α} {s : Statement} {contents changed : α} {code : String}
    (hs : s ≠ .startTransaction ∧ s ≠ .commit ∧ s ≠ .rollback)
    (heffect : effect s changed = .error code) :
    (⟨contents, .underWay changed⟩ : Holding α).answer effect s =
      (.error (.database code), ⟨contents, .failed⟩) := by
  unfold answer
  split
  · exact absurd rfl hs.1
  · exact absurd rfl hs.2.1
  · exact absurd rfl hs.2.2
  · simp [execute, heffect]

/-- A statement that met a mishap has taken effect or not, and its transaction has come to an end or
to a failure; the commands that end a transaction have ended it. -/
structure Mishap (effect : Effect α) (s : Statement) (h after : Holding α) : Prop where
  contents : after.contents = h.contents ∨ after.contents = (h.answer effect s).2.contents
  transaction : after.transaction = .none ∨
    after.transaction = .failed ∧ h.transaction ≠ .none ∧ s ≠ .commit ∧ s ≠ .rollback

theorem Mishap.eq_of_rollback {effect : Effect α} {h after : Holding α}
    (hmishap : Mishap effect .rollback h after) : after = ⟨h.contents, .none⟩ :=
  Holding.ext (or_self_iff.1 hmishap.contents)
    (hmishap.transaction.resolve_right fun hfailed => hfailed.2.2.2 rfl)

/-- A mishap outside a transaction leaves none behind. -/
theorem Mishap.transaction_of_none {effect : Effect α} {s : Statement} {h after : Holding α}
    (hmishap : Mishap effect s h after) (hnone : h.transaction = .none) :
    after.transaction = .none :=
  hmishap.transaction.resolve_right fun hfailed => hfailed.2.1 hnone

/-- The answer of a server never says that the connection was cut. -/
theorem answer_ne_closed (effect : Effect α) (s : Statement) (h : Holding α) :
    (h.answer effect s).1 ≠ .error .closed := by
  have hexecute : (h.execute effect s).1 ≠ .error .closed := by
    unfold execute
    split
    · split <;> simp
    · split <;> simp
    · simp
  unfold answer
  split
  · split <;> simp
  · split <;> simp
  · simp
  · exact hexecute

end Holding

/-! ## Servers -/

section Servers

variable {α τ : Type}

/-- The server answers a statement by what it does to the contents. -/
def Server.Answers (server : Server τ) (tablePrefix : String) (effect : Effect α)
    (view : τ → Holding α) (s : Statement) (t : τ) : Prop :=
  ((server.answer (s.command tablePrefix) t).1, view (server.answer (s.command tablePrefix) t).2) =
    (view t).answer effect s

/-- The server keeps transactions: of the statements that are asked, each is answered by what it does
to the contents, or meets a mishap, which does not happen while the server is calm. -/
structure Server.IsTransactional (server : Server τ) (tablePrefix : String)
    (asked : Statement → Prop) (effect : Effect α) (view : τ → Holding α) (calm : τ → Prop) :
    Prop where
  /-- A new connection has no transaction. -/
  connect : ∀ login t, view (server.connect login t).2 = ⟨(view t).contents, .none⟩
  answer : ∀ s, asked s → ∀ t, server.Answers tablePrefix effect view s t ∨
    (∃ fault, (server.answer (s.command tablePrefix) t).1 = .error fault) ∧
      (view t).Mishap effect s (view (server.answer (s.command tablePrefix) t).2)
  connect_of_calm : ∀ login t, calm t →
    (server.connect login t).1 = .ok () ∧ calm (server.connect login t).2
  answer_of_calm : ∀ s, asked s → ∀ t, calm t → server.Answers tablePrefix effect view s t ∧
    calm (server.answer (s.command tablePrefix) t).2

end Servers

/-! ## Connections -/

section Connections

variable {α τ : Type} {server : Server τ} {tablePrefix : String} {asked : Statement → Prop}
  {effect : Effect α} {view : τ → Holding α} {calm : τ → Prop} {live : Prop}

/-- Between two exchanges: the pool gives connections, and once its unsent commands are sent, the open
connection has no transaction. If the server is `live`, it is calm. -/
structure IsIdle (tablePrefix : String) (view : τ → Holding α) (calm : τ → Prop) (live : Prop)
    (contents : α) (s : Pool × τ) : Prop where
  isOpen : s.1.isOpen = true
  unsent : ∀ cs, s.1.connection = some cs →
    (∀ c ∈ cs, c = Statement.rollback.command tablePrefix) ∧
      (cs = [] → (view s.2).transaction = .none)
  contents : (view s.2).contents = contents
  calm : live → calm s.2

/-- In an exchange: the open connection has nothing unsent, and the server holds `h`. -/
structure IsAt (view : τ → Holding α) (calm : τ → Prop) (live : Prop) (h : Holding α)
    (s : Pool × τ) : Prop where
  isOpen : s.1.isOpen = true
  connection : s.1.connection = some []
  view : view s.2 = h
  calm : live → calm s.2

/-- A statement that was sent while the server held `h` met a mishap. The connection has nothing
unsent, or is cut. -/
structure Interrupted (effect : Effect α) (view : τ → Holding α) (live : Prop) (s : Statement)
    (h : Holding α) (next : Pool × τ) : Prop where
  not_live : ¬live
  isOpen : next.1.isOpen = true
  connection : next.1.connection = some [] ∨ next.1.connection = none
  mishap : h.Mishap effect s (view next.2)

/-- What has come of a statement that was sent while the server held `h`: it was answered, or it met
a mishap. -/
def Outcome (effect : Effect α) (view : τ → Holding α) (calm : τ → Prop) (live : Prop)
    (s : Statement) (h : Holding α) (reply : Except ClientFault (List Row)) (next : Pool × τ) :
    Prop :=
  reply = (h.answer effect s).1 ∧ IsAt view calm live (h.answer effect s).2 next ∨
    (∃ fault, reply = .error fault) ∧ Interrupted effect view live s h next

theorem IsAt.isIdle {h : Holding α} {s : Pool × τ} (hs : IsAt view calm live h s)
    (hnone : h.transaction = .none) : IsIdle tablePrefix view calm live h.contents s where
  isOpen := hs.isOpen
  unsent cs hcs := by
    obtain rfl : [] = cs := Option.some.inj (hs.connection.symm.trans hcs)
    exact ⟨by simp, fun _ => by rw [hs.view, hnone]⟩
  contents := by rw [hs.view]
  calm := hs.calm

/-- A new pool has no connection yet. -/
theorem isIdle_fresh {contents : α} {t : τ} (hcontents : (view t).contents = contents)
    (hcalm : live → calm t) : IsIdle tablePrefix view calm live contents (Pool.fresh, t) where
  isOpen := rfl
  unsent cs hcs := by cases hcs
  contents := hcontents
  calm := hcalm

/-- What becomes of the calm of a server can be watched from every state between two exchanges. -/
theorem IsIdle.watch {contents : α} {s : Pool × τ} (hs : IsIdle tablePrefix view calm live contents s)
    {live' : Prop} (hcalm : live' → calm s.2) : IsIdle tablePrefix view calm live' contents s :=
  ⟨hs.isOpen, hs.unsent, hs.contents, hcalm⟩

/-- Everything that can come of a statement: it is answered by what it does to the contents, or it
meets a mishap, which does not happen to a server that is calm. -/
theorem answer_cases (hserver : server.IsTransactional tablePrefix asked effect view calm)
    {s : Statement} (hs : asked s) {t : τ} (ht : live → calm t) :
    (server.Answers tablePrefix effect view s t ∨
      ¬live ∧ (∃ fault, (server.answer (s.command tablePrefix) t).1 = .error fault) ∧
        (view t).Mishap effect s (view (server.answer (s.command tablePrefix) t).2)) ∧
    (live → calm (server.answer (s.command tablePrefix) t).2) := by
  by_cases hlive : live
  · obtain ⟨hanswers, hnext⟩ := hserver.answer_of_calm s hs t (ht hlive)
    exact ⟨.inl hanswers, fun _ => hnext⟩
  · refine ⟨?_, fun h => absurd h hlive⟩
    exact (hserver.answer s hs t).imp_right fun hmishap => ⟨hlive, hmishap⟩

/-- The pool of an idle connection gives it, or makes a new one. -/
theorem acquire_cases (hserver : server.IsTransactional tablePrefix asked effect view calm)
    (login : Login) {contents : α} {s : Pool × τ}
    (hs : IsIdle tablePrefix view calm live contents s) :
    ∃ result next, Pool.acquire server login s = (result, next) ∧
      IsIdle tablePrefix view calm live contents next ∧
      (result = .ok () ∧ next.1.connection ≠ none ∨ ¬live ∧ ∃ fault, result = .error fault) := by
  obtain ⟨p, t⟩ := s
  have hopen : p.isOpen = true := hs.isOpen
  cases hconnection : p.connection with
  | some cs =>
      refine ⟨.ok (), (p, t), ?_, hs, .inl ⟨rfl, ?_⟩⟩
      · simp [Pool.acquire, hopen, hconnection]
      · simp [hconnection]
  | none =>
      have hview := hserver.connect login t
      have hnext (hlive : live) := hserver.connect_of_calm login t (hs.calm hlive)
      rcases hanswer : server.connect login t with ⟨result, u⟩
      rw [hanswer] at hview hnext
      have hcontents : (view u).contents = contents := by rw [hview]; exact hs.contents
      cases result with
      | ok _ =>
          refine ⟨.ok (), ({ p with connection := some [] }, u), ?_, ⟨hopen, ?_, hcontents, ?_⟩,
            .inl ⟨rfl, by simp⟩⟩
          · simp [Pool.acquire, hopen, hconnection, hanswer]
          · rintro cs hcs
            obtain rfl : [] = cs := Option.some.inj hcs
            exact ⟨by simp, fun _ => by rw [hview]⟩
          · exact fun hlive => (hnext hlive).2
      | error fault =>
          refine ⟨.error (.creation fault), (p, u), ?_, ⟨hopen, ?_, hcontents, ?_⟩,
            .inr ⟨fun hlive => ?_, _, rfl⟩⟩
          · simp [Pool.acquire, hopen, hconnection, hanswer]
          · intro cs hcs
            rw [hconnection] at hcs
            cases hcs
          · exact fun hlive => (hnext hlive).2
          · cases (hnext hlive).1

/-- Rollbacks that are sent before the next statement leave no transaction on the connection. -/
theorem sendUnsent_cases (hserver : server.IsTransactional tablePrefix asked effect view calm)
    (hrollback : asked .rollback) {cs : List Command}
    (hcs : ∀ c ∈ cs, c = Statement.rollback.command tablePrefix) {t : τ} (ht : live → calm t)
    (hnone : cs = [] → (view t).transaction = .none) :
    ∃ isThere u, Pool.sendUnsent server cs t = (isThere, u) ∧ (isThere = true ∨ ¬live) ∧
      view u = ⟨(view t).contents, .none⟩ ∧ (live → calm u) := by
  induction cs generalizing t with
  | nil => exact ⟨true, t, rfl, .inl rfl, Holding.ext rfl (hnone rfl), ht⟩
  | cons c cs ih =>
      obtain rfl := hcs c List.mem_cons_self
      obtain ⟨hanswer, hnext⟩ := answer_cases hserver hrollback ht
      rcases hreply : server.answer (Statement.rollback.command tablePrefix) t with ⟨reply, u⟩
      rw [Server.Answers, hreply] at hanswer
      rw [hreply] at hnext
      have hview : view u = ⟨(view t).contents, .none⟩ := by
        rcases hanswer with hanswers | ⟨-, -, hmishap⟩
        · exact (Prod.mk.inj hanswers).2
        · exact hmishap.eq_of_rollback
      obtain ⟨isThere, v, hsend, hthere, hv, hvcalm⟩ :=
        ih (fun c hc => hcs c (List.mem_cons_of_mem _ hc)) hnext fun _ => by rw [hview]
      rw [hview] at hv
      by_cases hclosed : reply = .error .closed
      · refine ⟨false, u, by simp [Pool.sendUnsent, hreply, hclosed], .inr fun hlive => ?_, hview,
          hnext⟩
        rcases hanswer with hanswers | ⟨hnot, -⟩
        · exact Holding.answer_ne_closed effect .rollback (view t)
            ((Prod.mk.inj hanswers).1.symm.trans hclosed)
        · exact hnot hlive
      · refine ⟨isThere, v, ?_, hthere, hv, hvcalm⟩
        rw [← hsend, Pool.sendUnsent, hreply]
        split
        next heq => exact absurd (Prod.mk.inj heq).1 hclosed
        next heq => rw [(Prod.mk.inj heq).2]

/-- All that can come of a statement on a connection with nothing unsent. -/
theorem send_of_isAt (hserver : server.IsTransactional tablePrefix asked effect view calm)
    (login : Login) {s : Statement} (hs : asked s) {h : Holding α} {σ : Pool × τ}
    (hσ : IsAt view calm live h σ) :
    Outcome effect view calm live s h ((Pool.database server login tablePrefix).send s σ).1
      ((Pool.database server login tablePrefix).send s σ).2 := by
  obtain ⟨p, t⟩ := σ
  have hconnection : p.connection = some [] := hσ.connection
  have hopen : p.isOpen = true := hσ.isOpen
  obtain rfl : view t = h := hσ.view
  obtain ⟨hanswer, hnext⟩ := answer_cases hserver hs hσ.calm
  rcases hreply : server.answer (s.command tablePrefix) t with ⟨reply, u⟩
  rw [Server.Answers, hreply] at hanswer
  rw [hreply] at hnext
  by_cases hclosed : reply = .error .closed
  · have hsend : (Pool.database server login tablePrefix).send s (p, t) =
        (.error .closed, { p with connection := none }, u) := by
      simp [Pool.database, Pool.send, hconnection, Pool.sendUnsent, hreply, hclosed]
    rw [hsend]
    rcases hanswer with hanswers | ⟨hnot, -, hmishap⟩
    · exact absurd ((Prod.mk.inj hanswers).1.symm.trans hclosed) (Holding.answer_ne_closed _ _ _)
    · exact .inr ⟨⟨_, rfl⟩, hnot, hopen, .inr rfl, hmishap⟩
  · have hsend : (Pool.database server login tablePrefix).send s (p, t) =
        (reply, { p with connection := some [] }, u) := by
      simp only [Pool.database, Pool.send, hconnection, Pool.sendUnsent, hreply]
    rw [hsend]
    rcases hanswer with hanswers | ⟨hnot, ⟨fault, hfault⟩, hmishap⟩
    · obtain ⟨hfirst, hsecond⟩ := Prod.mk.inj hanswers
      exact .inl ⟨hfirst, hopen, rfl, hsecond, hnext⟩
    · exact .inr ⟨⟨fault, hfault⟩, hnot, hopen, .inl rfl, hmishap⟩

/-- All that can come of the first statement of an exchange. -/
theorem send_of_isIdle (hserver : server.IsTransactional tablePrefix asked effect view calm)
    (hrollback : asked .rollback) (login : Login) {s : Statement} (hs : asked s) {contents : α}
    {σ : Pool × τ} (hσ : IsIdle tablePrefix view calm live contents σ)
    (hthere : σ.1.connection ≠ none) :
    Outcome effect view calm live s ⟨contents, .none⟩
      ((Pool.database server login tablePrefix).send s σ).1
      ((Pool.database server login tablePrefix).send s σ).2 := by
  obtain ⟨p, t⟩ := σ
  obtain ⟨cs, hconnection⟩ := Option.ne_none_iff_exists'.1 hthere
  have hopen : p.isOpen = true := hσ.isOpen
  obtain rfl : (view t).contents = contents := hσ.contents
  obtain ⟨hcs, hnone⟩ := hσ.unsent cs hconnection
  obtain ⟨isThere, u, hunsent, hcut, hview, hnext⟩ :=
    sendUnsent_cases hserver hrollback hcs hσ.calm hnone
  dsimp only at hconnection
  cases isThere with
  | true =>
      have hsend : (Pool.database server login tablePrefix).send s (p, t) =
          (Pool.database server login tablePrefix).send s ({ p with connection := some [] }, u) := by
        simp only [Pool.database, Pool.send, hconnection, hunsent, Pool.sendUnsent]
      rw [hsend]
      exact send_of_isAt hserver login hs ⟨hopen, rfl, hview, hnext⟩
  | false =>
      have hsend : (Pool.database server login tablePrefix).send s (p, t) =
          (.error .closed, { p with connection := none }, u) := by
        simp only [Pool.database, Pool.send, hconnection, hunsent]
      rw [hsend]
      refine .inr ⟨⟨_, rfl⟩, hcut.resolve_left (by decide), hopen, .inr rfl, .inl ?_, .inl ?_⟩
      · rw [hview]
      · rw [hview]

/-- A connection whose transaction was ended by a mishap is idle. -/
theorem Interrupted.isIdle {s : Statement} {h : Holding α} {σ : Pool × τ}
    (hσ : Interrupted effect view live s h σ) (hnone : (view σ.2).transaction = .none) :
    IsIdle tablePrefix view calm live (view σ.2).contents σ where
  isOpen := hσ.isOpen
  unsent cs hcs := by
    rcases hσ.connection with hsome | hcut
    · obtain rfl : [] = cs := Option.some.inj (hsome.symm.trans hcs)
      exact ⟨by simp, fun _ => hnone⟩
    · cases hcut.symm.trans hcs
  contents := rfl
  calm hlive := absurd hlive hσ.not_live

/-- A question that changes nothing has left the contents alone, whatever mishap it met. -/
theorem Interrupted.isIdle_of_unchanged {s : Statement} {contents : α} {σ : Pool × τ}
    {reply : Except ClientFault (List Row)} (hσ : Interrupted effect view live s ⟨contents, .none⟩ σ)
    (hanswer : (⟨contents, .none⟩ : Holding α).answer effect s = (reply, ⟨contents, .none⟩)) :
    IsIdle tablePrefix view calm live contents σ := by
  have hidle : IsIdle tablePrefix view calm live (view σ.2).contents σ :=
    hσ.isIdle (hσ.mishap.transaction_of_none rfl)
  have hcontents := hσ.mishap.contents
  rw [hanswer] at hcontents
  rwa [or_self_iff.1 hcontents] at hidle

/-- A connection whose transaction is given up after a mishap is idle. -/
theorem Interrupted.isIdle_abandon (login : Login) {s : Statement} {h : Holding α} {σ : Pool × τ}
    (hσ : Interrupted effect view live s h σ) :
    IsIdle tablePrefix view calm live (view σ.2).contents
      ((Pool.database server login tablePrefix).abandon σ) := by
  obtain ⟨p, t⟩ := σ
  refine ⟨hσ.isOpen, fun cs hcs => ?_, rfl, fun hlive => absurd hlive hσ.not_live⟩
  rcases hσ.connection with hsome | hcut
  · have hsome : p.connection = some [] := hsome
    obtain rfl : [Statement.rollback.command tablePrefix] = cs := by
      simpa [Pool.database, Pool.defer, hsome] using hcs
    exact ⟨by simp, fun h => by cases h⟩
  · have hcut : p.connection = none := hcut
    simp [Pool.database, Pool.defer, hcut] at hcs

end Connections

/-! ## Servers that follow a plan -/

section Planned

variable {α : Type} {decode : Command → Option Statement} {effect : Effect α} {tablePrefix : String}
  {asked : Statement → Prop}

/-- What happens to the next statements: they are answered, or they meet a mishap with a fault, and
have taken effect or not. -/
abbrev Plan := List (Option (ClientFault × Bool))

/-- The code of a command that is no statement. -/
def syntaxError : String := "42601"

/-- A server that has the mishaps of a plan, and answers all that comes after them. -/
def plannedServer (decode : Command → Option Statement) (effect : Effect α) :
    Server (Holding α × Plan) where
  connect _ := fun (h, plan) => (.ok (), ⟨h.contents, .none⟩, plan)
  answer c := fun (h, plan) =>
    match decode c with
    | none => (.error (.database syntaxError), h, plan)
    | some s =>
        let (reply, after) := h.answer effect s
        match plan with
        | some (fault, isDone) :: plan =>
            (.error fault, ⟨if isDone then after.contents else h.contents, .none⟩, plan)
        | none :: plan => (reply, after, plan)
        | [] => (reply, after, [])

/-- The server of a plan is calm once it has come to its end. -/
theorem plannedServer_isTransactional
    (hdecode : ∀ s, asked s → decode (s.command tablePrefix) = some s) :
    (plannedServer decode effect).IsTransactional tablePrefix asked effect Prod.fst (·.2 = []) where
  connect _ _ := rfl
  answer s hs := by
    rintro ⟨h, plan⟩
    rcases plan with _ | ⟨_ | ⟨fault, isDone⟩, plan⟩
    · exact .inl (by simp [Server.Answers, plannedServer, hdecode s hs])
    · exact .inl (by simp [Server.Answers, plannedServer, hdecode s hs])
    · refine .inr ⟨⟨fault, by simp [plannedServer, hdecode s hs]⟩, ?_, .inl ?_⟩
      · cases isDone
        · exact .inl (by simp [plannedServer, hdecode s hs])
        · exact .inr (by simp [plannedServer, hdecode s hs])
      · simp [plannedServer, hdecode s hs]
  connect_of_calm _ _ hcalm := ⟨rfl, hcalm⟩
  answer_of_calm s hs := by
    rintro ⟨h, plan⟩ rfl
    simp [Server.Answers, plannedServer, hdecode s hs]

end Planned

end MetricLedger.Relational
