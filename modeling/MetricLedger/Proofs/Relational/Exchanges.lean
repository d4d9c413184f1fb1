import MetricLedger.Proofs.Relational.Transactions

/-!
# Exchanges with a server that keeps transactions

From every state with a property an exchange either gives a result, and leads to a state with a
property of the result, or it fails, and leads to a state with a third property. The rules follow how
exchanges are put together, down to a single statement.
-/

namespace MetricLedger.Relational

/-! ## What an exchange ensures -/

namespace Exchange

variable {σ α β : Type} {P P' E E' : σ → Prop} {Q Q' : α → σ → Prop} {R : β → σ → Prop}
  {x : Exchange σ α}

/-- From every state with `P` the exchange gives a result with `Q`, or fails in a state with `E`. -/
def Ensures (P : σ → Prop) (x : Exchange σ α) (Q : α → σ → Prop) (E : σ → Prop) : Prop :=
  ∀ s, P s →
    match x s with
    | (.ok a, next) => Q a next
    | (.error _, next) => E next

theorem bind_apply (x : Exchange σ α) (k : α → Exchange σ β) (s : σ) :
    (x >>= k) s =
      match x s with
      | (.ok a, next) => k a next
      | (.error f, next) => (.error f, next) := by
  show ExceptT.bindCont k (x s).1 (x s).2 = _
  rcases x s with ⟨_ | _, next⟩ <;> rfl

namespace Ensures

theorem of_ok (hx : Ensures P x Q E) {s next : σ} {a : α} (hs : P s) (hok : x s = (.ok a, next)) :
    Q a next := by
  have := hx s hs
  rwa [hok] at this

theorem of_error (hx : Ensures P x Q E) {s next : σ} {f : Failure} (hs : P s)
    (herror : x s = (.error f, next)) : E next := by
  have := hx s hs
  rwa [herror] at this

theorem cases (hx : Ensures P x Q E) {s : σ} (hs : P s) :
    (∃ a next, x s = (.ok a, next) ∧ Q a next) ∨ ∃ f next, x s = (.error f, next) ∧ E next := by
  rcases hresult : x s with ⟨f | a, next⟩
  · exact .inr ⟨f, next, rfl, hx.of_error hs hresult⟩
  · exact .inl ⟨a, next, rfl, hx.of_ok hs hresult⟩

/-- An exchange that cannot fail gives a result. -/
theorem exists_ok (hx : Ensures P x Q E) (hE : ∀ s, ¬E s) {s : σ} (hs : P s) :
    ∃ a next, x s = (.ok a, next) ∧ Q a next :=
  (hx.cases hs).resolve_right fun ⟨_, next, _, hnext⟩ => hE next hnext

theorem weaken (hx : Ensures P x Q E) (hP : ∀ s, P' s → P s) (hQ : ∀ a s, Q a s → Q' a s)
    (hE : ∀ s, E s → E' s) : Ensures P' x Q' E' := by
  intro s hs
  rcases hresult : x s with ⟨f | a, next⟩
  · exact hE next (hx.of_error (hP s hs) hresult)
  · exact hQ a next (hx.of_ok (hP s hs) hresult)

theorem weaken_error (hx : Ensures P x Q E) (hE : ∀ s, E s → E' s) : Ensures P x Q E' :=
  hx.weaken (fun _ h => h) (fun _ _ h => h) hE

theorem pure (a : α) (hQ : ∀ s, P s → Q a s) : Ensures P (pure a : Exchange σ α) Q E := hQ

theorem bind {k : α → Exchange σ β} (hx : Ensures P x Q E) (hk : ∀ a, Ensures (Q a) (k a) R E) :
    Ensures P (x >>= k) R E := by
  intro s hs
  rw [bind_apply]
  rcases hresult : x s with ⟨f | a, next⟩
  · exact hx.of_error hs hresult
  · exact hk a next (hx.of_ok hs hresult)

theorem orAbandon {db : Database σ} (hx : Ensures P x Q E)
    (habandon : ∀ s, E s → E' (db.abandon s)) : Ensures P (db.orAbandon x) Q E' := by
  intro s hs
  unfold Database.orAbandon
  rcases hresult : x s with ⟨f | a, next⟩
  · exact habandon next (hx.of_error hs hresult)
  · exact hx.of_ok hs hresult

end Ensures

end Exchange

/-! ## Single statements -/

section Statements

open Exchange

variable {α β τ : Type} {server : Server τ} {tablePrefix : String} {asked : Statement → Prop}
  {effect : Effect α} {view : τ → Holding α} {calm : τ → Prop} {live : Prop}

/-- A connection is there, and idle. -/
def IsTaken (tablePrefix : String) (view : τ → Holding α) (calm : τ → Prop) (live : Prop)
    (contents : α) (σ : Pool × τ) : Prop :=
  IsIdle tablePrefix view calm live contents σ ∧ σ.1.connection ≠ none

theorem IsAt.isTaken {h : Holding α} {σ : Pool × τ} (hσ : IsAt view calm live h σ)
    (hnone : h.transaction = .none) : IsTaken tablePrefix view calm live h.contents σ :=
  ⟨hσ.isIdle hnone, by simp [hσ.connection]⟩

theorem ensures_take (hserver : server.IsTransactional tablePrefix asked effect view calm)
    (login : Login) (failure : PoolFault → Failure) {contents : α} :
    Ensures (IsIdle tablePrefix view calm live contents)
      ((Pool.database server login tablePrefix).take failure)
      (fun _ => IsTaken tablePrefix view calm live contents)
      (fun σ => ¬live ∧ IsIdle tablePrefix view calm live contents σ) := by
  intro σ hσ
  obtain ⟨result, next, hacquire, hnext, hresult⟩ := acquire_cases hserver login hσ
  have htake : (Pool.database server login tablePrefix).take failure σ =
      (result.mapError failure, next) := by
    simp [Database.take, Pool.database, hacquire]
  rw [htake]
  rcases hresult with ⟨rfl, hthere⟩ | ⟨hnot, fault, rfl⟩
  · exact ⟨hnext, hthere⟩
  · exact ⟨hnot, hnext⟩

/-- A statement that is answered well, and whose answer can be read, fails by a mishap only. -/
theorem ensures_ask {login : Login} {failure : ClientFault → Failure} {s : Statement}
    {read : List Row → Except ClientFault β} {P : Pool × τ → Prop} {h after : Holding α}
    {rows : List Row} {b : β}
    (hsend : ∀ σ, P σ → Outcome effect view calm live s h
      ((Pool.database server login tablePrefix).send s σ).1
      ((Pool.database server login tablePrefix).send s σ).2)
    (hanswer : h.answer effect s = (.ok rows, after)) (hread : read rows = .ok b) :
    Ensures P ((Pool.database server login tablePrefix).ask failure s read)
      (fun a σ => a = b ∧ IsAt view calm live after σ)
      (Interrupted effect view live s h) := by
  intro σ hσ
  have houtcome := hsend σ hσ
  unfold Database.ask
  rcases hreply : (Pool.database server login tablePrefix).send s σ with ⟨reply, next⟩
  rw [hreply] at houtcome
  rcases houtcome with ⟨rfl, hnext⟩ | ⟨⟨fault, rfl⟩, hnext⟩
  · rw [hanswer] at hnext ⊢
    simpa only [bind, Except.bind, hread, Except.mapError, true_and] using hnext
  · exact hnext

theorem ensures_tell {login : Login} {failure : ClientFault → Failure} {s : Statement}
    {P : Pool × τ → Prop} {h after : Holding α} {rows : List Row}
    (hsend : ∀ σ, P σ → Outcome effect view calm live s h
      ((Pool.database server login tablePrefix).send s σ).1
      ((Pool.database server login tablePrefix).send s σ).2)
    (hanswer : h.answer effect s = (.ok rows, after)) :
    Ensures P ((Pool.database server login tablePrefix).tell failure s)
      (fun _ => IsAt view calm live after)
      (Interrupted effect view live s h) :=
  (ensures_ask hsend hanswer (b := ()) rfl).weaken (fun _ h => h) (fun _ _ h => h.2) fun _ h => h

/-- A statement that the server refuses fails with what is made of the refusal. -/
theorem tell_of_refused (hserver : server.IsTransactional tablePrefix asked effect view calm)
    (login : Login) (failure : ClientFault → Failure) {s : Statement} (hs : asked s) (hlive : live)
    {h after : Holding α} {fault : ClientFault}
    (hanswer : h.answer effect s = (.error fault, after)) {σ : Pool × τ}
    (hσ : IsAt view calm live h σ) :
    ∃ next, (Pool.database server login tablePrefix).tell failure s σ =
      (.error (failure fault), next) ∧ IsAt view calm live after next := by
  obtain ⟨hreply, hnext⟩ := (send_of_isAt hserver login hs hσ).resolve_right
    fun hint => hint.2.not_live hlive
  rw [hanswer] at hreply hnext
  refine ⟨_, ?_, hnext⟩
  simp only [Database.tell, Database.ask, hreply]
  rfl

/-- A transaction starts with the contents that are there. -/
theorem ensures_start (hserver : server.IsTransactional tablePrefix asked effect view calm)
    (hrollback : asked .rollback) (hstart : asked .startTransaction) (login : Login)
    (failure : ClientFault → Failure) {contents : α} :
    Ensures (IsTaken tablePrefix view calm live contents)
      ((Pool.database server login tablePrefix).start failure)
      (fun _ => IsAt view calm live ⟨contents, .underWay contents⟩)
      (fun σ => ¬live ∧ IsIdle tablePrefix view calm live contents σ) := by
  refine Ensures.orAbandon (ensures_tell (h := ⟨contents, .none⟩)
    (fun σ hσ => send_of_isIdle hserver hrollback login hstart hσ.1 hσ.2) rfl) fun σ hσ => ?_
  refine ⟨hσ.not_live, ?_⟩
  -- Neither before nor after its start has a transaction changed anything.
  have hcontents : (view σ.2).contents = contents := or_self_iff.1 hσ.mishap.contents
  rw [← hcontents]
  exact hσ.isIdle_abandon login

end Statements

end MetricLedger.Relational
