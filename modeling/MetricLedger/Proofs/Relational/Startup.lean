import MetricLedger.Proofs.Relational.Questions

/-!
# The order of a start

A start asks for signs of life until one is given, or an attempt fails for good, or no repetition is
left. Only then, and only once, it works on the schema. Main statement: `openAt_startsInOrder`.
-/

namespace MetricLedger.Relational

/-! ## Attempts -/

/-- The connection is lost: it was cut, the server refused it by a code of class `08`, or bytes could
not be brought to the server. -/
inductive ClientFault.IsLoss : ClientFault → Prop
  | closed : IsLoss .closed
  | code {code : String} (h : ['0', '8'] <+: code.toList) : IsLoss (.database code)
  | unreachable : IsLoss .unreachable
  | unsendable : IsLoss .unsendable

theorem ClientFault.isOfConnection_iff {fault : ClientFault} :
    fault.isOfConnection = true ↔ fault.IsLoss := by
  constructor
  · intro h
    cases fault with
    | database code => exact .code (List.isPrefixOf_iff_prefix.1 h)
    | closed => exact .closed
    | unreachable => exact .unreachable
    | unsendable => exact .unsendable
    | configuration | rowCount | cell _ | noColumn _ => cases h
  · intro h
    cases h with
    | code h => exact List.isPrefixOf_iff_prefix.2 h
    | closed | unreachable | unsendable => rfl

/-- What is asked in an attempt to reach the database, and what comes of it. -/
inductive Attempt : List Question → Except Failure Unit → Prop
  | noConnection (fault : PoolFault) :
      Attempt [.connection (.error fault)] (.error fault.poolFailure)
  | silent (fault : ClientFault) :
      Attempt [.connection (.ok ()), .statement .probe (.error fault)]
        (.error (fault.queryFailure "postgres_connect_probe"))
  | answered (rows : List Row) :
      Attempt [.connection (.ok ()), .statement .probe (.ok rows)] (.ok ())

/-- An attempt that fails as the connection is lost, or as the pool is closed or has no connection free
in time. -/
inductive IsLostAttempt : List Question → Prop
  | timeout : IsLostAttempt [.connection (.error .timeout)]
  | closed : IsLostAttempt [.connection (.error .closed)]
  | creation {fault : ClientFault} (h : fault.IsLoss) :
      IsLostAttempt [.connection (.error (.creation fault))]
  | silent {fault : ClientFault} (h : fault.IsLoss) :
      IsLostAttempt [.connection (.ok ()), .statement .probe (.error fault)]

/-- Another attempt is made exactly after a lost one. -/
theorem Attempt.isRetryable_iff {asked : List Question} {f : Failure}
    (h : Attempt asked (.error f)) : f.isRetryable = true ↔ IsLostAttempt asked := by
  cases h with
  | noConnection fault =>
      rw [isRetryable_poolFailure_iff]
      cases fault with
      | timeout => exact iff_of_true nofun .timeout
      | closed => exact iff_of_true nofun .closed
      | creation inner =>
          constructor
          · intro hall
            exact .creation (ClientFault.isOfConnection_iff.1 (hall inner rfl))
          · intro hlost other hother
            cases hlost with
            | creation h => exact PoolFault.creation.inj hother ▸ ClientFault.isOfConnection_iff.2 h
  | silent fault =>
      rw [isRetryable_queryFailure_iff, ClientFault.isOfConnection_iff]
      constructor
      · intro hloss
        exact .silent hloss
      · intro hlost
        cases hlost with
        | silent hloss => exact hloss

section Attempts

variable {σ : Type} (db : Database σ)

theorem probe_attempt (s : σ) (before : List Question) :
    ∃ asked result next,
      db.recorded.probe "postgres_connect_probe" (s, before) = (result, next, before ++ asked) ∧
      db.probe "postgres_connect_probe" s = (result, next) ∧ Attempt asked result := by
  unfold Database.probe
  rw [Exchange.bind_apply, Exchange.bind_apply]
  rcases hacquire : db.acquire s with ⟨fault | _, mid⟩
  · refine ⟨[.connection (.error fault)], .error fault.poolFailure, mid, ?_, ?_, .noConnection fault⟩
    · simp only [Database.take, Database.recorded, hacquire, Except.mapError]
    · simp only [Database.take, hacquire, Except.mapError]
  · rcases hsend : db.send .probe mid with ⟨reply, next⟩
    refine ⟨[.connection (.ok ()), .statement .probe reply],
      outcomeOf (ClientFault.queryFailure "postgres_connect_probe") reply, next, ?_, ?_, ?_⟩
    · simp only [Database.take, Database.tell, Database.ask, Database.recorded, hacquire,
        Except.mapError, hsend, List.append_assoc, List.cons_append, List.nil_append]
      cases reply <;> rfl
    · simp only [Database.take, Database.tell, Database.ask, hacquire, Except.mapError, hsend]
      cases reply <;> rfl
    · cases reply with
      | ok rows => exact .answered rows
      | error fault => exact .silent fault

/-- The attempts of a run: lost ones, as many as may be repeated, and a last one, which is only lost if
no repetition is left. -/
theorem runFrom_attempts (p : RetryPolicy) (left attempt : ℕ) (s : σ) (before : List Question) :
    ∃ (lost : List (List Question)) (last : List Question) (result : Except Failure Unit)
        (pauses : List ℕ) (next : σ),
      p.runFrom (db.recorded.probe "postgres_connect_probe") left attempt (s, before) =
        (⟨result, pauses⟩, next, before ++ (lost.flatten ++ last)) ∧
      p.runFrom (db.probe "postgres_connect_probe") left attempt s = (⟨result, pauses⟩, next) ∧
      pauses.length = lost.length ∧ lost.length ≤ left ∧ (∀ asked ∈ lost, IsLostAttempt asked) ∧
      Attempt last result ∧
      ∀ f, result = .error f → (lost.length < left → ¬IsLostAttempt last) := by
  induction left generalizing attempt s before with
  | zero =>
      obtain ⟨asked, result, next, hrun, hplain, hattempt⟩ := probe_attempt db s before
      refine ⟨[], asked, result, [], next, ?_, ?_, rfl, le_rfl, by simp, hattempt, by simp⟩
      · simp [RetryPolicy.runFrom, hrun]
      · simp [RetryPolicy.runFrom, hplain]
  | succ left ih =>
      obtain ⟨asked, result, mid, hrun, hplain, hattempt⟩ := probe_attempt db s before
      unfold RetryPolicy.runFrom
      rw [hrun, hplain]
      cases result with
      | ok u =>
          exact ⟨[], asked, .ok u, [], mid, by simp, rfl, rfl, by simp, by simp, hattempt, by simp⟩
      | error f =>
          by_cases hf : f.isRetryable = true
          · obtain ⟨lost, last, result, pauses, next, hrun', hplain', hpauses, hlength, hlost, hlast,
              hend⟩ := ih (attempt + 1) mid (before ++ asked)
            refine ⟨asked :: lost, last, result, p.delay (attempt + 1) :: pauses, next, ?_, ?_, ?_,
              ?_, ?_, hlast, ?_⟩
            · simp [hf, hrun', List.append_assoc]
            · simp [hf, hplain']
            · simp [hpauses]
            · simpa using hlength
            · exact List.forall_mem_cons.2 ⟨hattempt.isRetryable_iff.1 hf, hlost⟩
            · intro f hresult hlt
              exact hend f hresult (by simpa using hlt)
          · refine ⟨[], asked, .error f, [], mid, ?_, ?_, rfl, by simp, by simp, hattempt, ?_⟩
            · simp [hf]
            · simp [hf]
            · intro f' hresult _ hlast
              exact hf (hattempt.isRetryable_iff.2 hlast)

end Attempts

/-! ## Starts -/

/-- A start refuses its options and its address before anything is sent. Otherwise, whatever pool and
server reply, it makes attempts, of which all but the last are lost, and not more of them than the
policy admits. If the last one fails, the start fails with it, and asks nothing else. If the database
gives a sign of life, no other is asked for. The schema is prepared, up to the first question that
breaks this off, whose failure is that of the start. The start only succeeds if every migration above
the version that was read was committed, and the version was looked up again. -/
theorem openAt_startsInOrder {τ : Type} (server : Server τ) (dsn : String) (o : Options) (t : τ) :
    (match o.validate >>= fun _ => Login.parse dsn with
      | .error f => Storage.openAt server dsn o t = (⟨.error f, []⟩, t)
      | .ok login => ∃ attempts pool next,
          (Pool.database server login o.tablePrefix).connect o (Pool.fresh, t) =
            (attempts, pool, next) ∧
          Storage.openAt server dsn o t =
            (⟨attempts.result.map fun _ => ⟨login, o.tablePrefix, pool⟩, attempts.pauses⟩, next)) ∧
    ∀ {σ : Type} (db : Database σ) (s : σ), ∃ (attempts : Attempts Int) (next : σ)
        (lost : List (List Question)) (last rest : List Question),
      db.connect o s = (attempts, next) ∧
      db.recorded.connect o (s, []) = (attempts, next, lost.flatten ++ last ++ rest) ∧
      attempts.calls = lost.length + 1 ∧ lost.length ≤ o.retry.maxRetries.toNat ∧
      (∀ asked ∈ lost, IsLostAttempt asked) ∧
      ((∃ f, Attempt last (.error f) ∧ rest = [] ∧ attempts.result = .error f ∧
          (lost.length < o.retry.maxRetries.toNat → ¬IsLostAttempt last)) ∨
        Attempt last (.ok ()) ∧ (∀ q ∈ rest, ¬q.IsProbe) ∧
          Course (Prepared o.tablePrefix) rest attempts.result) := by
  refine ⟨?_, fun db s => ?_⟩
  · cases hlogin : o.validate >>= fun _ => Login.parse dsn with
    | error f => simp only [Storage.openAt, hlogin]
    | ok login =>
        rcases hconnect : (Pool.database server login o.tablePrefix).connect o (Pool.fresh, t) with
          ⟨attempts, pool, next⟩
        exact ⟨attempts, pool, next, hconnect, by simp only [Storage.openAt, hlogin, hconnect]⟩
  · obtain ⟨lost, last, result, pauses, mid, hrun, hplain, hpauses, hlength, hlost, hlast, hend⟩ :=
      runFrom_attempts db o.retry o.retry.maxRetries.toNat 0 s []
    unfold Database.connect RetryPolicy.run
    rw [hrun, hplain]
    cases result with
    | error f =>
        refine ⟨_, mid, lost, last, [], rfl, ?_, ?_, hlength, hlost,
          .inl ⟨f, hlast, rfl, rfl, hend f rfl⟩⟩
        · simp
        · simp [Attempts.calls, hpauses]
    | ok u =>
        obtain ⟨rest, result, next, hprepare, hprepare', hcourse, hquiet⟩ :=
          prepare_asks db o.tablePrefix mid (lost.flatten ++ last)
        refine ⟨⟨result, pauses⟩, next, lost, last, rest, ?_, ?_, ?_, hlength, hlost,
          .inr ⟨hlast, hquiet, hcourse⟩⟩
        · simp [hprepare']
        · simp [hprepare]
        · simp [Attempts.calls, hpauses]

end MetricLedger.Relational
