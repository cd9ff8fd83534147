/-
# Invocations of the callback

A request is handed to the callback when `onRead` finds it complete, and it
stays complete until its response is out and it is reset.  Bytes that arrive in
between are swallowed by the parser, and `onRead` hands the same request over
again.  This is the only way to an invocation too many: a run keeps one
invocation for each completed request exactly if no bytes arrive late.
-/

import EpollHttpServer.Server.OutputStream

namespace EpollHttpServer.Server

open EpollHttpServer.Lib EpollHttpServer.Http EpollHttpServer.Reactor

/-! ## What an observer of the callback sees -/

/-- An effect that neither completes a request nor invokes the callback. -/
def Effect.isQuiet : Effect → Prop
  | .completed => False
  | .callback _ => False
  | _ => True

/-- Every completed request entitles to one invocation. -/
def executions : Ledger Effect Unit where
  promised effect := match effect with
    | .completed => [()]
    | _ => []
  delivered effect := match effect with
    | .callback _ => [()]
    | _ => []

theorem allPromised_of_isQuiet {log : List Effect} (hquiet : ∀ e ∈ log, e.isQuiet) :
    executions.allPromised log = [] := by
  apply List.flatMap_eq_nil_iff.mpr
  intro e he
  have hq := hquiet e he
  cases e with
  | completed => exact hq.elim
  | _ => rfl

theorem allDelivered_of_isQuiet {log : List Effect} (hquiet : ∀ e ∈ log, e.isQuiet) :
    executions.allDelivered log = [] := by
  apply List.flatMap_eq_nil_iff.mpr
  intro e he
  have hq := hquiet e he
  cases e with
  | callback request => exact hq.elim
  | _ => rfl

theorem length_allPromised (log : List Effect) :
    (executions.allPromised log).length = log.count .completed := by
  induction log with
  | nil => rfl
  | cons e log ih =>
      rw [Ledger.allPromised] at ih ⊢
      rw [List.flatMap_cons, List.length_append, ih, List.count_cons]
      cases e <;> simp [executions, Nat.add_comm]

theorem length_allDelivered (log : List Effect) :
    (executions.allDelivered log).length = callbackCount log := by
  induction log with
  | nil => rfl
  | cons e log ih =>
      rw [Ledger.allDelivered] at ih ⊢
      rw [List.flatMap_cons, List.length_append, ih, callbackCount, callbackCount, List.countP_cons]
      cases e <;> simp [executions, Nat.add_comm]

/-- Between any two invocations there is a reset and then a completed request. -/
def Separated (log : List Effect) : Prop :=
  ∀ before request between request' after,
    log = before ++ .callback request :: (between ++ .callback request' :: after) →
      ∃ early middle late, between = early ++ .reset :: (middle ++ .completed :: late)

/-- No request is executed twice. -/
structure ExecutesOnce (log : List Effect) : Prop where
  count_le : ∀ moment, moment <+: log → callbackCount moment ≤ moment.count .completed
  separated : Separated log

/-- Every invocation has been followed by a reset. -/
def Rested (log : List Effect) : Prop :=
  ∀ before request after, log = before ++ .callback request :: after → .reset ∈ after

/-- No invocation is among the effects. -/
def Uninvoked (log : List Effect) : Prop :=
  ∀ request, .callback request ∉ log

theorem uninvoked_of_isQuiet {log : List Effect} (hquiet : ∀ e ∈ log, e.isQuiet) : Uninvoked log :=
  fun _ hmem => hquiet _ hmem

theorem Uninvoked.rested {log : List Effect} (hlog : Uninvoked log) : Rested log := by
  intro before request after heq
  have hmem : .callback request ∈ log := by
    rw [heq]
    simp
  exact absurd hmem (hlog request)

theorem Uninvoked.separated {log : List Effect} (hlog : Uninvoked log) : Separated log := by
  intro before request between request' after heq
  have hmem : .callback request ∈ log := by
    rw [heq]
    simp
  exact absurd hmem (hlog request)

/-- Effects without an invocation lie behind every invocation. -/
theorem exists_of_append {log added before after : List Effect} {request : HttpRequest}
    (hadded : Uninvoked added) (heq : log ++ added = before ++ .callback request :: after) :
    ∃ after', after = after' ++ added ∧ log = before ++ .callback request :: after' := by
  rcases List.append_eq_append_iff.mp heq with ⟨rest, hbefore, hadded'⟩ | ⟨rest, hlog, hafter⟩
  · have hmem : .callback request ∈ added := by
      rw [hadded']
      simp
    exact absurd hmem (hadded request)
  · cases rest with
    | nil =>
        have hmem : .callback request ∈ added := by
          rw [List.nil_append] at hafter
          rw [← hafter]
          exact List.mem_cons_self ..
        exact absurd hmem (hadded request)
    | cons e rest =>
        rw [List.cons_append] at hafter
        cases hafter
        exact ⟨rest, rfl, hlog⟩

theorem Separated.append {log added : List Effect} (hlog : Separated log)
    (hadded : Uninvoked added) : Separated (log ++ added) := by
  intro before request between request' after heq
  have hassoc : log ++ added = (before ++ .callback request :: between) ++
      .callback request' :: after := by
    simpa using heq
  obtain ⟨after', rfl, hlog'⟩ := exists_of_append hadded hassoc
  exact hlog before request between request' after' (by simpa using hlog')

theorem Rested.append {log added : List Effect} (hlog : Rested log) (hadded : Uninvoked added) :
    Rested (log ++ added) := by
  intro before request after heq
  obtain ⟨after', rfl, hlog'⟩ := exists_of_append hadded heq
  exact List.mem_append_left _ (hlog before request after' hlog')

theorem rested_of_reset {log added : List Effect} (hadded : Uninvoked added)
    (hreset : .reset ∈ added) : Rested (log ++ added) := by
  intro before request after heq
  obtain ⟨after', rfl, _⟩ := exists_of_append hadded heq
  exact List.mem_append_right _ hreset

/-- One more invocation, when each earlier one has been followed by a reset and
a completed request. -/
theorem Separated.concat_callback {log : List Effect} (hlog : Separated log)
    (hafter : ∀ before request after, log = before ++ .callback request :: after →
      ∃ early middle late, after = early ++ .reset :: (middle ++ .completed :: late))
    (request : HttpRequest) : Separated (log ++ [.callback request]) := by
  intro before request₁ between request₂ after heq
  rcases List.eq_nil_or_concat after with rfl | ⟨after', e, rfl⟩
  · have hsplit : log ++ [.callback request] =
        (before ++ .callback request₁ :: between) ++ [.callback request₂] := by
      simpa using heq
    exact hafter before request₁ between (List.append_inj_left' hsplit rfl)
  · have hsplit : log ++ [.callback request] =
        (before ++ .callback request₁ :: (between ++ .callback request₂ :: after')) ++ [e] := by
      simpa using heq
    exact hlog before request₁ between request₂ after' (List.append_inj_left' hsplit rfl)

/-- A request completed after the reset that has followed every invocation. -/
theorem Rested.concat_completed {log before after : List Effect} (hrested : Rested log)
    {request : HttpRequest} (heq : log ++ [.completed] = before ++ .callback request :: after) :
    ∃ early middle late, after = early ++ .reset :: (middle ++ .completed :: late) := by
  have hnone : Uninvoked [.completed] := by simp [Uninvoked]
  obtain ⟨after', rfl, hlog⟩ := exists_of_append hnone heq
  obtain ⟨early, middle, rfl⟩ := List.append_of_mem (hrested before request after' hlog)
  exact ⟨early, middle, [], by simp⟩

/-! ## What a dispatch adds to the log -/

/-- Bytes that arrive after a request is complete and before it is reset, and
that still fit into its buffer. -/
def ReadResult.late (request : HttpRequest) : ReadResult → Prop
  | .data (b :: bytes) =>
    request.gotAll = true ∧ request.buf.length + (b :: bytes).length ≤ kMaxRequestSize
  | _ => False

instance (request : HttpRequest) (read : ReadResult) : Decidable (read.late request) :=
  match read with
  | .data (_ :: _) => inferInstanceAs (Decidable (_ ∧ _))
  | .data [] => .isFalse id
  | .error _ => .isFalse id

namespace Session

/-- The dispatch reads late bytes. -/
def readsLate (s : Session) (d : Dispatch) : Prop :=
  s.selects d = some .read ∧ d.read.late s.conn.request

instance (s : Session) (d : Dispatch) : Decidable (s.readsLate d) :=
  inferInstanceAs (Decidable (_ ∧ _))

theorem readsLate.gotAll {s : Session} {d : Dispatch} (hlate : s.readsLate d) :
    s.conn.request.gotAll = true := by
  obtain ⟨_, hlate⟩ := hlate
  unfold ReadResult.late at hlate
  split at hlate
  · exact hlate.1
  · exact hlate.elim

/-- Late bytes are accepted and change nothing but the buffer. -/
theorem readsLate.parse {s : Session} {d : Dispatch} {bytes : Bytes} (hlate : s.readsLate d)
    (hread : d.read = .data bytes) : (s.conn.request.parse bytes).1 = true := by
  obtain ⟨_, hlate⟩ := hlate
  rw [hread] at hlate
  cases bytes with
  | nil => exact hlate.elim
  | cons b bytes => rw [HttpRequest.parse_of_gotAll hlate.1 hlate.2]

/-- No bytes arrive late. -/
def nothingLate : Machine.Discipline Session Dispatch := fun s d => ¬ s.readsLate d

instance (s : Session) (d : Dispatch) : Decidable (nothingLate s d) :=
  inferInstanceAs (Decidable (¬ _))

variable {s t : Session} {service : Service} {d : Dispatch}

/-- What a handler adds when it completes no request and invokes no callback. -/
structure Quietly (s t : Session) (added : List Effect) : Prop where
  log : t.log = s.log ++ added
  quiet : ∀ e ∈ added, e.isQuiet
  request : t.conn.request = s.conn.request ∨ t.conn.request = .fresh ∧ .reset ∈ added

theorem isQuiet_of_isWrite {fd : ℕ} {e : Effect} (hwrite : e.isWrite fd) : e.isQuiet := by
  cases e with
  | write => trivial
  | _ => exact hwrite.elim

variable (service) in
theorem quietly_sendResponse (hlive : s.conn.Live) (answer : WriteAnswer) (resp : HttpResponse) :
    ∃ added, Quietly s (s.sendResponse service answer resp) added := by
  rcases sendResponse_cases service hlive answer resp with
    ⟨_, hresult⟩ | ⟨_, _, _, hresult⟩ | ⟨_, _, hresult⟩ | ⟨_, _, hresult⟩
  · rw [hresult, List.append_assoc]
    exact ⟨_, rfl, by simp [teardown, Effect.isQuiet], .inl rfl⟩
  · rw [hresult, List.append_assoc]
    exact ⟨_, rfl, by simp [Effect.isQuiet], .inl rfl⟩
  · rw [hresult, List.append_assoc]
    exact ⟨_, rfl, by simp [Effect.isQuiet], .inr ⟨rfl, by simp⟩⟩
  · rw [hresult, List.append_assoc]
    exact ⟨_, rfl, by simp [teardown, Effect.isQuiet], .inl rfl⟩

theorem quietly_onWrite (hlive : s.conn.Live) (d : Dispatch) :
    ∃ added, Quietly s (s.onWrite d) added := by
  have hquiet {writes : List Effect} (hwrites : ∀ e ∈ writes, e.isWrite s.fd) :
      ∀ e ∈ writes, e.isQuiet :=
    fun e he => isQuiet_of_isWrite (hwrites e he)
  have hsoft {writes : List Effect} (hwrites : ∀ e ∈ writes, e.isSoftWrite s.fd) :
      ∀ e ∈ writes, e.isQuiet :=
    hquiet fun e he => Effect.isWrite_of_isSoftWrite (hwrites e he)
  have happend {writes rest : List Effect} (hwrites : ∀ e ∈ writes, e.isQuiet)
      (hrest : ∀ e ∈ rest, e.isQuiet) : ∀ e ∈ writes ++ rest, e.isQuiet :=
    fun e he => (List.mem_append.mp he).elim (hwrites e) (hrest e)
  rcases onWrite_cases hlive d with ⟨writes, _, _, hwrites, _, hresult⟩ |
    ⟨writes, _, _, hwrites, _, _, hresult⟩ | ⟨writes, hwrites, _, _, hresult⟩ |
    ⟨writes, hwrites, _, _, hresult⟩
  · rw [hresult]
    exact ⟨writes, rfl, hsoft hwrites, .inl rfl⟩
  · rw [hresult, List.append_assoc]
    exact ⟨_, rfl, happend (hquiet hwrites) (by simp [teardown, Effect.isQuiet]), .inl rfl⟩
  · rw [hresult, List.append_assoc]
    exact ⟨_, rfl, happend (hsoft hwrites) (by simp [Effect.isQuiet]), .inr ⟨rfl, by simp⟩⟩
  · rw [hresult, List.append_assoc]
    exact ⟨_, rfl, happend (hsoft hwrites) (by simp [teardown, Effect.isQuiet]), .inl rfl⟩

/-- What a dispatch adds to the log, for an observer of the callback. -/
inductive Observed (service : Service) (s : Session) (d : Dispatch) (t : Session) : Prop where
  | /-- No invocation. -/
    quiet (added : List Effect) (honTime : ¬ s.readsLate d) (hlog : t.log = s.log ++ added)
      (hquiet : ∀ e ∈ added, e.isQuiet)
      (hgot : t.conn.request.gotAll = true → s.conn.request.gotAll = true)
      (hreset : t.conn.request.gotAll = false → s.conn.request.gotAll = false ∨ .reset ∈ added)
  | /-- A request is completed and handed over. -/
    executed (read : Effect) (request : HttpRequest) (added : List Effect)
      (hlog : t.log = s.log ++ read :: .completed :: (handover service request ++ added))
      (hread : read.isQuiet) (hquiet : ∀ e ∈ added, e.isQuiet)
      (hbefore : s.conn.request.gotAll = false)
      (hreset : t.conn.request.gotAll = false → .reset ∈ added)
  | /-- A request that was complete before is handed over. -/
    repeated (read : Effect) (request : HttpRequest) (added : List Effect)
      (hlog : t.log = s.log ++ read :: (handover service request ++ added))
      (hread : read.isQuiet) (hquiet : ∀ e ∈ added, e.isQuiet)
      (hlate : s.readsLate d)

theorem Quietly.gotAll {added : List Effect} (hquietly : Quietly s t added)
    (hgot : t.conn.request.gotAll = true) : s.conn.request.gotAll = true := by
  rcases hquietly.request with hsame | ⟨hfresh, _⟩
  · rwa [hsame] at hgot
  · rw [hfresh] at hgot
    cases hgot

theorem Quietly.reset {added : List Effect} (hquietly : Quietly s t added)
    (hgot : t.conn.request.gotAll = false) :
    s.conn.request.gotAll = false ∨ .reset ∈ added := by
  rcases hquietly.request with hsame | ⟨_, hreset⟩
  · rw [hsame] at hgot
    exact .inl hgot
  · exact .inr hreset

theorem Quietly.observed {added : List Effect} (hquietly : Quietly s t added)
    (honTime : ¬ s.readsLate d) : Observed service s d t :=
  .quiet added honTime hquietly.log hquietly.quiet hquietly.gotAll hquietly.reset

theorem quietly_refl (s : Session) (request : s.conn.request = t.conn.request)
    (hlog : s.log = t.log) : Quietly s t [] where
  log := by rw [hlog, List.append_nil]
  quiet := by simp
  request := .inl request.symm

theorem quietly_removeConnection (hlive : s.conn.Live) :
    Quietly s s.removeConnection (teardown s.fd) := by
  rw [removeConnection_of_live hlive.notClosing hlive.registered]
  exact ⟨rfl, by simp [teardown, Effect.isQuiet], .inl rfl⟩

/-- The answer to rejected bytes is no invocation. -/
theorem observed_rejected (hlive : s.conn.Live) {bytes : Bytes} {request : HttpRequest}
    (hdata : d.read = .data bytes) (hparse : s.conn.request.parse bytes = (false, request)) :
    Observed service s d ((s.afterParse d.read request []).sendResponse service
      (d.writes.headD (.fail EAGAIN)) .badRequest) := by
  obtain ⟨added, hquietly⟩ := quietly_sendResponse service
    (live_afterParse hlive d.read request []) (d.writes.headD (.fail EAGAIN)) .badRequest
  have hgotAll : request.gotAll = true → s.conn.request.gotAll = true := by
    have hrejects : (s.conn.request.parse bytes).1 = false := by rw [hparse]
    have hkept := HttpRequest.parse_rejects_gotAll hrejects
    rwa [hparse] at hkept
  have hnotGot : request.gotAll = false → s.conn.request.gotAll = false := by
    intro hnot
    apply HttpRequest.not_gotAll_of_parse bytes
    rw [hparse]
    exact hnot
  apply Observed.quiet (.read s.fd d.read :: added)
  · intro hlate
    have haccepts := hlate.parse hdata
    rw [hparse] at haccepts
    cases haccepts
  · rw [hquietly.log]
    simp [afterParse]
  · intro e he
    rcases List.mem_cons.mp he with rfl | he
    · trivial
    · exact hquietly.quiet e he
  · exact fun hgot => hgotAll (hquietly.gotAll hgot)
  · intro hgot
    rcases hquietly.reset hgot with hnot | hreset
    · exact .inl (hnotGot hnot)
    · exact .inr (List.mem_cons_of_mem _ hreset)

/-- A complete request is handed over, as the execution of a request if the read
has completed it and as a repetition otherwise. -/
theorem observed_answered (hlive : s.conn.Live) (hselects : s.selects d = some .read)
    {bytes : Bytes} {request : HttpRequest} (hdata : d.read = .data bytes) (hbytes : bytes ≠ [])
    (hparse : s.conn.request.parse bytes = (true, request)) (hgot : request.gotAll = true) :
    Observed service s d
      ((s.afterParse d.read request
        (completion s.conn.request request ++ handover service request)).sendResponse service
          (d.writes.headD (.fail EAGAIN)) (s.responseTo service request)) := by
  obtain ⟨added, hquietly⟩ := quietly_sendResponse service
    (live_afterParse hlive d.read request
      (completion s.conn.request request ++ handover service request))
    (d.writes.headD (.fail EAGAIN)) (s.responseTo service request)
  have hlog : (s.afterParse d.read request (completion s.conn.request request ++
        handover service request)).log ++ added =
      s.log ++ .read s.fd d.read :: (completion s.conn.request request ++
        (handover service request ++ added)) := by
    simp [afterParse]
  cases hbefore : s.conn.request.gotAll with
  | true =>
      have hnone : completion s.conn.request request = [] := by simp [completion, hbefore]
      apply Observed.repeated (.read s.fd d.read) request added
      · rw [hquietly.log, hlog, hnone]
        rfl
      · trivial
      · exact hquietly.quiet
      · refine ⟨hselects, ?_⟩
        obtain ⟨b, rest, rfl⟩ := List.exists_cons_of_ne_nil hbytes
        rw [hdata]
        refine ⟨hbefore, ?_⟩
        by_contra hsize
        rw [HttpRequest.parse_of_too_large (not_le.mp hsize)] at hparse
        cases hparse
  | false =>
      have hsome : completion s.conn.request request = [.completed] := by
        simp [completion, hbefore, hgot]
      apply Observed.executed (.read s.fd d.read) request added
      · rw [hquietly.log, hlog, hsome]
        rfl
      · trivial
      · exact hquietly.quiet
      · exact hbefore
      · intro hgot'
        rcases hquietly.reset hgot' with hnot | hreset
        · exact absurd (hgot.symm.trans hnot) (by simp)
        · exact hreset

/-- What a read adds, for an observer of the callback. -/
theorem ReadOutcome.observed (hlive : s.conn.Live) (hselects : s.selects d = some .read)
    (houtcome : ReadOutcome service d s t) : Observed service s d t := by
  have hread : ∀ e ∈ [Effect.read s.fd d.read], e.isQuiet := by simp [Effect.isQuiet]
  cases houtcome with
  | failed errno hdata =>
      have honTime : ¬ s.readsLate d := by simp [readsLate, hdata, ReadResult.late]
      exact .quiet [.read s.fd d.read] honTime rfl hread id .inl
  | ended hdata =>
      have honTime : ¬ s.readsLate d := by simp [readsLate, hdata, ReadResult.late]
      exact .quiet (.read s.fd d.read :: teardown s.fd) honTime rfl
        (by simp [teardown, Effect.isQuiet]) id .inl
  | waiting bytes request _ _ hparse hgot =>
      have hbefore : s.conn.request.gotAll = false := by
        apply HttpRequest.not_gotAll_of_parse bytes
        rw [hparse]
        exact hgot
      apply Observed.quiet [.read s.fd d.read]
      · exact fun hlate => absurd (hbefore.symm.trans hlate.gotAll) Bool.false_ne_true
      · exact rfl
      · exact hread
      · exact fun hgot' => absurd (hgot.symm.trans hgot') Bool.false_ne_true
      · exact fun _ => .inl hbefore
  | rejected bytes request hdata _ hparse => exact observed_rejected hlive hdata hparse
  | answered bytes request hdata hbytes hparse hgot =>
      exact observed_answered hlive hselects hdata hbytes hparse hgot

/-- The step lemma for everything that concerns the callback. -/
theorem observed_dispatch (hlive : s.conn.Live) (d : Dispatch) :
    Observed service s d (s.dispatch service d) := by
  have hlive' : (s.notified d.revents).conn.Live := hlive.withRevents d.revents
  have hfrom {added : List Effect} {u : Session}
      (hquietly : Quietly (s.notified d.revents) u added) (hselects : s.selects d ≠ some .read) :
      Observed service s d u :=
    Quietly.observed ⟨hquietly.log, hquietly.quiet, hquietly.request⟩
      fun hlate => hselects hlate.1
  rw [dispatch_eq]
  cases hselects : s.selects d with
  | none => exact hfrom (quietly_refl _ rfl rfl) (by simp [hselects])
  | some selected =>
      cases selected with
      | write =>
          obtain ⟨added, hquietly⟩ := quietly_onWrite hlive' d
          exact hfrom hquietly (by simp [hselects])
      | read =>
          have hread : Observed service (s.notified d.revents) d
              ((s.notified d.revents).onRead service d) :=
            ReadOutcome.observed hlive' hselects (onRead_outcome hlive' d)
          cases hread with
          | quiet added honTime hlog hquiet hgot hreset =>
              exact .quiet added honTime hlog hquiet hgot hreset
          | executed read request added hlog hread hquiet hbefore hreset =>
              exact .executed read request added hlog hread hquiet hbefore hreset
          | repeated read request added hlog hread hquiet hlate =>
              exact .repeated read request added hlog hread hquiet hlate
      | close => exact hfrom (quietly_removeConnection hlive') (by simp [hselects])
      | error => exact hfrom (quietly_refl _ rfl rfl) (by simp [hselects])

theorem observed_step (hconn : s.conn.Live ∨ s.conn.Closed)
    (hstep : (sessions service).step s d = some t) : Observed service s d t := by
  rw [(sessions_step hstep).2.2]
  exact observed_dispatch (live_of_step hconn hstep) d

/-! ## Runs -/

theorem Observed.log_le (hobserved : Observed service s d t) : s.log <+: t.log := by
  cases hobserved with
  | quiet added _ hlog => exact ⟨added, hlog.symm⟩
  | executed read request added hlog => exact ⟨_, hlog.symm⟩
  | repeated read request added hlog => exact ⟨_, hlog.symm⟩

/-- The log only grows. -/
theorem log_le_of_run {dispatches : List Dispatch} (hconn : s.conn.Live ∨ s.conn.Closed)
    (hrun : (sessions service).run s dispatches = some t) : s.log <+: t.log := by
  have hgrows : (t.conn.Live ∨ t.conn.Closed) ∧ s.log <+: t.log := by
    apply Machine.invariant_of_run
      (I := fun u : Session => (u.conn.Live ∨ u.conn.Closed) ∧ s.log <+: u.log) _ _ hrun
    · intro u d v ⟨hconn, hlog⟩ hstep
      exact ⟨live_or_closed_step hconn hstep, hlog.trans (observed_step hconn hstep).log_le⟩
    · exact ⟨hconn, List.prefix_refl _⟩
  exact hgrows.2

/-- What holds between the dispatches of a run in which no bytes arrive late. -/
structure Orderly (s : Session) : Prop where
  conn : s.conn.Live ∨ s.conn.Closed
  balanced : executions.Owes s.log []
  separated : Separated s.log
  rested : s.conn.request.gotAll = false → Rested s.log

theorem orderly_created (loop fd : ℕ) : (created loop fd).Orderly := by
  have hnone : Uninvoked (created loop fd).log := by simp [created_eq, Uninvoked]
  refine ⟨.inl (live_created loop fd), ?_, hnone.separated, fun _ => hnone.rested⟩
  rw [created_eq]
  exact Ledger.owes_nil.silent rfl rfl

theorem owes_append_quiet {log added : List Effect} (hlog : executions.Owes log [])
    (hquiet : ∀ e ∈ added, e.isQuiet) : executions.Owes (log ++ added) [] :=
  hlog.silent (allPromised_of_isQuiet hquiet) (allDelivered_of_isQuiet hquiet)

/-- The step lemma: as long as no bytes arrive late, invocations and completed
requests stay in step. -/
theorem orderly_step (hcallback : service.callback.isSome = true) (horderly : s.Orderly)
    (honTime : nothingLate s d) (hstep : (sessions service).step s d = some t) : t.Orderly := by
  have hconn := live_or_closed_step horderly.conn hstep
  cases observed_step horderly.conn hstep with
  | repeated read request added hlog hread hquiet hlate => exact absurd hlate honTime
  | quiet added _ hlog hquiet hgot hreset =>
      have hnone := uninvoked_of_isQuiet hquiet
      refine ⟨hconn, ?_, ?_, fun hnotGot => ?_⟩
      · rw [hlog]
        exact owes_append_quiet horderly.balanced hquiet
      · rw [hlog]
        exact horderly.separated.append hnone
      · rw [hlog]
        rcases hreset hnotGot with hbefore | hreset
        · exact (horderly.rested hbefore).append hnone
        · exact rested_of_reset hnone hreset
  | executed read request added hlog hread hquiet hbefore hreset =>
      have hhandover : handover service request = [.callback request] := if_pos hcallback
      have hshape : t.log = s.log ++ [read] ++ [.completed] ++ [.callback request] ++ added := by
        rw [hlog, hhandover]
        simp
      have hread' : ∀ e ∈ [read], e.isQuiet := by simpa using hread
      have hnone := uninvoked_of_isQuiet hquiet
      have hrested : Rested (s.log ++ [read]) :=
        (horderly.rested hbefore).append (uninvoked_of_isQuiet hread')
      refine ⟨hconn, ?_, ?_, fun hnotGot => ?_⟩
      · have hpromised : executions.Owes (s.log ++ [read] ++ [.completed]) [()] :=
          (owes_append_quiet horderly.balanced hread').promise rfl
        have hinvoked :
            executions.Owes (s.log ++ [read] ++ [.completed] ++ [.callback request]) [] :=
          hpromised.deliver rfl rfl
        rw [hshape]
        exact owes_append_quiet hinvoked hquiet
      · have hbefore' : Separated (s.log ++ [read] ++ [.completed]) :=
          (horderly.separated.append (uninvoked_of_isQuiet hread')).append (by simp [Uninvoked])
        have hinvoked : Separated (s.log ++ [read] ++ [.completed] ++ [.callback request]) :=
          hbefore'.concat_callback (fun _ _ _ heq => hrested.concat_completed heq) request
        rw [hshape]
        exact hinvoked.append hnone
      · rw [hshape]
        exact rested_of_reset hnone (hreset hnotGot)

theorem executesOnce_of_orderly (horderly : s.Orderly) : ExecutesOnce s.log where
  count_le := by
    intro moment hmoment
    have hle := (horderly.balanced.inOrder moment hmoment).length_le
    rwa [length_allPromised, length_allDelivered] at hle
  separated := horderly.separated

/-- Without a callback there is nothing to invoke. -/
theorem uninvoked_step (hcallback : service.callback.isSome = false)
    (hconn : s.conn.Live ∨ s.conn.Closed) (hnone : Uninvoked s.log)
    (hstep : (sessions service).step s d = some t) : Uninvoked t.log := by
  have hhandover (request : HttpRequest) : handover service request = [] :=
    if_neg (by simp [hcallback])
  have happend {added : List Effect} (hadded : Uninvoked added) : Uninvoked (s.log ++ added) := by
    intro request hmem
    exact (List.mem_append.mp hmem).elim (hnone request) (hadded request)
  cases observed_step hconn hstep with
  | quiet added _ hlog hquiet =>
      rw [hlog]
      exact happend (uninvoked_of_isQuiet hquiet)
  | executed read request added hlog hread hquiet =>
      rw [hlog, hhandover]
      apply happend
      intro request' hmem
      rcases List.mem_cons.mp hmem with rfl | hmem
      · exact hread
      · rcases List.mem_cons.mp hmem with heq | hmem
        · cases heq
        · exact uninvoked_of_isQuiet hquiet request' hmem
  | repeated read request added hlog hread hquiet =>
      rw [hlog, hhandover]
      apply happend
      intro request' hmem
      rcases List.mem_cons.mp hmem with rfl | hmem
      · exact hread
      · exact uninvoked_of_isQuiet hquiet request' hmem

theorem executesOnce_of_uninvoked {log : List Effect} (hnone : Uninvoked log) :
    ExecutesOnce log where
  count_le := by
    intro moment hmoment
    have hzero : callbackCount moment = 0 := by
      apply List.countP_eq_zero.mpr
      intro e he
      cases e with
      | callback request => exact absurd (hmoment.subset he) (hnone request)
      | _ => simp
    omega
  separated := hnone.separated

/-- Late bytes lead to an invocation for which no request has been completed. -/
theorem not_executesOnce_of_late (hcallback : service.callback.isSome = true)
    (horderly : s.Orderly) (hlate : s.readsLate d)
    (hstep : (sessions service).step s d = some t) :
    ∃ moment, moment <+: t.log ∧ moment.count .completed < callbackCount moment := by
  cases observed_step horderly.conn hstep with
  | quiet added honTime => exact absurd hlate honTime
  | executed read request added hlog hread hquiet hbefore =>
      exact absurd (hbefore.symm.trans hlate.gotAll) Bool.false_ne_true
  | repeated read request added hlog hread hquiet =>
      have hhandover : handover service request = [.callback request] := if_pos hcallback
      have hread' : ∀ e ∈ [read], e.isQuiet := by simpa using hread
      have hbalance := (owes_append_quiet horderly.balanced hread').balance
      have hcount : callbackCount (s.log ++ [read]) = (s.log ++ [read]).count .completed := by
        rw [← length_allPromised, ← length_allDelivered, ← hbalance, List.append_nil]
      refine ⟨s.log ++ [read] ++ [.callback request], ⟨added, ?_⟩, ?_⟩
      · rw [hlog, hhandover]
        simp
      · rw [callbackCount_append, hcount, List.count_append]
        simp [callbackCount]

/-- **No request is executed twice as long as no bytes arrive late.** A run
keeps the invocations of the callback in step with the completed requests
exactly if there is no callback, or no dispatch of the run reads bytes that fit
into the buffer of a request that is complete and not yet reset. -/
theorem executes_once_iff (service : Service) (loop fd : ℕ) (dispatches : List Dispatch)
    (s : Session) (hrun : (sessions service).run (created loop fd) dispatches = some s) :
    ExecutesOnce s.log ↔ service.callback = none ∨
      (sessions service).Follows nothingLate (created loop fd) dispatches := by
  cases hcallback : service.callback.isSome with
  | false =>
      have hnone : service.callback = none := by simpa using hcallback
      have hquiet : (s.conn.Live ∨ s.conn.Closed) ∧ Uninvoked s.log := by
        apply Machine.invariant_of_run
          (I := fun u : Session => (u.conn.Live ∨ u.conn.Closed) ∧ Uninvoked u.log) _ _ hrun
        · intro u d v ⟨hconn, hnone⟩ hstep
          exact ⟨live_or_closed_step hconn hstep, uninvoked_step hcallback hconn hnone hstep⟩
        · exact ⟨.inl (live_created loop fd), by simp [created_eq, Uninvoked]⟩
      exact ⟨fun _ => .inl hnone, fun _ => executesOnce_of_uninvoked hquiet.2⟩
  | true =>
      have hsome : service.callback ≠ none := by
        intro hnone
        simp [hnone] at hcallback
      constructor
      · intro honce
        right
        by_contra hbreaks
        obtain ⟨before, d, after, here, next, _, hbefore, hhere, hlate, hnext, hafter⟩ :=
          Machine.exists_first_break hrun hbreaks
        have horderly : here.Orderly :=
          Machine.run_invariant (fun _ _ _ horderly honTime hstep =>
            orderly_step hcallback horderly honTime hstep) (orderly_created loop fd) hhere hbefore
        obtain ⟨moment, hmoment, hcount⟩ :=
          not_executesOnce_of_late hcallback horderly (not_not.mp hlate) hnext
        have hlog := log_le_of_run (live_or_closed_step horderly.conn hnext) hafter
        exact absurd (honce.count_le moment (hmoment.trans hlog)) (not_le.mpr hcount)
      · rintro (hnone | hfollows)
        · exact absurd hnone hsome
        · exact executesOnce_of_orderly (Machine.run_invariant (fun _ _ _ horderly honTime hstep =>
            orderly_step hcallback horderly honTime hstep) (orderly_created loop fd) hrun hfollows)

/-- A callback that leaves the default response as it is. -/
def defaultService : Service where
  order := .stored
  callback := some fun _ _ resp => resp

/-- A run with two requests, each in time. -/
theorem executes_once_two_requests :
    ∃ s : Session, callbackCount s.log = 2 ∧ ExecutesOnce s.log := by
  have hfollows : (sessions defaultService).Follows nothingLate (created 0 7)
      [readable (literal "GET / HTTP/1.1\r\n\r\n") [.room 10], writable [.room 100],
        readable (literal "GET / HTTP/1.1\r\n\r\n") [.room 100]] := by decide +kernel
  have hrun : ((sessions defaultService).run (created 0 7)
      [readable (literal "GET / HTTP/1.1\r\n\r\n") [.room 10], writable [.room 100],
        readable (literal "GET / HTTP/1.1\r\n\r\n") [.room 100]]).any
      (fun s => decide (callbackCount s.log = 2)) = true := by decide +kernel
  rw [Option.any_eq_true] at hrun
  obtain ⟨s, hs, hcount⟩ := hrun
  exact ⟨s, of_decide_eq_true hcount,
    (executes_once_iff defaultService 0 7 _ s hs).mpr (.inr hfollows)⟩

/-- One late byte, and the callback is invoked again for the same request. -/
theorem executes_twice : ¬ ∀ (service : Service) (s : Session),
    (sessions service).Reachable s → ExecutesOnce s.log := by
  intro hall
  obtain ⟨s, hreach, hcount⟩ := Machine.exists_reachable_of_run
    (M := sessions defaultService) (s := created 0 7)
    (P := fun s => s.log.count .completed < callbackCount s.log) Machine.anyStep
    [readable (literal "POST / HTTP/1.1\r\n\r\n") [.room 10], readable (literal "x") [.room 100]]
    ⟨0, 7, rfl⟩ (Machine.follows_anyStep _ _) (by decide +kernel)
  have hle := (hall defaultService s hreach).count_le s.log (List.prefix_refl _)
  exact absurd hle (not_le.mpr hcount)

end Session

end EpollHttpServer.Server
