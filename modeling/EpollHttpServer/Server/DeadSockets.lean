/-
# Which failures take a connection down

A dispatch can show the server in four ways that a connection is dead: the peer
has closed, a read or a write fails for good, or the mask reports an error
with nothing to read or write.  Every handler is gone through once for what it
does about them.  Writing never overlooks one; `onRead` returns when `read`
fails, whatever the error, and there is no callback for an error that comes
without a hang-up.
-/

import EpollHttpServer.Server.Watched

namespace EpollHttpServer.Server

open EpollHttpServer.Lib EpollHttpServer.Http EpollHttpServer.Reactor

/-- An error after which trying again is of no use. -/
def HardErrno (errno : Errno) : Prop :=
  errno ≠ EAGAIN ∧ errno ≠ EWOULDBLOCK ∧ errno ≠ EINTR

instance : DecidablePred HardErrno := fun errno =>
  inferInstanceAs (Decidable (errno ≠ EAGAIN ∧ errno ≠ EWOULDBLOCK ∧ errno ≠ EINTR))

/-- A system call that shows that the connection is dead. -/
def Effect.isFatal : Effect → Prop
  | .read _ (.data bytes) => bytes = []
  | .read _ (.error errno) => HardErrno errno
  | .write _ _ (.error errno) => HardErrno errno
  | _ => False

/-- The mask reports a hang-up or an error, and nothing to read or write. -/
def Dispatch.ReportsDeath (d : Dispatch) : Prop :=
  d.revents.has (EPOLLHUP ||| EPOLLERR) ∧ ¬ d.revents.has EPOLLIN ∧ ¬ d.revents.has EPOLLOUT

/-- The event makes `onRead` call `read`, which fails for good. -/
def Dispatch.FailsReading (d : Dispatch) : Prop :=
  ¬ d.revents.has EPOLLOUT ∧ d.revents.has EPOLLIN ∧
    ∃ errno, d.read = .error errno ∧ HardErrno errno

/-- The mask reports an error and nothing that a callback is set for. -/
def Dispatch.LoneError (d : Dispatch) : Prop :=
  d.revents.has EPOLLERR ∧ ¬ d.revents.has EPOLLOUT ∧ ¬ d.revents.has EPOLLIN ∧
    ¬ d.revents.has (EPOLLHUP ||| EPOLLRDHUP)

namespace Session

/-- Nothing in the effects that were added is fatal. -/
def Harmless (s t : Session) : Prop :=
  ∃ effects, t.log = s.log ++ effects ∧ ∀ e ∈ effects, ¬ e.isFatal

/-- The dispatch shows that the connection is dead: a call of its handler fails
for good, the peer has closed, or the mask says so. -/
def SeesDeath (service : Service) (s : Session) (d : Dispatch) : Prop :=
  (∃ effects, (s.dispatch service d).log = s.log ++ effects ∧ ∃ e ∈ effects, e.isFatal) ∨
    d.ReportsDeath

variable {s t : Session} {service : Service}

theorem Harmless.not_fatal (hharmless : Harmless s t) {effects : List Effect}
    (hlog : t.log = s.log ++ effects) : ¬ ∃ e ∈ effects, e.isFatal := by
  obtain ⟨others, hothers, hnone⟩ := hharmless
  rw [hlog, List.append_cancel_left_eq] at hothers
  subst hothers
  rintro ⟨e, hmem, hfatal⟩
  exact hnone e hmem hfatal

theorem Effect.not_fatal_of_soft {fd : ℕ} {e : Effect} (hsoft : e.isSoftWrite fd) :
    ¬ e.isFatal := by
  cases e with
  | write fd' data result =>
      cases result with
      | accepted count => exact id
      | error errno =>
          intro hhard
          exact hhard.1 hsoft.2
  | _ => exact hsoft.elim

variable (service) in
/-- `sendResponse` closes the connection or has seen nothing fatal. -/
theorem closing_or_harmless_sendResponse (hlive : s.conn.Live) (answer : WriteAnswer)
    (resp : HttpResponse) :
    (s.sendResponse service answer resp).conn.closing = true ∨
      Harmless s (s.sendResponse service answer resp) := by
  have htried {n : ℕ} (hsent : sentCount answer (resp.toMessage service.order).length = some n) :
      ¬ (Effect.write s.fd (resp.toMessage service.order)
        (answer.result (resp.toMessage service.order).length)).isFatal := by
    cases answer with
    | room bytes => exact id
    | fail errno =>
        intro hhard
        rw [sentCount, WriteAnswer.result] at hsent
        dsimp only at hsent
        rw [if_neg hhard.1] at hsent
        cases hsent
  rcases sendResponse_cases service hlive answer resp with
    ⟨-, hresult⟩ | ⟨n, -, hsent, hresult⟩ | ⟨hsent, -, hresult⟩ | ⟨-, -, hresult⟩
  · rw [hresult]
    exact .inl rfl
  · rw [hresult]
    refine .inr ⟨_, List.append_assoc .., ?_⟩
    simpa [Effect.isFatal] using htried hsent
  · rw [hresult]
    refine .inr ⟨_, List.append_assoc .., ?_⟩
    simpa [Effect.isFatal] using htried hsent
  · rw [hresult]
    exact .inl rfl

/-- So does `onWrite`. -/
theorem closing_or_harmless_onWrite (hlive : s.conn.Live) (d : Dispatch) :
    (s.onWrite d).conn.closing = true ∨ Harmless s (s.onWrite d) := by
  have hsoft {writes : List Effect} (hwrites : ∀ e ∈ writes, e.isSoftWrite s.fd) :
      ∀ e ∈ writes, ¬ e.isFatal := fun e hmem => Effect.not_fatal_of_soft (hwrites e hmem)
  rcases onWrite_cases hlive d with ⟨writes, _, _, hwrites, _, hresult⟩ |
    ⟨_, _, _, _, _, _, hresult⟩ | ⟨writes, hwrites, _, _, hresult⟩ | ⟨_, _, _, _, hresult⟩
  · rw [hresult]
    exact .inr ⟨writes, rfl, hsoft hwrites⟩
  · rw [hresult]
    exact .inl rfl
  · rw [hresult]
    refine .inr ⟨_, List.append_assoc .., ?_⟩
    intro e hmem
    rcases List.mem_append.mp hmem with hwrite | hlast
    · exact hsoft hwrites e hwrite
    · simp only [List.mem_cons, List.not_mem_nil, or_false] at hlast
      rcases hlast with rfl | rfl <;> exact id
  · rw [hresult]
    exact .inl rfl

variable (service) in
/-- `onRead` closes the connection, has seen nothing fatal, or has returned from
a read that failed, as if nothing had happened. -/
theorem onRead_about_death (hlive : s.conn.Live) (d : Dispatch) :
    (∃ errno, d.read = .error errno ∧
      s.onRead service d = ⟨s.conn, s.log ++ [.read s.fd (.error errno)]⟩) ∨
    (¬ d.read.fails ∧ ((s.onRead service d).conn.closing = true ∨
      Harmless s (s.onRead service d))) := by
  have hprepend {request : HttpRequest} {notes : List Effect} {u : Session} {bytes : Bytes}
      (hread : d.read = .data bytes) (hbytes : bytes ≠ [])
      (hnotes : ∀ e ∈ notes, ¬ e.isFatal)
      (hrest : u.conn.closing = true ∨ Harmless (s.afterParse d.read request notes) u) :
      u.conn.closing = true ∨ Harmless s u := by
    rcases hrest with hclosing | ⟨effects, hlog, hnone⟩
    · exact .inl hclosing
    · refine .inr ⟨.read s.fd d.read :: notes ++ effects, ?_, ?_⟩
      · rw [hlog, afterParse]
        simp
      · intro e hmem
        rw [List.cons_append, List.mem_cons, List.mem_append] at hmem
        rcases hmem with rfl | hnote | hlater
        · rw [hread]
          exact hbytes
        · exact hnotes e hnote
        · exact hnone e hlater
  have hidle (request : HttpRequest) (notes : List Effect) :
      Harmless (s.afterParse d.read request notes) (s.afterParse d.read request notes) :=
    ⟨[], (List.append_nil _).symm, by simp⟩
  generalize hresult : s.onRead service d = u
  have houtcome : ReadOutcome service d s u := hresult ▸ onRead_outcome hlive d
  cases houtcome with
  | failed errno hread =>
      left
      rw [hread]
      exact ⟨errno, rfl, rfl⟩
  | ended hread =>
      right
      rw [hread]
      exact ⟨id, .inl rfl⟩
  | waiting bytes request hread hbytes hparse hgot =>
      refine .inr ⟨by rw [hread]; exact id, hprepend hread hbytes ?_ (.inr (hidle request []))⟩
      simp
  | rejected bytes request hread hbytes hparse =>
      have hsent := closing_or_harmless_sendResponse service
        (live_afterParse hlive d.read request []) (d.writes.headD (.fail EAGAIN)) .badRequest
      exact .inr ⟨by rw [hread]; exact id, hprepend hread hbytes (by simp) hsent⟩
  | answered bytes request hread hbytes hparse hgot =>
      let notes := completion s.conn.request request ++ handover service request
      have hsent := closing_or_harmless_sendResponse service
        (live_afterParse hlive d.read request notes) (d.writes.headD (.fail EAGAIN))
        (s.responseTo service request)
      refine .inr ⟨by rw [hread]; exact id, hprepend hread hbytes ?_ hsent⟩
      intro e hmem
      rcases List.mem_append.mp hmem with hcompleted | hhanded
      · unfold completion at hcompleted
        split at hcompleted <;> simp_all [Effect.isFatal]
      · unfold handover at hhanded
        split at hhanded <;> simp_all [Effect.isFatal]

/-- The callback that a mask selects: writing first, and nothing for an error alone. -/
theorem selects_of_live (hlive : s.conn.Live) (d : Dispatch) :
    s.selects d =
      if d.revents.has EPOLLOUT then some .write
      else if d.revents.has EPOLLIN then some .read
      else if d.revents.has (EPOLLHUP ||| EPOLLRDHUP) then some .close
      else none := by
  have hcallbacks : (s.conn.channel.setRevents d.revents).callbacks = [.read, .write, .close] :=
    hlive.callbacks
  unfold selects Channel.selected
  rw [hcallbacks]
  simp [Channel.setRevents]

theorem reportsDeath_of_loneError {d : Dispatch} (hlone : d.LoneError) : d.ReportsDeath := by
  obtain ⟨herror, hout, hin, -⟩ := hlone
  exact ⟨(Events.has_or ..).mpr (.inr herror), hin, hout⟩

/-- What is reported without a hang-up is an error. -/
theorem loneError_of_reportsDeath {d : Dispatch} (hdeath : d.ReportsDeath)
    (hhup : ¬ d.revents.has (EPOLLHUP ||| EPOLLRDHUP)) : d.LoneError := by
  obtain ⟨hreported, hin, hout⟩ := hdeath
  rcases (Events.has_or ..).mp hreported with hhangup | herror
  · exact absurd ((Events.has_or ..).mpr (.inl hhangup)) hhup
  · exact ⟨herror, hout, hin, hhup⟩

theorem closing_of_selected_write (hlive : s.conn.Live) {d : Dispatch}
    (hout : d.revents.has EPOLLOUT) (hsees : SeesDeath service s d) :
    (s.dispatch service d).conn.closing = true := by
  have hdispatch : s.dispatch service d = (s.notified d.revents).onWrite d := by
    rw [dispatch_eq, selects_of_live hlive, if_pos hout]
  have hnotified : (s.notified d.revents).conn.Live := hlive.withRevents d.revents
  rw [SeesDeath, hdispatch] at hsees
  rw [hdispatch]
  rcases closing_or_harmless_onWrite hnotified d with hclosing | hharmless
  · exact hclosing
  · rcases hsees with ⟨effects, hlog, hfatal⟩ | hdeath
    · exact absurd hfatal (hharmless.not_fatal hlog)
    · exact absurd hout hdeath.2.2

/-- What `onRead` does about death: everything, unless the read itself fails. -/
theorem selected_read_iff (hlive : s.conn.Live) {d : Dispatch} (hout : ¬ d.revents.has EPOLLOUT)
    (hin : d.revents.has EPOLLIN) :
    (SeesDeath service s d → (s.dispatch service d).conn.closing = true) ↔ ¬ d.FailsReading := by
  have hdispatch : s.dispatch service d = (s.notified d.revents).onRead service d := by
    rw [dispatch_eq, selects_of_live hlive, if_neg hout, if_pos hin]
  have hnotified : (s.notified d.revents).conn.Live := hlive.withRevents d.revents
  rw [SeesDeath, hdispatch]
  rcases onRead_about_death service hnotified d with
    ⟨errno, hread, hresult⟩ | ⟨hread, hknown⟩
  · rw [hresult]
    constructor
    · rintro hclosed ⟨-, -, errno', hread', hhard⟩
      cases hread.symm.trans hread'
      let failure : Effect := .read s.fd (.error errno)
      have hclosing := hclosed (.inl ⟨[failure], rfl, failure, List.mem_singleton_self _, hhard⟩)
      exact absurd (hclosing.symm.trans hnotified.notClosing) (by decide)
    · rintro hnot (⟨effects, hlog, e, hmem, hfatal⟩ | hdeath)
      · have heffects := List.append_cancel_left hlog
        rw [← heffects, List.mem_singleton] at hmem
        subst hmem
        exact absurd ⟨hout, hin, errno, hread, hfatal⟩ hnot
      · exact absurd hin hdeath.2.1
  · constructor
    · rintro - ⟨-, -, errno, hfails, -⟩
      rw [hfails] at hread
      exact hread trivial
    · rintro - (⟨effects, hlog, hfatal⟩ | hdeath)
      · rcases hknown with hclosing | hharmless
        · exact hclosing
        · exact absurd hfatal (hharmless.not_fatal hlog)
      · exact absurd hin hdeath.2.1

/-- With nothing to read or write only the mask can show death, and only a
hang-up has a callback. -/
theorem selected_neither_iff (hlive : s.conn.Live) {d : Dispatch}
    (hout : ¬ d.revents.has EPOLLOUT) (hin : ¬ d.revents.has EPOLLIN) :
    (SeesDeath service s d → (s.dispatch service d).conn.closing = true) ↔ ¬ d.LoneError := by
  have hnotified : (s.notified d.revents).conn.Live := hlive.withRevents d.revents
  by_cases hhup : d.revents.has (EPOLLHUP ||| EPOLLRDHUP)
  · have hdispatch : s.dispatch service d = (s.notified d.revents).onClose := by
      rw [dispatch_eq, selects_of_live hlive, if_neg hout, if_neg hin, if_pos hhup]
    have hclosing : (s.dispatch service d).conn.closing = true := by
      rw [hdispatch, onClose, removeConnection_of_live hnotified.notClosing hnotified.registered]
      rfl
    constructor
    · intro _ hlone
      exact hlone.2.2.2 hhup
    · intro _ _
      exact hclosing
  · have hdispatch : s.dispatch service d = s.notified d.revents := by
      rw [dispatch_eq, selects_of_live hlive, if_neg hout, if_neg hin, if_neg hhup]
    rw [SeesDeath, hdispatch]
    constructor
    · intro hclosed hlone
      have hclosing := hclosed (.inr (reportsDeath_of_loneError hlone))
      exact absurd (hclosing.symm.trans hnotified.notClosing) (by decide)
    · rintro hnot (⟨effects, hlog, e, hmem, -⟩ | hdeath)
      · have hnil : effects = [] := List.append_right_eq_self.mp hlog.symm
        rw [hnil] at hmem
        cases hmem
      · exact absurd (loneError_of_reportsDeath hdeath hhup) hnot

/-- A connection that is reset by its peer stays in service. -/
theorem reset_connection_kept : ¬ ∀ (service : Service) (w : Watched) (d : Dispatch),
    (watched service).Reachable w → w.session.conn.closing = false →
      SeesDeath service w.session d →
        (w.session.dispatch service d).conn.closing = true := by
  intro hall
  let d : Dispatch :=
    { revents := EPOLLIN ||| EPOLLERR ||| EPOLLHUP, read := .error 104, writes := [] }
  let failure : Effect := .read 7 (.error 104)
  have hhard : HardErrno 104 := by decide
  have hclosing := hall plainService ⟨.created 0 7, false⟩ d (.of_init ⟨0, 7, rfl⟩)
    (by decide) (.inl ⟨[failure], by decide, failure, List.mem_singleton_self _, hhard⟩)
  exact absurd hclosing (by decide)

/-- **Which dead connections are torn down.** For every open connection of every
run, every mask and every outcome of the calls of the handler: a dispatch that
shows the connection to be dead takes it out of service, unless `onRead` finds
out by a read that fails, or the mask reports an error and nothing that a
callback is set for; and in these two cases it does not. -/
theorem torn_down_iff (service : Service) (w : Watched) (d : Dispatch)
    (hreach : (watched service).Reachable w) (hopen : w.session.conn.closing = false) :
    (SeesDeath service w.session d → (w.session.dispatch service d).conn.closing = true) ↔
      ¬ d.FailsReading ∧ ¬ d.LoneError := by
  have hlive : w.session.conn.Live := by
    cases Watched.standing_of_reachable hreach with
    | served hlive => exact hlive
    | ended _ hclosed => exact absurd (hopen.symm.trans hclosed.closing) Bool.false_ne_true
  by_cases hout : d.revents.has EPOLLOUT
  · constructor
    · intro _
      exact ⟨fun hfails => hfails.1 hout, fun hlone => hlone.2.1 hout⟩
    · intro _
      exact closing_of_selected_write hlive hout
  · by_cases hin : d.revents.has EPOLLIN
    · rw [selected_read_iff hlive hout hin, iff_self_and]
      intro _ hlone
      exact hlone.2.2.1 hin
    · rw [selected_neither_iff hlive hout hin, iff_and_self]
      intro _ hfails
      exact hin hfails.2.1

/-- The peer closes a connection that is waiting for a request. -/
theorem torn_down_iff_end_of_stream :
    ((created 0 7).dispatch plainService (readable [] [])).conn.closing = true := by
  have hiff := torn_down_iff plainService ⟨.created 0 7, false⟩ (readable [] [])
    (.of_init ⟨0, 7, rfl⟩) (by decide)
  have hcovered : ¬ (readable [] []).FailsReading ∧ ¬ (readable [] []).LoneError := by
    constructor
    · rintro ⟨-, -, errno, hread, -⟩
      cases hread
    · rintro ⟨herror, -⟩
      exact absurd herror (by decide)
  let ending : Effect := .read 7 (.data [])
  have hend : ending.isFatal := rfl
  exact hiff.mpr hcovered
    (.inl ⟨ending :: teardown 7, by decide, ending, List.mem_cons_self .., hend⟩)

end Session

end EpollHttpServer.Server
