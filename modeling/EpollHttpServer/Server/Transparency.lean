/-
# Persistent connections forget

Nothing reads the log of a connection except the numbering of the callback's
invocations, so a handler does the same whatever has been done before: the
earlier log is only carried along.  What is left of earlier requests is then
the connection itself.  When nothing is unsent and the parser has been reset,
that is a connection as it was created, and the requests that follow are
treated like the first ones on a new connection.
-/

import EpollHttpServer.Server.OutputStream

namespace EpollHttpServer.Server

open EpollHttpServer.Lib EpollHttpServer.Http EpollHttpServer.Reactor

/-- The service as it is found after some invocations of its callback. -/
def Service.later (service : Service) (invocations : ℕ) : Service where
  order := service.order
  callback := service.callback.map fun callback number => callback (invocations + number)

theorem Service.response_later (service : Service) (invocations number : ℕ)
    (request : HttpRequest) :
    (service.later invocations).response number request =
      service.response (invocations + number) request := by
  unfold Service.response Service.later
  cases service.callback <;> rfl

namespace Session

variable {service : Service}

/-- The session with more done before it. -/
def after (log : List Effect) (s : Session) : Session :=
  ⟨s.conn, log ++ s.log⟩

@[simp]
theorem after_conn (log : List Effect) (s : Session) : (s.after log).conn = s.conn := rfl

@[simp]
theorem after_fd (log : List Effect) (s : Session) : (s.after log).fd = s.fd := rfl

section handlers

variable (log : List Effect)

@[simp]
theorem emit_after (s : Session) (e : Effect) : (s.after log).emit e = (s.emit e).after log := by
  simp [emit, after]

@[simp]
theorem onChannel_after (s : Session) (op : Channel → Channel × List EpollCtl) :
    (s.after log).onChannel op = (s.onChannel op).after log := by
  simp [onChannel, after, fd]

theorem removeConnection_after (s : Session) :
    (s.after log).removeConnection = s.removeConnection.after log := by
  by_cases hclosing : s.conn.closing
  · simp [removeConnection, hclosing]
  · let marked : Session := { s with conn.closing := true }
    have hremove : (s.after log).removeConnection =
        (((marked.after log).onChannel Channel.disableAll).emit (.close s.fd)).emit
          (.queueErase s.fd) := if_neg hclosing
    rw [hremove, onChannel_after, emit_after, emit_after, removeConnection, if_neg hclosing]

theorem resetRequest_after (s : Session) :
    (s.after log).resetRequest = s.resetRequest.after log := by
  simp [resetRequest, emit, after]

theorem afterWrite_after (msg : Bytes) (keepAlive : Bool) (s : Session) (sent : Option ℕ) :
    afterWrite msg keepAlive (s.after log) sent = (afterWrite msg keepAlive s sent).after log := by
  cases sent with
  | none => exact removeConnection_after log s
  | some n =>
      simp only [afterWrite]
      by_cases hshort : n < msg.length
      · rw [if_pos hshort, if_pos hshort]
        exact onChannel_after log
          { s with conn.writeBuf := msg.drop n, conn.writeSent := 0 } Channel.enableWriting
      · rw [if_neg hshort, if_neg hshort]
        split
        · exact resetRequest_after log s
        · exact removeConnection_after log s

theorem sendResponse_eq (service : Service) (answer : WriteAnswer) (s : Session)
    (resp : HttpResponse) :
    let msg := resp.toMessage service.order
    s.sendResponse service answer resp =
      afterWrite msg resp.keepAlive
        ((s.emit (.respond msg)).emit (.write s.fd msg (answer.result msg.length)))
        (sentCount answer msg.length) := rfl

theorem sendResponse_after (service : Service) (invocations : ℕ) (answer : WriteAnswer)
    (s : Session) (resp : HttpResponse) :
    (s.after log).sendResponse service answer resp =
      (s.sendResponse (service.later invocations) answer resp).after log := by
  rw [sendResponse_eq, sendResponse_eq, emit_after, emit_after, afterWrite_after]
  rfl

theorem responseTo_after (s : Session) (request : HttpRequest) :
    (s.after log).responseTo service request =
      s.responseTo (service.later (callbackCount log)) request := by
  rw [responseTo, responseTo, Service.response_later]
  exact congrArg (service.response · request) (callbackCount_append log s.log)

theorem answerRequest_after (answer : WriteAnswer) (s : Session) :
    (s.after log).answerRequest service answer =
      (s.answerRequest (service.later (callbackCount log)) answer).after log := by
  have hcallback : (service.later (callbackCount log)).callback.isSome =
      service.callback.isSome := by
    simp [Service.later]
  rw [answerRequest, answerRequest, hcallback, responseTo_after, after_conn]
  split
  · rw [emit_after]
    exact sendResponse_after log ..
  · exact sendResponse_after log ..

theorem storeRequest_after (s : Session) (request : HttpRequest) :
    (s.after log).storeRequest request = (s.storeRequest request).after log := by
  rw [storeRequest_eq, storeRequest_eq]
  simp [after]

theorem onRead_after (d : Dispatch) (s : Session) :
    (s.after log).onRead service d =
      (s.onRead (service.later (callbackCount log)) d).after log := by
  simp only [onRead, after_conn, after_fd, emit_after]
  split
  · rfl
  · exact removeConnection_after ..
  · rw [storeRequest_after]
    split
    · exact sendResponse_after log ..
    · split
      · rfl
      · exact answerRequest_after log ..

theorem writeLoop_after (answers : List WriteAnswer) (s : Session) (remaining : ℕ) :
    (s.after log).writeLoop remaining answers =
      ((s.writeLoop remaining answers).1, (s.writeLoop remaining answers).2.after log) := by
  induction answers generalizing s remaining with
  | nil =>
      simp only [writeLoop, after_conn, after_fd, emit_after]
      split <;> rfl
  | cons answer answers ih =>
      simp only [writeLoop, after_conn, after_fd, emit_after]
      split
      · rfl
      · split
        · next n _ =>
          split
          · exact ih { s.emit _ with conn.writeSent := s.conn.writeSent + n } _
          · rw [removeConnection_after]
        · split
          · rfl
          · rw [removeConnection_after]

theorem onWrite_after (d : Dispatch) (s : Session) :
    (s.after log).onWrite d = (s.onWrite d).after log := by
  rw [onWrite, onWrite, writeLoop_after, after_conn]
  cases s.writeLoop (s.conn.writeBuf.length - s.conn.writeSent) d.writes with
  | mk done t =>
      cases done with
      | false => rfl
      | true =>
          have hstart : ({ t.after log with conn.writeBuf := [], conn.writeSent := 0 } : Session) =
              ({ t with conn.writeBuf := [], conn.writeSent := 0 } : Session).after log := rfl
          dsimp only
          rw [hstart, onChannel_after, after_conn, resetRequest_after, removeConnection_after]
          split <;> rfl

/-- What a handler does does not depend on what has been done before, but for
the number of times that the callback has been invoked. -/
theorem dispatch_after (d : Dispatch) (s : Session) :
    (s.after log).dispatch service d =
      (s.dispatch (service.later (callbackCount log)) d).after log := by
  have hnotified : (s.after log).notified d.revents = (s.notified d.revents).after log := rfl
  have hselects : (s.after log).selects d = s.selects d := rfl
  rw [dispatch_eq, dispatch_eq, hnotified, hselects]
  split
  · exact onWrite_after log d _
  · exact onRead_after log d _
  · exact removeConnection_after log _
  · rfl
  · rfl

theorem step_after (d : Dispatch) (s : Session) :
    (sessions service).step (s.after log) d =
      ((sessions (service.later (callbackCount log))).step s d).map (after log) := by
  simp only [sessions, after_conn, dispatch_after]
  by_cases hmay : s.conn.channel.mayReport d.revents ∧ d.read.fits
  · rw [if_pos hmay, if_pos hmay, Option.map_some]
  · rw [if_neg hmay, if_neg hmay, Option.map_none]

/-- A run continues what has been done before. -/
theorem run_after (dispatches : List Dispatch) (s : Session) :
    (sessions service).run (s.after log) dispatches =
      ((sessions (service.later (callbackCount log))).run s dispatches).map (after log) := by
  induction dispatches generalizing s with
  | nil => rfl
  | cons d dispatches ih =>
      rw [Machine.run_cons, Machine.run_cons, step_after, Option.bind_map]
      cases (sessions (service.later (callbackCount log))).step s d with
      | none => rfl
      | some t => exact ih t

end handlers

/-! ## What is left of earlier requests -/

/-- Bytes are unsent, or the buffer is empty. -/
def Tidy (c : Connection) : Prop :=
  c.pending ≠ [] ∨ c.writeBuf = [] ∧ c.writeSent = 0

theorem tidy_advance {c : Connection} {count : ℕ} (hcount : count < c.pending.length) :
    Tidy (c.advance count) := by
  left
  rw [Connection.pending_advance, Ne, List.drop_eq_nil_iff, not_le]
  exact hcount

variable {s t : Session}

theorem tidy_sendResponse (hlive : s.conn.Live) (htidy : Tidy s.conn) (answer : WriteAnswer)
    (resp : HttpResponse) : Tidy (s.sendResponse service answer resp).conn := by
  rcases sendResponse_cases service hlive answer resp with
    ⟨_, hresult⟩ | ⟨n, hn, _, hresult⟩ | ⟨_, _, hresult⟩ | ⟨_, _, hresult⟩
  · rw [hresult]
    exact htidy
  · rw [hresult]
    left
    rw [Ne, Connection.pending, Connection.buffer, List.drop_zero, List.drop_eq_nil_iff, not_le]
    exact hn
  · rw [hresult]
    exact htidy
  · rw [hresult]
    exact htidy

theorem tidy_onWrite (hlive : s.conn.Live) (d : Dispatch) : Tidy (s.onWrite d).conn := by
  rcases onWrite_cases hlive d with ⟨writes, count, hcount, _, _, hresult⟩ |
    ⟨writes, count, hcount, _, _, _, hresult⟩ | ⟨writes, _, _, _, hresult⟩ |
    ⟨writes, _, _, _, hresult⟩
  · rw [hresult]
    exact tidy_advance hcount
  · rw [hresult]
    exact tidy_advance hcount
  · rw [hresult]
    exact .inr ⟨rfl, rfl⟩
  · rw [hresult]
    exact .inr ⟨rfl, rfl⟩

theorem tidy_onRead (hlive : s.conn.Live) (htidy : Tidy s.conn) (d : Dispatch) :
    Tidy (s.onRead service d).conn := by
  have hparsed (request : HttpRequest) (notes : List Effect) :
      Tidy (s.afterParse d.read request notes).conn := htidy
  generalize hresult : s.onRead service d = t
  have houtcome : ReadOutcome service d s t := hresult ▸ onRead_outcome hlive d
  cases houtcome with
  | failed => exact hparsed _ _
  | ended => exact htidy
  | waiting bytes request => exact hparsed request _
  | rejected bytes request =>
      exact tidy_sendResponse (live_afterParse hlive d.read request _) (hparsed request _) _ _
  | answered bytes request =>
      exact tidy_sendResponse (live_afterParse hlive d.read request _) (hparsed request _) _ _

/-- The step lemma. -/
theorem tidy_dispatch (hlive : s.conn.Live) (htidy : Tidy s.conn) (d : Dispatch) :
    Tidy (s.dispatch service d).conn := by
  have hlive' : (s.notified d.revents).conn.Live := hlive.withRevents d.revents
  rw [dispatch_eq]
  cases s.selects d with
  | none => exact htidy
  | some selected =>
      cases selected with
      | write => exact tidy_onWrite hlive' d
      | read => exact tidy_onRead hlive' htidy d
      | close =>
          show Tidy (s.notified d.revents).removeConnection.conn
          rw [removeConnection_of_live hlive'.notClosing hlive'.registered]
          exact htidy
      | error => exact htidy

theorem tidy_of_reachable (hreach : (sessions service).Reachable s) : Tidy s.conn := by
  have hboth : (s.conn.Live ∨ s.conn.Closed) ∧ Tidy s.conn := by
    apply Machine.Reachable.invariant
      (I := fun s : Session => (s.conn.Live ∨ s.conn.Closed) ∧ Tidy s.conn) _ _ hreach
    · rintro s ⟨loop, fd, rfl⟩
      exact ⟨.inl (live_created loop fd), .inr (by rw [created_eq]; exact ⟨rfl, rfl⟩)⟩
    · intro s d t ⟨hconn, htidy⟩ hstep
      refine ⟨live_or_closed_step hconn hstep, ?_⟩
      rw [(sessions_step hstep).2.2]
      exact tidy_dispatch (live_of_step hconn hstep) htidy d
  exact hboth.2

/-- A connection with nothing unsent and nothing parsed is a new connection, but
for the events that were last reported. -/
theorem notified_of_rested (hreach : (sessions service).Reachable s) (hlive : s.conn.Live)
    (hfresh : s.conn.request = .fresh) (hsent : s.conn.pending = []) (revents : Events) :
    s.notified revents =
      ((⟨(created s.conn.loop s.fd).conn, []⟩ : Session).notified revents).after s.log := by
  obtain ⟨hbuf, hcount⟩ := (tidy_of_reachable hreach).resolve_left (not_not.mpr hsent)
  have hevents : s.conn.channel.events = EPOLLIN := by
    rw [hlive.events, if_neg (Connection.pending_eq_nil_iff.mp hsent)]
  obtain ⟨⟨loop, ⟨fd, events, revents', added, callbacks⟩, request, buf, sent, closing⟩, log⟩ := s
  obtain ⟨hclosing, hregistered, hcallbacks, _, _⟩ := hlive
  dsimp only at hfresh hbuf hcount hevents hclosing hregistered hcallbacks
  subst hfresh hbuf hcount hevents hclosing hregistered hcallbacks
  simp [created_eq, notified, after, Channel.setRevents, Session.fd]

/-- A service whose callback has never been invoked. -/
theorem later_callbackCount_add (service : Service) (invocations fd : ℕ) (events : Events) :
    (service.later invocations).later (callbackCount [.epollCtl fd (.add events)]) =
      service.later invocations := by
  have hcount : callbackCount [.epollCtl fd (.add events)] = 0 := rfl
  rw [hcount]
  simp [Service.later, Function.comp_def]

/-- **A persistent connection forgets.** Whatever has happened on a connection
that is still open: when nothing is unsent and the parser has been reset, what
the server does from now on, for every sequence of events, is what it would do
on a new connection, except that the callback has been invoked before. -/
theorem persistent_connection_forgets (service : Service) (s : Session)
    (hreach : (sessions service).Reachable s) (hopen : s.conn.closing = false)
    (hfresh : s.conn.request = .fresh) (hsent : s.conn.pending = []) (d : Dispatch)
    (later : List Dispatch) :
    (sessions service).run s (d :: later) =
      ((sessions (service.later (callbackCount s.log))).run (created s.conn.loop s.fd)
        (d :: later)).map fun t => ⟨t.conn, s.log ++ t.log.drop 1⟩ := by
  have hlive : s.conn.Live := by
    rcases live_or_closed_of_reachable hreach with hlive | hclosed
    · exact hlive
    · exact absurd (hopen.symm.trans hclosed.closing) Bool.false_ne_true
  let new : Session := ⟨(created s.conn.loop s.fd).conn, []⟩
  have hcreated : created s.conn.loop s.fd = new.after [.epollCtl s.fd (.add EPOLLIN)] := by
    simp [new, created_eq, after]
  have hnotified := notified_of_rested hreach hlive hfresh hsent
  have hmay : s.conn.channel.mayReport d.revents ↔
      (new.after s.log).conn.channel.mayReport d.revents := by
    have hchannel : (s.notified 0).conn.channel = (new.notified 0).conn.channel :=
      congrArg (·.conn.channel) (hnotified 0)
    have hadded : s.conn.channel.addedToEpoll = new.conn.channel.addedToEpoll :=
      congrArg (·.addedToEpoll) hchannel
    have hevents : s.conn.channel.events = new.conn.channel.events :=
      congrArg (·.events) hchannel
    rw [Channel.mayReport, Channel.mayReport, hadded, hevents, after_conn]
  have hdispatch : s.dispatch service d = (new.after s.log).dispatch service d := by
    show (s.notified d.revents).handleEvent service d =
      ((new.after s.log).notified d.revents).handleEvent service d
    rw [hnotified]
    rfl
  have hstep : (sessions service).step s d = (sessions service).step (new.after s.log) d := by
    by_cases hboth : s.conn.channel.mayReport d.revents ∧ d.read.fits
    · have hboth' := And.intro (hmay.mp hboth.1) hboth.2
      exact (if_pos hboth).trans ((congrArg some hdispatch).trans (if_pos hboth').symm)
    · have hboth' : ¬ ((new.after s.log).conn.channel.mayReport d.revents ∧ d.read.fits) :=
        fun h => hboth ⟨hmay.mpr h.1, h.2⟩
      exact (if_neg hboth).trans (if_neg hboth').symm
  have hrun : (sessions service).run s (d :: later) =
      (sessions service).run (new.after s.log) (d :: later) := by
    rw [Machine.run_cons, Machine.run_cons, hstep]
  rw [hrun, run_after, hcreated, run_after, later_callbackCount_add, Option.map_map]
  rfl

/-- A callback whose responses say how often it has been invoked before. -/
def countingService : Service where
  order := .stored
  callback := some fun number _ resp => resp.setBody (decimal number)

/-- All fields are as they were constructed. -/
def Unparsed (r : HttpRequest) : Prop :=
  r.state = .kExpectRequestLine ∧ r.buf = [] ∧ r.method = [] ∧ r.path = [] ∧ r.version = [] ∧
    r.headers.keys = [] ∧ r.body = [] ∧ r.contentLength = 0

instance (r : HttpRequest) : Decidable (Unparsed r) :=
  inferInstanceAs (Decidable (_ ∧ _))

theorem Unparsed.eq_fresh {r : HttpRequest} (hr : Unparsed r) : r = .fresh := by
  obtain ⟨state, buf, method, path, version, headers, body, contentLength⟩ := r
  obtain ⟨rfl, rfl, rfl, rfl, rfl, hkeys, rfl, rfl⟩ := hr
  have hheaders : headers = ∅ := AList.ext (List.map_eq_nil_iff.mp hkeys)
  rw [hheaders]
  rfl

/-- The second request on a connection is answered like the first one on a new
connection of a server whose callback has been invoked once. -/
theorem persistent_connection_forgets_second :
    ∃ s : Session, callbackCount s.log = 1 ∧ ∀ d,
      (sessions countingService).run s [d] =
        ((sessions (countingService.later 1)).run (created s.conn.loop s.fd) [d]).map fun t =>
            ⟨t.conn, s.log ++ t.log.drop 1⟩ := by
  obtain ⟨s, hreach, hcount, hopen, hfresh, hsent⟩ := Machine.exists_reachable_of_run
    (M := sessions countingService) (s := created 0 7)
    (P := fun s => callbackCount s.log = 1 ∧ s.conn.closing = false ∧
      Unparsed s.conn.request ∧ s.conn.pending = []) Machine.anyStep
    [readable (literal "GET / HTTP/1.1\r\n\r\n") [.room 10], writable [.room 1000]]
    ⟨0, 7, rfl⟩ (Machine.follows_anyStep _ _) (by decide +kernel)
  refine ⟨s, hcount, fun d => ?_⟩
  have hrun := persistent_connection_forgets countingService s hreach hopen hfresh.eq_fresh hsent
    d []
  rwa [hcount] at hrun

end Session

end EpollHttpServer.Server
