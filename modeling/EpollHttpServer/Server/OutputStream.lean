/-
# The stream of bytes to the client

`sendResponse` writes to the socket at once and buffers what is left over, and
reading stays enabled while bytes are buffered.  As long as no response is
given to `sendResponse` while bytes are unsent, the kernel receives the
messages one after another: the stream is in order and owes exactly what is
buffered.  A response that is sent earlier overtakes the buffered bytes and
then takes their place.
-/

import EpollHttpServer.Server.Outcomes

namespace EpollHttpServer.Server

open EpollHttpServer.Lib EpollHttpServer.Http EpollHttpServer.Reactor

/-- What was read makes `onRead` respond: it is rejected, or the request is
complete after it. -/
def ReadResult.asksResponse (request : HttpRequest) : ReadResult → Prop
  | .data (b :: bytes) =>
    (request.parse (b :: bytes)).1 = false ∨ (request.parse (b :: bytes)).2.gotAll = true
  | _ => False

theorem asksResponse_of_data {read : ReadResult} {request : HttpRequest} {bytes : Bytes}
    (hread : read = .data bytes) (hbytes : bytes ≠ [])
    (hasks : (request.parse bytes).1 = false ∨ (request.parse bytes).2.gotAll = true) :
    read.asksResponse request := by
  obtain ⟨b, rest, rfl⟩ := List.exists_cons_of_ne_nil hbytes
  rw [hread]
  exact hasks

instance (request : HttpRequest) (read : ReadResult) : Decidable (read.asksResponse request) :=
  match read with
  | .data (_ :: _) => inferInstanceAs (Decidable (_ ∨ _))
  | .data [] => .isFalse id
  | .error _ => .isFalse id

namespace Session

/-- The dispatch leads to a call of `sendResponse`. -/
def responds (s : Session) (d : Dispatch) : Prop :=
  s.selects d = some .read ∧ d.read.asksResponse s.conn.request

instance (s : Session) (d : Dispatch) : Decidable (s.responds d) :=
  inferInstanceAs (Decidable (_ ∧ _))

/-- No response is given to `sendResponse` while bytes are unsent. -/
def respondsWhenDrained : Machine.Discipline Session Dispatch := fun s d =>
  s.responds d → s.conn.pending = []

instance (s : Session) (d : Dispatch) : Decidable (respondsWhenDrained s d) :=
  inferInstanceAs (Decidable (_ → _))

/-- The stream is in order, and a live connection has buffered what it owes. -/
def Intact (s : Session) : Prop :=
  ∃ rest, output.Owes s.log rest ∧ (s.conn.Live → s.conn.pending = rest)

variable {s : Session} {service : Service}

theorem not_live_remove (c : Connection) : ¬ c.remove.Live := fun hlive => by
  have hclosing := hlive.notClosing
  simp [Connection.remove] at hclosing

/-- What `sendResponse` leaves to be delivered of its message. -/
def unsentOf (answer : WriteAnswer) (msg : Bytes) : Bytes :=
  msg.drop ((sentCount answer msg.length).getD 0)

variable (service) in
/-- A response to a client that has received everything so far. -/
theorem owes_sendResponse (hlive : s.conn.Live) (howes : output.Owes s.log [])
    (answer : WriteAnswer) (resp : HttpResponse) :
    output.Owes (s.sendResponse service answer resp).log
      (unsentOf answer (resp.toMessage service.order)) := by
  let msg := resp.toMessage service.order
  let write : Effect := .write s.fd msg (answer.result msg.length)
  have hpromise : output.Owes (s.log ++ [.respond msg]) msg :=
    howes.promise (e := .respond msg) rfl
  have htaken : write.takenBytes ++ unsentOf answer msg = msg := by
    show (answer.result msg.length).taken msg ++ unsentOf answer msg = msg
    unfold unsentOf
    cases hsent : sentCount answer msg.length with
    | none =>
        obtain ⟨errno, rfl, _⟩ := sentCount_eq_none hsent
        rfl
    | some n =>
        rw [(sentCount_spec hsent).2]
        exact List.take_append_drop n msg
  have hshape (rest : List Effect) (hrest : takenBytes rest = []) (hsilent : messages rest = []) :
      output.Owes (s.log ++ [.respond msg, write] ++ rest) (unsentOf answer msg) := by
    rw [List.append_cons s.log, List.append_assoc]
    apply hpromise.deliver
    · exact hsilent
    · show (write.takenBytes ++ takenBytes rest) ++ unsentOf answer msg = msg
      rw [hrest, List.append_nil, htaken]
  rcases sendResponse_cases service hlive answer resp with
    ⟨_, hresult⟩ | ⟨_, _, _, hresult⟩ | ⟨_, _, hresult⟩ | ⟨_, _, hresult⟩
  · rw [hresult]
    exact hshape _ rfl rfl
  · rw [hresult]
    exact hshape _ rfl rfl
  · rw [hresult]
    exact hshape _ rfl rfl
  · rw [hresult]
    exact hshape _ rfl rfl

theorem unsentOf_of_all {answer : WriteAnswer} {msg : Bytes}
    (hsent : sentCount answer msg.length = some msg.length) : unsentOf answer msg = [] := by
  rw [unsentOf, hsent]
  exact List.drop_length

theorem intact_sendResponse (hlive : s.conn.Live) (hdrained : s.conn.pending = [])
    (howes : output.Owes s.log []) (answer : WriteAnswer) (resp : HttpResponse) :
    (s.sendResponse service answer resp).Intact := by
  refine ⟨_, owes_sendResponse service hlive howes answer resp, fun hlive' => ?_⟩
  rcases sendResponse_cases service hlive answer resp with
    ⟨_, hresult⟩ | ⟨n, _, hsent, hresult⟩ | ⟨hsent, _, hresult⟩ | ⟨_, _, hresult⟩
  · rw [hresult] at hlive'
    exact absurd hlive' (not_live_remove _)
  · rw [hresult, unsentOf, hsent]
    rfl
  · rw [hresult, unsentOf_of_all hsent]
    exact hdrained
  · rw [hresult] at hlive'
    exact absurd hlive' (not_live_remove _)

/-- Writes of what is owed, followed by effects that do not concern the stream. -/
theorem owes_writes {log writes rest : List Effect} {fd : ℕ} {owed left : Bytes}
    (howes : output.Owes log owed) (hwrites : ∀ e ∈ writes, e.isWrite fd)
    (htaken : takenBytes writes ++ left = owed) (hrest : takenBytes rest = [])
    (hsilent : messages rest = []) : output.Owes (log ++ (writes ++ rest)) left := by
  apply howes.deliver
  · show messages (writes ++ rest) = []
    rw [messages_append, messages_of_isWrite hwrites, hsilent, List.append_nil]
  · show takenBytes (writes ++ rest) ++ left = owed
    rw [takenBytes_append, hrest, List.append_nil, htaken]

/-- Sending what is buffered. -/
theorem intact_onWrite (hlive : s.conn.Live) (howes : output.Owes s.log s.conn.pending)
    (d : Dispatch) : (s.onWrite d).Intact := by
  have hweaken {writes : List Effect} (hsoft : ∀ e ∈ writes, e.isSoftWrite s.fd) :
      ∀ e ∈ writes, e.isWrite s.fd :=
    fun e he => Effect.isWrite_of_isSoftWrite (hsoft e he)
  have hsome {taken : Bytes} {count : ℕ} (htaken : taken = s.conn.pending.take count) :
      taken ++ s.conn.pending.drop count = s.conn.pending := by
    rw [htaken, List.take_append_drop]
  have hall {taken : Bytes} (htaken : taken = s.conn.pending) :
      taken ++ [] = s.conn.pending := by
    rw [htaken, List.append_nil]
  rcases onWrite_cases hlive d with ⟨writes, count, _, hsoft, htaken, hresult⟩ |
    ⟨writes, count, _, hwrites, htaken, _, hresult⟩ | ⟨writes, hsoft, htaken, _, hresult⟩ |
    ⟨writes, hsoft, htaken, _, hresult⟩
  · have howes' := owes_writes howes (hweaken hsoft) (hsome htaken) takenBytes_nil messages_nil
    rw [List.append_nil] at howes'
    rw [hresult]
    exact ⟨_, howes', fun _ => s.conn.pending_advance count⟩
  · rw [hresult, List.append_assoc]
    exact ⟨_, owes_writes howes hwrites (hsome htaken) rfl rfl,
      fun hlive' => absurd hlive' (not_live_remove _)⟩
  · rw [hresult, List.append_assoc]
    exact ⟨_, owes_writes howes (hweaken hsoft) (hall htaken) rfl rfl, fun _ => rfl⟩
  · rw [hresult, List.append_assoc]
    exact ⟨_, owes_writes howes (hweaken hsoft) (hall htaken) rfl rfl,
      fun hlive' => absurd hlive' (not_live_remove _)⟩

/-- What has been read and stored does not concern the stream. -/
theorem owes_afterParse {rest : Bytes} (howes : output.Owes s.log rest) (read : ReadResult)
    (request : HttpRequest) {notes : List Effect} (htaken : takenBytes notes = [])
    (hsilent : messages notes = []) : output.Owes (s.afterParse read request notes).log rest :=
  howes.silent hsilent htaken

theorem takenBytes_notes (service : Service) (before after : HttpRequest) :
    takenBytes (completion before after ++ handover service after) = [] ∧
      messages (completion before after ++ handover service after) = [] := by
  unfold completion handover
  split <;> split <;> exact ⟨rfl, rfl⟩

theorem intact_onRead (hlive : s.conn.Live) (howes : output.Owes s.log s.conn.pending)
    (d : Dispatch) (hdrained : d.read.asksResponse s.conn.request → s.conn.pending = []) :
    (s.onRead service d).Intact := by
  generalize hresult : s.onRead service d = t
  have houtcome : ReadOutcome service d s t := hresult ▸ onRead_outcome hlive d
  cases houtcome with
  | failed errno hread =>
      exact ⟨_, owes_afterParse howes d.read _ rfl rfl, fun _ => rfl⟩
  | ended hread =>
      exact ⟨_, howes.silent rfl rfl, fun hlive' => absurd hlive' (not_live_remove _)⟩
  | waiting bytes request hread hbytes hparse hgot =>
      exact ⟨_, owes_afterParse howes d.read _ rfl rfl, fun _ => rfl⟩
  | rejected bytes request hread hbytes hparse =>
      have hasks := asksResponse_of_data hread hbytes (.inl (by rw [hparse]))
      have hnone := hdrained hasks
      rw [hnone] at howes
      apply intact_sendResponse
      · exact live_afterParse hlive ..
      · exact hnone
      · exact owes_afterParse howes d.read request rfl rfl
  | answered bytes request hread hbytes hparse hgot =>
      have hasks := asksResponse_of_data hread hbytes (.inr (by rw [hparse]; exact hgot))
      have hnone := hdrained hasks
      have hnotes := takenBytes_notes service s.conn.request request
      rw [hnone] at howes
      apply intact_sendResponse
      · exact live_afterParse hlive ..
      · exact hnone
      · exact owes_afterParse howes d.read request hnotes.1 hnotes.2

/-- The step lemma: a dispatch that responds only when nothing is unsent keeps
the stream intact. -/
theorem intact_dispatch (hlive : s.conn.Live) (hintact : s.Intact) (d : Dispatch)
    (hdrained : s.respondsWhenDrained d) : (s.dispatch service d).Intact := by
  obtain ⟨rest, howes, hrest⟩ := hintact
  rw [← hrest hlive] at howes
  have hlive' : (s.notified d.revents).conn.Live := hlive.withRevents d.revents
  have howes' : output.Owes (s.notified d.revents).log (s.notified d.revents).conn.pending := howes
  have hidle : (s.notified d.revents).Intact := ⟨_, howes', fun _ => rfl⟩
  rw [dispatch_eq]
  cases hselects : s.selects d with
  | none => exact hidle
  | some selected =>
      cases selected with
      | write => exact intact_onWrite hlive' howes' d
      | read =>
          apply intact_onRead hlive' howes' d
          intro hasks
          exact hdrained ⟨hselects, hasks⟩
      | close =>
          show (s.notified d.revents).removeConnection.Intact
          rw [removeConnection_of_live hlive'.notClosing hlive'.registered]
          exact ⟨_, howes'.silent rfl rfl, fun hlive'' => absurd hlive'' (not_live_remove _)⟩
      | error => exact hidle

theorem intact_created (loop fd : ℕ) : (created loop fd).Intact := by
  rw [created_eq]
  exact ⟨[], Ledger.owes_nil.silent rfl rfl, fun _ => rfl⟩

/-- The run lemma. -/
theorem intact_of_reachable (hreach : (sessions service).ReachableWhere respondsWhenDrained s) :
    (s.conn.Live ∨ s.conn.Closed) ∧ s.Intact := by
  apply Machine.ReachableWhere.invariant
    (I := fun s : Session => (s.conn.Live ∨ s.conn.Closed) ∧ s.Intact) _ _ hreach
  · rintro s ⟨loop, fd, rfl⟩
    exact ⟨.inl (live_created loop fd), intact_created loop fd⟩
  · intro s d t ⟨hconn, hintact⟩ hdrained hstep
    refine ⟨live_or_closed_step hconn hstep, ?_⟩
    rw [(sessions_step hstep).2.2]
    exact intact_dispatch (live_of_step hconn hstep) hintact d hdrained

/-- **The stream is intact as long as responses wait for their turn.** In every
run in which no response is given to `sendResponse` while bytes are unsent, the
bytes that the kernel has accepted are at every moment the beginning of the
messages of the responses given to `sendResponse`. -/
theorem output_in_order (service : Service) (s : Session)
    (hreach : (sessions service).ReachableWhere respondsWhenDrained s) :
    ∀ moment, moment <+: s.log → takenBytes moment <+: messages moment := by
  obtain ⟨rest, howes, _⟩ := (intact_of_reachable hreach).2
  exact howes.inOrder

/-- Without a callback every request is answered with `"OK\n"`. -/
def plainService : Service where
  order := .stored
  callback := none

/-- A readable connection, the bytes read from it and the answers to writes. -/
def readable (bytes : Bytes) (writes : List WriteAnswer) : Dispatch where
  revents := EPOLLIN
  read := .data bytes
  writes := writes

/-- A writable connection and the answers to writes. -/
def writable (writes : List WriteAnswer) : Dispatch where
  revents := EPOLLOUT
  read := .error EAGAIN
  writes := writes

/-- A response of which a part has been sent in two pieces. -/
theorem output_in_order_two_pieces :
    ∃ s : Session, (takenBytes s.log).length = 30 ∧ s.conn.pending ≠ [] ∧
      takenBytes s.log <+: messages s.log := by
  obtain ⟨s, hreach, hlength, hpending⟩ := Machine.exists_reachable_of_run
    (M := sessions plainService) (s := created 0 7)
    (P := fun s => (takenBytes s.log).length = 30 ∧ s.conn.pending ≠ []) respondsWhenDrained
    [readable (literal "GET / HTTP/1.1\r\n\r\n") [.room 10], writable [.room 20, .fail EAGAIN]]
    ⟨0, 7, rfl⟩ (by decide +kernel) (by decide +kernel)
  exact ⟨s, hlength, hpending, output_in_order plainService s hreach s.log (List.prefix_refl _)⟩

/-- The response to a request that arrives while bytes are unsent overtakes
them. -/
theorem output_overtaken : ¬ ∀ (service : Service) (s : Session),
    (sessions service).Reachable s →
      ∀ moment, moment <+: s.log → takenBytes moment <+: messages moment := by
  intro hall
  obtain ⟨s, hreach, hbad⟩ := Machine.exists_reachable_of_run
    (M := sessions plainService) (s := created 0 7)
    (P := fun s => ¬ takenBytes s.log <+: messages s.log) Machine.anyStep
    [readable (literal "GET / HTTP/1.1\r\n\r\n") [.room 10],
      readable (literal "GET / HTTP/1.1\r\n\r\n") [.room 100]]
    ⟨0, 7, rfl⟩ (Machine.follows_anyStep _ _) (by decide +kernel)
  exact hbad (hall plainService s hreach s.log (List.prefix_refl _))

end Session

end EpollHttpServer.Server
