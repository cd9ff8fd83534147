/-
# Where everything in a log comes from

What a connection does next is decided by fields that earlier handlers have
set.  Read off the log alone it comes to this: the parser is in the state that
the bytes read since its last reset put it in; the callback is invoked on that
request and on no other; a response is what the service says to that request,
or 400 when the last bytes were rejected; and what is written is the end of a
message that was to be sent.  This holds in every run, and so also where a
client does not wait for its responses.
-/

import EpollHttpServer.Lib.Justified
import EpollHttpServer.Server.Watched

namespace EpollHttpServer.Server

open EpollHttpServer.Lib EpollHttpServer.Http EpollHttpServer.Reactor

/-- What one more effect means to the parser. -/
def Effect.hear (heard : Bool × HttpRequest) : Effect → Bool × HttpRequest
  | .read _ (.data bytes) => if bytes = [] then heard else heard.2.parse bytes
  | .reset => (true, .fresh)
  | _ => heard

/-- The verdict on the last bytes since the last reset, and the request that all
of them have made. -/
def heard (log : List Effect) : Bool × HttpRequest :=
  log.foldl Effect.hear (true, .fresh)

/-- What is in the log before an effect accounts for it. -/
def Explains (service : Service) (fd : ℕ) (before : List Effect) : Effect → Prop
  | .read fd' _ => fd' = fd
  | .write fd' data _ => fd' = fd ∧ ∃ msg, .respond msg ∈ before ∧ data <:+ msg
  | .epollCtl fd' _ => fd' = fd
  | .close fd' => fd' = fd
  | .queueErase fd' => fd' = fd
  | .completed => (heard before).1 = true ∧ (heard before).2.gotAll = true
  | .callback request =>
    (heard before).1 = true ∧ (heard before).2 = request ∧ request.gotAll = true
  | .respond msg =>
    if (heard before).1 = true then
      (heard before).2.gotAll = true ∧
        ∃ earlier, before = earlier ++ Session.handover service (heard before).2 ∧
          msg = (service.response (callbackCount earlier) (heard before).2).toMessage service.order
    else msg = HttpResponse.badRequest.toMessage service.order
  | .reset => True

/-- An effect on the connection's own descriptor, or a reset. -/
def Effect.isRoutine (fd : ℕ) : Effect → Prop
  | .read fd' _ => fd' = fd
  | .epollCtl fd' _ => fd' = fd
  | .close fd' => fd' = fd
  | .queueErase fd' => fd' = fd
  | .reset => True
  | _ => False

theorem heard_append (first second : List Effect) :
    heard (first ++ second) = second.foldl Effect.hear (heard first) :=
  List.foldl_append ..

/-- Writing tells the parser nothing. -/
theorem heard_append_writes {fd : ℕ} {writes : List Effect} (log : List Effect)
    (hwrites : ∀ e ∈ writes, e.isWrite fd) : heard (log ++ writes) = heard log := by
  rw [heard_append]
  induction writes with
  | nil => rfl
  | cons e writes ih =>
      have hfirst : e.hear (heard log) = heard log := by
        have hwrite := hwrites e (List.mem_cons_self ..)
        cases e with
        | write => rfl
        | _ => exact hwrite.elim
      rw [List.foldl_cons, hfirst]
      exact ih fun e' he' => hwrites e' (List.mem_cons_of_mem _ he')

theorem explains_of_isRoutine {service : Service} {fd : ℕ} {before : List Effect} {e : Effect}
    (hroutine : e.isRoutine fd) : Explains service fd before e := by
  cases e with
  | read | epollCtl | close | queueErase => exact hroutine
  | reset => trivial
  | write | completed | callback | respond => exact hroutine.elim

namespace Session

variable {service : Service} {s : Session}

/-- The log is accounted for, and so is what the connection will use: the
request, and what waits to be written. -/
structure Explained (service : Service) (s : Session) : Prop where
  entries : Justified (Explains service s.fd) s.log
  request : s.conn.request = (heard s.log).2
  unsent : s.conn.writeBuf = [] ∨ ∃ msg, .respond msg ∈ s.log ∧ s.conn.writeBuf <:+ msg

/-- What waits to be written is accounted for by a longer log as well. -/
theorem Explained.unsent_append (hs : s.Explained service) (added : List Effect) :
    s.conn.writeBuf = [] ∨ ∃ msg, .respond msg ∈ s.log ++ added ∧ s.conn.writeBuf <:+ msg := by
  rcases hs.unsent with hnone | ⟨msg, hmem, hsuffix⟩
  · exact .inl hnone
  · exact .inr ⟨msg, List.mem_append_left _ hmem, hsuffix⟩

/-- Routine effects at the end of a log. -/
theorem justified_routine {log added : List Effect} {fd : ℕ}
    (hlog : Justified (Explains service fd) log) (hadded : ∀ e ∈ added, e.isRoutine fd) :
    Justified (Explains service fd) (log ++ added) :=
  hlog.append (.of_forall fun e he _ => explains_of_isRoutine (hadded e he))

theorem isRoutine_teardown (fd : ℕ) : ∀ e ∈ teardown fd, e.isRoutine fd := by
  simp [teardown, Effect.isRoutine]

/-- A message that is accounted for, and the first write of it. -/
theorem justified_tried {log : List Effect} {fd : ℕ} {msg : Bytes}
    (hlog : Justified (Explains service fd) log)
    (hmsg : Explains service fd log (.respond msg)) (result : WriteResult) :
    Justified (Explains service fd) (log ++ [.respond msg, .write fd msg result]) := by
  apply hlog.append
  apply justified_cons
  · rwa [List.append_nil]
  · apply Justified.of_forall
    simp only [List.mem_singleton, forall_eq]
    exact fun before => ⟨rfl, msg, by simp, List.suffix_refl msg⟩

theorem explained_sendResponse (hlive : s.conn.Live) (hs : s.Explained service)
    (answer : WriteAnswer) (resp : HttpResponse)
    (hmsg : Explains service s.fd s.log (.respond (resp.toMessage service.order))) :
    (s.sendResponse service answer resp).Explained service := by
  have htried := justified_tried hs.entries hmsg
    (answer.result (resp.toMessage service.order).length)
  rcases sendResponse_cases service hlive answer resp with
    ⟨_, hresult⟩ | ⟨n, hn, _, hresult⟩ | ⟨_, _, hresult⟩ | ⟨_, _, hresult⟩
  · rw [hresult]
    refine ⟨justified_routine htried (isRoutine_teardown s.fd), ?_, ?_⟩
    · simpa [heard_append, Effect.hear, teardown, Connection.remove] using hs.request
    · rw [List.append_assoc]
      exact hs.unsent_append _
  · rw [hresult]
    refine ⟨justified_routine htried (by simp [Effect.isRoutine]; rfl), ?_, .inr ?_⟩
    · simpa [heard_append, Effect.hear, Connection.buffer] using hs.request
    · exact ⟨_, by simp, List.drop_suffix n _⟩
  · rw [hresult]
    refine ⟨justified_routine htried (by simp [Effect.isRoutine]), ?_, ?_⟩
    · simp [heard_append, Effect.hear]
    · rw [List.append_assoc]
      exact hs.unsent_append _
  · rw [hresult]
    refine ⟨justified_routine htried (isRoutine_teardown s.fd), ?_, ?_⟩
    · simpa [heard_append, Effect.hear, teardown, Connection.remove] using hs.request
    · rw [List.append_assoc]
      exact hs.unsent_append _

/-- Each write of `onWrite` carries the end of what is buffered. -/
theorem justified_writes (hlive : s.conn.Live) (hs : s.Explained service) (d : Dispatch)
    {writes rest : List Effect} (hwrites : ∀ e ∈ writes, e.isWrite s.fd)
    (hlog : (s.onWrite d).log = s.log ++ (writes ++ rest)) :
    Justified (Explains service s.fd) (s.log ++ writes) := by
  refine hs.entries.append (.of_forall fun e he before => ?_)
  obtain ⟨effects, heffects, hwithin⟩ := writesWithin_onWrite s d
  have hsame : effects = writes ++ rest :=
    List.append_cancel_left (heffects.symm.trans hlog)
  have hwrite := hwrites e he
  cases e with
  | write fd data result =>
      obtain ⟨hfd, offset, length, hcall, hdata⟩ := hwithin fd data result (by
        rw [hsame]
        exact List.mem_append_left _ he)
      have hrange := hcall.in_range
      have hle := hlive.sent_le
      have hwhole : data = s.conn.writeBuf.drop offset := by
        rw [hdata, List.take_of_length_le]
        rw [List.length_drop]
        omega
      rcases hs.unsent with hnone | ⟨msg, hmem, hsuffix⟩
      · rw [hnone, List.length_nil] at hrange hle
        omega
      · refine ⟨hfd, msg, List.mem_append_left _ hmem, ?_⟩
        rw [hwhole]
        exact (List.drop_suffix offset _).trans hsuffix
  | _ => exact hwrite.elim

theorem explained_onWrite (hlive : s.conn.Live) (hs : s.Explained service) (d : Dispatch) :
    (s.onWrite d).Explained service := by
  have hsoft {writes : List Effect} (hwrites : ∀ e ∈ writes, e.isSoftWrite s.fd) :
      ∀ e ∈ writes, e.isWrite s.fd := fun e he => Effect.isWrite_of_isSoftWrite (hwrites e he)
  have hmask : (Effect.epollCtl s.fd (.mod EPOLLIN)).isRoutine s.fd := rfl
  have hjustified {writes : List Effect} (rest : List Effect)
      (hwrites : ∀ e ∈ writes, e.isWrite s.fd)
      (hlog : (s.onWrite d).log = s.log ++ (writes ++ rest)) :
      Justified (Explains service s.fd) (s.log ++ writes) :=
    justified_writes hlive hs d hwrites hlog
  rcases onWrite_cases hlive d with ⟨writes, count, _, hwrites, _, hresult⟩ |
    ⟨writes, count, _, hwrites, _, _, hresult⟩ | ⟨writes, hwrites, _, _, hresult⟩ |
    ⟨writes, hwrites, _, _, hresult⟩
  · have hlog := hjustified [] (hsoft hwrites) (by rw [hresult, List.append_nil])
    rw [hresult]
    refine ⟨hlog, ?_, hs.unsent_append _⟩
    rw [heard_append_writes s.log (hsoft hwrites)]
    exact hs.request
  · have hlog := hjustified (teardown s.fd) hwrites (by rw [hresult, List.append_assoc])
    rw [hresult]
    refine ⟨justified_routine hlog (isRoutine_teardown s.fd), ?_, ?_⟩
    · rw [heard_append, heard_append_writes s.log hwrites]
      simpa [Effect.hear, teardown, Connection.remove, Connection.advance] using hs.request
    · rw [List.append_assoc]
      exact hs.unsent_append _
  · have hlog := hjustified _ (hsoft hwrites) (by rw [hresult, List.append_assoc])
    rw [hresult]
    refine ⟨justified_routine hlog ?_, ?_, .inl rfl⟩
    · intro e he
      rcases List.mem_pair.mp he with rfl | rfl
      · exact hmask
      · trivial
    · simp [heard_append, Effect.hear]
  · have hlog := hjustified _ (hsoft hwrites) (by rw [hresult, List.append_assoc])
    rw [hresult]
    refine ⟨justified_routine hlog ?_, ?_, .inl rfl⟩
    · intro e he
      rcases List.mem_cons.mp he with rfl | hlast
      · exact hmask
      · exact isRoutine_teardown s.fd e hlast
    · rw [heard_append, heard_append_writes s.log (hsoft hwrites)]
      simpa [Effect.hear, teardown, Connection.remove, Connection.drain] using hs.request

/-- What was read and parsed is accounted for. -/
theorem explained_afterParse (hs : s.Explained service) {read : ReadResult} {request : HttpRequest}
    {notes : List Effect} (hrequest : request = (Effect.hear (heard s.log) (.read s.fd read)).2)
    (hnotes : Justified (fun before e =>
      Explains service s.fd (s.log ++ .read s.fd read :: before) e) notes)
    (hunheard : ∀ log, heard (log ++ notes) = heard log) :
    (s.afterParse read request notes).Explained service where
  entries := hs.entries.append (justified_cons rfl hnotes)
  request := by
    show request = (heard (s.log ++ .read s.fd read :: notes)).2
    rw [List.append_cons, hunheard, heard_append]
    exact hrequest
  unsent := hs.unsent_append _

theorem heard_append_completion (before request : HttpRequest) (log : List Effect) :
    heard (log ++ completion before request) = heard log := by
  unfold completion
  split <;> simp [heard_append, Effect.hear]

theorem heard_append_handover (service : Service) (request : HttpRequest) (log : List Effect) :
    heard (log ++ handover service request) = heard log := by
  unfold handover
  split <;> simp [heard_append, Effect.hear]

/-- The notes about a request that has just been completed. -/
theorem justified_notes {log : List Effect} {fd : ℕ} {before request : HttpRequest}
    (hheard : heard log = (true, request)) (hgot : request.gotAll = true) :
    Justified (fun earlier e => Explains service fd (log ++ earlier) e)
      (completion before request ++ handover service request) := by
  apply Justified.append
  · unfold completion
    split
    · refine justified_cons ?_ justified_nil
      rw [List.append_nil, Explains, hheard]
      exact ⟨rfl, hgot⟩
    · exact justified_nil
  · unfold handover
    split
    · refine justified_cons ?_ justified_nil
      rw [List.append_nil, Explains, heard_append_completion, hheard]
      exact ⟨rfl, rfl, hgot⟩
    · exact justified_nil

theorem explained_onRead (hlive : s.conn.Live) (hs : s.Explained service) (d : Dispatch) :
    (s.onRead service d).Explained service := by
  have hnothing {P : List Effect → Effect → Prop} : Justified P [] := justified_nil
  have hsame (log : List Effect) : heard (log ++ []) = heard log := by rw [List.append_nil]
  have hparse {bytes : Bytes} {parsed : Bool × HttpRequest} (hread : d.read = .data bytes)
      (hbytes : bytes ≠ []) (hparse : s.conn.request.parse bytes = parsed) :
      heard (s.log ++ [.read s.fd d.read]) = parsed := by
    rw [heard_append, List.foldl_cons, List.foldl_nil, hread, Effect.hear, if_neg hbytes,
      ← hs.request, hparse]
  generalize hresult : s.onRead service d = t
  have houtcome : ReadOutcome service d s t := hresult ▸ onRead_outcome hlive d
  cases houtcome with
  | failed errno hread =>
      refine explained_afterParse hs ?_ hnothing hsame
      rw [hread]
      exact hs.request
  | ended hread =>
      refine ⟨?_, ?_, ?_⟩
      · have hlog : Justified (Explains service s.fd) (s.log ++ [.read s.fd d.read]) :=
          justified_routine hs.entries (by simp [Effect.isRoutine])
        rw [List.append_cons]
        exact justified_routine hlog (isRoutine_teardown s.fd)
      · rw [hread]
        simpa [heard_append, Effect.hear, teardown, Connection.remove] using hs.request
      · exact hs.unsent_append _
  | waiting bytes request hread hbytes hverdict =>
      have hheard := hparse hread hbytes hverdict
      rw [heard_append] at hheard
      exact explained_afterParse hs (congrArg Prod.snd hheard.symm) hnothing hsame
  | rejected bytes request hread hbytes hverdict =>
      have hheard := hparse hread hbytes hverdict
      have hafter : (s.afterParse d.read request []).Explained service := by
        rw [heard_append] at hheard
        exact explained_afterParse hs (congrArg Prod.snd hheard.symm) hnothing hsame
      refine explained_sendResponse (live_afterParse hlive d.read request []) hafter _ _ ?_
      have hverdict' : (heard (s.afterParse d.read request []).log).1 = false :=
        congrArg Prod.fst hheard
      rw [Explains, hverdict', if_neg Bool.false_ne_true]
  | answered bytes request hread hbytes hverdict hgot =>
      have hheard := hparse hread hbytes hverdict
      have hnotes (log : List Effect) :
          heard (log ++ (completion s.conn.request request ++ handover service request)) =
            heard log := by
        rw [← List.append_assoc, heard_append_handover, heard_append_completion]
      have hafter : (s.afterParse d.read request
          (completion s.conn.request request ++ handover service request)).Explained service := by
        refine explained_afterParse hs ?_ ?_ hnotes
        · rw [heard_append] at hheard
          exact congrArg Prod.snd hheard.symm
        · have hjustified : Justified (fun earlier e =>
              Explains service s.fd (s.log ++ [.read s.fd d.read] ++ earlier) e)
                (completion s.conn.request request ++ handover service request) :=
            justified_notes hheard hgot
          simpa using hjustified
      refine explained_sendResponse (live_afterParse hlive d.read request _) hafter _ _ ?_
      have hheard' : heard (s.afterParse d.read request
          (completion s.conn.request request ++ handover service request)).log =
            (true, request) := by
        rw [afterParse, List.append_cons, hnotes, hheard]
      rw [Explains, hheard', if_pos rfl]
      refine ⟨hgot, s.log ++ .read s.fd d.read :: completion s.conn.request request, ?_, ?_⟩
      · simp [afterParse]
      · have hcount := callbackCount_completion s d.read request
        rw [afterParse] at hcount
        rw [hcount]
        rfl

/-- The step lemma. -/
theorem explained_dispatch (hlive : s.conn.Live) (hs : s.Explained service) (d : Dispatch) :
    (s.dispatch service d).Explained service := by
  have hlive' : (s.notified d.revents).conn.Live := hlive.withRevents d.revents
  have hs' : (s.notified d.revents).Explained service := ⟨hs.entries, hs.request, hs.unsent⟩
  rw [dispatch_eq]
  cases s.selects d with
  | none => exact hs'
  | some selected =>
      cases selected with
      | write => exact explained_onWrite hlive' hs' d
      | read => exact explained_onRead hlive' hs' d
      | close =>
          show (s.notified d.revents).removeConnection.Explained service
          rw [removeConnection_of_live hlive'.notClosing hlive'.registered]
          refine ⟨justified_routine hs'.entries (isRoutine_teardown _), ?_, ?_⟩
          · simpa [heard_append, Effect.hear, teardown, Connection.remove] using hs'.request
          · exact hs'.unsent_append _
      | error => exact hs'

/-- The run lemma. -/
theorem explained_of_reachable (hreach : (sessions service).Reachable s) :
    s.Explained service := by
  have hboth : (s.conn.Live ∨ s.conn.Closed) ∧ s.Explained service := by
    apply Machine.Reachable.invariant
      (I := fun s : Session => (s.conn.Live ∨ s.conn.Closed) ∧ s.Explained service) _ _ hreach
    · rintro s ⟨loop, fd, rfl⟩
      refine ⟨.inl (live_created loop fd), ?_⟩
      rw [created_eq]
      have hadded : ∀ e ∈ [Effect.epollCtl fd (.add EPOLLIN)], e.isRoutine fd := by
        simp [Effect.isRoutine]
      exact ⟨justified_routine justified_nil hadded, rfl, .inl rfl⟩
    · intro s d t ⟨hconn, hs⟩ hstep
      refine ⟨live_or_closed_step hconn hstep, ?_⟩
      rw [(sessions_step hstep).2.2]
      exact explained_dispatch (live_of_step hconn hstep) hs d
  exact hboth.2

/-- **Everything in a log is accounted for.** In every run of a connection,
whatever the client sends and whenever, every effect is explained by those
before it: system calls are made on the connection's own descriptor; a request
that is completed, and handed to the callback, is what the bytes read since the
last reset have made; a response is what the service says to that request after
so many invocations, or 400 if the last bytes were rejected; and every write
carries the end of a message given to `sendResponse` earlier. -/
theorem log_accounted_for (service : Service) (s : Session)
    (hreach : (sessions service).Reachable s) :
    s.conn.request = (heard s.log).2 ∧
      ∀ before e after, s.log = before ++ e :: after → Explains service s.fd before e :=
  ⟨(explained_of_reachable hreach).request, (explained_of_reachable hreach).entries⟩

/-- A request of which the second half comes after a pause, and a response that
is written in two pieces. -/
theorem log_accounted_for_get :
    ∃ s : Session, (heard s.log).2.gotAll = true ∧ s.log.length = 7 ∧
      s.conn.request = (heard s.log).2 ∧
      ∀ before e after, s.log = before ++ e :: after → Explains plainService 7 before e := by
  obtain ⟨s, hreach, hgot, hlength, hfd⟩ := Machine.exists_reachable_of_run
    (M := sessions plainService) (s := created 0 7)
    (P := fun s => (heard s.log).2.gotAll = true ∧ s.log.length = 7 ∧ s.fd = 7) Machine.anyStep
    [readable (literal "GET / HTTP/1.1\r\n") [], readable (literal "\r\n") [.room 10]]
    ⟨0, 7, rfl⟩ (Machine.follows_anyStep _ _) (by decide +kernel)
  have hlog := log_accounted_for plainService s hreach
  rw [hfd] at hlog
  exact ⟨s, hgot, hlength, hlog⟩

end Session

end EpollHttpServer.Server
