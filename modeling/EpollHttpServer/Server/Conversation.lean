/-
# Serving a client that does not pipeline

A conversation is a list of requests that the client sends one after another,
each only when the response to the one before has arrived.  Whatever the pieces
in which the requests are read and the responses are written, the connection is
in one of three phases: it receives a request, it sends a response, or it has
sent the last one and is closed.  The phase says everything about the log, and
every dispatch of the conversation leads from phase to phase.
-/

import EpollHttpServer.Http.CompleteRequest
import EpollHttpServer.Server.OutputStream

namespace EpollHttpServer.Server

open EpollHttpServer.Lib EpollHttpServer.Http EpollHttpServer.Reactor

/-! ## What the two sides have exchanged -/

/-- The bytes that an effect has read. -/
def Effect.readBytes : Effect → Bytes
  | .read _ (.data bytes) => bytes
  | _ => []

/-- The request that an effect invokes the callback on. -/
def Effect.invocation : Effect → Option HttpRequest
  | .callback request => some request
  | _ => none

/-- The message that an effect passes to the client. -/
def Effect.response : Effect → Option Bytes
  | .respond msg => some msg
  | _ => none

/-- The bytes that have been read. -/
def received (log : List Effect) : Bytes :=
  log.flatMap Effect.readBytes

/-- The requests that the callback has been invoked on. -/
def invoked (log : List Effect) : List HttpRequest :=
  log.filterMap Effect.invocation

/-- The messages of the responses given to `sendResponse`, one by one. -/
def responses (log : List Effect) : List Bytes :=
  log.filterMap Effect.response

/-- An effect that exchanges nothing with the client and the callback. -/
structure Effect.isInternal (e : Effect) : Prop where
  readBytes : e.readBytes = []
  invocation : e.invocation = none
  response : e.response = none

theorem messages_eq_flatten (log : List Effect) : messages log = (responses log).flatten := by
  induction log with
  | nil => rfl
  | cons e log ih =>
      rw [messages_cons, ih]
      cases e <;> rfl

theorem callbackCount_eq_length (log : List Effect) :
    callbackCount log = (invoked log).length := by
  induction log with
  | nil => rfl
  | cons e log ih =>
      rw [callbackCount, List.countP_cons, ← callbackCount, ih]
      cases e <;> rfl

/-- The bytes of some requests. -/
def allBytes (requests : List CompleteRequest) : Bytes :=
  requests.flatMap CompleteRequest.bytes

/-- The message with which each request is answered. -/
def expected (service : Service) (requests : List CompleteRequest) : List Bytes :=
  requests.mapIdx fun i r => (service.response i r.request).toMessage service.order

/-- The requests that lie completely within the first `count` bytes. -/
def completelyReceived : List CompleteRequest → ℕ → List CompleteRequest
  | [], _ => []
  | r :: requests, count =>
    if r.bytes.length ≤ count then r :: completelyReceived requests (count - r.bytes.length)
    else []

/-- The last byte of the `i`-th response has been accepted by the kernel. -/
def answered (log : List Effect) (i : ℕ) : Prop :=
  i ≤ (responses log).length ∧ ((responses log).take i).flatten.length ≤ (takenBytes log).length

instance (log : List Effect) (i : ℕ) : Decidable (answered log i) :=
  inferInstanceAs (Decidable (_ ∧ _))

/-- A read that the client allows: there is nothing to read, or the next bytes
of the conversation, where no byte of a request is there before the request in
front of it has been answered. -/
def ReadResult.inTurn (requests : List CompleteRequest) (log : List Effect) : ReadResult → Prop
  | .error errno => errno = EAGAIN
  | .data bytes =>
    bytes ≠ [] ∧ received log ++ bytes <+: allBytes requests ∧
      ∀ i < requests.length,
        (allBytes (requests.take i)).length < (received log ++ bytes).length → answered log i

instance (requests : List CompleteRequest) (log : List Effect) (read : ReadResult) :
    Decidable (read.inTurn requests log) :=
  match read with
  | .error errno => inferInstanceAs (Decidable (errno = EAGAIN))
  | .data _ => inferInstanceAs (Decidable (_ ∧ _ ∧ ∀ i < _, _ → _))

/-- Requests that all keep the connection, except perhaps the last. -/
structure Conversation where
  requests : List CompleteRequest
  keepAlive : ∀ r ∈ requests.dropLast, r.request.keepAlive = true

namespace Session

/-- Steps of a conversation: the connection is readable or writable, reads are
in the client's turn, and each write takes at least one byte or finds the
socket buffer full. -/
def conversing (requests : List CompleteRequest) : Machine.Discipline Session Dispatch :=
  fun s d => d.revents &&& ~~~(EPOLLIN ||| EPOLLOUT) = 0 ∧ (∀ answer ∈ d.writes, answer.isSoft) ∧
    (s.selects d = some .read → d.read.inTurn requests s.log)

instance (requests : List CompleteRequest) (s : Session) (d : Dispatch) :
    Decidable (conversing requests s d) :=
  inferInstanceAs (Decidable (_ ∧ _ ∧ _))

/-- What has been achieved when the requests `done` have been answered and
`part` of the next one has arrived. -/
structure Progress (service : Service) (done : List CompleteRequest) (part : Bytes)
    (log : List Effect) : Prop where
  received : received log = allBytes done ++ part
  invoked : invoked log = done.map CompleteRequest.request
  responses : responses log = expected service done

/-- What the client sends next. -/
def next : List CompleteRequest → Bytes
  | [] => []
  | r :: _ => r.bytes

/-- Where the connection is in the conversation. -/
inductive Phase (service : Service) (requests : List CompleteRequest) (s : Session) : Prop where
  | /-- A request is being received. -/
    receiving (done todo : List CompleteRequest) (part : Bytes) (hsplit : requests = done ++ todo)
      (hprogress : Progress service done part s.log) (hlive : s.conn.Live)
      (howes : output.Owes s.log []) (hdrained : s.conn.pending = [])
      (hpart : part <+: next todo)
      (hparse : HttpRequest.fresh.parse part = (true, s.conn.request))
      (hgot : s.conn.request.gotAll = false)
      (hkept : ∀ r ∈ done, r.request.keepAlive = true)
  | /-- A response is being sent. -/
    sending (done todo : List CompleteRequest) (r : CompleteRequest)
      (hsplit : requests = done ++ [r] ++ todo)
      (hprogress : Progress service (done ++ [r]) [] s.log) (hlive : s.conn.Live)
      (howes : output.Owes s.log s.conn.pending) (hrest : s.conn.pending ≠ [])
      (hrequest : s.conn.request = r.request)
      (hkept : ∀ r ∈ done, r.request.keepAlive = true)
  | /-- The last response is out and the connection is closed. -/
    finished (done : List CompleteRequest) (r : CompleteRequest)
      (hsplit : requests = done ++ [r]) (hprogress : Progress service (done ++ [r]) [] s.log)
      (hclosed : s.conn.Closed) (howes : output.Owes s.log []) (hdrained : s.conn.pending = [])
      (hclose : r.request.keepAlive = false)

variable {service : Service} {done : List CompleteRequest} {part : Bytes} {log added : List Effect}

theorem received_append (first second : List Effect) :
    received (first ++ second) = received first ++ received second :=
  List.flatMap_append

theorem invoked_append (first second : List Effect) :
    invoked (first ++ second) = invoked first ++ invoked second :=
  List.filterMap_append

theorem responses_append (first second : List Effect) :
    responses (first ++ second) = responses first ++ responses second :=
  List.filterMap_append

theorem allBytes_append (first second : List CompleteRequest) :
    allBytes (first ++ second) = allBytes first ++ allBytes second :=
  List.flatMap_append

theorem allBytes_concat (done : List CompleteRequest) (r : CompleteRequest) :
    allBytes (done ++ [r]) = allBytes done ++ r.bytes := by
  rw [allBytes_append]
  show _ ++ (r.bytes ++ []) = _
  rw [List.append_nil]

theorem expected_concat (service : Service) (done : List CompleteRequest) (r : CompleteRequest) :
    expected service (done ++ [r]) = expected service done ++
      [(service.response done.length r.request).toMessage service.order] :=
  List.mapIdx_concat

/-- Effects that exchange nothing leave the progress as it is. -/
theorem Progress.internal (hprogress : Progress service done part log)
    (hinternal : ∀ e ∈ added, e.isInternal) : Progress service done part (log ++ added) := by
  have hreceived : Server.received added = [] :=
    List.flatMap_eq_nil_iff.mpr fun e he => (hinternal e he).readBytes
  have hinvoked : Server.invoked added = [] :=
    List.filterMap_eq_nil_iff.mpr fun e he => (hinternal e he).invocation
  have hresponses : Server.responses added = [] :=
    List.filterMap_eq_nil_iff.mpr fun e he => (hinternal e he).response
  constructor
  · rw [received_append, hreceived, List.append_nil, hprogress.received]
  · rw [invoked_append, hinvoked, List.append_nil, hprogress.invoked]
  · rw [responses_append, hresponses, List.append_nil, hprogress.responses]

/-- The next piece of a request has been read. -/
theorem Progress.read (hprogress : Progress service done part log) (fd : ℕ) (bytes : Bytes) :
    Progress service done (part ++ bytes) (log ++ [.read fd (.data bytes)]) := by
  constructor
  · rw [received_append, hprogress.received, List.append_assoc]
    show _ ++ (part ++ (bytes ++ [])) = _
    rw [List.append_nil]
  · rw [invoked_append, hprogress.invoked]
    exact List.append_nil _
  · rw [responses_append, hprogress.responses]
    exact List.append_nil _

/-- A request that has arrived completely has been handed over and answered. -/
theorem Progress.answer {r : CompleteRequest} (hprogress : Progress service done r.bytes log) :
    Progress service (done ++ [r]) [] (log ++ [.callback r.request,
      .respond ((service.response done.length r.request).toMessage service.order)]) := by
  constructor
  · rw [received_append, hprogress.received, allBytes_concat]
    rfl
  · rw [invoked_append, hprogress.invoked, List.map_append]
    rfl
  · rw [responses_append, hprogress.responses, expected_concat]
    rfl

theorem isInternal_of_isWrite {fd : ℕ} {e : Effect} (hwrite : e.isWrite fd) : e.isInternal := by
  cases e with
  | write => exact ⟨rfl, rfl, rfl⟩
  | _ => exact hwrite.elim

theorem isInternal_teardown (fd : ℕ) : ∀ e ∈ teardown fd, e.isInternal := by
  intro e he
  simp only [teardown, List.mem_cons, List.not_mem_nil, or_false] at he
  rcases he with rfl | rfl | rfl <;> exact ⟨rfl, rfl, rfl⟩

/-! ## The phases of a conversation -/

variable {c : Conversation} {todo : List CompleteRequest} {r : CompleteRequest} {s : Session}

/-- Only the last request may close the connection. -/
theorem todo_eq_nil (hsplit : c.requests = done ++ [r] ++ todo)
    (hclose : r.request.keepAlive = false) : todo = [] := by
  by_contra htodo
  have hmem : r ∈ c.requests.dropLast := by
    rw [hsplit, List.dropLast_append_of_ne_nil htodo]
    simp
  exact absurd (hclose.symm.trans (c.keepAlive r hmem)) Bool.false_ne_true

/-- The connection when a response is out and the request keeps it. -/
theorem phase_of_kept (hsplit : c.requests = done ++ [r] ++ todo)
    (hprogress : Progress service (done ++ [r]) [] s.log) (hlive : s.conn.Live)
    (howes : output.Owes s.log []) (hdrained : s.conn.pending = [])
    (hrequest : s.conn.request = .fresh) (hkeep : r.request.keepAlive = true)
    (hkept : ∀ r ∈ done, r.request.keepAlive = true) : Phase service c.requests s := by
  apply Phase.receiving (done ++ [r]) todo [] hsplit hprogress hlive howes hdrained
  · exact List.nil_prefix
  · rw [hrequest]
    exact HttpRequest.run_fresh
  · rw [hrequest]
    rfl
  · intro r' hr'
    rcases List.mem_append.mp hr' with hdone | hlast
    · exact hkept r' hdone
    · rw [List.mem_singleton.mp hlast]
      exact hkeep

/-- The connection when a response is out and the request closes it. -/
theorem phase_of_closed (hsplit : c.requests = done ++ [r] ++ todo)
    (hprogress : Progress service (done ++ [r]) [] s.log) (hclosed : s.conn.Closed)
    (howes : output.Owes s.log []) (hdrained : s.conn.pending = [])
    (hclose : r.request.keepAlive = false) : Phase service c.requests s := by
  have htodo := todo_eq_nil hsplit hclose
  rw [htodo, List.append_nil] at hsplit
  exact .finished done r hsplit hprogress hclosed howes hdrained hclose

theorem sentCount_of_isSoft {answer : WriteAnswer} (hsoft : answer.isSoft) (length : ℕ) :
    sentCount answer length ≠ none := by
  intro hnone
  obtain ⟨errno, rfl, hhard⟩ := sentCount_eq_none hnone
  exact hhard hsoft

/-- Responding to a request that has arrived completely. -/
theorem phase_sendResponse (hsplit : c.requests = done ++ [r] ++ todo)
    (hprogress : Progress service (done ++ [r]) [] (s.log ++
      [.respond ((service.response done.length r.request).toMessage service.order)]))
    (hlive : s.conn.Live) (howes : output.Owes s.log []) (hdrained : s.conn.pending = [])
    (hrequest : s.conn.request = r.request)
    (hkept : ∀ r ∈ done, r.request.keepAlive = true) {answer : WriteAnswer}
    (hsoft : answer.isSoft) :
    Phase service c.requests
      (s.sendResponse service answer (service.response done.length r.request)) := by
  let resp := service.response done.length r.request
  let write : Effect := .write s.fd (resp.toMessage service.order)
    (answer.result (resp.toMessage service.order).length)
  have howes' := owes_sendResponse service hlive howes answer resp
  have hprogress' {rest : List Effect} (hrest : ∀ e ∈ rest, e.isInternal) :
      Progress service (done ++ [r]) []
        (s.log ++ [.respond (resp.toMessage service.order), write] ++ rest) := by
    rw [List.append_cons s.log, List.append_assoc]
    apply hprogress.internal
    intro e he
    rcases List.mem_cons.mp he with rfl | he
    · exact isInternal_of_isWrite (show write.isWrite s.fd from rfl)
    · exact hrest e he
  have hcases := sendResponse_cases service hlive answer resp
  generalize s.sendResponse service answer resp = t at howes' hcases ⊢
  rcases hcases with ⟨hnone, _⟩ | ⟨n, hn, hsent, rfl⟩ | ⟨hsent, hkeep, rfl⟩ | ⟨hsent, hclose, rfl⟩
  · exact absurd hnone (sentCount_of_isSoft hsoft _)
  · have hrest : (resp.toMessage service.order).drop n ≠ [] := by
      rw [Ne, List.drop_eq_nil_iff, not_le]
      exact hn
    rw [unsentOf, hsent] at howes'
    apply Phase.sending done todo r hsplit
    · exact hprogress' (by simpa using ⟨rfl, rfl, rfl⟩)
    · exact hlive.buffer hrest
    · exact howes'
    · exact hrest
    · exact hrequest
    · exact hkept
  · rw [unsentOf_of_all hsent] at howes'
    apply phase_of_kept hsplit
    · exact hprogress' (by simpa using ⟨rfl, rfl, rfl⟩)
    · exact hlive.withRequest _
    · exact howes'
    · exact hdrained
    · exact rfl
    · exact hkeep
    · exact hkept
  · rw [unsentOf_of_all hsent] at howes'
    apply phase_of_closed hsplit
    · exact hprogress' (isInternal_teardown s.fd)
    · exact Connection.closed_remove _
    · exact howes'
    · exact hdrained
    · exact hclose

/-- Sending more of a response. -/
theorem phase_onWrite (hsplit : c.requests = done ++ [r] ++ todo)
    (hprogress : Progress service (done ++ [r]) [] s.log) (hlive : s.conn.Live)
    (howes : output.Owes s.log s.conn.pending) (hrequest : s.conn.request = r.request)
    (hkept : ∀ r ∈ done, r.request.keepAlive = true) {d : Dispatch}
    (hsoft : ∀ answer ∈ d.writes, answer.isSoft) : Phase service c.requests (s.onWrite d) := by
  have hweaken {writes : List Effect} (hwrites : ∀ e ∈ writes, e.isSoftWrite s.fd) :
      ∀ e ∈ writes, e.isWrite s.fd :=
    fun e he => Effect.isWrite_of_isSoftWrite (hwrites e he)
  have hprogress' {writes rest : List Effect} (hwrites : ∀ e ∈ writes, e.isSoftWrite s.fd)
      (hrest : ∀ e ∈ rest, e.isInternal) :
      Progress service (done ++ [r]) [] (s.log ++ writes ++ rest) :=
    (hprogress.internal fun e he => isInternal_of_isWrite (hweaken hwrites e he)).internal hrest
  have howes' {writes rest : List Effect} (hwrites : ∀ e ∈ writes, e.isSoftWrite s.fd)
      {left : Bytes} (htaken : takenBytes writes ++ left = s.conn.pending)
      (hrest : takenBytes rest = []) (hsilent : messages rest = []) :
      output.Owes (s.log ++ writes ++ rest) left := by
    rw [List.append_assoc]
    exact owes_writes howes (hweaken hwrites) htaken hrest hsilent
  have hcases := onWrite_cases hlive d
  generalize s.onWrite d = t at hcases ⊢
  rcases hcases with ⟨writes, count, hcount, hwrites, htaken, rfl⟩ |
    ⟨_, _, _, _, _, ⟨answer, hanswer, hhard⟩, _⟩ | ⟨writes, hwrites, htaken, hkeep, rfl⟩ |
    ⟨writes, hwrites, htaken, hclose, rfl⟩
  · have hleft : takenBytes writes ++ s.conn.pending.drop count = s.conn.pending := by
      rw [htaken, List.take_append_drop]
    have hpending := s.conn.pending_advance count
    rw [← List.append_nil (s.log ++ writes)]
    apply Phase.sending done todo r hsplit
    · exact hprogress' hwrites (by simp)
    · exact hlive.advance hcount
    · show output.Owes _ (s.conn.advance count).pending
      rw [hpending]
      exact howes' hwrites hleft rfl rfl
    · show (s.conn.advance count).pending ≠ []
      rw [hpending, Ne, List.drop_eq_nil_iff, not_le]
      exact hcount
    · exact hrequest
    · exact hkept
  · exact absurd (hsoft answer hanswer) hhard
  · apply phase_of_kept hsplit
    · exact hprogress' hwrites (by simpa using ⟨⟨rfl, rfl, rfl⟩, ⟨rfl, rfl, rfl⟩⟩)
    · exact hlive.drain.withRequest _
    · exact howes' hwrites (by rw [htaken, List.append_nil]) rfl rfl
    · exact rfl
    · exact rfl
    · exact hrequest ▸ hkeep
    · exact hkept
  · apply phase_of_closed hsplit
    · apply hprogress' hwrites
      intro e he
      rcases List.mem_cons.mp he with rfl | he
      · exact ⟨rfl, rfl, rfl⟩
      · exact isInternal_teardown s.fd e he
    · exact Connection.closed_remove _
    · exact howes' hwrites (by rw [htaken, List.append_nil]) rfl rfl
    · exact rfl
    · exact hrequest ▸ hclose

/-- What is read in turn belongs to the request that is being received. -/
theorem piece_of_inTurn {requests : List CompleteRequest} {bytes : Bytes}
    (hsplit : requests = done ++ todo) (hprogress : Progress service done part log)
    (hturn : (ReadResult.data bytes).inTurn requests log) (hpart : part <+: next todo) :
    ∃ r later, todo = r :: later ∧ part ++ bytes <+: r.bytes := by
  obtain ⟨hbytes, hnext, hfirst⟩ := hturn
  rw [hprogress.received, hsplit, allBytes_append, List.append_assoc,
    List.prefix_append_right_inj] at hnext
  cases todo with
  | nil =>
      have hnone : part ++ bytes = [] := List.prefix_nil.mp hnext
      exact absurd (List.append_eq_nil_iff.mp hnone).2 hbytes
  | cons r later =>
      refine ⟨r, later, rfl, ?_⟩
      have hall : allBytes (r :: later) = r.bytes ++ allBytes later := rfl
      rw [hall] at hnext
      rcases List.prefix_or_prefix_of_prefix hnext (List.prefix_append _ _) with hfits | hover
      · exact hfits
      · by_contra hexceeds
        have hlonger : r.bytes.length < (part ++ bytes).length := by
          apply lt_of_le_of_ne hover.length_le
          intro heq
          rw [hover.eq_of_length heq] at hexceeds
          exact hexceeds (List.prefix_refl _)
        have hlater : later ≠ [] := by
          rintro rfl
          have hle := hnext.length_le
          have hlast : allBytes [] = [] := rfl
          rw [hlast, List.append_nil] at hle
          omega
        have htake : requests.take (done.length + 1) = done ++ [r] := by
          rw [hsplit, List.take_append]
          simp
        have hindex : done.length + 1 < requests.length := by
          rw [hsplit, List.length_append, List.length_cons]
          have hpos := List.length_pos_of_ne_nil hlater
          omega
        have hanswered := hfirst (done.length + 1) hindex (by
          rw [htake, allBytes_concat, hprogress.received, List.append_assoc]
          simpa using hlonger)
        have hle := hanswered.1
        rw [hprogress.responses, expected, List.length_mapIdx] at hle
        omega

theorem isSoft_headD {answers : List WriteAnswer} (hsoft : ∀ answer ∈ answers, answer.isSoft) :
    (answers.headD (.fail EAGAIN)).isSoft := by
  cases answers with
  | nil => exact rfl
  | cons answer answers => exact hsoft answer (List.mem_cons_self ..)

/-- Receiving more of a request. -/
theorem phase_onRead (hcallback : service.callback.isSome = true)
    (hsplit : c.requests = done ++ todo) (hprogress : Progress service done part s.log)
    (hlive : s.conn.Live) (howes : output.Owes s.log []) (hdrained : s.conn.pending = [])
    (hpart : part <+: next todo) (hparse : HttpRequest.fresh.parse part = (true, s.conn.request))
    (hgot : s.conn.request.gotAll = false) (hkept : ∀ r ∈ done, r.request.keepAlive = true)
    {d : Dispatch} (hsoft : ∀ answer ∈ d.writes, answer.isSoft)
    (hturn : d.read.inTurn c.requests s.log) : Phase service c.requests (s.onRead service d) := by
  cases hread : d.read with
  | error errno =>
      rw [onRead_of_fails hlive (by rw [hread]; trivial), hread]
      apply Phase.receiving done todo part hsplit
      · exact hprogress.internal (by simpa using ⟨rfl, rfl, rfl⟩)
      · exact live_afterParse hlive ..
      · exact owes_afterParse howes _ _ rfl rfl
      · exact hdrained
      · exact hpart
      · exact hparse
      · exact hgot
      · exact hkept
  | data bytes =>
      rw [hread] at hturn
      obtain ⟨r, later, rfl, rest, hrest⟩ := piece_of_inTurn hsplit hprogress hturn hpart
      have hpiece := CompleteRequest.parse_piece hrest.symm hparse
      have hprogress' := hprogress.read s.fd bytes
      by_cases hwhole : rest = []
      · -- the last piece
        rw [hwhole, List.append_nil] at hrest
        rw [hrest, r.parse_bytes] at hpiece
        rw [hrest] at hprogress'
        have hresponse : s.responseTo service r.request =
            service.response done.length r.request := by
          rw [responseTo, callbackCount_eq_length, hprogress.invoked, List.length_map]
        have hcompletion : completion s.conn.request r.request = [.completed] := by
          simp [completion, hgot, r.gotAll_request]
        have hhandover : handover service r.request = [.callback r.request] := if_pos hcallback
        have hcompleted : Progress service done r.bytes
            (s.log ++ [.read s.fd (.data bytes)] ++ [.completed]) :=
          hprogress'.internal (by simpa using ⟨rfl, rfl, rfl⟩)
        rw [onRead_of_accepted hlive hread hturn.1 hpiece, if_pos r.gotAll_request, hresponse,
          hcompletion, hhandover, hread]
        rw [List.append_cons done r later] at hsplit
        apply phase_sendResponse hsplit
        · simpa [afterParse] using hcompleted.answer
        · exact live_afterParse hlive ..
        · exact owes_afterParse howes _ _ rfl rfl
        · exact hdrained
        · exact rfl
        · exact hkept
        · exact isSoft_headD hsoft
      · -- a part of the request
        obtain ⟨q, hq, hnotGot⟩ := CompleteRequest.parse_part hrest.symm hwhole
        rw [hq] at hpiece
        rw [onRead_of_accepted hlive hread hturn.1 hpiece, if_neg (by simp [hnotGot]), hread]
        apply Phase.receiving done (r :: later) (part ++ bytes) hsplit
        · exact hprogress'
        · exact live_afterParse hlive ..
        · exact owes_afterParse howes _ _ rfl rfl
        · exact hdrained
        · exact ⟨rest, hrest⟩
        · exact hq
        · exact hnotGot
        · exact hkept

/-- While a response is being sent there is nothing to read. -/
theorem not_inTurn_of_sending (hsplit : c.requests = done ++ [r] ++ todo)
    (hprogress : Progress service (done ++ [r]) [] log)
    {rest : Bytes} (howes : output.Owes log rest) (hrest : rest ≠ []) (bytes : Bytes) :
    ¬ (ReadResult.data bytes).inTurn c.requests log := by
  intro hturn
  obtain ⟨hbytes, hnext, hfirst⟩ := hturn
  rw [hprogress.received, List.append_nil] at hnext hfirst
  rw [hsplit, allBytes_append (done ++ [r]), List.prefix_append_right_inj] at hnext
  have htodo : todo ≠ [] := by
    rintro rfl
    exact hbytes (List.prefix_nil.mp hnext)
  have htake : c.requests.take (done ++ [r]).length = done ++ [r] := by
    rw [hsplit]
    exact List.take_left
  have hindex : (done ++ [r]).length < c.requests.length := by
    have hpos := List.length_pos_of_ne_nil htodo
    simp only [hsplit, List.length_append]
    omega
  have hanswered := hfirst (done ++ [r]).length hindex (by
    rw [htake, List.length_append]
    have hpos := List.length_pos_of_ne_nil hbytes
    omega)
  have hall : (responses log).take (done ++ [r]).length = responses log := by
    apply List.take_of_length_le
    rw [hprogress.responses, expected, List.length_mapIdx]
  have hle := hanswered.2
  rw [hall, ← messages_eq_flatten] at hle
  have hbalance := congrArg List.length howes.balance
  rw [List.length_append] at hbalance
  have hpos := List.length_pos_of_ne_nil hrest
  have htaken : (takenBytes log).length + rest.length = (messages log).length := hbalance
  omega

theorem phase_notified (hphase : Phase service c.requests s) (revents : Events) :
    Phase service c.requests (s.notified revents) := by
  cases hphase with
  | receiving done todo part hsplit hprogress hlive howes hdrained hpart hparse hgot hkept =>
      exact .receiving done todo part hsplit hprogress (hlive.withRevents revents) howes hdrained
        hpart hparse hgot hkept
  | sending done todo r hsplit hprogress hlive howes hrest hrequest hkept =>
      exact .sending done todo r hsplit hprogress (hlive.withRevents revents) howes hrest hrequest
        hkept
  | finished done r hsplit hprogress hclosed howes hdrained hclose =>
      exact .finished done r hsplit hprogress
        ⟨hclosed.closing, hclosed.notRegistered, hclosed.events⟩ howes hdrained hclose

theorem Phase.conn {requests : List CompleteRequest} (hphase : Phase service requests s) :
    s.conn.Live ∨ s.conn.Closed := by
  cases hphase with
  | receiving _ _ _ _ _ hlive => exact .inl hlive
  | sending _ _ _ _ _ hlive => exact .inl hlive
  | finished _ _ _ _ hclosed => exact .inr hclosed

/-- The step lemma of a conversation. -/
theorem phase_step (hcallback : service.callback.isSome = true)
    (hphase : Phase service c.requests s) {d : Dispatch} (hconversing : conversing c.requests s d)
    {t : Session} (hstep : (sessions service).step s d = some t) :
    Phase service c.requests t := by
  obtain ⟨hevents, hsoft, hturn⟩ := hconversing
  have hopen := live_of_step hphase.conn hstep
  obtain ⟨hmay, _, rfl⟩ := sessions_step hstep
  have hnotified := phase_notified hphase d.revents
  rw [dispatch_eq]
  cases hselects : s.selects d with
  | none => exact hnotified
  | some selected =>
      cases selected with
      | write =>
          have hrest' := pending_of_selects_write hopen hmay hselects
          cases hnotified with
          | receiving _ _ _ _ _ _ _ hdrained => exact absurd hdrained hrest'
          | sending done todo r hsplit hprogress hlive howes _ hrequest hkept =>
              exact phase_onWrite hsplit hprogress hlive howes hrequest hkept hsoft
          | finished _ _ _ _ _ _ hdrained => exact absurd hdrained hrest'
      | read =>
          have hread := hturn hselects
          cases hnotified with
          | receiving done todo part hsplit hprogress hlive howes hdrained hpart hparse hgot
              hkept =>
              exact phase_onRead hcallback hsplit hprogress hlive howes hdrained hpart hparse hgot
                hkept hsoft hread
          | sending done todo r hsplit hprogress hlive howes hrest hrequest hkept =>
              cases hdata : d.read with
              | data bytes =>
                  rw [hdata] at hread
                  exact absurd hread (not_inTurn_of_sending hsplit hprogress howes hrest bytes)
              | error errno =>
                  show Phase service c.requests ((s.notified d.revents).onRead service d)
                  rw [onRead_of_fails hlive (by rw [hdata]; trivial), hdata]
                  apply Phase.sending done todo r hsplit
                  · exact hprogress.internal (by simpa using ⟨rfl, rfl, rfl⟩)
                  · exact live_afterParse hlive ..
                  · exact owes_afterParse howes _ _ rfl rfl
                  · exact hrest
                  · exact hrequest
                  · exact hkept
          | finished _ _ _ _ hclosed =>
              have hregistered := hopen.registered
              exact absurd (hregistered.symm.trans hclosed.notRegistered) (by simp)
      | close =>
          have hnoHangup : ¬ d.revents.has (EPOLLHUP ||| EPOLLRDHUP) :=
            Events.not_has_of_allowed hevents (by decide)
          exact absurd (Channel.has_of_selected_close hselects) hnoHangup
      | error => exact hnotified

theorem phase_created (loop fd : ℕ) : Phase service c.requests (created loop fd) := by
  have hlog : (created loop fd).log = [.epollCtl fd (.add EPOLLIN)] := by rw [created_eq]
  apply Phase.receiving [] c.requests [] rfl
  · rw [hlog]
    exact ⟨rfl, rfl, rfl⟩
  · exact live_created loop fd
  · rw [hlog]
    exact Ledger.owes_nil.silent rfl rfl
  · rw [created_eq]
    rfl
  · exact List.nil_prefix
  · rw [created_eq]
    exact HttpRequest.run_fresh
  · rw [created_eq]
    rfl
  · simp

/-- The run lemma of a conversation. -/
theorem phase_of_reachable (hcallback : service.callback.isSome = true)
    (hreach : (sessions service).ReachableWhere (conversing c.requests) s) :
    Phase service c.requests s := by
  apply Machine.ReachableWhere.invariant (I := fun s => Phase service c.requests s) _ _ hreach
  · rintro s ⟨loop, fd, rfl⟩
    exact phase_created loop fd
  · intro s d t hphase hconversing hstep
    exact phase_step hcallback hphase hconversing hstep

/-! ## What a phase says about the conversation -/

theorem completelyReceived_split (done todo : List CompleteRequest) {part : Bytes}
    (hpart : todo ≠ [] → part.length < (next todo).length) :
    completelyReceived (done ++ todo) (allBytes done ++ part).length = done := by
  induction done with
  | nil =>
      cases todo with
      | nil => rfl
      | cons r todo =>
          have hshort : ¬ r.bytes.length ≤ part.length := not_le.mpr (hpart (by simp))
          exact if_neg hshort
  | cons r done ih =>
      have hlength : (allBytes (r :: done) ++ part).length =
          r.bytes.length + (allBytes done ++ part).length := by
        show ((r.bytes ++ allBytes done) ++ part).length = _
        rw [List.append_assoc, List.length_append]
      rw [List.cons_append, completelyReceived, hlength, if_pos (Nat.le_add_right _ _),
        Nat.add_sub_cancel_left, ih]

theorem expected_append (service : Service) (done todo : List CompleteRequest) :
    ∃ later, expected service (done ++ todo) = expected service done ++ later ∧
      (later.flatten = [] → todo = []) := by
  refine ⟨_, List.mapIdx_append, fun hnone => ?_⟩
  cases todo with
  | nil => rfl
  | cons r todo =>
      rw [List.mapIdx_cons, List.flatten_cons, List.append_eq_nil_iff] at hnone
      have hpos := HttpResponse.length_toMessage_pos service.order
        (service.response (0 + done.length) r.request)
      rw [hnone.1] at hpos
      exact absurd hpos (lt_irrefl 0)

/-- The requests that have been answered, or are being answered, and the others. -/
structure Split (service : Service) (requests : List CompleteRequest) (s : Session)
    (done todo : List CompleteRequest) : Prop where
  split : requests = done ++ todo
  received : completelyReceived requests (received s.log).length = done
  invoked : invoked s.log = done.map CompleteRequest.request
  responses : responses s.log = expected service done
  owes : ∃ rest, output.Owes s.log rest ∧ (s.conn.pending = [] ↔ rest = [])
  closing : s.conn.closing = true → todo = [] ∧ s.conn.pending = [] ∧
    ∃ r ∈ done.getLast?, r.request.keepAlive = false
  kept : s.conn.closing = false → s.conn.pending = [] → ∀ r ∈ done, r.request.keepAlive = true
  waiting : s.conn.closing = false → s.conn.pending = [] → todo = [] →
    s.conn.Live ∧ s.conn.request = .fresh

theorem next_pos {todo : List CompleteRequest} (htodo : todo ≠ []) : 0 < (next todo).length := by
  cases todo with
  | nil => exact absurd rfl htodo
  | cons r todo => exact List.length_pos_of_ne_nil r.bytes_ne_nil

theorem exists_split (hphase : Phase service c.requests s) :
    ∃ done todo, Split service c.requests s done todo := by
  cases hphase with
  | receiving done todo part hsplit hprogress hlive howes hdrained hpart hparse hgot hkept =>
      have hproper : todo ≠ [] → part.length < (next todo).length := by
        intro htodo
        cases todo with
        | nil => exact absurd rfl htodo
        | cons r later =>
            apply lt_of_le_of_ne hpart.length_le
            intro heq
            have hwhole : part = r.bytes := hpart.eq_of_length heq
            rw [hwhole, r.parse_bytes] at hparse
            have hrequest : r.request = s.conn.request := congrArg Prod.snd hparse
            rw [← hrequest, r.gotAll_request] at hgot
            cases hgot
      refine ⟨done, todo, hsplit, ?_, hprogress.invoked, hprogress.responses,
        ⟨[], howes, by simp [hdrained]⟩, fun hclosing => ?_, fun _ _ => hkept,
        fun _ _ htodo => ⟨hlive, ?_⟩⟩
      · rw [hprogress.received, hsplit]
        exact completelyReceived_split done todo hproper
      · exact absurd (hclosing.symm.trans hlive.notClosing) (by simp)
      · subst htodo
        rw [List.prefix_nil.mp hpart] at hparse
        exact (congrArg Prod.snd (HttpRequest.run_fresh.symm.trans hparse)).symm
  | sending done todo r hsplit hprogress hlive howes hrest hrequest hkept =>
      refine ⟨done ++ [r], todo, hsplit, ?_, hprogress.invoked, hprogress.responses,
        ⟨_, howes, Iff.rfl⟩, fun hclosing => ?_, fun _ hdrained => absurd hdrained hrest,
        fun _ hdrained => absurd hdrained hrest⟩
      · rw [hprogress.received, hsplit]
        exact completelyReceived_split (done ++ [r]) todo next_pos
      · exact absurd (hclosing.symm.trans hlive.notClosing) (by simp)
  | finished done r hsplit hprogress hclosed howes hdrained hclose =>
      have hnotOpen : s.conn.closing ≠ false := fun hopen =>
        absurd (hopen.symm.trans hclosed.closing) Bool.false_ne_true
      refine ⟨done ++ [r], [], by rw [hsplit, List.append_nil], ?_, hprogress.invoked,
        hprogress.responses, ⟨[], howes, by simp [hdrained]⟩, fun _ => ⟨rfl, hdrained, r, by simp,
          hclose⟩, fun hopen => absurd hopen hnotOpen, fun hopen => absurd hopen hnotOpen⟩
      · have hreceived :
            completelyReceived (done ++ [r] ++ []) (allBytes (done ++ [r]) ++ []).length =
              done ++ [r] := completelyReceived_split _ _ (absurd rfl)
        rw [List.append_nil] at hreceived
        rw [hprogress.received, hsplit]
        exact hreceived

/-- How a conversation is served. -/
structure Served (service : Service) (requests : List CompleteRequest) (s : Session) : Prop where
  /-- The callback has been invoked once for each completely received request,
  in order, on what a fresh `HttpRequest` makes of that request alone. -/
  invoked : invoked s.log =
    (completelyReceived requests (received s.log).length).map CompleteRequest.request
  /-- At every moment the accepted bytes are the first of the messages. -/
  inOrder : ∀ moment, moment <+: s.log → takenBytes moment <+: (expected service requests).flatten
  /-- When nothing is unsent, they are the messages of the requests so far. -/
  drained : s.conn.pending = [] →
    takenBytes s.log = ((expected service requests).take (Server.invoked s.log).length).flatten
  /-- The connection is removed exactly when all messages are out and the last
  request does not keep it. -/
  closing : s.conn.closing = true ↔ takenBytes s.log = (expected service requests).flatten ∧
    ∃ r ∈ requests.getLast?, r.request.keepAlive = false
  /-- When all messages are out and the connection is kept, it is in service
  and ready for another request. -/
  kept : takenBytes s.log = (expected service requests).flatten → s.conn.closing = false →
    s.conn.Live ∧ s.conn.request = .fresh

theorem messages_mono {moment log : List Effect} (hmoment : moment <+: log) :
    messages moment <+: messages log := by
  obtain ⟨later, rfl⟩ := hmoment
  rw [messages_append]
  exact List.prefix_append _ _

theorem Split.served {done todo : List CompleteRequest}
    (hsplit : Split service c.requests s done todo) : Served service c.requests s := by
  obtain ⟨later, hlater, hnone⟩ := expected_append service done todo
  obtain ⟨rest, howes, hrest⟩ := hsplit.owes
  rw [← hsplit.split] at hlater
  have hmessages : messages s.log = (expected service done).flatten := by
    rw [messages_eq_flatten, hsplit.responses]
  have hbalance : takenBytes s.log ++ rest = (expected service done).flatten :=
    howes.balance.trans hmessages
  have hflatten : (expected service c.requests).flatten =
      (expected service done).flatten ++ later.flatten := by
    rw [hlater, List.flatten_append]
  have hall (hdrained : s.conn.pending = []) :
      takenBytes s.log = (expected service done).flatten := by
    rw [← hbalance, hrest.mp hdrained, List.append_nil]
  have hout (htaken : takenBytes s.log = (expected service c.requests).flatten) :
      s.conn.pending = [] ∧ todo = [] := by
    rw [hflatten, ← hbalance, List.append_assoc, List.self_eq_append_right,
      List.append_eq_nil_iff] at htaken
    exact ⟨hrest.mpr htaken.1, hnone htaken.2⟩
  constructor
  · rw [hsplit.invoked, hsplit.received]
  · intro moment hmoment
    have hsofar : takenBytes moment <+: messages moment := howes.inOrder moment hmoment
    rw [hflatten, ← hmessages]
    exact (hsofar.trans (messages_mono hmoment)).trans (List.prefix_append _ _)
  · intro hdrained
    have hlength : (Server.invoked s.log).length = (expected service done).length := by
      rw [hsplit.invoked, List.length_map, expected, List.length_mapIdx]
    rw [hall hdrained, hlater, hlength, List.take_left]
  · constructor
    · intro hclosing
      obtain ⟨rfl, hdrained, r, hlast, hclose⟩ := hsplit.closing hclosing
      have hdone : c.requests = done := by rw [hsplit.split, List.append_nil]
      rw [hdone]
      exact ⟨hall hdrained, r, hlast, hclose⟩
    · rintro ⟨htaken, r, hlast, hclose⟩
      obtain ⟨hdrained, htodo⟩ := hout htaken
      by_contra hopen
      have hmem : r ∈ done := by
        rw [hsplit.split, htodo, List.append_nil] at hlast
        exact List.mem_of_getLast? hlast
      have hkeep := hsplit.kept (Bool.eq_false_of_not_eq_true hopen) hdrained r hmem
      exact absurd (hclose.symm.trans hkeep) Bool.false_ne_true
  · intro htaken hopen
    obtain ⟨hdrained, htodo⟩ := hout htaken
    exact hsplit.waiting hopen hdrained htodo

/-- **A client that does not pipeline is served.** In every run of a
conversation, whatever its requests, the callback, the pieces in which bytes
are read and written and the order of dispatches: the callback is invoked
exactly once for each request that has arrived, in order, on the request a
fresh `HttpRequest` makes of it; the kernel has at every moment accepted a
beginning of the messages of the responses, and all messages so far when
nothing is unsent; and the connection is removed exactly when the last message
is out and the last request does not keep the connection, otherwise it is then
ready for another request. -/
theorem conversation_served (order : IterationOrder)
    (callback : ℕ → HttpRequest → HttpResponse → HttpResponse) (c : Conversation) (s : Session)
    (hreach : (sessions ⟨order, some callback⟩).ReachableWhere (conversing c.requests) s) :
    Served ⟨order, some callback⟩ c.requests s := by
  obtain ⟨done, todo, hsplit⟩ := exists_split (phase_of_reachable rfl hreach)
  exact hsplit.served

/-- A request that keeps the connection and one that does not. -/
def twoRequests : Conversation where
  requests :=
    [{ bytes := literal "GET / HTTP/1.1\r\n\r\n"
       size_le := by decide
       accepted := by decide +kernel
       complete := by decide +kernel
       nothingLeft := by decide +kernel },
     { bytes := literal "POST / HTTP/1.0\r\nContent-Length: 2\r\n\r\nhi"
       size_le := by decide
       accepted := by decide +kernel
       complete := by decide +kernel
       nothingLeft := by decide +kernel }]
  keepAlive := by decide +kernel

/-- A conversation in which both requests arrive in pieces and both responses
are sent in pieces. -/
theorem conversation_served_two_requests :
    ∃ s : Session, s.conn.closing = true ∧ (invoked s.log).length = 2 ∧
      Served ⟨.stored, some fun _ _ resp => resp⟩ twoRequests.requests s := by
  obtain ⟨s, hreach, hclosing, hinvoked⟩ := Machine.exists_reachable_of_run
    (M := sessions ⟨.stored, some fun _ _ resp => resp⟩) (s := created 0 7)
    (P := fun s => s.conn.closing = true ∧ (invoked s.log).length = 2)
    (conversing twoRequests.requests)
    [⟨EPOLLIN, .data (literal "GET / HTTP/1.1\r"), []⟩,
      ⟨EPOLLIN, .error EAGAIN, []⟩,
      ⟨EPOLLIN, .data (literal "\n\r\n"), [.room 10]⟩,
      ⟨EPOLLOUT, .error EAGAIN, [.room 1, .fail EAGAIN]⟩,
      ⟨EPOLLIN ||| EPOLLOUT, .error EAGAIN, [.room 100]⟩,
      ⟨EPOLLIN, .data (literal "POST / HTTP/1.0\r\nContent-Length: 2\r\n\r\nh"), []⟩,
      ⟨EPOLLIN, .data (literal "i"), []⟩,
      ⟨EPOLLOUT, .error EAGAIN, [.room 100]⟩]
    ⟨0, 7, rfl⟩ (by decide +kernel) (by decide +kernel)
  exact ⟨s, hclosing, hinvoked, conversation_served .stored _ twoRequests s hreach⟩

end Session

end EpollHttpServer.Server
