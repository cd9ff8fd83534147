/-
# Conversations come to an end

What has been proved about conversations so far holds at every moment, and
would hold of a server that never does anything.  Here the server gets on: the
connection keeps asking for what it waits for, so if an event that stays ready
is reported sooner or later, every request of a conversation is read, handed to
the callback and answered, up to the last byte of the last response.

The measure is what is still to be read and to be written.  A conversation in
which it stays as it is waits for the same event all the time.
-/

import EpollHttpServer.Lib.History
import EpollHttpServer.Server.Conversation
import EpollHttpServer.Server.Invocations

namespace EpollHttpServer.Server

open EpollHttpServer.Lib EpollHttpServer.Http EpollHttpServer.Reactor

namespace Session

variable {service : Service} {s t : Session} {d : Dispatch} {c : Conversation} {log : List Effect}

/-! ## What is in the log stays there -/

theorem le_log_emit (hlog : log <+: s.log) (effect : Effect) : log <+: (s.emit effect).log :=
  hlog.trans (List.prefix_append ..)

theorem le_log_onChannel (hlog : log <+: s.log) (op : Channel → Channel × List EpollCtl) :
    log <+: (s.onChannel op).log :=
  hlog.trans (List.prefix_append ..)

theorem le_log_removeConnection (hlog : log <+: s.log) : log <+: s.removeConnection.log := by
  unfold removeConnection
  split
  · exact hlog
  · exact le_log_emit (le_log_emit (le_log_onChannel hlog _) _) _

theorem le_log_resetRequest (hlog : log <+: s.log) : log <+: s.resetRequest.log :=
  le_log_emit hlog _

theorem le_log_sendResponse (hlog : log <+: s.log) (answer : WriteAnswer) (resp : HttpResponse) :
    log <+: (s.sendResponse service answer resp).log := by
  unfold sendResponse
  dsimp only
  split
  · exact le_log_removeConnection (le_log_emit (le_log_emit hlog _) _)
  · split
    · exact le_log_onChannel (le_log_emit (le_log_emit hlog _) _) _
    · split
      · exact le_log_resetRequest (le_log_emit (le_log_emit hlog _) _)
      · exact le_log_removeConnection (le_log_emit (le_log_emit hlog _) _)

theorem le_log_storeRequest (hlog : log <+: s.log) (request : HttpRequest) :
    log <+: (s.storeRequest request).log := by
  rw [storeRequest_eq]
  exact hlog.trans (List.prefix_append ..)

theorem le_log_answerRequest (hlog : log <+: s.log) (answer : WriteAnswer) :
    log <+: (s.answerRequest service answer).log := by
  unfold answerRequest
  dsimp only
  split
  · exact le_log_sendResponse (le_log_emit hlog _) ..
  · exact le_log_sendResponse hlog ..

/-- `onRead` begins with a read. -/
theorem read_le_log_onRead (service : Service) (d : Dispatch) (s : Session) :
    s.log ++ [.read s.fd d.read] <+: (s.onRead service d).log := by
  have hread : s.log ++ [.read s.fd d.read] <+: (s.emit (.read s.fd d.read)).log :=
    List.prefix_refl _
  unfold onRead
  split
  · exact hread
  · exact le_log_removeConnection hread
  · dsimp only
    split
    · exact le_log_sendResponse (le_log_storeRequest hread _) ..
    · split
      · exact le_log_storeRequest hread _
      · exact le_log_answerRequest (le_log_storeRequest hread _) _

theorem le_log_writeLoop (hlog : log <+: s.log) (remaining : ℕ) (answers : List WriteAnswer) :
    log <+: (s.writeLoop remaining answers).2.log := by
  induction answers generalizing s remaining with
  | nil =>
      unfold writeLoop
      split
      · exact hlog
      · exact le_log_emit hlog _
  | cons answer answers ih =>
      unfold writeLoop
      split
      · exact hlog
      · dsimp only
        split
        · split
          · apply ih
            exact le_log_emit hlog _
          · exact le_log_removeConnection (le_log_emit hlog _)
        · split
          · exact le_log_emit hlog _
          · exact le_log_removeConnection (le_log_emit hlog _)

theorem le_log_onWrite
    (hlog : log <+: (s.writeLoop (s.conn.writeBuf.length - s.conn.writeSent) d.writes).2.log) :
    log <+: (s.onWrite d).log := by
  unfold onWrite
  split
  · next heq =>
    rw [heq] at hlog
    exact hlog
  · next heq =>
    rw [heq] at hlog
    dsimp only
    split
    · exact le_log_resetRequest (le_log_onChannel hlog _)
    · exact le_log_removeConnection (le_log_onChannel hlog _)

/-- If there is room, `onWrite` begins with a write that takes bytes. -/
theorem write_le_log_onWrite {room : ℕ} {answers : List WriteAnswer}
    (hpending : s.conn.pending ≠ []) (hwrites : d.writes = .room room :: answers)
    (hroom : 0 < room) : ∃ count, 0 < count ∧ count ≤ s.conn.pending.length ∧
      s.log ++ [.write s.fd s.conn.pending (.accepted count)] <+: (s.onWrite d).log := by
  have hpositive : 0 < s.conn.pending.length := List.length_pos_of_ne_nil hpending
  have hdata : (s.conn.writeBuf.drop s.conn.writeSent).take s.conn.pending.length =
      s.conn.pending := List.take_length
  refine ⟨min room s.conn.pending.length, lt_min hroom hpositive, min_le_right _ _, ?_⟩
  apply le_log_onWrite
  rw [← Connection.length_pending, hwrites, writeLoop, if_neg (Nat.ne_of_gt hpositive), hdata]
  simp only [WriteAnswer.result, if_pos (lt_min hroom hpositive)]
  apply le_log_writeLoop
  exact List.prefix_refl _

/-! ## What is still to be done -/

/-- The bytes that are still to be read, and those that are still to be written. -/
def outstanding (service : Service) (requests : List CompleteRequest) (s : Session) : ℕ × ℕ :=
  ((allBytes requests).length - (received s.log).length,
    (expected service requests).flatten.length - (takenBytes s.log).length)

theorem received_le (hphase : Phase service c.requests s) :
    received s.log <+: allBytes c.requests := by
  cases hphase with
  | receiving done todo part hsplit hprogress _ _ _ hpart =>
      have hnext : next todo <+: allBytes todo := by
        cases todo with
        | nil => exact List.prefix_refl _
        | cons r todo => exact List.prefix_append _ _
      rw [hprogress.received, hsplit, allBytes_append, List.prefix_append_right_inj]
      exact hpart.trans hnext
  | sending done todo r hsplit hprogress =>
      rw [hprogress.received, hsplit, List.append_nil, allBytes_append (done ++ [r])]
      exact List.prefix_append _ _
  | finished done r hsplit hprogress =>
      rw [hprogress.received, hsplit, List.append_nil]

theorem taken_le (hphase : Phase service c.requests s) :
    takenBytes s.log <+: (expected service c.requests).flatten := by
  obtain ⟨done, todo, hsplit⟩ := exists_split hphase
  exact hsplit.served.inOrder s.log (List.prefix_refl _)

/-- Everything has been exchanged. -/
structure Completed (service : Service) (requests : List CompleteRequest) (s : Session) : Prop where
  received : received s.log = allBytes requests
  invoked : invoked s.log = requests.map CompleteRequest.request
  responses : responses s.log = expected service requests
  taken : takenBytes s.log = (expected service requests).flatten
  closing : s.conn.closing = true ↔ ∃ r ∈ requests.getLast?, r.request.keepAlive = false

/-- When everything has been read, and nothing is unsent, nothing is left to do. -/
theorem completed_of_read (hphase : Phase service c.requests s) (hdrained : s.conn.pending = [])
    (hread : (outstanding service c.requests s).1 = 0) : Completed service c.requests s := by
  have hreceived : received s.log = allBytes c.requests :=
    (received_le hphase).eq_of_length_le (Nat.sub_eq_zero_iff_le.mp hread)
  obtain ⟨done, todo, hsplit⟩ := exists_split hphase
  have hall : completelyReceived (c.requests ++ []) (allBytes c.requests ++ []).length =
      c.requests := completelyReceived_split c.requests [] (absurd rfl)
  obtain rfl : c.requests = done := by
    rw [← hsplit.received, hreceived]
    simpa using hall.symm
  obtain ⟨rest, howes, hrest⟩ := hsplit.owes
  have htaken : takenBytes s.log = (expected service c.requests).flatten := by
    have hbalance : takenBytes s.log ++ rest = messages s.log := howes.balance
    rw [hrest.mp hdrained, List.append_nil, messages_eq_flatten, hsplit.responses] at hbalance
    exact hbalance
  exact ⟨hreceived, hsplit.invoked, hsplit.responses, htaken,
    hsplit.served.closing.trans (and_iff_right htaken)⟩

/-! ## What the connection waits for -/

/-- The channel is registered and asks for these events. -/
def watches (s : Session) (bits : Events) : Prop :=
  s.conn.channel.addedToEpoll = true ∧ s.conn.channel.events.has bits

/-- The client has bytes to send, and the channel asks for them. -/
def AwaitsInput (requests : List CompleteRequest) (s : Session) : Prop :=
  s.watches EPOLLIN ∧ ∃ bytes, (ReadResult.data bytes).inTurn requests s.log

/-- The channel asks for room in the socket buffer. -/
def AwaitsRoom (s : Session) : Prop := s.watches EPOLLOUT

theorem watches_of_live (hlive : s.conn.Live) : s.watches EPOLLIN := by
  refine ⟨hlive.registered, ?_⟩
  rw [hlive.events]
  split <;> decide

theorem awaitsRoom_of_pending (hphase : Phase service c.requests s) (hrest : s.conn.pending ≠ []) :
    s.AwaitsRoom := by
  cases hphase with
  | receiving _ _ _ _ _ _ _ hdrained => exact absurd hdrained hrest
  | finished _ _ _ _ _ _ hdrained => exact absurd hdrained hrest
  | sending done todo r hsplit hprogress hlive =>
      refine ⟨hlive.registered, ?_⟩
      have hunsent : s.conn.writeSent < s.conn.writeBuf.length := by
        by_contra hnot
        exact hrest (Connection.pending_eq_nil_iff.mpr hnot)
      rw [hlive.events, if_pos hunsent]
      decide

/-- When nothing is owed, every response up to the last is answered. -/
theorem answered_of_owes {i : ℕ} (howes : output.Owes log []) (hi : i ≤ (responses log).length) :
    answered log i := by
  have hbalance : takenBytes log ++ [] = messages log := howes.balance
  rw [List.append_nil, messages_eq_flatten] at hbalance
  refine ⟨hi, ?_⟩
  rw [hbalance]
  exact (List.take_prefix i (responses log)).flatten.length_le

/-- The rest of the request that is being received is the client's to send. -/
theorem inTurn_rest {requests done later : List CompleteRequest} {r : CompleteRequest}
    {part rest : Bytes} (hsplit : requests = done ++ r :: later)
    (hprogress : Progress service done part log) (howes : output.Owes log [])
    (hrest : part ++ rest = r.bytes) (hne : rest ≠ []) :
    (ReadResult.data rest).inTurn requests log := by
  have htotal : received log ++ rest = allBytes (done ++ [r]) := by
    rw [hprogress.received, List.append_assoc, hrest, allBytes_concat]
  have hwhole : requests = (done ++ [r]) ++ later := by
    rw [hsplit, List.append_assoc]
    rfl
  refine ⟨hne, ?_, fun i _ hbefore => ?_⟩
  · rw [htotal, hwhole, allBytes_append (done ++ [r])]
    exact List.prefix_append _ _
  · apply answered_of_owes howes
    rw [hprogress.responses, expected, List.length_mapIdx]
    by_contra hlate
    -- the bytes before the `i`-th request contain those of all requests so far
    have hcontained : done ++ [r] <+: requests.take i := by
      have htaken : requests.take (done ++ [r]).length = done ++ [r] := by
        rw [hwhole, List.take_left]
      rw [← htaken]
      apply List.take_prefix_take_left
      rw [List.length_append, List.length_singleton]
      exact not_le.mp hlate
    obtain ⟨others, hothers⟩ := hcontained
    rw [htotal, ← hothers, allBytes_append, List.length_append] at hbefore
    omega

theorem awaitsInput_of_unread (hphase : Phase service c.requests s) (hdrained : s.conn.pending = [])
    (hunread : (outstanding service c.requests s).1 ≠ 0) : s.AwaitsInput c.requests := by
  cases hphase with
  | receiving done todo part hsplit hprogress hlive howes _ hpart hparse hgot =>
      cases todo with
      | nil =>
          refine absurd ?_ hunread
          rw [outstanding, hprogress.received, hsplit, List.prefix_nil.mp hpart]
          simp
      | cons r later =>
          obtain ⟨rest, hrest⟩ := hpart
          have hne : rest ≠ [] := by
            rintro rfl
            have hall : part = r.bytes := by rw [← List.append_nil part]; exact hrest
            rw [hall, r.parse_bytes] at hparse
            have hrequest : r.request = s.conn.request := congrArg Prod.snd hparse
            rw [← hrequest, r.gotAll_request] at hgot
            cases hgot
          exact ⟨watches_of_live hlive, rest, inTurn_rest hsplit hprogress howes hrest hne⟩
  | sending _ _ _ _ _ _ _ hrest => exact absurd hdrained hrest
  | finished done r hsplit hprogress =>
      refine absurd ?_ hunread
      rw [outstanding, hprogress.received, hsplit]
      simp

/-- It is not the client's turn while a response is being sent. -/
theorem drained_of_inTurn (hphase : Phase service c.requests s) {bytes : Bytes}
    (hturn : (ReadResult.data bytes).inTurn c.requests s.log) : s.conn.pending = [] := by
  obtain ⟨hne, hprefix, hanswered⟩ := hturn
  have hpositive : 0 < bytes.length := List.length_pos_of_ne_nil hne
  cases hphase with
  | receiving _ _ _ _ _ _ _ hdrained => exact hdrained
  | finished _ _ _ _ _ _ hdrained => exact hdrained
  | sending done todo r hsplit hprogress _ howes =>
      have hreceived : received s.log = allBytes (done ++ [r]) := by
        rw [hprogress.received, List.append_nil]
      have hmore : 0 < todo.length := by
        apply List.length_pos_of_ne_nil
        rintro rfl
        have hle := hprefix.length_le
        rw [hsplit, List.append_nil, hreceived, List.length_append] at hle
        omega
      have hall : answered s.log (done ++ [r]).length := by
        apply hanswered
        · simp only [hsplit, List.length_append]
          omega
        · rw [hsplit, List.take_left, hreceived, List.length_append]
          omega
      have hlength : (responses s.log).length = (done ++ [r]).length := by
        rw [hprogress.responses, expected, List.length_mapIdx]
      have hbalance : takenBytes s.log ++ s.conn.pending = messages s.log := howes.balance
      have htaken := hall.2
      rw [← hlength, List.take_length, ← messages_eq_flatten, ← hbalance,
        List.length_append] at htaken
      exact List.length_eq_zero_iff.mp (by omega)

/-- Whether bytes are unsent is determined by what has been read and written. -/
theorem drained_iff (hphase : Phase service c.requests s) : s.conn.pending = [] ↔
    (takenBytes s.log).length = (expected service
      (completelyReceived c.requests (received s.log).length)).flatten.length := by
  obtain ⟨done, todo, hsplit⟩ := exists_split hphase
  obtain ⟨rest, howes, hrest⟩ := hsplit.owes
  have hbalance : takenBytes s.log ++ rest = messages s.log := howes.balance
  rw [messages_eq_flatten, hsplit.responses] at hbalance
  rw [hrest, hsplit.received, ← hbalance, List.length_append, ← List.length_eq_zero_iff]
  omega

/-! ## The measure -/

/-- A log that has grown. -/
theorem outstanding_le (hlog : s.log <+: t.log) :
    outstanding service c.requests t ≤ outstanding service c.requests s := by
  obtain ⟨later, hlater⟩ := hlog
  rw [outstanding, outstanding, ← hlater, received_append, takenBytes_append, List.length_append,
    List.length_append]
  exact ⟨by dsimp only; omega, by dsimp only; omega⟩

/-- Bytes have been read or written. -/
theorem outstanding_lt (hphase : Phase service c.requests t) (hlog : s.log <+: t.log)
    (hgrown : (received s.log).length < (received t.log).length ∨
      (takenBytes s.log).length < (takenBytes t.log).length) :
    outstanding service c.requests t < outstanding service c.requests s := by
  have hread := (received_le hphase).length_le
  have htaken := (taken_le hphase).length_le
  have hle : outstanding service c.requests t ≤ outstanding service c.requests s :=
    outstanding_le hlog
  refine lt_of_le_of_ne hle fun heq => ?_
  obtain ⟨hsameRead, hsameTaken⟩ := Prod.mk.inj heq
  omega

/-- While the measure stays as it is, so does whether bytes are unsent. -/
theorem drained_congr (hs : Phase service c.requests s) (ht : Phase service c.requests t)
    (hsame : outstanding service c.requests s = outstanding service c.requests t) :
    s.conn.pending = [] ↔ t.conn.pending = [] := by
  obtain ⟨hunread, hunwritten⟩ := Prod.mk.inj hsame
  have hreceived : (received s.log).length = (received t.log).length := by
    have hle := (received_le hs).length_le
    have hle' := (received_le ht).length_le
    omega
  have htaken : (takenBytes s.log).length = (takenBytes t.log).length := by
    have hle := (taken_le hs).length_le
    have hle' := (taken_le ht).length_le
    omega
  rw [drained_iff hs, drained_iff ht, hreceived, htaken]

/-- The event lets the connection read. -/
def reads : Machine.Discipline Session Dispatch := fun s d =>
  s.selects d = some .read ∧ ∃ bytes, d.read = .data bytes

/-- The event lets the connection write. -/
def writes : Machine.Discipline Session Dispatch := fun s d =>
  s.selects d = some .write ∧ ∃ room answers, d.writes = .room room :: answers

theorem outstanding_lt_of_reads (hphase : Phase service c.requests t)
    (hconversing : conversing c.requests s d) (hreads : reads s d)
    (hstep : (sessions service).step s d = some t) :
    outstanding service c.requests t < outstanding service c.requests s := by
  obtain ⟨hselects, bytes, hdata⟩ := hreads
  have hturn := hconversing.2.2 hselects
  rw [hdata] at hturn
  have hlog : s.log ++ [.read s.fd (.data bytes)] <+: t.log := by
    rw [(sessions_step hstep).2.2, dispatch_eq, hselects, ← hdata]
    exact read_le_log_onRead service d (s.notified d.revents)
  have hpositive : 0 < bytes.length := List.length_pos_of_ne_nil hturn.1
  have hreceived : (received s.log).length + bytes.length ≤ (received t.log).length := by
    obtain ⟨later, hlater⟩ := hlog
    have hbytes : received [.read s.fd (.data bytes)] = bytes := List.append_nil bytes
    rw [← hlater, received_append, received_append, hbytes, List.length_append, List.length_append]
    exact Nat.le_add_right _ _
  exact outstanding_lt hphase ((List.prefix_append _ _).trans hlog) (.inl (by omega))

theorem outstanding_lt_of_writes (hconn : s.conn.Live) (hphase : Phase service c.requests t)
    (hconversing : conversing c.requests s d) (hwrites : writes s d)
    (hstep : (sessions service).step s d = some t) :
    outstanding service c.requests t < outstanding service c.requests s := by
  obtain ⟨hselects, room, answers, hanswers⟩ := hwrites
  obtain ⟨hmay, _, rfl⟩ := sessions_step hstep
  have hroom : 0 < room := by
    have hsoft := hconversing.2.1
    rw [hanswers] at hsoft
    exact hsoft _ (List.mem_cons_self ..)
  have hpending : s.conn.pending ≠ [] := pending_of_selects_write hconn hmay hselects
  obtain ⟨count, hcount, hle, hlog⟩ :=
    write_le_log_onWrite (s := s.notified d.revents) hpending hanswers hroom
  have hshort : count ≤ s.conn.pending.length := hle
  have hlog' : s.log ++ [.write s.fd s.conn.pending (.accepted count)] <+:
      (s.dispatch service d).log := by
    rw [dispatch_eq, hselects]
    exact hlog
  have htaken : (takenBytes s.log).length + count ≤
      (takenBytes (s.dispatch service d).log).length := by
    obtain ⟨later, hlater⟩ := hlog'
    have hbytes : takenBytes [.write s.fd s.conn.pending (.accepted count)] =
        s.conn.pending.take count := List.append_nil _
    rw [← hlater, takenBytes_append, takenBytes_append, hbytes, List.length_append,
      List.length_append, List.length_take, Nat.min_eq_left hshort]
    exact Nat.le_add_right _ _
  exact outstanding_lt hphase ((List.prefix_append _ _).trans hlog') (.inr (by omega))

/-! ## Every conversation is completed -/

/-- As long as the connection waits for bytes that the client has to send, or
for room in the socket buffer, it is notified of them sooner or later. -/
structure Attended (requests : List CompleteRequest)
    (h : (sessions service).History (conversing requests)) : Prop where
  reads : h.Attends (AwaitsInput requests) reads
  writes : h.Attends AwaitsRoom writes

/-- Where the measure has settled, the conversation is completed. -/
theorem exists_completed (hcallback : service.callback.isSome = true)
    {h : (sessions service).History (conversing c.requests)} (hattended : Attended c.requests h) :
    ∃ n, ∀ m, n ≤ m → Completed service c.requests (h.state m) := by
  have hphases {s : Session}
      (hreach : (sessions service).ReachableWhere (conversing c.requests) s) :
      Phase service c.requests s := phase_of_reachable hcallback hreach
  obtain ⟨n, _, hsettled⟩ := Machine.History.exists_settled
    (fun m => outstanding service c.requests (h.state m)) 0
    fun m _ => Machine.History.measure_succ_le (fun s d t hreach _ hstep =>
      outstanding_le (observed_step (hphases hreach).conn hstep).log_le) m
  have hphase (m : ℕ) : Phase service c.requests (h.state m) := hphases (h.reachable m)
  have hdrained (m : ℕ) (hm : n ≤ m) :
      (h.state m).conn.pending = [] ↔ (h.state n).conn.pending = [] :=
    drained_congr (hphase m) (hphase n) (hsettled m hm)
  by_cases hnone : (h.state n).conn.pending = []
  · by_cases hread : (outstanding service c.requests (h.state n)).1 = 0
    · refine ⟨n, fun m hm => completed_of_read (hphase m) ((hdrained m hm).mpr hnone) ?_⟩
      rw [hsettled m hm]
      exact hread
    · -- the connection would wait for bytes forever
      obtain ⟨m, hm, hnot⟩ := hattended.reads.exists_not_waiting
        (fun s d t hreach hok hreads hstep =>
          outstanding_lt_of_reads (hphases (hreach.next hok hstep)) hok hreads hstep) hsettled
      refine absurd (awaitsInput_of_unread (hphase m) ((hdrained m hm).mpr hnone) ?_) hnot
      rw [hsettled m hm]
      exact hread
  · -- the connection would wait for room forever
    obtain ⟨m, hm, hnot⟩ := hattended.writes.exists_not_waiting
      (fun s d t hreach hok hwrites hstep =>
        outstanding_lt_of_writes (live_of_step (hphases hreach).conn hstep)
          (hphases (hreach.next hok hstep)) hok hwrites hstep) hsettled
    exact absurd (awaitsRoom_of_pending (hphase m) fun hm' => hnone ((hdrained m hm).mp hm')) hnot

/-- **A conversation comes to its end.** Whatever its requests, the callback, the
pieces in which bytes are read and written and the order of dispatches, if
events that stay ready are reported sooner or later, then from some moment on
all requests have been read, handed to the callback and answered to the last
byte, and the connection is closed exactly if the last request does not keep
it. -/
theorem conversation_completed (order : IterationOrder)
    (callback : ℕ → HttpRequest → HttpResponse → HttpResponse) (c : Conversation)
    (h : (sessions ⟨order, some callback⟩).History (conversing c.requests))
    (hattended : Attended c.requests h) :
    ∃ n, ∀ m, n ≤ m → Completed ⟨order, some callback⟩ c.requests (h.state m) :=
  exists_completed rfl hattended

/-- A conversation in which both requests arrive in pieces and both responses
are sent in pieces, and nothing happens afterwards. -/
theorem conversation_completed_two_requests :
    ∃ h : (sessions ⟨.stored, some fun _ _ resp => resp⟩).History
        (conversing twoRequests.requests),
      Attended twoRequests.requests h ∧ ∃ n, ∀ m, n ≤ m →
        Completed ⟨.stored, some fun _ _ resp => resp⟩ twoRequests.requests (h.state m) := by
  obtain ⟨s, hreach, hclosed⟩ := Machine.exists_reachable_of_run
    (M := sessions ⟨.stored, some fun _ _ resp => resp⟩) (s := created 0 7)
    (P := fun s => s.conn.channel.addedToEpoll = false) (conversing twoRequests.requests)
    [⟨EPOLLIN, .data (literal "GET / HTTP/1.1\r"), []⟩,
      ⟨EPOLLIN, .error EAGAIN, []⟩,
      ⟨EPOLLIN, .data (literal "\n\r\n"), [.room 10]⟩,
      ⟨EPOLLOUT, .error EAGAIN, [.room 1, .fail EAGAIN]⟩,
      ⟨EPOLLIN ||| EPOLLOUT, .error EAGAIN, [.room 100]⟩,
      ⟨EPOLLIN, .data (literal "POST / HTTP/1.0\r\nContent-Length: 2\r\n\r\nhi"), [.room 1]⟩,
      ⟨EPOLLOUT, .error EAGAIN, [.room 100]⟩]
    ⟨0, 7, rfl⟩ (by decide +kernel) (by decide +kernel)
  obtain ⟨h, n, hend⟩ := Machine.History.exists_of_reachable hreach
  have hattends {waits : Session → Prop} {serves : Machine.Discipline Session Dispatch}
      (hwatches : ∀ s, waits s → ∃ bits, s.watches bits) : h.Attends waits serves := by
    intro m hwaits
    have hlast := hwaits (max m n) (le_max_left m n)
    rw [hend _ (le_max_right m n)] at hlast
    obtain ⟨bits, hadded, _⟩ := hwatches s hlast
    cases hadded.symm.trans hclosed
  have hattended : Attended twoRequests.requests h :=
    ⟨hattends fun _ hwaits => ⟨_, hwaits.1⟩, hattends fun _ hwaits => ⟨_, hwaits⟩⟩
  exact ⟨h, hattended, conversation_completed .stored _ twoRequests h hattended⟩

end Session

end EpollHttpServer.Server
