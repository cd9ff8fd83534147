/-
# Everything a handler can do

The handlers branch on the answers of the kernel, on the verdict of the parser
and on the masks of the channel.  This module says once what each of them can
do to a live connection, as the connection and the log it leaves behind; every
invariant of a connection is derived from these statements, and the handlers
are not unfolded again.

A live connection waits for `EPOLLIN`, and for `EPOLLOUT` exactly while bytes
are unsent.  That is part of what the handlers preserve.
-/

import EpollHttpServer.Lib.Ledger
import EpollHttpServer.Server.Connection

namespace EpollHttpServer.Server

open EpollHttpServer.Lib EpollHttpServer.Http EpollHttpServer.Reactor

/-! ## What can be observed in a log -/

/-- The bytes that an effect moves into the kernel. -/
def Effect.takenBytes : Effect → Bytes
  | .write _ data result => result.taken data
  | _ => []

/-- The message that an effect promises to the client. -/
def Effect.message : Effect → Bytes
  | .respond msg => msg
  | _ => []

/-- The stream of bytes to the client: `sendResponse` promises a message, and
the kernel's acceptance of bytes delivers them. -/
def output : Ledger Effect UInt8 where
  promised := Effect.message
  delivered := Effect.takenBytes

/-- The bytes that the kernel has accepted, in order. -/
def takenBytes (log : List Effect) : Bytes :=
  output.allDelivered log

/-- The messages of the responses given to `sendResponse`, in order. -/
def messages (log : List Effect) : Bytes :=
  output.allPromised log

@[simp] theorem takenBytes_nil : takenBytes [] = [] := rfl
@[simp] theorem messages_nil : messages [] = [] := rfl

@[simp]
theorem takenBytes_cons (e : Effect) (log : List Effect) :
    takenBytes (e :: log) = e.takenBytes ++ takenBytes log := rfl

@[simp]
theorem messages_cons (e : Effect) (log : List Effect) :
    messages (e :: log) = e.message ++ messages log := rfl

@[simp]
theorem takenBytes_append (first second : List Effect) :
    takenBytes (first ++ second) = takenBytes first ++ takenBytes second :=
  Ledger.allDelivered_append first second

@[simp]
theorem messages_append (first second : List Effect) :
    messages (first ++ second) = messages first ++ messages second :=
  Ledger.allPromised_append first second

/-- What `removeConnection` does on a live connection. -/
def teardown (fd : ℕ) : List Effect :=
  [.epollCtl fd .del, .close fd, .queueErase fd]

/-- An effect that is a call of `write` which went well, or found the socket
buffer full. -/
def Effect.isSoftWrite (fd : ℕ) : Effect → Prop
  | .write fd' _ (.accepted count) => fd' = fd ∧ 0 < count
  | .write fd' _ (.error errno) => fd' = fd ∧ errno = EAGAIN
  | _ => False

/-- An effect that is a call of `write`. -/
def Effect.isWrite (fd : ℕ) : Effect → Prop
  | .write fd' _ _ => fd' = fd
  | _ => False

theorem Effect.isWrite_of_isSoftWrite {fd : ℕ} {e : Effect} (hsoft : e.isSoftWrite fd) :
    e.isWrite fd := by
  cases e with
  | write fd' data result =>
      cases result with
      | accepted count => exact hsoft.1
      | error errno => exact hsoft.1
  | _ => exact hsoft.elim

/-- An effect that does not concern what the connection shares with others:
its entry in the epoll set, its descriptor and the queue of its loop. -/
def Effect.isLocal (fd : ℕ) : Effect → Prop
  | .epollCtl fd' (.mod _) => fd' = fd
  | .epollCtl _ _ => False
  | .close _ => False
  | .queueErase _ => False
  | _ => True

theorem Effect.isLocal_of_isWrite {fd : ℕ} {e : Effect} (hwrite : e.isWrite fd) :
    e.isLocal fd := by
  cases e with
  | write => trivial
  | _ => exact hwrite.elim

theorem messages_of_isWrite {fd : ℕ} {writes : List Effect}
    (hwrites : ∀ e ∈ writes, e.isWrite fd) : messages writes = [] := by
  apply List.flatMap_eq_nil_iff.mpr
  intro e he
  have hwrite := hwrites e he
  cases e with
  | respond msg => exact hwrite.elim
  | _ => rfl

/-- The answer of the kernel does not end the connection. -/
def WriteAnswer.isSoft : WriteAnswer → Prop
  | .room bytes => 0 < bytes
  | .fail errno => errno = EAGAIN

instance (answer : WriteAnswer) : Decidable answer.isSoft := by
  cases answer <;> unfold WriteAnswer.isSoft <;> infer_instance

/-- A write that a signal interrupts is taken for a failure. -/
example : ¬ (WriteAnswer.fail EINTR).isSoft := by decide

/-- The read returns neither bytes nor the end of the stream. -/
def ReadResult.fails : ReadResult → Prop
  | .data _ => False
  | .error _ => True

instance (read : ReadResult) : Decidable read.fails :=
  match read with
  | .data _ => inferInstanceAs (Decidable False)
  | .error _ => inferInstanceAs (Decidable True)

/-! ## Connections -/

namespace Connection

/-- The bytes that are buffered and not yet sent. -/
def pending (c : Connection) : Bytes :=
  c.writeBuf.drop c.writeSent

/-- A connection that is being served. -/
structure Live (c : Connection) : Prop where
  notClosing : c.closing = false
  registered : c.channel.addedToEpoll = true
  callbacks : c.channel.callbacks = [.read, .write, .close]
  sent_le : c.writeSent ≤ c.writeBuf.length
  events : c.channel.events =
    if c.writeSent < c.writeBuf.length then EPOLLIN ||| EPOLLOUT else EPOLLIN

/-- A connection that has been taken out of service. -/
structure Closed (c : Connection) : Prop where
  closing : c.closing = true
  notRegistered : c.channel.addedToEpoll = false
  events : c.channel.events = 0

/-- The connection after `removeConnection`. -/
def remove (c : Connection) : Connection :=
  { c with closing := true, channel := { c.channel with events := 0, addedToEpoll := false } }

/-- The connection while the rest of a message waits to be sent. -/
def buffer (c : Connection) (rest : Bytes) : Connection :=
  { c with
    writeBuf := rest
    writeSent := 0
    channel := { c.channel with events := EPOLLIN ||| EPOLLOUT } }

/-- The connection when more of what was buffered has been sent. -/
def advance (c : Connection) (count : ℕ) : Connection :=
  { c with writeSent := c.writeSent + count }

/-- The connection when all that was buffered is out. -/
def drain (c : Connection) : Connection :=
  { c with writeBuf := [], writeSent := 0, channel := { c.channel with events := EPOLLIN } }

theorem closed_remove (c : Connection) : c.remove.Closed := ⟨rfl, rfl, rfl⟩

theorem length_pending (c : Connection) : c.pending.length = c.writeBuf.length - c.writeSent :=
  List.length_drop

@[simp]
theorem advance_zero (c : Connection) : c.advance 0 = c := rfl

theorem advance_advance (c : Connection) (first second : ℕ) :
    (c.advance first).advance second = c.advance (first + second) := by
  simp [advance, Nat.add_assoc]

theorem pending_advance (c : Connection) (count : ℕ) :
    (c.advance count).pending = c.pending.drop count := by
  simp [advance, pending, List.drop_drop]

variable {c : Connection}

theorem pending_eq_nil_iff :
    c.pending = [] ↔ ¬ c.writeSent < c.writeBuf.length := by
  rw [pending, List.drop_eq_nil_iff, not_lt]

theorem Live.buffer (hlive : c.Live) {rest : Bytes} (hrest : rest ≠ []) :
    (c.buffer rest).Live where
  notClosing := hlive.notClosing
  registered := hlive.registered
  callbacks := hlive.callbacks
  sent_le := Nat.zero_le _
  events := (if_pos (List.length_pos_of_ne_nil hrest)).symm

theorem Live.drain (hlive : c.Live) : c.drain.Live where
  notClosing := hlive.notClosing
  registered := hlive.registered
  callbacks := hlive.callbacks
  sent_le := Nat.zero_le _
  events := rfl

/-- More bytes have been sent, but not all. -/
theorem Live.advance (hlive : c.Live) {count : ℕ} (hcount : count < c.pending.length) :
    (c.advance count).Live where
  notClosing := hlive.notClosing
  registered := hlive.registered
  callbacks := hlive.callbacks
  sent_le := by
    rw [length_pending] at hcount
    dsimp only [Connection.advance]
    omega
  events := by
    rw [length_pending] at hcount
    have hbefore : c.writeSent < c.writeBuf.length := by omega
    have hafter : c.writeSent + count < c.writeBuf.length := by omega
    exact (hlive.events.trans (if_pos hbefore)).trans (if_pos hafter).symm

theorem Live.withRequest (hlive : c.Live) (request : HttpRequest) :
    ({ c with request := request } : Connection).Live :=
  ⟨hlive.notClosing, hlive.registered, hlive.callbacks, hlive.sent_le, hlive.events⟩

theorem Live.withRevents (hlive : c.Live) (revents : Events) :
    ({ c with channel := c.channel.setRevents revents } : Connection).Live :=
  ⟨hlive.notClosing, hlive.registered, hlive.callbacks, hlive.sent_le, hlive.events⟩

end Connection

/-! ## Handlers -/

namespace Session

variable {s : Session} {service : Service}

theorem removeConnection_of_live (hclosing : s.conn.closing = false)
    (hregistered : s.conn.channel.addedToEpoll = true) :
    s.removeConnection = ⟨s.conn.remove, s.log ++ teardown s.fd⟩ := by
  simp [removeConnection, hclosing, onChannel, Channel.disableAll, Channel.updateChannel,
    hregistered, emit, Connection.remove, teardown, fd]

/-- The number of bytes that `sendResponse` takes for sent, if the write did not
fail. -/
def sentCount (answer : WriteAnswer) (length : ℕ) : Option ℕ :=
  match answer.result length with
  | .accepted n => some n
  | .error errno => if errno = EAGAIN then some 0 else none

theorem sentCount_spec {answer : WriteAnswer} {msg : Bytes} {n : ℕ}
    (hsent : sentCount answer msg.length = some n) :
    n ≤ msg.length ∧ (answer.result msg.length).taken msg = msg.take n := by
  cases answer with
  | room bytes =>
      cases hsent
      exact ⟨min_le_right _ _, rfl⟩
  | fail errno =>
      by_cases hagain : errno = EAGAIN
      · simp [sentCount, WriteAnswer.result, hagain] at hsent
        subst hsent
        exact ⟨Nat.zero_le _, rfl⟩
      · simp [sentCount, WriteAnswer.result, hagain] at hsent

theorem sentCount_eq_none {answer : WriteAnswer} {length : ℕ}
    (hsent : sentCount answer length = none) :
    ∃ errno, answer = .fail errno ∧ errno ≠ EAGAIN := by
  cases answer with
  | room bytes => cases hsent
  | fail errno =>
      refine ⟨errno, rfl, fun hagain => ?_⟩
      simp [sentCount, WriteAnswer.result, hagain] at hsent

/-- The rest of `sendResponse`, by the number of bytes that it takes for sent. -/
def afterWrite (msg : Bytes) (keepAlive : Bool) (s : Session) : Option ℕ → Session
  | none => s.removeConnection
  | some n =>
    if n < msg.length then
      { s with conn.writeBuf := msg.drop n, conn.writeSent := 0 }.onChannel Channel.enableWriting
    else if keepAlive then s.resetRequest
    else s.removeConnection

variable (service) in
/-- What `sendResponse` can do: fail and close, buffer the rest of the message,
or finish at once and keep or close as the response says. -/
theorem sendResponse_cases (hlive : s.conn.Live) (answer : WriteAnswer) (resp : HttpResponse) :
    let msg := resp.toMessage service.order
    let tried := [Effect.respond msg, .write s.fd msg (answer.result msg.length)]
    (sentCount answer msg.length = none ∧
      s.sendResponse service answer resp =
        ⟨s.conn.remove, s.log ++ tried ++ teardown s.fd⟩) ∨
    (∃ n < msg.length, sentCount answer msg.length = some n ∧
      s.sendResponse service answer resp = ⟨s.conn.buffer (msg.drop n),
        s.log ++ tried ++ [.epollCtl s.fd (.mod (EPOLLIN ||| EPOLLOUT))]⟩) ∨
    (sentCount answer msg.length = some msg.length ∧ resp.keepAlive = true ∧
      s.sendResponse service answer resp =
        ⟨{ s.conn with request := .fresh }, s.log ++ tried ++ [.reset]⟩) ∨
    (sentCount answer msg.length = some msg.length ∧ resp.keepAlive = false ∧
      s.sendResponse service answer resp =
        ⟨s.conn.remove, s.log ++ tried ++ teardown s.fd⟩) := by
  intro msg tried
  let tries : Session := (s.emit (.respond msg)).emit (.write s.fd msg (answer.result msg.length))
  have hlog : tries.log = s.log ++ tried := by simp [tries, tried, emit]
  have hremove : tries.removeConnection = ⟨s.conn.remove, s.log ++ tried ++ teardown s.fd⟩ := by
    rw [removeConnection_of_live (s := tries) hlive.notClosing hlive.registered, hlog]
    rfl
  have hunfold : s.sendResponse service answer resp =
      afterWrite msg resp.keepAlive tries (sentCount answer msg.length) := rfl
  have hmask : s.conn.channel.events ||| EPOLLOUT = EPOLLIN ||| EPOLLOUT := by
    rw [hlive.events]
    split <;> decide
  cases hsent : sentCount answer msg.length with
  | none =>
      rw [hsent] at hunfold
      exact .inl ⟨rfl, hunfold.trans hremove⟩
  | some n =>
      rw [hsent, afterWrite] at hunfold
      by_cases hshort : n < msg.length
      · refine .inr (.inl ⟨n, hshort, rfl, ?_⟩)
        rw [hunfold, if_pos hshort]
        have hevents : ¬ EPOLLIN ||| EPOLLOUT = 0 := by decide
        simp [onChannel, Channel.enableWriting, Channel.updateChannel, tries, emit, tried, hmask,
          hevents, hlive.registered, Connection.buffer, fd]
      · have hall : n = msg.length := le_antisymm (sentCount_spec hsent).1 (not_lt.mp hshort)
        subst hall
        rw [if_neg hshort] at hunfold
        cases hkeep : resp.keepAlive with
        | true =>
            rw [hkeep, if_pos rfl] at hunfold
            refine .inr (.inr (.inl ⟨rfl, rfl, ?_⟩))
            rw [hunfold]
            simp [resetRequest, HttpRequest.reset, tries, emit, tried]
        | false =>
            rw [hkeep, if_neg Bool.false_ne_true] at hunfold
            exact .inr (.inr (.inr ⟨rfl, rfl, hunfold.trans hremove⟩))

/-- What the loop of `onWrite` can do: send everything, stop where the socket
buffer is full, or fail and close.  In each case the kernel has taken the first
unsent bytes. -/
inductive WriteOutcome (s : Session) (answers : List WriteAnswer) (r : Bool × Session) : Prop where
  | /-- Everything is out. -/
    all (writes : List Effect) (hsoft : ∀ e ∈ writes, e.isSoftWrite s.fd)
      (htaken : takenBytes writes = s.conn.pending)
      (hresult : r = (true, ⟨s.conn.advance s.conn.pending.length, s.log ++ writes⟩))
  | /-- The socket buffer is full. -/
    blocked (writes : List Effect) (count : ℕ) (hcount : count < s.conn.pending.length)
      (hsoft : ∀ e ∈ writes, e.isSoftWrite s.fd)
      (htaken : takenBytes writes = s.conn.pending.take count)
      (hresult : r = (false, ⟨s.conn.advance count, s.log ++ writes⟩))
  | /-- A write failed. -/
    failed (writes : List Effect) (count : ℕ) (hcount : count < s.conn.pending.length)
      (hwrites : ∀ e ∈ writes, e.isWrite s.fd)
      (htaken : takenBytes writes = s.conn.pending.take count)
      (hhard : ∃ answer ∈ answers, ¬ answer.isSoft)
      (hresult : r = (false,
        ⟨(s.conn.advance count).remove, s.log ++ writes ++ teardown s.fd⟩))

/-- One write that takes `count` bytes, before whatever the rest of the loop does. -/
theorem WriteOutcome.prepend {answer : WriteAnswer} {answers : List WriteAnswer}
    {r : Bool × Session} {w : Effect} {count : ℕ} (hcount : count ≤ s.conn.pending.length)
    (hw : w.isSoftWrite s.fd) (hwTaken : w.takenBytes = s.conn.pending.take count)
    (hrest : WriteOutcome ⟨s.conn.advance count, s.log ++ [w]⟩ answers r) :
    WriteOutcome s (answer :: answers) r := by
  have hlength : (s.conn.pending.drop count).length = s.conn.pending.length - count :=
    List.length_drop
  have hsoft {writes : List Effect} (hwrites : ∀ e ∈ writes, e.isSoftWrite s.fd) :
      ∀ e ∈ w :: writes, e.isSoftWrite s.fd := by
    intro e he
    rcases List.mem_cons.mp he with rfl | he
    · exact hw
    · exact hwrites e he
  cases hrest with
  | all writes hwrites htaken hresult =>
      rw [Connection.pending_advance] at htaken hresult
      apply WriteOutcome.all (w :: writes) (hsoft hwrites)
      · rw [takenBytes_cons, hwTaken, htaken, List.take_append_drop]
      · rw [hresult, hlength, Connection.advance_advance, Nat.add_sub_cancel' hcount,
          List.append_assoc]
        rfl
  | blocked writes more hmore hwrites htaken hresult =>
      rw [Connection.pending_advance] at htaken hmore
      apply WriteOutcome.blocked (w :: writes) (count + more) (by omega) (hsoft hwrites)
      · rw [takenBytes_cons, hwTaken, htaken, List.take_add]
      · rw [hresult, Connection.advance_advance, List.append_assoc]
        rfl
  | failed writes more hmore hwrites htaken hhard hresult =>
      rw [Connection.pending_advance] at htaken hmore
      apply WriteOutcome.failed (w :: writes) (count + more) (by omega)
      · intro e he
        rcases List.mem_cons.mp he with rfl | he
        · exact Effect.isWrite_of_isSoftWrite hw
        · exact hwrites e he
      · rw [takenBytes_cons, hwTaken, htaken, List.take_add]
      · obtain ⟨bad, hmem, hbad⟩ := hhard
        exact ⟨bad, List.mem_cons_of_mem _ hmem, hbad⟩
      · rw [hresult, Connection.advance_advance]
        simp [fd, Connection.advance]

/-- A write that fails, or that the kernel answers with nothing, ends the loop. -/
theorem writeLoop_failed {answer : WriteAnswer} {answers : List WriteAnswer}
    (hclosing : s.conn.closing = false) (hregistered : s.conn.channel.addedToEpoll = true)
    (hpending : 0 < s.conn.pending.length) (hbad : ¬ answer.isSoft)
    {r : Bool × Session} {w : Effect} (hw : w.isWrite s.fd) (hwTaken : w.takenBytes = [])
    (hresult : r = (false, (s.emit w).removeConnection)) :
    WriteOutcome s (answer :: answers) r := by
  apply WriteOutcome.failed [w] 0 hpending (by simpa using hw)
  · rw [takenBytes_cons, hwTaken]
    rfl
  · exact ⟨answer, List.mem_cons_self .., hbad⟩
  · rw [hresult, removeConnection_of_live (s := s.emit w) hclosing hregistered]
    rfl

/-- When nothing is unsent, the loop does nothing. -/
theorem writeLoop_of_empty (hempty : s.conn.pending.length = 0) (answers : List WriteAnswer) :
    WriteOutcome s answers (s.writeLoop s.conn.pending.length answers) := by
  apply WriteOutcome.all [] (by simp)
  · rw [takenBytes_nil, List.length_eq_zero_iff.mp hempty]
  · cases answers <;> simp [writeLoop, hempty]

/-- The loop of `onWrite`, from any point at which the connection is open.  The
induction is on the answers of the kernel; each round moves `writeSent`, so
the connection it continues with is not live in between. -/
theorem writeLoop_outcome (hclosing : s.conn.closing = false)
    (hregistered : s.conn.channel.addedToEpoll = true) (answers : List WriteAnswer) :
    WriteOutcome s answers (s.writeLoop s.conn.pending.length answers) := by
  induction answers generalizing s with
  | nil =>
      by_cases hempty : s.conn.pending.length = 0
      · exact writeLoop_of_empty hempty _
      · apply WriteOutcome.blocked [.write s.fd s.conn.pending (.error EAGAIN)] 0
        · omega
        · simp [Effect.isSoftWrite]
        · rfl
        · have hdata : (s.conn.writeBuf.drop s.conn.writeSent).take s.conn.pending.length =
              s.conn.pending := List.take_length
          simp [writeLoop, hempty, hdata, emit]
  | cons answer answers ih =>
      by_cases hempty : s.conn.pending.length = 0
      · exact writeLoop_of_empty hempty _
      · have hpositive : 0 < s.conn.pending.length := by omega
        have hdata : (s.conn.writeBuf.drop s.conn.writeSent).take s.conn.pending.length =
            s.conn.pending := List.take_length
        have hfailed {w : Effect} (hbad : ¬ answer.isSoft) (hw : w.isWrite s.fd)
            (hwTaken : w.takenBytes = []) :
            WriteOutcome s (answer :: answers) (false, (s.emit w).removeConnection) :=
          writeLoop_failed hclosing hregistered hpositive hbad hw hwTaken rfl
        rw [writeLoop, if_neg hempty, hdata]
        cases answer with
        | room bytes =>
            let count := min bytes s.conn.pending.length
            let w : Effect := .write s.fd s.conn.pending (.accepted count)
            simp only [WriteAnswer.result]
            by_cases hcount : 0 < count
            · have hle : count ≤ s.conn.pending.length := min_le_right _ _
              have hw : w.isSoftWrite s.fd := And.intro rfl hcount
              rw [if_pos hcount]
              apply WriteOutcome.prepend hle hw rfl
              have hnext := ih (s := ⟨s.conn.advance count, s.log ++ [w]⟩) hclosing hregistered
              rwa [Connection.pending_advance, List.length_drop] at hnext
            · have hzero : count = 0 := by omega
              have hbytes : ¬ 0 < bytes := fun hroom => hcount (lt_min hroom hpositive)
              rw [if_neg hcount]
              apply hfailed hbytes
              · exact rfl
              · show s.conn.pending.take count = []
                rw [hzero, List.take_zero]
        | fail errno =>
            simp only [WriteAnswer.result]
            by_cases hagain : errno = EAGAIN
            · rw [if_pos (Or.inl hagain)]
              apply WriteOutcome.blocked [.write s.fd s.conn.pending (.error errno)] 0 hpositive
              · simp [Effect.isSoftWrite, hagain]
              · rfl
              · rfl
            · have hnot : ¬ (errno = EAGAIN ∨ errno = EWOULDBLOCK) := by
                simpa [EWOULDBLOCK] using hagain
              rw [if_neg hnot]
              apply hfailed hagain
              · exact rfl
              · rfl

/-- What `onWrite` can do: what its loop does, and when everything is out what
the request says about the connection. -/
theorem onWrite_cases (hlive : s.conn.Live) (d : Dispatch) :
    (∃ writes count, count < s.conn.pending.length ∧ (∀ e ∈ writes, e.isSoftWrite s.fd) ∧
      takenBytes writes = s.conn.pending.take count ∧
      s.onWrite d = ⟨s.conn.advance count, s.log ++ writes⟩) ∨
    (∃ writes count, count < s.conn.pending.length ∧ (∀ e ∈ writes, e.isWrite s.fd) ∧
      takenBytes writes = s.conn.pending.take count ∧ (∃ answer ∈ d.writes, ¬ answer.isSoft) ∧
      s.onWrite d =
        ⟨(s.conn.advance count).remove, s.log ++ writes ++ teardown s.fd⟩) ∨
    (∃ writes, (∀ e ∈ writes, e.isSoftWrite s.fd) ∧ takenBytes writes = s.conn.pending ∧
      s.conn.request.keepAlive = true ∧
      s.onWrite d = ⟨{ s.conn.drain with request := .fresh },
        s.log ++ writes ++ [.epollCtl s.fd (.mod EPOLLIN), .reset]⟩) ∨
    (∃ writes, (∀ e ∈ writes, e.isSoftWrite s.fd) ∧ takenBytes writes = s.conn.pending ∧
      s.conn.request.keepAlive = false ∧
      s.onWrite d = ⟨s.conn.drain.remove,
        s.log ++ writes ++ .epollCtl s.fd (.mod EPOLLIN) :: teardown s.fd⟩) := by
  have hloop := writeLoop_outcome hlive.notClosing hlive.registered d.writes
  rw [Connection.length_pending] at hloop
  cases hloop with
  | blocked writes count hcount hsoft htaken hresult =>
      refine .inl ⟨writes, count, hcount, hsoft, htaken, ?_⟩
      rw [onWrite, hresult]
  | failed writes count hcount hwrites htaken hhard hresult =>
      refine .inr (.inl ⟨writes, count, hcount, hwrites, htaken, hhard, ?_⟩)
      rw [onWrite, hresult]
  | all writes hsoft htaken hresult =>
      let out : Session := ⟨s.conn.drain, s.log ++ writes ++ [.epollCtl s.fd (.mod EPOLLIN)]⟩
      have hmask : s.conn.channel.events &&& ~~~EPOLLOUT = EPOLLIN := by
        rw [hlive.events]
        split <;> decide
      have hdrained : ({ conn := { s.conn.advance s.conn.pending.length with
            writeBuf := [], writeSent := 0 }, log := s.log ++ writes } : Session).onChannel
              Channel.disableWriting = out := by
        have hevents : ¬ EPOLLIN = 0 := by decide
        simp [onChannel, Channel.disableWriting, Channel.updateChannel, Connection.advance, hmask,
          hevents, hlive.registered, out, Connection.drain, fd]
      have honWrite : s.onWrite d =
          if out.conn.request.keepAlive then out.resetRequest else out.removeConnection := by
        rw [onWrite, hresult, ← hdrained]
      cases hkeep : s.conn.request.keepAlive with
      | true =>
          refine .inr (.inr (.inl ⟨writes, hsoft, htaken, rfl, ?_⟩))
          have hstay : out.conn.request.keepAlive = true := hkeep
          rw [honWrite, if_pos hstay]
          simp [resetRequest, HttpRequest.reset, emit, out]
      | false =>
          refine .inr (.inr (.inr ⟨writes, hsoft, htaken, rfl, ?_⟩))
          have hclose : ¬ out.conn.request.keepAlive = true := by
            rw [show out.conn.request.keepAlive = false from hkeep]
            exact Bool.false_ne_true
          rw [honWrite, if_neg hclose,
            removeConnection_of_live (s := out) hlive.notClosing hlive.registered]
          simp [out, fd, Connection.drain]

/-- What the parser's completion of a request leaves in the log. -/
def completion (before after : HttpRequest) : List Effect :=
  if after.gotAll ∧ ¬ before.gotAll then [.completed] else []

/-- What the hand-over of a request to the callback leaves in the log. -/
def handover (service : Service) (request : HttpRequest) : List Effect :=
  if service.callback.isSome then [.callback request] else []

/-- The session in which `sendResponse` is called for a read. -/
def afterParse (s : Session) (read : ReadResult) (request : HttpRequest)
    (notes : List Effect) : Session :=
  ⟨{ s.conn with request := request }, s.log ++ .read s.fd read :: notes⟩

/-- What `onRead` can do. -/
inductive ReadOutcome (service : Service) (d : Dispatch) (s : Session) : Session → Prop where
  | /-- The read failed. -/
    failed (errno : Errno) (hread : d.read = .error errno) :
      ReadOutcome service d s (s.afterParse d.read s.conn.request [])
  | /-- The peer has closed. -/
    ended (hread : d.read = .data []) :
      ReadOutcome service d s ⟨s.conn.remove, s.log ++ .read s.fd d.read :: teardown s.fd⟩
  | /-- The request is not complete yet. -/
    waiting (bytes : Bytes) (request : HttpRequest) (hread : d.read = .data bytes)
      (hbytes : bytes ≠ []) (hparse : s.conn.request.parse bytes = (true, request))
      (hgot : request.gotAll = false) :
      ReadOutcome service d s (s.afterParse d.read request [])
  | /-- The bytes are rejected and answered with 400. -/
    rejected (bytes : Bytes) (request : HttpRequest) (hread : d.read = .data bytes)
      (hbytes : bytes ≠ []) (hparse : s.conn.request.parse bytes = (false, request)) :
      ReadOutcome service d s ((s.afterParse d.read request []).sendResponse service
        (d.writes.headD (.fail EAGAIN)) .badRequest)
  | /-- A complete request is answered. -/
    answered (bytes : Bytes) (request : HttpRequest) (hread : d.read = .data bytes)
      (hbytes : bytes ≠ []) (hparse : s.conn.request.parse bytes = (true, request))
      (hgot : request.gotAll = true) :
      ReadOutcome service d s
        ((s.afterParse d.read request
          (completion s.conn.request request ++ handover service request)).sendResponse service
            (d.writes.headD (.fail EAGAIN)) (s.responseTo service request))

theorem storeRequest_eq (s : Session) (request : HttpRequest) :
    s.storeRequest request =
      ⟨{ s.conn with request := request }, s.log ++ completion s.conn.request request⟩ := by
  unfold storeRequest completion
  split <;> simp [emit]

theorem responseTo_congr {s t : Session} {request : HttpRequest}
    (hcount : callbackCount s.log = callbackCount t.log) :
    s.responseTo service request = t.responseTo service request := by
  rw [responseTo, responseTo, hcount]

theorem callbackCount_append (first second : List Effect) :
    callbackCount (first ++ second) = callbackCount first + callbackCount second :=
  List.countP_append

/-- Bytes that are rejected complete no request. -/
theorem completion_of_rejected {before request : HttpRequest} {bytes : Bytes}
    (hparse : before.parse bytes = (false, request)) : completion before request = [] := by
  have hrejects : (before.parse bytes).1 = false := by rw [hparse]
  have hkept := HttpRequest.parse_rejects_gotAll hrejects
  rw [hparse] at hkept
  exact if_neg fun hnew => hnew.2 (hkept hnew.1)

theorem callbackCount_completion (s : Session) (read : ReadResult) (request : HttpRequest) :
    callbackCount (s.afterParse read request (completion s.conn.request request)).log =
      callbackCount s.log := by
  unfold afterParse completion
  split <;> simp [callbackCount]

/-- The request that was just completed is handed over and answered. -/
theorem answerRequest_afterParse (s : Session) (read : ReadResult) (request : HttpRequest)
    (answer : WriteAnswer) :
    (s.afterParse read request (completion s.conn.request request)).answerRequest service answer =
      (s.afterParse read request
        (completion s.conn.request request ++ handover service request)).sendResponse service
          answer (s.responseTo service request) := by
  rw [answerRequest, responseTo_congr (callbackCount_completion s read request)]
  unfold handover
  split <;> simp [emit, afterParse]

theorem onRead_outcome (hlive : s.conn.Live) (d : Dispatch) :
    ReadOutcome service d s (s.onRead service d) := by
  cases hread : d.read with
  | error errno =>
      have hresult : s.onRead service d = s.afterParse d.read s.conn.request [] := by
        simp [onRead, hread, emit, afterParse]
      rw [hresult]
      exact .failed errno hread
  | data bytes =>
      by_cases hempty : bytes = []
      · subst hempty
        have hresult : s.onRead service d =
            ⟨s.conn.remove, s.log ++ .read s.fd d.read :: teardown s.fd⟩ := by
          have hremove := removeConnection_of_live (s := s.emit (.read s.fd d.read))
            hlive.notClosing hlive.registered
          rw [hread] at hremove
          simp only [onRead, hread]
          rw [hremove]
          simp [emit, fd]
        rw [hresult]
        exact .ended hread
      · have hbytes : ∃ b rest, bytes = b :: rest := List.exists_cons_of_ne_nil hempty
        cases hparse : s.conn.request.parse bytes with
        | mk verdict request =>
            have hresult : s.onRead service d =
                let s₁ := (s.emit (.read s.fd d.read)).storeRequest request
                if verdict = false then
                  s₁.sendResponse service (d.writes.headD (.fail EAGAIN)) .badRequest
                else if request.gotAll = false then s₁
                else s₁.answerRequest service (d.writes.headD (.fail EAGAIN)) := by
              obtain ⟨b, rest, rfl⟩ := hbytes
              simp only [onRead, hread, hparse]
            have hstored : (s.emit (.read s.fd d.read)).storeRequest request =
                s.afterParse d.read request (completion s.conn.request request) := by
              rw [storeRequest_eq]
              simp [emit, afterParse]
            rw [hstored] at hresult
            rw [hresult]
            cases verdict with
            | false =>
                rw [completion_of_rejected hparse]
                exact .rejected bytes request hread hempty hparse
            | true =>
                cases hgot : request.gotAll with
                | false =>
                    have hnotes : completion s.conn.request request = [] := by
                      simp [completion, hgot]
                    rw [hnotes]
                    exact .waiting bytes request hread hempty hparse hgot
                | true =>
                    simp only [Bool.true_eq_false, if_false, answerRequest_afterParse]
                    exact .answered bytes request hread hempty hparse hgot

/-- A read that fails leaves the connection as it is. -/
theorem onRead_of_fails {d : Dispatch} (hlive : s.conn.Live) (hfails : d.read.fails) :
    s.onRead service d = s.afterParse d.read s.conn.request [] := by
  generalize hresult : s.onRead service d = u
  have houtcome : ReadOutcome service d s u := hresult ▸ onRead_outcome hlive d
  cases houtcome with
  | failed => rfl
  | ended hread | waiting _ _ hread | rejected _ _ hread | answered _ _ hread =>
      rw [hread] at hfails
      exact hfails.elim

/-- Bytes that are accepted: a part of a request is stored, a complete request
is answered. -/
theorem onRead_of_accepted {d : Dispatch} {bytes : Bytes} {request : HttpRequest}
    (hlive : s.conn.Live) (hread : d.read = .data bytes) (hbytes : bytes ≠ [])
    (hparse : s.conn.request.parse bytes = (true, request)) :
    s.onRead service d =
      if request.gotAll = true then
        (s.afterParse d.read request
          (completion s.conn.request request ++ handover service request)).sendResponse service
            (d.writes.headD (.fail EAGAIN)) (s.responseTo service request)
      else s.afterParse d.read request [] := by
  generalize hresult : s.onRead service d = u
  have houtcome : ReadOutcome service d s u := hresult ▸ onRead_outcome hlive d
  cases houtcome with
  | failed errno hread' => exact absurd (hread.symm.trans hread') (by simp)
  | ended hread' => exact absurd (ReadResult.data.inj (hread.symm.trans hread')) hbytes
  | waiting bytes' request' hread' _ hparse' hgot =>
      cases hread.symm.trans hread'
      cases hparse.symm.trans hparse'
      rw [if_neg (by simp [hgot])]
  | rejected bytes' request' hread' _ hparse' =>
      cases hread.symm.trans hread'
      cases hparse.symm.trans hparse'
  | answered bytes' request' hread' _ hparse' hgot =>
      cases hread.symm.trans hread'
      cases hparse.symm.trans hparse'
      rw [if_pos hgot]

/-! ## Dispatch -/

/-- The session when the loop has stored what epoll reported. -/
def notified (s : Session) (revents : Events) : Session :=
  { s with conn.channel := s.conn.channel.setRevents revents }

/-- The callback that a dispatch invokes. -/
def selects (s : Session) (d : Dispatch) : Option Callback :=
  (s.conn.channel.setRevents d.revents).selected

theorem dispatch_eq (s : Session) (d : Dispatch) :
    s.dispatch service d =
      match s.selects d with
      | some .write => (s.notified d.revents).onWrite d
      | some .read => (s.notified d.revents).onRead service d
      | some .close => (s.notified d.revents).onClose
      | some .error => s.notified d.revents
      | none => s.notified d.revents := rfl

/-- A new connection is registered for reading. -/
theorem created_eq (loop fd : ℕ) : created loop fd =
    { conn :=
        { loop := loop
          channel :=
            { fd := fd
              events := EPOLLIN
              revents := 0
              addedToEpoll := true
              callbacks := [.read, .write, .close] }
          request := .fresh
          writeBuf := []
          writeSent := 0
          closing := false }
      log := [.epollCtl fd (.add EPOLLIN)] } := by
  have hevents : ¬ EPOLLIN = 0 := by decide
  simp [created, onChannel, Channel.enableReading, Channel.create, Channel.updateChannel, hevents]
  rfl

theorem live_created (loop fd : ℕ) : (created loop fd).conn.Live := by
  rw [created_eq]
  exact ⟨rfl, rfl, rfl, le_rfl, rfl⟩

/-- `EPOLLOUT` is only reported while bytes are unsent. -/
theorem pending_of_selects_write (hlive : s.conn.Live) {d : Dispatch}
    (hmay : s.conn.channel.mayReport d.revents) (hselects : s.selects d = some .write) :
    s.conn.pending ≠ [] := by
  intro hnone
  have hevents := hlive.events
  rw [if_neg (Connection.pending_eq_nil_iff.mp hnone)] at hevents
  have hmask := hmay.2
  rw [hevents] at hmask
  have hnotWritable : ¬ d.revents.has EPOLLOUT :=
    Events.not_has_of_allowed hmask (by decide)
  exact hnotWritable (Channel.has_of_selected_write hselects)

/-- What a handler leaves behind: the connection in service, or taken out of it
as the last thing that the handler does. -/
inductive Leads (s t : Session) : Prop where
  | stays (effects : List Effect) (hlocal : ∀ e ∈ effects, e.isLocal s.fd)
      (hlog : t.log = s.log ++ effects) (hfd : t.fd = s.fd) (hlive : t.conn.Live)
  | ends (effects : List Effect) (hlocal : ∀ e ∈ effects, e.isLocal s.fd)
      (hlog : t.log = s.log ++ (effects ++ teardown s.fd)) (hfd : t.fd = s.fd)
      (hclosed : t.conn.Closed)

theorem Leads.live_or_closed {t : Session} (hleads : Leads s t) :
    t.conn.Live ∨ t.conn.Closed := by
  cases hleads with
  | stays _ _ _ _ hlive => exact .inl hlive
  | ends _ _ _ _ hclosed => exact .inr hclosed

/-- What comes before changes nothing about how a handler ends. -/
theorem Leads.prepend {t : Session} (conn : Connection) {first : List Effect}
    (hconn : conn.channel.fd = s.fd) (hfirst : ∀ e ∈ first, e.isLocal s.fd)
    (hleads : Leads ⟨conn, s.log ++ first⟩ t) : Leads s t := by
  have hfd : fd ⟨conn, s.log ++ first⟩ = s.fd := hconn
  have hlocal {effects : List Effect} (heffects : ∀ e ∈ effects, e.isLocal s.fd) :
      ∀ e ∈ first ++ effects, e.isLocal s.fd := fun e he =>
    (List.mem_append.mp he).elim (hfirst e) (heffects e)
  cases hleads with
  | stays effects heffects hlog ht hlive =>
      rw [hfd] at heffects ht
      exact .stays (first ++ effects) (hlocal heffects) (by rw [hlog, List.append_assoc]) ht hlive
  | ends effects heffects hlog ht hclosed =>
      rw [hfd] at heffects ht hlog
      exact .ends (first ++ effects) (hlocal heffects)
        (by rw [hlog, List.append_assoc, List.append_assoc]) ht hclosed

theorem leads_sendResponse (hlive : s.conn.Live) (answer : WriteAnswer) (resp : HttpResponse) :
    Leads s (s.sendResponse service answer resp) := by
  have htried : ∀ e ∈ [Effect.respond (resp.toMessage service.order),
      .write s.fd (resp.toMessage service.order)
        (answer.result (resp.toMessage service.order).length)], e.isLocal s.fd := by
    simp [Effect.isLocal]
  rcases sendResponse_cases service hlive answer resp with
    ⟨_, hresult⟩ | ⟨n, hn, _, hresult⟩ | ⟨_, _, hresult⟩ | ⟨_, _, hresult⟩
  · rw [hresult]
    exact .ends _ htried (List.append_assoc ..) rfl (Connection.closed_remove _)
  · rw [hresult]
    have hrest : (resp.toMessage service.order).drop n ≠ [] := by
      rw [Ne, List.drop_eq_nil_iff, not_le]
      exact hn
    exact .stays _ (by simp [Effect.isLocal]) (List.append_assoc ..) rfl (hlive.buffer hrest)
  · rw [hresult]
    exact .stays _ (by simp [Effect.isLocal]) (List.append_assoc ..) rfl (hlive.withRequest _)
  · rw [hresult]
    exact .ends _ htried (List.append_assoc ..) rfl (Connection.closed_remove _)

theorem live_afterParse (hlive : s.conn.Live) (read : ReadResult) (request : HttpRequest)
    (notes : List Effect) : (s.afterParse read request notes).conn.Live :=
  hlive.withRequest request

theorem ReadOutcome.leads {d : Dispatch} {t : Session} (hlive : s.conn.Live)
    (houtcome : ReadOutcome service d s t) : Leads s t := by
  have hcompletion (request : HttpRequest) :
      ∀ e ∈ completion s.conn.request request, e.isLocal s.fd := by
    intro e he
    unfold completion at he
    split at he <;> simp_all [Effect.isLocal]
  have hhandover (request : HttpRequest) : ∀ e ∈ handover service request, e.isLocal s.fd := by
    intro e he
    unfold handover at he
    split at he <;> simp_all [Effect.isLocal]
  have hread : (Effect.read s.fd d.read).isLocal s.fd := trivial
  cases houtcome with
  | failed errno =>
      exact .stays [.read s.fd d.read] (by simpa using hread) rfl rfl (live_afterParse hlive ..)
  | ended =>
      exact .ends [.read s.fd d.read] (by simpa using hread) rfl rfl (Connection.closed_remove _)
  | waiting =>
      exact .stays [.read s.fd d.read] (by simpa using hread) rfl rfl (live_afterParse hlive ..)
  | rejected bytes request =>
      exact .prepend { s.conn with request := request } rfl (by simpa using hread)
        (leads_sendResponse (live_afterParse hlive ..) ..)
  | answered bytes request =>
      refine .prepend { s.conn with request := request } rfl ?_
        (leads_sendResponse (live_afterParse hlive ..) ..)
      intro e he
      rcases List.mem_cons.mp he with rfl | hnote
      · exact hread
      · exact (List.mem_append.mp hnote).elim (hcompletion request e) (hhandover request e)

theorem leads_onWrite (hlive : s.conn.Live) (d : Dispatch) : Leads s (s.onWrite d) := by
  have hlocal {writes : List Effect} (hwrites : ∀ e ∈ writes, e.isWrite s.fd) :
      ∀ e ∈ writes, e.isLocal s.fd := fun e he => Effect.isLocal_of_isWrite (hwrites e he)
  have hsoft {writes : List Effect} (hwrites : ∀ e ∈ writes, e.isSoftWrite s.fd) :
      ∀ e ∈ writes, e.isLocal s.fd :=
    hlocal fun e he => Effect.isWrite_of_isSoftWrite (hwrites e he)
  have hmask : (Effect.epollCtl s.fd (.mod EPOLLIN)).isLocal s.fd := rfl
  rcases onWrite_cases hlive d with ⟨writes, count, hcount, hwrites, _, hresult⟩ |
    ⟨writes, count, _, hwrites, _, _, hresult⟩ | ⟨writes, hwrites, _, _, hresult⟩ |
    ⟨writes, hwrites, _, _, hresult⟩
  · rw [hresult]
    exact .stays writes (hsoft hwrites) rfl rfl (hlive.advance hcount)
  · rw [hresult]
    exact .ends writes (hlocal hwrites) (List.append_assoc ..) rfl (Connection.closed_remove _)
  · rw [hresult]
    refine .stays (writes ++ [.epollCtl s.fd (.mod EPOLLIN), .reset]) ?_ (List.append_assoc ..) rfl
      (hlive.drain.withRequest _)
    intro e he
    rcases List.mem_append.mp he with hwrite | hlast
    · exact hsoft hwrites e hwrite
    · simp only [List.mem_cons, List.not_mem_nil, or_false] at hlast
      rcases hlast with rfl | rfl
      · exact hmask
      · trivial
  · rw [hresult]
    refine .ends (writes ++ [.epollCtl s.fd (.mod EPOLLIN)]) ?_ (by simp) rfl
      (Connection.closed_remove _)
    intro e he
    rcases List.mem_append.mp he with hwrite | hlast
    · exact hsoft hwrites e hwrite
    · rw [List.mem_singleton.mp hlast]
      exact hmask

/-- The step lemma for what a dispatch leaves behind. -/
theorem leads_dispatch (hlive : s.conn.Live) (d : Dispatch) : Leads s (s.dispatch service d) := by
  have hnotified : (s.notified d.revents).conn.Live := hlive.withRevents d.revents
  have hidle : Leads s (s.notified d.revents) :=
    .stays [] (by simp) (List.append_nil _).symm rfl hnotified
  have hhandled {t : Session} (hleads : Leads (s.notified d.revents) t) : Leads s t := by
    have hsame : Leads ⟨(s.notified d.revents).conn, s.log ++ []⟩ t := by
      rw [List.append_nil]
      exact hleads
    exact .prepend (s.notified d.revents).conn rfl (by simp) hsame
  rw [dispatch_eq]
  cases s.selects d with
  | none => exact hidle
  | some selected =>
      cases selected with
      | write => exact hhandled (leads_onWrite hnotified d)
      | read => exact hhandled ((onRead_outcome hnotified d).leads hnotified)
      | close =>
          dsimp only
          rw [onClose, removeConnection_of_live hnotified.notClosing hnotified.registered]
          exact hhandled (.ends [] (by simp) rfl rfl (Connection.closed_remove _))
      | error => exact hidle

/-- A step of a session is a dispatch to a connection that is registered. -/
theorem sessions_step {d : Dispatch} {t : Session} (hstep : (sessions service).step s d = some t) :
    s.conn.channel.mayReport d.revents ∧ d.read.fits ∧ t = s.dispatch service d := by
  simp only [sessions, Option.ite_none_right_eq_some, Option.some.injEq] at hstep
  exact ⟨hstep.1.1, hstep.1.2, hstep.2.symm⟩

/-- No event is dispatched to a connection that has been taken out of service. -/
theorem live_of_step (hconn : s.conn.Live ∨ s.conn.Closed) {d : Dispatch} {t : Session}
    (hstep : (sessions service).step s d = some t) : s.conn.Live := by
  rcases hconn with hlive | hclosed
  · exact hlive
  · have hregistered := (sessions_step hstep).1.1
    rw [hclosed.notRegistered] at hregistered
    exact absurd hregistered Bool.false_ne_true

theorem live_or_closed_step {d : Dispatch} {t : Session} (hconn : s.conn.Live ∨ s.conn.Closed)
    (hstep : (sessions service).step s d = some t) : t.conn.Live ∨ t.conn.Closed := by
  have hlive := live_of_step hconn hstep
  rw [(sessions_step hstep).2.2]
  exact (leads_dispatch hlive d).live_or_closed

/-- Every connection is in service or has been taken out of it. -/
theorem live_or_closed_of_reachable (hreach : (sessions service).Reachable s) :
    s.conn.Live ∨ s.conn.Closed := by
  refine Machine.Reachable.invariant (I := fun s : Session => s.conn.Live ∨ s.conn.Closed)
    ?_ ?_ hreach
  · rintro s ⟨loop, fd, rfl⟩
    exact .inl (live_created loop fd)
  · intro s d t hconn hstep
    exact live_or_closed_step hconn hstep

end Session

end EpollHttpServer.Server
