/-
# One connection and its handlers

The handlers of `HttpServer` work on one `Connection` at a time: they read the
socket, feed the parser, write the response and keep what could not be written
for the next `EPOLLOUT`.  A `Session` is a connection together with the log of
everything its handlers have done so far: system calls with their results,
calls of the user's callback, responses handed to `sendResponse`, and the
moments at which the parser completes or is reset.  The log is append-only and
nothing reads it, except to number the invocations of the callback.

What the kernel answers is part of a dispatch, so a run ranges over every
cutting of the input, every partial write and every error.
-/

import EpollHttpServer.Lib.Machine
import EpollHttpServer.Http.Request
import EpollHttpServer.Http.Response
import EpollHttpServer.Reactor.Channel

namespace EpollHttpServer.Server

open EpollHttpServer.Lib EpollHttpServer.Http EpollHttpServer.Reactor

/-- Error numbers of Linux, where `EWOULDBLOCK` is `EAGAIN`. -/
abbrev Errno : Type := ℕ

def EINTR : Errno := 4
def EAGAIN : Errno := 11
def EWOULDBLOCK : Errno := EAGAIN

/-- What `read` returns.  No bytes means that the peer has closed. -/
inductive ReadResult where
  | data (bytes : Bytes)
  | error (errno : Errno)
  deriving DecidableEq

/-- What `write` returns: how many bytes were accepted, or an error. -/
inductive WriteResult where
  | accepted (count : ℕ)
  | error (errno : Errno)
  deriving DecidableEq

/-- The state of the socket buffer when a write arrives: the room in it, or the
error with which the call fails.  `SIGPIPE` is assumed to be ignored, so that a
write to a connection that the peer has reset fails with `EPIPE`; the source
leaves the signal at its default, which ends the process. -/
inductive WriteAnswer where
  | room (bytes : ℕ)
  | fail (errno : Errno)
  deriving DecidableEq

/-- No call accepts more bytes than it was given. -/
def WriteAnswer.result (length : ℕ) : WriteAnswer → WriteResult
  | .room bytes => .accepted (min bytes length)
  | .fail errno => .error errno

/-- The bytes that a write moved into the kernel. -/
def WriteResult.taken (data : Bytes) : WriteResult → Bytes
  | .accepted count => data.take count
  | .error _ => []

/-- What the handlers of a connection do, in the order in which they do it. -/
inductive Effect where
  | read (fd : ℕ) (result : ReadResult)
  | write (fd : ℕ) (data : Bytes) (result : WriteResult)
  | epollCtl (fd : ℕ) (ctl : EpollCtl)
  | close (fd : ℕ)
  | /-- The functor that erases the map entry of this number is queued. -/
    queueErase (fd : ℕ)
  | /-- The parser entered `kGotAll`. -/
    completed
  | /-- `callback_` is invoked on this request. -/
    callback (request : HttpRequest)
  | /-- `sendResponse` is called for a response with this message. -/
    respond (message : Bytes)
  | reset
  deriving DecidableEq

/-- What is fixed while the server runs: how header maps are iterated, and the
callback if one is set.  The callback is told how often it has been invoked on
the same connection, so it may keep state of its own for each connection.  State
that connections share is not modelled. -/
structure Service where
  order : IterationOrder
  callback : Option (ℕ → HttpRequest → HttpResponse → HttpResponse)

/-- The response to a complete request when the callback has been invoked
`number` times before; without a callback it is `"OK"`. -/
def Service.response (service : Service) (number : ℕ) (request : HttpRequest) : HttpResponse :=
  let resp := match service.callback with
    | some callback => callback number request .default
    | none => HttpResponse.default.setBody (literal "OK\n")
  resp.setKeepAlive request.keepAlive

/-- `HttpServer::Connection`, with the number of the loop it belongs to. -/
structure Connection where
  loop : ℕ
  channel : Channel
  request : HttpRequest
  writeBuf : Bytes
  writeSent : ℕ
  closing : Bool
  deriving DecidableEq

/-- A connection and everything its handlers have done. -/
structure Session where
  conn : Connection
  log : List Effect
  deriving DecidableEq

/-- One event for a connection, with the answers of the kernel to the calls
that the handler makes: one `read` and any number of `write`s.  When the
answers to writes are used up, the socket buffer is full. -/
structure Dispatch where
  revents : Events
  read : ReadResult
  writes : List WriteAnswer
  deriving DecidableEq

/-- The numbers of times the callback was invoked. -/
def callbackCount (log : List Effect) : ℕ :=
  log.countP fun effect => match effect with
    | .callback _ => true
    | _ => false

namespace Session

def fd (s : Session) : ℕ := s.conn.channel.fd

def emit (s : Session) (effect : Effect) : Session :=
  { s with log := s.log ++ [effect] }

/-- An operation on the channel, and the `epoll_ctl` calls it makes. -/
def onChannel (s : Session) (op : Channel → Channel × List EpollCtl) : Session where
  conn := { s.conn with channel := (op s.conn.channel).1 }
  log := s.log ++ (op s.conn.channel).2.map (.epollCtl s.fd)

/-- Take the connection out of service, once. -/
def removeConnection (s : Session) : Session :=
  if s.conn.closing then s
  else
    let s₁ := { s with conn.closing := true }
    let s₂ := s₁.onChannel Channel.disableAll
    (s₂.emit (.close s.fd)).emit (.queueErase s.fd)

def resetRequest (s : Session) : Session :=
  { s with conn.request := s.conn.request.reset }.emit .reset

/-- Send a response: what the first write does not take is buffered, and
`EPOLLOUT` is asked for. -/
def sendResponse (service : Service) (answer : WriteAnswer) (s : Session)
    (resp : HttpResponse) : Session :=
  let msg := resp.toMessage service.order
  let result := answer.result msg.length
  let s₁ := (s.emit (.respond msg)).emit (.write s.fd msg result)
  let sent : Option ℕ := match result with
    | .accepted n => some n
    | .error errno => if errno = EAGAIN then some 0 else none
  match sent with
  | none => s₁.removeConnection
  | some n =>
    if n < msg.length then
      { s₁ with conn.writeBuf := msg.drop n, conn.writeSent := 0 }.onChannel Channel.enableWriting
    else if resp.keepAlive then s₁.resetRequest
    else s₁.removeConnection

/-- The response that `onRead` builds for a complete request. -/
def responseTo (service : Service) (s : Session) (request : HttpRequest) : HttpResponse :=
  service.response (callbackCount s.log) request

/-- Hand a complete request to the callback, if there is one, and respond. -/
def answerRequest (service : Service) (answer : WriteAnswer) (s : Session) : Session :=
  let resp := s.responseTo service s.conn.request
  let s₁ := if service.callback.isSome then s.emit (.callback s.conn.request) else s
  s₁.sendResponse service answer resp

/-- Store what `parse` made of the request, and note when it completed it. -/
def storeRequest (s : Session) (request : HttpRequest) : Session :=
  let s₁ := { s with conn.request := request }
  if request.gotAll ∧ ¬ s.conn.request.gotAll then s₁.emit .completed else s₁

def onRead (service : Service) (d : Dispatch) (s : Session) : Session :=
  let s₁ := s.emit (.read s.fd d.read)
  let answer := d.writes.headD (.fail EAGAIN)
  match d.read with
  | .error _ => s₁
  | .data [] => s₁.removeConnection
  | .data bytes =>
    let parsed := s.conn.request.parse bytes
    let s₂ := s₁.storeRequest parsed.2
    if parsed.1 = false then s₂.sendResponse service answer .badRequest
    else if parsed.2.gotAll = false then s₂
    else s₂.answerRequest service answer

/-- The loop of `onWrite`, over the answers of the kernel: whether everything
was written. -/
def writeLoop (s : Session) (remaining : ℕ) : List WriteAnswer → Bool × Session
  | [] =>
    if remaining = 0 then (true, s)
    else
      let data := (s.conn.writeBuf.drop s.conn.writeSent).take remaining
      (false, s.emit (.write s.fd data (.error EAGAIN)))
  | answer :: answers =>
    if remaining = 0 then (true, s)
    else
      let data := (s.conn.writeBuf.drop s.conn.writeSent).take remaining
      let result := answer.result remaining
      let s₁ := s.emit (.write s.fd data result)
      match result with
      | .accepted n =>
        if 0 < n then
          writeLoop { s₁ with conn.writeSent := s.conn.writeSent + n } (remaining - n) answers
        else (false, s₁.removeConnection)
      | .error errno =>
        if errno = EAGAIN ∨ errno = EWOULDBLOCK then (false, s₁)
        else (false, s₁.removeConnection)

/-- Send what is buffered; when all of it is out, the request decides whether
the connection stays. -/
def onWrite (d : Dispatch) (s : Session) : Session :=
  match s.writeLoop (s.conn.writeBuf.length - s.conn.writeSent) d.writes with
  | (false, s₁) => s₁
  | (true, s₁) =>
    let s₂ := { s₁ with conn.writeBuf := [], conn.writeSent := 0 }.onChannel Channel.disableWriting
    if s₂.conn.request.keepAlive then s₂.resetRequest else s₂.removeConnection

def onClose (s : Session) : Session := s.removeConnection

/-- `Channel::handleEvent` with the callbacks that `onNewConnection` installs;
it never sets an error callback. -/
def handleEvent (service : Service) (d : Dispatch) (s : Session) : Session :=
  match s.conn.channel.selected with
  | some .write => s.onWrite d
  | some .read => s.onRead service d
  | some .close => s.onClose
  | some .error => s
  | none => s

/-- The loop hands an event to the channel. -/
def dispatch (service : Service) (d : Dispatch) (s : Session) : Session :=
  { s with conn.channel := s.conn.channel.setRevents d.revents }.handleEvent service d

/-- A new connection, after the creation functor has set its callbacks and
enabled reading. -/
def created (loop fd : ℕ) : Session :=
  let conn : Connection :=
    { loop := loop
      channel := { Channel.create fd with callbacks := [.read, .write, .close] }
      request := .fresh
      writeBuf := []
      writeSent := 0
      closing := false }
  ({ conn := conn, log := [] } : Session).onChannel Channel.enableReading

end Session

/-- The size of the buffer that `onRead` reads into. -/
def readBufferSize : ℕ := 4096

def ReadResult.fits : ReadResult → Prop
  | .data bytes => bytes.length ≤ readBufferSize
  | .error _ => True

instance (result : ReadResult) : Decidable result.fits := by
  cases result <;> unfold ReadResult.fits <;> infer_instance

/-- Runs of one connection: epoll dispatches a channel only while it is
registered and reports only what may be reported for it. -/
def sessions (service : Service) : Machine Session Dispatch where
  init s := ∃ loop fd, s = Session.created loop fd
  step s d :=
    if s.conn.channel.mayReport d.revents ∧ d.read.fits then some (s.dispatch service d) else none

end EpollHttpServer.Server
