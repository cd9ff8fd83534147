/-
# The example server with sub reactors

`ReactorServer` answers whatever a client sends with one fixed response, and
then removes the connection.  It keeps the channels of its clients in a table
under their descriptors, as `HttpServer` keeps its connections, but removes an
entry at once, between taking the channel out of the epoll set and closing the
descriptor, and not in a functor that runs later.  `EchoServer`, which has one
loop and no thread pool, is the server without sub loops.

Threads take their steps as those of `HttpServer` do, and the actions are the
same; what a callback is going to do is a list of calls, taken one by one.
-/

import EpollHttpServer.Server.HttpServer

namespace EpollHttpServer.Examples

open EpollHttpServer.Lib EpollHttpServer.Http EpollHttpServer.Reactor EpollHttpServer.Server

def RESPONSE : Bytes :=
  literal "HTTP/1.1 200 OK\r\nContent-Type: text/plain\r\nContent-Length: 13\r\n" ++
    literal "Connection: close\r\n\r\nHello, World!\n"

/-- What a callback does to the channel, the table of clients and the descriptor. -/
inductive ClientCall where
  | read (fd : ℕ) (result : ReadResult)
  | write (fd : ℕ) (data : Bytes) (result : WriteResult)
  | disableAll
  | /-- `clients_.erase`, under the mutex. -/
    erase (fd : ℕ)
  | close (fd : ℕ)
  deriving DecidableEq

/-- The descriptor that a call reads from or writes to. -/
def ClientCall.transferFd : ClientCall → Option ℕ
  | .read fd _ => some fd
  | .write fd _ _ => some fd
  | _ => none

def removeConnection (fd : ℕ) : List ClientCall :=
  [.disableAll, .erase fd, .close fd]

/-- `onRead`, with the answers of the kernel; that of `write` is not looked at. -/
def onRead (fd : ℕ) (d : Dispatch) : List ClientCall :=
  .read fd d.read ::
    match d.read with
    | .data [] => removeConnection fd
    | .data _ =>
      .write fd RESPONSE ((d.writes.headD (.fail EAGAIN)).result RESPONSE.length) ::
        removeConnection fd
    | .error errno =>
      if errno = EAGAIN ∨ errno = EWOULDBLOCK then [] else removeConnection fd

def onClose (fd : ℕ) : List ClientCall := removeConnection fd

/-- `Channel::handleEvent` with the callbacks that a creation functor sets. -/
def handleEvent (ch : Channel) (d : Dispatch) : List ClientCall :=
  match (ch.setRevents d.revents).selected with
  | some .read => onRead ch.fd d
  | some .close => onClose ch.fd
  | _ => []

/-- A channel with its callbacks, and enabled for reading. -/
def createChannel (fd : ℕ) : Channel × List EpollCtl :=
  { Channel.create fd with callbacks := [.read, .close] }.enableReading

/-- The functor that makes the channel of a connection. -/
structure Creation where
  fd : ℕ
  conn : ConnectionId
  deriving DecidableEq

/-- The code that a loop thread is in at this point of `loop()`. -/
inductive ClientTask where
  | idle
  | /-- At the beginning of a creation functor. -/
    starting (fd : ℕ) (conn : ConnectionId)
  | /-- In a creation functor, with the channel registered. -/
    storing (fd : ℕ) (conn : ConnectionId)
  | /-- In a callback that has yet to do these things. -/
    callback (conn : ConnectionId) (calls : List ClientCall)
  deriving DecidableEq

structure ClientLoop where
  phase : Phase
  task : ClientTask
  /-- The epoll set: the channel that is registered for a descriptor. -/
  interest : ℕ → Option ConnectionId
  functors : BatchQueue Creation

/-- `ReactorServer` with `n` sub loops, the kernel's table of open descriptors
and the heap.  Loop `0` is the base loop. -/
structure ReactorServer (n : ℕ) where
  /-- `next_` of the thread pool. -/
  next : ℕ
  /-- The connection that a descriptor is open for. -/
  files : ℕ → Option ConnectionId
  /-- How many connections have been accepted. -/
  accepted : ℕ
  /-- The channels that have been made and not been destroyed. -/
  heap : ConnectionId → Option Channel
  /-- `clients_`. -/
  clients : ℕ → Option ConnectionId
  loops : Fin (n + 1) → ClientLoop

namespace ReactorServer

variable {n : ℕ}

/-- A server that has been started. -/
def create : ReactorServer n where
  next := 0
  files _ := none
  accepted := 0
  heap _ := none
  clients _ := none
  loops _ :=
    { phase := .wait
      task := .idle
      interest := fun _ => none
      functors := .empty }

def setLoop (s : ReactorServer n) (l : Fin (n + 1)) (loop : ClientLoop) : ReactorServer n :=
  { s with loops := Function.update s.loops l loop }

def setPhase (s : ReactorServer n) (l : Fin (n + 1)) (phase : Phase) : ReactorServer n :=
  s.setLoop l { s.loops l with phase := phase }

def setTask (s : ReactorServer n) (l : Fin (n + 1)) (task : ClientTask) : ReactorServer n :=
  s.setLoop l { s.loops l with task := task }

def setInterest (s : ReactorServer n) (l : Fin (n + 1)) (fd : ℕ) (conn : Option ConnectionId) :
    ReactorServer n :=
  s.setLoop l { s.loops l with interest := Function.update (s.loops l).interest fd conn }

/-- `epoll_ctl` for the channel of a connection.  A call that fails is reported
and otherwise ignored. -/
def epollCtl (l : Fin (n + 1)) (conn : ConnectionId) (fd : ℕ) (s : ReactorServer n) :
    EpollCtl → ReactorServer n
  | .add _ =>
    if (s.files fd).isSome ∧ (s.loops l).interest fd = none then s.setInterest l fd (some conn)
    else s
  | .mod _ => if (s.loops l).interest fd = none then s else s.setInterest l fd (some conn)
  | .del => s.setInterest l fd none

/-- An operation on a channel is carried out on the object and in the epoll set. -/
def operate (s : ReactorServer n) (l : Fin (n + 1)) (conn : ConnectionId)
    (result : Channel × List EpollCtl) : ReactorServer n :=
  result.2.foldl (epollCtl l conn result.1.fd)
    { s with heap := Function.update s.heap conn (some result.1) }

/-- Closing a descriptor frees the number and ends its registrations. -/
def close (s : ReactorServer n) (fd : ℕ) : ReactorServer n :=
  { s with
    files := Function.update s.files fd none
    loops := fun l =>
      { s.loops l with interest := Function.update (s.loops l).interest fd none } }

/-- Write an entry of `clients_`, which owns its values: the channel that was
stored there is destroyed. -/
def setClient (s : ReactorServer n) (fd : ℕ) (entry : Option ConnectionId) : ReactorServer n :=
  { s with
    heap := match s.clients fd with
      | some old => Function.update s.heap old none
      | none => s.heap
    clients := Function.update s.clients fd entry }

/-- What the next call of a callback does.  Using a channel that has been
destroyed is undefined. -/
def perform (s : ReactorServer n) (l : Fin (n + 1)) (conn : ConnectionId) :
    ClientCall → Option (ReactorServer n)
  | .disableAll => (s.heap conn).map fun ch => s.operate l conn ch.disableAll
  | .erase fd => some (s.setClient fd none)
  | .close fd => some (s.close fd)
  | .read _ _ => some s
  | .write _ _ _ => some s

/-- `EventLoopThreadPool::getNextLoop`, which looks at `next_` alone. -/
def getNextLoop (s : ReactorServer n) : Fin (n + 1) × ℕ :=
  HttpServer.getNextLoop { HttpServer.create with next := s.next }

/-- `onNewConnection`, in the thread of the base loop. -/
def onNewConnection (s : ReactorServer n) (fd : ℕ) : ReactorServer n :=
  let conn := s.accepted
  let l := s.getNextLoop.1
  let s₁ := { s with
    files := Function.update s.files fd (some conn)
    accepted := conn + 1
    next := s.getNextLoop.2 }
  -- `runInLoop` runs the functor at once only in the thread of its loop.
  if l = mainLoop n then s₁.setTask l (.starting fd conn)
  else s₁.setLoop l { s₁.loops l with functors := (s₁.loops l).functors.push ⟨fd, conn⟩ }

/-- The array that `onRead` reads into, without its last byte. -/
def readLimit : ℕ := 4095

/-- What `read` may return into the array. -/
def FitsArray : ReadResult → Prop
  | .data bytes => bytes.length ≤ readLimit
  | .error _ => True

instance : (result : ReadResult) → Decidable (FitsArray result)
  | .data bytes => inferInstanceAs (Decidable (bytes.length ≤ readLimit))
  | .error _ => isTrue trivial

/-- `epoll_wait` may report this event: one of a registration, with the bits
that may be reported for its channel. -/
def Reportable (s : ReactorServer n) (l : Fin (n + 1)) : ServerEvent → Prop
  | .accept => l = mainLoop n
  | .connection fd conn d =>
    (s.loops l).interest fd = some conn ∧ (∀ ch ∈ s.heap conn, ch.mayReport d.revents) ∧
      FitsArray d.read

instance (s : ReactorServer n) (l : Fin (n + 1)) (event : ServerEvent) :
    Decidable (s.Reportable l event) :=
  match event with
  | .accept => inferInstanceAs (Decidable (l = mainLoop n))
  | .connection _ _ _ => inferInstanceAs (Decidable (_ ∧ _ ∧ _))

/-- What `epoll_wait` may return: at most one event of each registration. -/
def MayReport (s : ReactorServer n) (l : Fin (n + 1)) (events : List ServerEvent) : Prop :=
  (events.map ServerEvent.fd).Nodup ∧ ∀ event ∈ events, s.Reportable l event

instance (s : ReactorServer n) (l : Fin (n + 1)) (events : List ServerEvent) :
    Decidable (s.MayReport l events) :=
  inferInstanceAs (Decidable (_ ∧ _))

/-- One step of one loop thread.  Handing an event to a channel that has been
destroyed is undefined. -/
def step (s : ReactorServer n) : ServerAction n → Option (ReactorServer n)
  | .wait l events =>
    if (s.loops l).phase = .wait ∧ (s.loops l).task = .idle ∧ s.MayReport l events then
      some (s.setPhase l (.dispatch events))
    else none
  | .handle l =>
    match (s.loops l).phase, (s.loops l).task with
    | .dispatch (.connection _ conn d :: events), .idle =>
      match s.heap conn with
      | none => none
      | some ch =>
        let s₁ := { s with heap := Function.update s.heap conn (some (ch.setRevents d.revents)) }
        some (s₁.setLoop l
          { s.loops l with
            phase := .dispatch events
            task := .callback conn (handleEvent ch d) })
    | _, _ => none
  | .perform l =>
    match (s.loops l).task with
    | .callback conn (call :: calls) =>
      (s.perform l conn call).map fun t => t.setTask l (.callback conn calls)
    | _ => none
  | .leave l =>
    match (s.loops l).task with
    | .callback _ [] => some (s.setTask l .idle)
    | _ => none
  | .accept fd =>
    match (s.loops (mainLoop n)).phase, (s.loops (mainLoop n)).task, s.files fd with
    | .dispatch (.accept :: _), .idle, none => some (s.onNewConnection fd)
    | _, _, _ => none
  | .acceptDone =>
    match (s.loops (mainLoop n)).phase, (s.loops (mainLoop n)).task with
    | .dispatch (.accept :: events), .idle => some (s.setPhase (mainLoop n) (.dispatch events))
    | _, _ => none
  | .swap l =>
    match (s.loops l).phase, (s.loops l).task with
    | .dispatch [], .idle =>
      some (s.setLoop l
        { s.loops l with phase := .run, functors := (s.loops l).functors.swap })
    | _, _ => none
  | .next l =>
    match (s.loops l).phase, (s.loops l).task with
    | .run, .idle =>
      match (s.loops l).functors.next with
      | some (⟨fd, conn⟩, functors) =>
        some (s.setLoop l { s.loops l with functors := functors, task := .starting fd conn })
      | none => some (s.setPhase l .wait)
    | _, _ => none
  | .register l =>
    match (s.loops l).task with
    | .starting fd conn =>
      some ((s.operate l conn (createChannel fd)).setTask l (.storing fd conn))
    | _ => none
  | .store l =>
    match (s.loops l).task with
    | .storing fd conn => some ((s.setClient fd (some conn)).setTask l .idle)
    | _ => none

/-- What one step can do. -/
inductive Moves (s : ReactorServer n) : ServerAction n → ReactorServer n → Prop where
  | wait (l : Fin (n + 1)) (events : List ServerEvent) (hphase : (s.loops l).phase = .wait)
      (htask : (s.loops l).task = .idle) (hreport : s.MayReport l events) :
      Moves s (.wait l events) (s.setPhase l (.dispatch events))
  | handle (l : Fin (n + 1)) (fd : ℕ) (conn : ConnectionId) (d : Dispatch)
      (events : List ServerEvent) (ch : Channel)
      (hphase : (s.loops l).phase = .dispatch (.connection fd conn d :: events))
      (htask : (s.loops l).task = .idle) (hheap : s.heap conn = some ch) :
      Moves s (.handle l)
        ({ s with
            heap := Function.update s.heap conn (some (ch.setRevents d.revents)) }.setLoop l
          { s.loops l with
            phase := .dispatch events
            task := .callback conn (handleEvent ch d) })
  | perform (l : Fin (n + 1)) (conn : ConnectionId) (call : ClientCall) (calls : List ClientCall)
      (t : ReactorServer n) (htask : (s.loops l).task = .callback conn (call :: calls))
      (hperform : s.perform l conn call = some t) :
      Moves s (.perform l) (t.setTask l (.callback conn calls))
  | leave (l : Fin (n + 1)) (conn : ConnectionId) (htask : (s.loops l).task = .callback conn []) :
      Moves s (.leave l) (s.setTask l .idle)
  | accept (fd : ℕ) (htask : (s.loops (mainLoop n)).task = .idle) (hfree : s.files fd = none) :
      Moves s (.accept fd) (s.onNewConnection fd)
  | acceptDone (events : List ServerEvent)
      (hphase : (s.loops (mainLoop n)).phase = .dispatch (.accept :: events))
      (htask : (s.loops (mainLoop n)).task = .idle) :
      Moves s .acceptDone (s.setPhase (mainLoop n) (.dispatch events))
  | swap (l : Fin (n + 1)) (hphase : (s.loops l).phase = .dispatch [])
      (htask : (s.loops l).task = .idle) :
      Moves s (.swap l)
        (s.setLoop l { s.loops l with phase := .run, functors := (s.loops l).functors.swap })
  | create (l : Fin (n + 1)) (fd : ℕ) (conn : ConnectionId) (functors : BatchQueue Creation)
      (hphase : (s.loops l).phase = .run) (htask : (s.loops l).task = .idle)
      (hnext : (s.loops l).functors.next = some (⟨fd, conn⟩, functors)) :
      Moves s (.next l)
        (s.setLoop l { s.loops l with functors := functors, task := .starting fd conn })
  | batchDone (l : Fin (n + 1)) (hphase : (s.loops l).phase = .run)
      (htask : (s.loops l).task = .idle) (hnext : (s.loops l).functors.next = none) :
      Moves s (.next l) (s.setPhase l .wait)
  | register (l : Fin (n + 1)) (fd : ℕ) (conn : ConnectionId)
      (htask : (s.loops l).task = .starting fd conn) :
      Moves s (.register l)
        ((s.operate l conn (createChannel fd)).setTask l (.storing fd conn))
  | store (l : Fin (n + 1)) (fd : ℕ) (conn : ConnectionId)
      (htask : (s.loops l).task = .storing fd conn) :
      Moves s (.store l) ((s.setClient fd (some conn)).setTask l .idle)

variable {s t : ReactorServer n} {a : ServerAction n}

theorem moves_of_step (hstep : s.step a = some t) : Moves s a t := by
  cases a with
  | wait l events =>
      simp only [step, Option.ite_none_right_eq_some, Option.some.injEq] at hstep
      obtain ⟨⟨hphase, htask, hreport⟩, rfl⟩ := hstep
      exact .wait l events hphase htask hreport
  | handle l =>
      simp only [step] at hstep
      split at hstep
      · next fd conn d events hphase htask =>
        split at hstep
        · cases hstep
        · next ch hheap =>
          cases hstep
          exact .handle l fd conn d events ch hphase htask hheap
      · cases hstep
  | perform l =>
      simp only [step] at hstep
      split at hstep
      · next conn call calls htask =>
        obtain ⟨t, hperform, rfl⟩ := Option.map_eq_some_iff.mp hstep
        exact .perform l conn call calls t htask hperform
      · cases hstep
  | leave l =>
      simp only [step] at hstep
      split at hstep
      · next conn htask =>
        cases hstep
        exact .leave l conn htask
      · cases hstep
  | accept fd =>
      simp only [step] at hstep
      split at hstep
      · next htask hfree =>
        cases hstep
        exact .accept fd htask hfree
      · cases hstep
  | acceptDone =>
      simp only [step] at hstep
      split at hstep
      · next events hphase htask =>
        cases hstep
        exact .acceptDone events hphase htask
      · cases hstep
  | swap l =>
      simp only [step] at hstep
      split at hstep
      · next hphase htask =>
        cases hstep
        exact .swap l hphase htask
      · cases hstep
  | next l =>
      simp only [step] at hstep
      split at hstep
      · next hphase htask =>
        split at hstep
        · next fd conn functors hnext =>
          cases hstep
          exact .create l fd conn functors hphase htask hnext
        · next hnext =>
          cases hstep
          exact .batchDone l hphase htask hnext
      · cases hstep
  | register l =>
      simp only [step] at hstep
      split at hstep
      · next fd conn htask =>
        cases hstep
        exact .register l fd conn htask
      · cases hstep
  | store l =>
      simp only [step] at hstep
      split at hstep
      · next fd conn htask =>
        cases hstep
        exact .store l fd conn htask
      · cases hstep

@[simp]
theorem setLoop_self (s : ReactorServer n) (l : Fin (n + 1)) (loop : ClientLoop) :
    (s.setLoop l loop).loops l = loop :=
  Function.update_self ..

theorem setLoop_of_ne {l l' : Fin (n + 1)} (hne : l' ≠ l) (s : ReactorServer n)
    (loop : ClientLoop) : (s.setLoop l loop).loops l' = s.loops l' :=
  Function.update_of_ne hne ..

end ReactorServer

/-- Runs of an example server with `n` sub loops. -/
def reactorServers (n : ℕ) : Machine (ReactorServer n) (ServerAction n) where
  init s := s = .create
  step := ReactorServer.step

end EpollHttpServer.Examples
