/-
# The server and its loops

The base loop accepts connections and hands each of them to one of the sub
loops, or keeps it when there are none.  A creation functor makes the
`Connection`, registers its channel and stores it in `connections_` under its
descriptor; `removeConnection` takes the channel out of the epoll set, closes
the descriptor and queues a functor that erases the entry of this number.

Every loop thread takes its steps one by one, and every order of the steps of
all threads is a run.  A `Connection` is known here by the number of the
connection that was accepted for it, which is never used again, whereas a
descriptor may be handed out again as soon as it is closed.  A wait may return
at any time, so wakeups are left out.
-/

import Mathlib.Logic.Function.Basic
import EpollHttpServer.Lib.BatchQueue
import EpollHttpServer.Server.Connection

namespace EpollHttpServer.Server

open EpollHttpServer.Lib EpollHttpServer.Reactor

/-- A `Connection`, numbered in the order of their acceptance. -/
abbrev ConnectionId : Type := ℕ

/-- The functors that the server posts to a loop.  An erase functor captures
the descriptor alone; the connection that queued it is a note for the reader. -/
inductive ServerFunctor where
  | create (fd : ℕ) (conn : ConnectionId)
  | erase (fd : ℕ) (conn : ConnectionId)
  deriving DecidableEq

/-- What `epoll_wait` reports: that the listening socket is readable, or an
event of the registration under a descriptor, with the pointer stored there. -/
inductive ServerEvent where
  | accept
  | connection (fd : ℕ) (conn : ConnectionId) (d : Dispatch)
  deriving DecidableEq

/-- The descriptor of a connection event. -/
def ServerEvent.fd : ServerEvent → Option ℕ
  | .accept => none
  | .connection fd _ _ => some fd

/-- Where a loop thread is in `loop()`. -/
inductive Phase where
  | wait
  | /-- Before the next of these events. -/
    dispatch (events : List ServerEvent)
  | /-- Before the next functor of the batch. -/
    run
  deriving DecidableEq

/-- The events that have been reported and not been dispatched. -/
def Phase.events : Phase → List ServerEvent
  | .dispatch events => events
  | _ => []

/-- The code that a loop thread is in at this point of `loop()`. -/
inductive Task where
  | idle
  | /-- At the beginning of a creation functor. -/
    starting (fd : ℕ) (conn : ConnectionId)
  | /-- In a creation functor, with the channel registered. -/
    storing (fd : ℕ) (conn : ConnectionId)
  | /-- In a handler that has yet to do these things. -/
    handler (conn : ConnectionId) (effects : List Effect)
  deriving DecidableEq

/-- A loop, as far as the server can tell its states apart. -/
structure LoopState where
  phase : Phase
  task : Task
  /-- The epoll set: the channel that is registered for a descriptor. -/
  interest : ℕ → Option ConnectionId
  functors : BatchQueue ServerFunctor

/-- `HttpServer` with `n` sub loops, the kernel's table of open descriptors and
the heap.  Loop `0` is the base loop. -/
structure HttpServer (n : ℕ) where
  /-- `next_` of the thread pool. -/
  next : ℕ
  /-- The connection that a descriptor is open for. -/
  files : ℕ → Option ConnectionId
  /-- How many connections have been accepted. -/
  accepted : ℕ
  /-- The connections that have been made and not been destroyed. -/
  heap : ConnectionId → Option Session
  connections : ℕ → Option ConnectionId
  loops : Fin (n + 1) → LoopState

inductive ServerAction (n : ℕ) where
  | /-- `epoll_wait` returns with these events, or with none. -/
    wait (l : Fin (n + 1)) (events : List ServerEvent)
  | /-- The next event is handed to its channel. -/
    handle (l : Fin (n + 1))
  | /-- A handler does the next thing. -/
    perform (l : Fin (n + 1))
  | /-- A handler returns. -/
    leave (l : Fin (n + 1))
  | /-- `accept` returns this descriptor. -/
    accept (fd : ℕ)
  | /-- `accept` returns no more. -/
    acceptDone
  | swap (l : Fin (n + 1))
  | /-- The next functor of the batch is started. -/
    next (l : Fin (n + 1))
  | /-- A creation functor makes the connection and registers its channel. -/
    register (l : Fin (n + 1))
  | /-- A creation functor stores the connection, and returns. -/
    store (l : Fin (n + 1))
  deriving DecidableEq

/-- The loop of the thread that accepts, `mainLoop_`. -/
abbrev mainLoop (n : ℕ) : Fin (n + 1) := 0

/-- The loop that a connection is handed to. -/
def loopOf (n : ℕ) (conn : ConnectionId) : Fin (n + 1) :=
  if n = 0 then 0 else Fin.ofNat (n + 1) (conn % n + 1)

namespace HttpServer

variable {n : ℕ}

/-- A server that has been started. -/
def create : HttpServer n where
  next := 0
  files _ := none
  accepted := 0
  heap _ := none
  connections _ := none
  loops _ :=
    { phase := .wait
      task := .idle
      interest := fun _ => none
      functors := .empty }

def setLoop (s : HttpServer n) (l : Fin (n + 1)) (loop : LoopState) : HttpServer n :=
  { s with loops := Function.update s.loops l loop }

def setPhase (s : HttpServer n) (l : Fin (n + 1)) (phase : Phase) : HttpServer n :=
  s.setLoop l { s.loops l with phase := phase }

def setTask (s : HttpServer n) (l : Fin (n + 1)) (task : Task) : HttpServer n :=
  s.setLoop l { s.loops l with task := task }

def setInterest (s : HttpServer n) (l : Fin (n + 1)) (fd : ℕ) (conn : Option ConnectionId) :
    HttpServer n :=
  s.setLoop l { s.loops l with interest := Function.update (s.loops l).interest fd conn }

def queueInLoop (s : HttpServer n) (l : Fin (n + 1)) (functor : ServerFunctor) : HttpServer n :=
  s.setLoop l { s.loops l with functors := (s.loops l).functors.push functor }

/-- `epoll_ctl` for the channel of a connection.  A call that fails is reported
and otherwise ignored. -/
def epollCtl (s : HttpServer n) (l : Fin (n + 1)) (conn : ConnectionId) (fd : ℕ) :
    EpollCtl → HttpServer n
  | .add _ =>
    if (s.files fd).isSome ∧ (s.loops l).interest fd = none then s.setInterest l fd (some conn)
    else s
  | .mod _ => if (s.loops l).interest fd = none then s else s.setInterest l fd (some conn)
  | .del => s.setInterest l fd none

/-- Closing a descriptor frees the number and ends its registrations. -/
def close (s : HttpServer n) (fd : ℕ) : HttpServer n :=
  { s with
    files := Function.update s.files fd none
    loops := fun l =>
      { s.loops l with interest := Function.update (s.loops l).interest fd none } }

/-- What a handler's next effect does to the server; the rest of what it does
concerns its own connection and the peer.  The loop that runs the handler is
the one that the connection belongs to. -/
def perform (s : HttpServer n) (l : Fin (n + 1)) (conn : ConnectionId) : Effect → HttpServer n
  | .epollCtl fd ctl => s.epollCtl l conn fd ctl
  | .close fd => s.close fd
  | .queueErase fd => s.queueInLoop l (.erase fd conn)
  | _ => s

/-- Write an entry of `connections_`, which owns its values: the connection
that was stored there is destroyed. -/
def setConnection (s : HttpServer n) (fd : ℕ) (entry : Option ConnectionId) : HttpServer n :=
  { s with
    heap := match s.connections fd with
      | some old => Function.update s.heap old none
      | none => s.heap
    connections := Function.update s.connections fd entry }

/-- `EventLoopThreadPool::getNextLoop`, with the new value of `next_`. -/
def getNextLoop (s : HttpServer n) : Fin (n + 1) × ℕ :=
  if n = 0 then (0, s.next) else (Fin.ofNat (n + 1) (s.next + 1), (s.next + 1) % n)

/-- `onNewConnection`, in the thread of the base loop. -/
def onNewConnection (s : HttpServer n) (fd : ℕ) : HttpServer n :=
  let conn := s.accepted
  let l := s.getNextLoop.1
  let s₁ := { s with
    files := Function.update s.files fd (some conn)
    accepted := conn + 1
    next := s.getNextLoop.2 }
  -- `runInLoop` runs the functor at once only in the thread of its loop.
  if l = 0 then s₁.setTask 0 (.starting fd conn) else s₁.queueInLoop l (.create fd conn)

/-- `epoll_wait` may report this event: one of a registration, with the bits
that may be reported for its channel. -/
def Reportable (s : HttpServer n) (l : Fin (n + 1)) : ServerEvent → Prop
  | .accept => l = 0
  | .connection fd conn d =>
    (s.loops l).interest fd = some conn ∧
      ∀ session ∈ s.heap conn, session.conn.channel.mayReport d.revents

instance (s : HttpServer n) (l : Fin (n + 1)) (event : ServerEvent) :
    Decidable (s.Reportable l event) := by
  cases event <;> unfold Reportable <;> infer_instance

/-- What `epoll_wait` may return: at most one event of each registration. -/
def MayReport (s : HttpServer n) (l : Fin (n + 1)) (events : List ServerEvent) : Prop :=
  (events.map ServerEvent.fd).Nodup ∧ ∀ event ∈ events, s.Reportable l event

instance (s : HttpServer n) (l : Fin (n + 1)) (events : List ServerEvent) :
    Decidable (s.MayReport l events) :=
  inferInstanceAs (Decidable (_ ∧ _))

/-- One step of one loop thread.  Handing an event to a connection that has
been destroyed is undefined.  A handler that is running when its connection is
destroyed goes on here, while in the source it uses memory that has been freed:
a run says what the source does up to the first step of such a handler. -/
def step (service : Service) (s : HttpServer n) : ServerAction n → Option (HttpServer n)
  | .wait l events =>
    if (s.loops l).phase = .wait ∧ (s.loops l).task = .idle ∧ s.MayReport l events then
      some (s.setPhase l (.dispatch events))
    else none
  | .handle l =>
    match (s.loops l).phase, (s.loops l).task with
    | .dispatch (.connection _ conn d :: events), .idle =>
      match s.heap conn with
      | none => none
      | some before =>
        match (sessions service).step before d with
        | none => none
        | some after =>
          let s₁ := { s with heap := Function.update s.heap conn (some after) }
          some (s₁.setLoop l
            { s.loops l with
              phase := .dispatch events
              task := .handler conn (after.log.drop before.log.length) })
    | _, _ => none
  | .perform l =>
    match (s.loops l).task with
    | .handler conn (effect :: effects) =>
      some ((s.perform l conn effect).setTask l (.handler conn effects))
    | _ => none
  | .leave l =>
    match (s.loops l).task with
    | .handler _ [] => some (s.setTask l .idle)
    | _ => none
  | .accept fd =>
    match (s.loops 0).phase, (s.loops 0).task, s.files fd with
    | .dispatch (.accept :: _), .idle, none => some (s.onNewConnection fd)
    | _, _, _ => none
  | .acceptDone =>
    match (s.loops 0).phase, (s.loops 0).task with
    | .dispatch (.accept :: events), .idle => some (s.setPhase 0 (.dispatch events))
    | _, _ => none
  | .swap l =>
    match (s.loops l).phase, (s.loops l).task with
    | .dispatch [], .idle =>
      some (s.setLoop l
        { s.loops l with phase := .run, functors := (s.loops l).functors.swap })
    | _, _ => none
  | .next l =>
    match (s.loops l).phase, (s.loops l).task with
    | .run, .idle =>
      match (s.loops l).functors.next with
      | some (.create fd conn, functors) =>
        some (s.setLoop l { s.loops l with functors := functors, task := .starting fd conn })
      | some (.erase fd _, functors) =>
        some ((s.setLoop l { s.loops l with functors := functors }).setConnection fd none)
      | none => some (s.setPhase l .wait)
    | _, _ => none
  | .register l =>
    match (s.loops l).task with
    | .starting fd conn =>
      let s₁ := { s with heap := Function.update s.heap conn (some (.created l fd)) }
      some ((s₁.epollCtl l conn fd (.add EPOLLIN)).setTask l (.storing fd conn))
    | _ => none
  | .store l =>
    match (s.loops l).task with
    | .storing fd conn => some ((s.setConnection fd (some conn)).setTask l .idle)
    | _ => none

/-- What one step can do. -/
inductive Moves (service : Service) (s : HttpServer n) : ServerAction n → HttpServer n → Prop where
  | wait (l : Fin (n + 1)) (events : List ServerEvent) (hphase : (s.loops l).phase = .wait)
      (htask : (s.loops l).task = .idle) (hreport : s.MayReport l events) :
      Moves service s (.wait l events) (s.setPhase l (.dispatch events))
  | handle (l : Fin (n + 1)) (fd : ℕ) (conn : ConnectionId) (d : Dispatch)
      (events : List ServerEvent) (before after : Session)
      (hphase : (s.loops l).phase = .dispatch (.connection fd conn d :: events))
      (htask : (s.loops l).task = .idle) (hheap : s.heap conn = some before)
      (hdispatch : (sessions service).step before d = some after) :
      Moves service s (.handle l)
        ({ s with heap := Function.update s.heap conn (some after) }.setLoop l
          { s.loops l with
            phase := .dispatch events
            task := .handler conn (after.log.drop before.log.length) })
  | perform (l : Fin (n + 1)) (conn : ConnectionId) (effect : Effect) (effects : List Effect)
      (htask : (s.loops l).task = .handler conn (effect :: effects)) :
      Moves service s (.perform l) ((s.perform l conn effect).setTask l (.handler conn effects))
  | leave (l : Fin (n + 1)) (conn : ConnectionId) (htask : (s.loops l).task = .handler conn []) :
      Moves service s (.leave l) (s.setTask l .idle)
  | accept (fd : ℕ) (htask : (s.loops 0).task = .idle) (hfree : s.files fd = none) :
      Moves service s (.accept fd) (s.onNewConnection fd)
  | acceptDone (events : List ServerEvent)
      (hphase : (s.loops 0).phase = .dispatch (.accept :: events))
      (htask : (s.loops 0).task = .idle) :
      Moves service s .acceptDone (s.setPhase 0 (.dispatch events))
  | swap (l : Fin (n + 1)) (hphase : (s.loops l).phase = .dispatch [])
      (htask : (s.loops l).task = .idle) :
      Moves service s (.swap l)
        (s.setLoop l { s.loops l with phase := .run, functors := (s.loops l).functors.swap })
  | create (l : Fin (n + 1)) (fd : ℕ) (conn : ConnectionId) (functors : BatchQueue ServerFunctor)
      (hphase : (s.loops l).phase = .run) (htask : (s.loops l).task = .idle)
      (hnext : (s.loops l).functors.next = some (.create fd conn, functors)) :
      Moves service s (.next l)
        (s.setLoop l { s.loops l with functors := functors, task := .starting fd conn })
  | erase (l : Fin (n + 1)) (fd : ℕ) (conn : ConnectionId) (functors : BatchQueue ServerFunctor)
      (hphase : (s.loops l).phase = .run) (htask : (s.loops l).task = .idle)
      (hnext : (s.loops l).functors.next = some (.erase fd conn, functors)) :
      Moves service s (.next l)
        ((s.setLoop l { s.loops l with functors := functors }).setConnection fd none)
  | batchDone (l : Fin (n + 1)) (hphase : (s.loops l).phase = .run)
      (htask : (s.loops l).task = .idle) (hnext : (s.loops l).functors.next = none) :
      Moves service s (.next l) (s.setPhase l .wait)
  | register (l : Fin (n + 1)) (fd : ℕ) (conn : ConnectionId)
      (htask : (s.loops l).task = .starting fd conn) :
      Moves service s (.register l)
        (({ s with heap := Function.update s.heap conn (some (.created l fd)) }.epollCtl l conn fd
          (.add EPOLLIN)).setTask l (.storing fd conn))
  | store (l : Fin (n + 1)) (fd : ℕ) (conn : ConnectionId)
      (htask : (s.loops l).task = .storing fd conn) :
      Moves service s (.store l) ((s.setConnection fd (some conn)).setTask l .idle)

variable {service : Service} {s t : HttpServer n} {a : ServerAction n}

theorem moves_of_step (hstep : s.step service a = some t) : Moves service s a t := by
  cases a with
  | wait l events =>
      simp only [step, Option.ite_none_right_eq_some, Option.some.injEq] at hstep
      obtain ⟨⟨hphase, htask, hreport⟩, rfl⟩ := hstep
      exact .wait l events hphase htask hreport
  | handle l =>
      simp only [step] at hstep
      split at hstep
      · next fd conn d events hphase htask =>
        split at hstep
        · cases hstep
        · next before hheap =>
          split at hstep
          · cases hstep
          · next after hdispatch =>
            cases hstep
            exact .handle l fd conn d events before after hphase htask hheap hdispatch
      · cases hstep
  | perform l =>
      simp only [step] at hstep
      split at hstep
      · next conn effect effects htask =>
        cases hstep
        exact .perform l conn effect effects htask
      · cases hstep
  | leave l =>
      simp only [step] at hstep
      split at hstep
      · next conn htask =>
        cases hstep
        exact .leave l conn htask
      · cases hstep
  | accept fd =>
      simp only [step] at hstep
      split at hstep
      · next htask hfree =>
        cases hstep
        exact .accept fd htask hfree
      · cases hstep
  | acceptDone =>
      simp only [step] at hstep
      split at hstep
      · next events hphase htask =>
        cases hstep
        exact .acceptDone events hphase htask
      · cases hstep
  | swap l =>
      simp only [step] at hstep
      split at hstep
      · next hphase htask =>
        cases hstep
        exact .swap l hphase htask
      · cases hstep
  | next l =>
      simp only [step] at hstep
      split at hstep
      · next hphase htask =>
        split at hstep
        · next fd conn functors hnext =>
          cases hstep
          exact .create l fd conn functors hphase htask hnext
        · next fd conn functors hnext =>
          cases hstep
          exact .erase l fd conn functors hphase htask hnext
        · next hnext =>
          cases hstep
          exact .batchDone l hphase htask hnext
      · cases hstep
  | register l =>
      simp only [step] at hstep
      split at hstep
      · next fd conn htask =>
        cases hstep
        exact .register l fd conn htask
      · cases hstep
  | store l =>
      simp only [step] at hstep
      split at hstep
      · next fd conn htask =>
        cases hstep
        exact .store l fd conn htask
      · cases hstep

@[simp]
theorem setLoop_self (s : HttpServer n) (l : Fin (n + 1)) (loop : LoopState) :
    (s.setLoop l loop).loops l = loop :=
  Function.update_self ..

theorem setLoop_of_ne {l l' : Fin (n + 1)} (hne : l' ≠ l) (s : HttpServer n) (loop : LoopState) :
    (s.setLoop l loop).loops l' = s.loops l' :=
  Function.update_of_ne hne ..

@[simp]
theorem setLoop_setLoop (s : HttpServer n) (l : Fin (n + 1)) (first second : LoopState) :
    (s.setLoop l first).setLoop l second = s.setLoop l second := by
  simp [setLoop]

end HttpServer

/-- Runs of a server with `n` sub loops. -/
def servers (service : Service) (n : ℕ) : Machine (HttpServer n) (ServerAction n) where
  init s := s = .create
  step := HttpServer.step service

end EpollHttpServer.Server
