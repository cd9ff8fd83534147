/-
# Descriptors and registrations in every run

The erase functor may destroy the wrong connection, but what the kernel sees
stays in order all the same.  In every run, settled or not, the stages of the
connections can follow each step as far as descriptors, epoll sets, queues and
running code go; only `connections_` and the heap may disagree with them.  The
open descriptors and the registrations are then exactly those of the stages,
and a handler closes no descriptor but its own.

The sub loops take turns in the order of acceptance, so the loop of a
connection is a function of its number, and nothing of a connection is ever
found in another loop.
-/

import EpollHttpServer.Server.Composition
import EpollHttpServer.Server.Provenance

namespace EpollHttpServer.Server

open EpollHttpServer.Lib EpollHttpServer.Reactor

/-- A system call is made on this descriptor. -/
def Effect.isOn (fd : ℕ) : Effect → Prop
  | .read fd' _ => fd' = fd
  | .write fd' _ _ => fd' = fd
  | .epollCtl fd' _ => fd' = fd
  | .close fd' => fd' = fd
  | .queueErase fd' => fd' = fd
  | _ => True

/-- The descriptor of a system call. -/
def Effect.descriptor : Effect → Option ℕ
  | .read fd _ => some fd
  | .write fd _ _ => some fd
  | .epollCtl fd _ => some fd
  | .close fd => some fd
  | _ => none

theorem isOn_of_explains {service : Service} {fd : ℕ} {before : List Effect} {e : Effect}
    (hexplains : Explains service fd before e) : e.isOn fd := by
  cases e with
  | read | epollCtl | close | queueErase => exact hexplains
  | write => exact hexplains.1
  | completed | callback | respond | reset => trivial

namespace Stages

variable {n : ℕ} {stages : Stages n} {c conn : ConnectionId} {x : Option (Stage n)}
  {l : Fin (n + 1)} {fd : ℕ} {progress progress' : Progress}

/-- A descriptor is open for a connection that has not closed it. -/
def OpenAgrees (stages : Stages n) (files : ℕ → Option ConnectionId) : Prop :=
  ∀ fd conn, files fd = some conn →
    ∃ stage, stages conn = some stage ∧ stage.progress.isOpen ∧ stage.fd = fd

/-- The channels of this loop that should be registered are. -/
def WatchAgrees (stages : Stages n) (l : Fin (n + 1)) (interest : ℕ → Option ConnectionId) :
    Prop :=
  ∀ conn fd progress, stages conn = some ⟨progress, l, fd⟩ → progress.isRegistered →
    interest fd = some conn

/-- What is found on the heap for a connection is the connection in its stage. -/
def HeapMatches (stages : Stages n) (heap : ConnectionId → Option Session) : Prop :=
  ∀ conn session stage, heap conn = some session → stages conn = some stage →
    stage.progress.isBuilt ∧ session.fd = stage.fd ∧
      (stage.progress.isServed → session.conn.Live)

/-- No descriptor is open for two connections. -/
theorem FilesAgree.conn_unique {files : ℕ → Option ConnectionId} (h : stages.FilesAgree files)
    {stage stage' : Stage n} (hstage : stages conn = some stage) (hopen : stage.progress.isOpen)
    (hstage' : stages c = some stage') (hopen' : stage'.progress.isOpen)
    (hfd : stage.fd = stage'.fd) : conn = c := by
  have hfile := h conn stage hstage hopen
  rw [hfd, h c stage' hstage' hopen'] at hfile
  exact (Option.some.inj hfile).symm

theorem isOpen_of_isRegistered (hregistered : progress.isRegistered) : progress.isOpen := by
  cases progress <;> first | rfl | cases hregistered

section opened

variable {files : ℕ → Option ConnectionId}

/-- A connection moves on with its descriptor, or moves when it has none. -/
theorem OpenAgrees.move (h : stages.OpenAgrees files) (hstage : stages c = some ⟨progress, l, fd⟩)
    (hopen : progress.isOpen → progress'.isOpen) :
    OpenAgrees (Function.update stages c (some ⟨progress', l, fd⟩)) files := by
  intro fd' conn hfile
  obtain ⟨stage, hconn, hyes, hfd⟩ := h fd' conn hfile
  by_cases hc : conn = c
  · subst hc
    cases hstage.symm.trans hconn
    exact ⟨_, Function.update_self .., hopen hyes, hfd⟩
  · exact ⟨stage, by rw [Function.update_of_ne hc, hconn], hyes, hfd⟩

theorem OpenAgrees.accept (h : stages.OpenAgrees files) (hnone : stages c = none)
    (hopen : progress.isOpen) :
    OpenAgrees (Function.update stages c (some ⟨progress, l, fd⟩))
      (Function.update files fd (some c)) := by
  intro fd' conn hfile
  by_cases hfd : fd' = fd
  · subst hfd
    rw [Function.update_self] at hfile
    cases hfile
    exact ⟨_, Function.update_self .., hopen, rfl⟩
  · rw [Function.update_of_ne hfd] at hfile
    obtain ⟨stage, hconn, hyes, hsame⟩ := h fd' conn hfile
    refine ⟨stage, update_of_stage hconn ?_ _, hyes, hsame⟩
    simp [hnone]

/-- A connection closes its descriptor, or leaves when it has closed it. -/
theorem OpenAgrees.close (h : stages.OpenAgrees files) (hfd : files fd = some c)
    (hstage : stages c = some ⟨progress, l, fd⟩) (x : Option (Stage n)) :
    OpenAgrees (Function.update stages c x) (Function.update files fd none) := by
  intro fd' conn hfile
  by_cases hsame : fd' = fd
  · subst hsame
    rw [Function.update_self] at hfile
    cases hfile
  · rw [Function.update_of_ne hsame] at hfile
    obtain ⟨stage, hconn, hyes, hstageFd⟩ := h fd' conn hfile
    refine ⟨stage, update_of_stage hconn (fun hc => ?_) x, hyes, hstageFd⟩
    cases hstage.symm.trans hc
    exact hsame hstageFd.symm

theorem OpenAgrees.leave (h : stages.OpenAgrees files)
    (hnot : ∀ stage, stages c = some stage → stage.progress.isOpen = false)
    (x : Option (Stage n)) : OpenAgrees (Function.update stages c x) files := by
  intro fd conn hfile
  obtain ⟨stage, hconn, hyes, hfd⟩ := h fd conn hfile
  refine ⟨stage, update_of_stage hconn (fun hc => ?_) x, hyes, hfd⟩
  exact absurd (hyes.symm.trans (hnot stage hc)) (by simp)

end opened

section watched

variable {interest : ℕ → Option ConnectionId}

/-- A connection moves to where its channel is not to be registered here. -/
theorem WatchAgrees.frame (h : stages.WatchAgrees l interest)
    (hnew : ∀ fd progress, x = some ⟨progress, l, fd⟩ → progress.isRegistered = false) :
    WatchAgrees (Function.update stages c x) l interest := by
  intro conn fd progress hconn hregistered
  rcases update_eq_some.mp hconn with ⟨_, hx⟩ | ⟨_, hstage⟩
  · exact absurd (hregistered.symm.trans (hnew fd progress hx)) (by simp)
  · exact h conn fd progress hstage hregistered

/-- A connection moves and stays registered. -/
theorem WatchAgrees.move (h : stages.WatchAgrees l interest)
    (hstage : stages c = some ⟨progress, l, fd⟩) (hregistered : progress.isRegistered) :
    WatchAgrees (Function.update stages c (some ⟨progress', l, fd⟩)) l interest := by
  intro conn fd' found hconn hfound
  rcases update_eq_some.mp hconn with ⟨rfl, ⟨⟩⟩ | ⟨_, hother⟩
  · exact h conn fd _ hstage hregistered
  · exact h conn fd' found hother hfound

theorem WatchAgrees.add (h : stages.WatchAgrees l interest) (hfree : interest fd = none) :
    WatchAgrees (Function.update stages c (some ⟨progress, l, fd⟩)) l
      (Function.update interest fd (some c)) := by
  intro conn fd' found hconn hfound
  rcases update_eq_some.mp hconn with ⟨rfl, ⟨⟩⟩ | ⟨_, hother⟩
  · exact Function.update_self ..
  · have hwatched := h conn fd' found hother hfound
    rw [Function.update_of_ne, hwatched]
    rintro rfl
    cases hfree.symm.trans hwatched

/-- A connection moves, and what is registered under its descriptor is removed. -/
theorem WatchAgrees.remove (h : stages.WatchAgrees l interest)
    (hmine : ∀ conn progress, stages conn = some ⟨progress, l, fd⟩ → progress.isRegistered →
      conn = c)
    (hnew : ∀ fd progress, x = some ⟨progress, l, fd⟩ → progress.isRegistered = false) :
    WatchAgrees (Function.update stages c x) l (Function.update interest fd none) := by
  intro conn fd' found hconn hfound
  rcases update_eq_some.mp hconn with ⟨_, hx⟩ | ⟨hne, hother⟩
  · exact absurd (hfound.symm.trans (hnew fd' found hx)) (by simp)
  · rw [Function.update_of_ne, h conn fd' found hother hfound]
    rintro rfl
    exact hne (hmine conn found hother hfound)

end watched

section heap

variable {heap heap' : ConnectionId → Option Session}

theorem HeapMatches.update (h : stages.HeapMatches heap)
    (hnew : ∀ session stage, heap c = some session → x = some stage →
      stage.progress.isBuilt ∧ session.fd = stage.fd ∧
        (stage.progress.isServed → session.conn.Live)) :
    HeapMatches (Function.update stages c x) heap := by
  intro conn session stage hheap hconn
  rcases update_eq_some.mp hconn with ⟨rfl, hx⟩ | ⟨_, hstage⟩
  · exact hnew session stage hheap hx
  · exact h conn session stage hheap hstage

/-- A connection moves on as it is. -/
theorem HeapMatches.move (h : stages.HeapMatches heap)
    (hstage : stages c = some ⟨progress, l, fd⟩)
    (hbuilt : progress.isBuilt → progress'.isBuilt)
    (hserved : progress'.isServed → progress.isServed) :
    HeapMatches (Function.update stages c (some ⟨progress', l, fd⟩)) heap := by
  apply h.update
  rintro session stage hheap ⟨⟩
  obtain ⟨hyes, hfd, hlive⟩ := h c session _ hheap hstage
  exact ⟨hbuilt hyes, hfd, fun hnow => hlive (hserved hnow)⟩

/-- A connection is made or changed. -/
theorem HeapMatches.set (h : stages.HeapMatches heap) {session : Session} (hfd : session.fd = fd)
    (hbuilt : progress.isBuilt) (hlive : progress.isServed → session.conn.Live) :
    HeapMatches (Function.update stages c (some ⟨progress, l, fd⟩))
      (Function.update heap c (some session)) := by
  intro conn found stage hheap hconn
  rcases update_eq_some.mp hconn with ⟨rfl, ⟨⟩⟩ | ⟨hne, hstage⟩
  · rw [Function.update_self] at hheap
    cases hheap
    exact ⟨hbuilt, hfd, hlive⟩
  · rw [Function.update_of_ne hne] at hheap
    exact h conn found stage hheap hstage

/-- Connections are destroyed. -/
theorem HeapMatches.mono (h : stages.HeapMatches heap)
    (hle : ∀ conn session, heap' conn = some session → heap conn = some session) :
    stages.HeapMatches heap' :=
  fun conn session stage hheap => h conn session stage (hle conn session hheap)

end heap

section calls

variable {task task' : Task}

/-- What a handler has left to do it does on the descriptor of its connection. -/
def CallsAgree (stages : Stages n) (task : Task) : Prop :=
  ∀ conn effects stage, task = .handler conn effects → stages conn = some stage →
    ∀ e ∈ effects, e.isOn stage.fd

theorem callsAgree_of_not_handler (hnot : ∀ conn effects, task ≠ .handler conn effects) :
    stages.CallsAgree task :=
  fun conn effects _ htask => absurd htask (hnot conn effects)

/-- A connection moves that is not in the loop of the handler. -/
theorem CallsAgree.frame (h : stages.CallsAgree task) (hrunning : task.Agrees stages l)
    (hnot : ∀ fd progress, stages c ≠ some ⟨progress, l, fd⟩) (x : Option (Stage n)) :
    CallsAgree (Function.update stages c x) task := by
  rintro conn effects stage rfl hconn
  obtain ⟨progress, fd, hstage, _⟩ := hrunning
  rcases update_eq_some.mp hconn with ⟨rfl, _⟩ | ⟨_, hother⟩
  · exact absurd hstage (hnot fd progress)
  · exact h conn effects stage rfl hother

/-- A connection moves on with its descriptor. -/
theorem CallsAgree.move (h : stages.CallsAgree task) (hstage : stages c = some ⟨progress, l, fd⟩) :
    CallsAgree (Function.update stages c (some ⟨progress', l, fd⟩)) task := by
  intro conn effects stage htask hconn
  rcases update_eq_some.mp hconn with ⟨rfl, ⟨⟩⟩ | ⟨_, hother⟩
  · exact h conn effects ⟨progress, l, fd⟩ htask hstage
  · exact h conn effects stage htask hother

/-- A handler goes on. -/
theorem CallsAgree.tail {e : Effect} {effects : List Effect} (h : stages.CallsAgree task)
    (htask : task = .handler conn (e :: effects)) :
    stages.CallsAgree (.handler conn effects) := by
  rintro conn' effects' stage ⟨⟩ hstage e' he'
  exact h conn _ stage htask hstage e' (List.mem_cons_of_mem _ he')

end calls

section awaited

variable {functors : List ServerFunctor}

/-- An accepted connection's creation functor is queued. -/
def AwaitAgrees (stages : Stages n) (l : Fin (n + 1)) (functors : List ServerFunctor) : Prop :=
  ∀ conn fd, stages conn = some ⟨.accepted, l, fd⟩ → .create fd conn ∈ functors

/-- A connection moves to where it waits for no creation functor. -/
theorem AwaitAgrees.frame (h : stages.AwaitAgrees l functors)
    (hnew : ∀ fd, x ≠ some ⟨.accepted, l, fd⟩) :
    AwaitAgrees (Function.update stages c x) l functors := by
  intro conn fd hconn
  rcases update_eq_some.mp hconn with ⟨_, hx⟩ | ⟨_, hstage⟩
  · exact absurd hx (hnew fd)
  · exact h conn fd hstage

theorem AwaitAgrees.push (h : stages.AwaitAgrees l functors) (f : ServerFunctor) :
    AwaitAgrees (Function.update stages f.conn (some (f.stage l))) l (functors ++ [f]) := by
  intro conn fd hconn
  rcases update_eq_some.mp hconn with ⟨rfl, hx⟩ | ⟨_, hstage⟩
  · cases f with
    | create fd' conn' =>
        cases hx
        exact List.mem_append_right _ (List.mem_singleton.mpr rfl)
    | erase => cases hx
  · exact List.mem_append_left _ (h conn fd hstage)

/-- The first functor is taken, and its connection waits for creation no longer. -/
theorem AwaitAgrees.pop {f : ServerFunctor} (h : stages.AwaitAgrees l (f :: functors))
    (hnew : ∀ fd, x ≠ some ⟨.accepted, l, fd⟩) :
    AwaitAgrees (Function.update stages f.conn x) l functors := by
  intro conn fd hconn
  rcases update_eq_some.mp hconn with ⟨_, hx⟩ | ⟨hne, hstage⟩
  · exact absurd hx (hnew fd)
  · rcases List.mem_cons.mp (h conn fd hstage) with hfirst | hmem
    · subst hfirst
      exact absurd rfl hne
    · exact hmem

end awaited

end Stages

/-- The stages agree with a loop, and all that should be registered is. -/
structure LoopState.Tracked {n : ℕ} (stages : Stages n) (l : Fin (n + 1)) (loop : LoopState) :
    Prop extends LoopState.Agrees stages l loop where
  watched : stages.WatchAgrees l loop.interest
  calls : stages.CallsAgree loop.task
  awaited : stages.AwaitAgrees l loop.functors.pending

/-- A connection of another loop moves. -/
theorem LoopState.Tracked.frame {n : ℕ} {stages : Stages n} {l : Fin (n + 1)} {loop : LoopState}
    {c : ConnectionId} {x : Option (Stage n)} (h : loop.Tracked stages l)
    (hnot : ∀ fd progress, stages c ≠ some ⟨progress, l, fd⟩)
    (hnew : ∀ fd progress, x ≠ some ⟨progress, l, fd⟩) :
    loop.Tracked (Function.update stages c x) l where
  toAgrees := h.toAgrees.frame hnot hnew
  watched := h.watched.frame fun fd progress hx => absurd hx (hnew fd progress)
  calls := h.calls.frame h.task.running hnot x
  awaited := h.awaited.frame fun fd => hnew fd .accepted

namespace HttpServer

variable {n : ℕ} {service : Service} {s t : HttpServer n} {stages : Stages n}
  {c conn : ConnectionId} {x : Option (Stage n)} {l : Fin (n + 1)} {fd : ℕ}
  {progress progress' : Progress}

/-- The stages agree with everything but `connections_`, and with the heap as
far as it has not been cleared. -/
structure Tracked (s : HttpServer n) (stages : Stages n) : Prop where
  fresh : ∀ conn, s.accepted ≤ conn → stages conn = none
  unmade : ∀ conn, s.accepted ≤ conn → s.heap conn = none
  turn : 0 < n → s.next = s.accepted % n
  placed : ∀ conn stage, stages conn = some stage → stage.loop = loopOf n conn
  files : stages.FilesAgree s.files
  opened : stages.OpenAgrees s.files
  heap : stages.HeapMatches s.heap
  loops : ∀ l, (s.loops l).Tracked stages l

/-- It is the turn of the loop that the next connection belongs to. -/
theorem Tracked.getNextLoop_eq (hs : s.Tracked stages) : s.getNextLoop.1 = loopOf n s.accepted := by
  unfold getNextLoop loopOf
  by_cases hn : n = 0
  · simp [hn]
  · rw [if_neg hn, if_neg hn, hs.turn (Nat.pos_of_ne_zero hn)]

theorem Tracked.lt_accepted (hs : s.Tracked stages) {stage : Stage n}
    (hstage : stages conn = some stage) : conn < s.accepted := by
  by_contra hnot
  rw [hs.fresh conn (Nat.le_of_not_lt hnot)] at hstage
  cases hstage

/-- A step of one loop that moves no connection. -/
theorem Tracked.stay (hs : s.Tracked stages) {loop : LoopState} (hloop : loop.Tracked stages l) :
    (s.setLoop l loop).Tracked stages where
  fresh := hs.fresh
  unmade := hs.unmade
  turn := hs.turn
  placed := hs.placed
  files := hs.files
  opened := hs.opened
  heap := hs.heap
  loops l' := by
    by_cases hl : l' = l
    · subst hl
      rw [setLoop_self]
      exact hloop
    · rw [setLoop_of_ne hl]
      exact hs.loops l'

/-- A step of one loop that moves one of its connections, or ends it. -/
theorem Tracked.move (hs : s.Tracked stages) (hstage : stages c = some ⟨progress, l, fd⟩)
    (haccepted : t.accepted = s.accepted) (hnext : t.next = s.next)
    (hunmade : ∀ conn, s.accepted ≤ conn → t.heap conn = none)
    (hnew : ∀ stage, x = some stage → stage.loop = l)
    (hfiles : Stages.FilesAgree (Function.update stages c x) t.files)
    (hopened : Stages.OpenAgrees (Function.update stages c x) t.files)
    (hheap : Stages.HeapMatches (Function.update stages c x) t.heap)
    (hloop : (t.loops l).Tracked (Function.update stages c x) l)
    (hothers : ∀ l', l' ≠ l → (t.loops l').Tracked stages l') :
    t.Tracked (Function.update stages c x) where
  fresh conn hconn := by
    rw [haccepted] at hconn
    have hne : conn ≠ c := by
      rintro rfl
      exact absurd (hs.lt_accepted hstage) (Nat.not_lt.mpr hconn)
    rw [Function.update_of_ne hne]
    exact hs.fresh conn hconn
  unmade conn hconn := hunmade conn (haccepted ▸ hconn)
  turn hn := by
    rw [hnext, haccepted]
    exact hs.turn hn
  placed conn stage hconn := by
    rcases Stages.update_eq_some.mp hconn with ⟨rfl, hx⟩ | ⟨_, hother⟩
    · rw [hnew stage hx]
      exact hs.placed conn _ hstage
    · exact hs.placed conn stage hother
  files := hfiles
  opened := hopened
  heap := hheap
  loops l' := by
    by_cases hl : l' = l
    · subst hl
      exact hloop
    · refine (hothers l' hl).frame (fun fd' found hfound => ?_) fun fd' found hx => ?_
      · cases hstage.symm.trans hfound
        exact hl rfl
      · exact hl (hnew _ hx)

theorem Tracked.others_setLoop (hs : s.Tracked stages) (loop : LoopState) :
    ∀ l', l' ≠ l → ((s.setLoop l loop).loops l').Tracked stages l' := by
  intro l' hne
  rw [setLoop_of_ne hne]
  exact hs.loops l'

/-! ## Steps that move no connection -/

theorem tracked_wait (hs : s.Tracked stages) {events : List ServerEvent}
    (hphase : (s.loops l).phase = .wait) (htask : (s.loops l).task = .idle)
    (hreport : s.MayReport l events) : (s.setPhase l (.dispatch events)).Tracked stages := by
  have hl := hs.loops l
  have hbatch := hl.batch_eq_nil (by simp [hphase])
  refine hs.stay ⟨⟨hl.interest, hl.functors, hl.task, ⟨fun fd conn d hevent => ?_, hreport.1⟩,
    .inr hbatch⟩, hl.watched, hl.calls, hl.awaited⟩
  obtain ⟨progress, hstage, hregistered⟩ := hl.interest fd conn (hreport.2 _ hevent).1
  have hidle : progress.isBusy = false := by
    by_contra hbusy
    have hconn := hl.task.busy conn fd progress hstage (by simpa using hbusy)
    rw [htask] at hconn
    cases hconn
  -- Of the registered connections only the live ones need no code of the loop.
  cases progress with
  | live => exact ⟨hstage, by simp [htask, Task.Spares]⟩
  | storing | doomed => cases hidle
  | accepted | starting | leaving | closing | queued => cases hregistered

theorem tracked_leave (hs : s.Tracked stages) (htask : (s.loops l).task = .handler conn []) :
    (s.setTask l .idle).Tracked stages := by
  have hl := hs.loops l
  refine hs.stay ⟨⟨hl.interest, hl.functors, hl.task.goOn trivial ?_,
    hl.events.switch fun _ _ => trivial, hl.batch⟩, hl.watched,
    Stages.callsAgree_of_not_handler (by simp), hl.awaited⟩
  intro other fd progress hstage hbusy hother
  rcases hl.task.of_busy hstage hbusy with ⟨_, hsame⟩ | ⟨_, hsame⟩ | ⟨effects, hsame, hremains⟩
  · cases htask.symm.trans hsame
  · cases htask.symm.trans hsame
  · cases htask.symm.trans hsame
    -- A handler with nothing left to do leaves its connection live or queued.
    cases progress with
    | accepted | live | queued => cases hbusy
    | starting | storing => exact hremains.elim
    | leaving | closing => cases hremains
    | doomed =>
        obtain ⟨first, hfirst, _⟩ := hremains
        exact absurd hfirst.symm (by simp [teardown])

theorem tracked_acceptDone (hs : s.Tracked stages) {events : List ServerEvent}
    (hphase : (s.loops 0).phase = .dispatch (.accept :: events)) :
    (s.setPhase 0 (.dispatch events)).Tracked stages := by
  have hl := hs.loops 0
  have hevents := hl.events
  rw [hphase] at hevents
  exact hs.stay ⟨⟨hl.interest, hl.functors, hl.task, hevents.tail,
    .inr (hl.batch_eq_nil (by simp [hphase]))⟩, hl.watched, hl.calls, hl.awaited⟩

theorem tracked_swap (hs : s.Tracked stages) (hphase : (s.loops l).phase = .dispatch []) :
    (s.setLoop l
      { s.loops l with phase := .run, functors := (s.loops l).functors.swap }).Tracked stages := by
  have hl := hs.loops l
  have hfunctors := hl.functors
  have hawaited := hl.awaited
  rw [← BatchQueue.pending_swap (hl.batch_eq_nil (by simp [hphase]))] at hfunctors hawaited
  exact hs.stay ⟨⟨hl.interest, hfunctors, hl.task, Stages.eventsAgree_nil, .inl rfl⟩, hl.watched,
    hl.calls, hawaited⟩

theorem tracked_batchDone (hs : s.Tracked stages) (hnext : (s.loops l).functors.next = none) :
    (s.setPhase l .wait).Tracked stages := by
  have hl := hs.loops l
  exact hs.stay ⟨⟨hl.interest, hl.functors, hl.task, Stages.eventsAgree_nil,
    .inr (BatchQueue.next_eq_none hnext)⟩, hl.watched, hl.calls, hl.awaited⟩

/-! ## Handlers -/

/-- What a connection knows about its registration is true: its descriptor is
open, and its channel is registered under it. -/
theorem Tracked.registered (hs : s.Tracked stages) (hstage : stages conn = some ⟨progress, l, fd⟩)
    (hregistered : progress.isRegistered) :
    s.files fd = some conn ∧ (s.loops l).interest fd = some conn :=
  ⟨hs.files conn _ hstage (Stages.isOpen_of_isRegistered hregistered),
    (hs.loops l).watched conn fd progress hstage hregistered⟩

/-- An effect of a connection in service changes nothing that is shared. -/
theorem perform_of_registered (hregistered : (s.loops l).interest fd = some conn) {e : Effect}
    (hlocal : e.isLocal fd) : s.perform l conn e = s := by
  rcases perform_of_isLocal s l conn hlocal with hsame | hsame
  · exact hsame
  · rw [hsame, setInterest, setLoop, ← hregistered, Function.update_eq_self,
      Function.update_eq_self]

theorem tracked_local (hs : s.Tracked stages) {e : Effect} {effects : List Effect}
    (htask : (s.loops l).task = .handler conn (e :: effects))
    (hstage : stages conn = some ⟨progress, l, fd⟩) (hregistered : progress.isRegistered)
    (hremains : progress.Remains fd effects) (hlocal : e.isLocal fd) :
    ((s.perform l conn e).setTask l (.handler conn effects)).Tracked stages := by
  have hl := hs.loops l
  rw [perform_of_registered (hs.registered hstage hregistered).2 hlocal]
  refine hs.stay ⟨⟨hl.interest, hl.functors, hl.task.goOn ⟨progress, fd, hstage, hremains⟩ ?_,
    hl.events.switch (Task.spares_handler htask _), hl.batch⟩, hl.watched, hl.calls.tail htask,
    hl.awaited⟩
  intro _ _ _ _ _ hother
  rwa [htask] at hother

/-- A handler of a live connection begins. -/
theorem tracked_handle (hs : s.Tracked stages) {d : Dispatch} {events : List ServerEvent}
    {effects : List Effect} {after : Session} (hprogress : progress = .live ∨ progress = .doomed)
    (hphase : (s.loops l).phase = .dispatch (.connection fd conn d :: events))
    (htask : (s.loops l).task = .idle) (hfd : after.fd = fd)
    (hremains : progress.Remains fd effects) (hcalls : ∀ e ∈ effects, e.isOn fd)
    (hlive : progress.isServed → after.conn.Live) :
    ({ s with heap := Function.update s.heap conn (some after) }.setLoop l
      { s.loops l with phase := .dispatch events, task := .handler conn effects }).Tracked
        (Function.update stages conn (some ⟨progress, l, fd⟩)) := by
  have hl := hs.loops l
  have hevents := hl.events
  rw [hphase] at hevents
  have hstage := (hevents.live fd conn d (List.mem_cons_self ..)).1
  have hgood : progress.isOpen ∧ progress.isBuilt ∧ progress.isRegistered ∧
      progress.isQueued = false := by
    rcases hprogress with rfl | rfl <;> exact ⟨rfl, rfl, rfl, rfl⟩
  have hrest : stages.EventsAgree l (.handler conn effects) events := by
    refine ⟨fun fd' other d' hevent => ⟨?_, ?_⟩, hevents.tail.distinct⟩
    · exact (hevents.tail.live fd' other d' hevent).1
    · rintro rfl
      exact hevents.head_not_mem hevent
  refine hs.move hstage rfl rfl (fun other hother => ?_) (Stages.of_stage rfl rfl)
    (hs.files.move hstage rfl progress) (hs.opened.move hstage fun _ => hgood.1)
    (hs.heap.set hfd hgood.2.1 hlive) ?_ (hs.others_setLoop _)
  · have hne : other ≠ conn := by
      rintro rfl
      exact absurd (hs.lt_accepted hstage) (Nat.not_lt.mpr hother)
    exact (Function.update_of_ne hne ..).trans (hs.unmade other hother)
  · rw [setLoop_self]
    refine ⟨⟨hl.interest.move hstage hgood.2.2.1, hl.functors.move hstage rfl hgood.2.2.2,
      hl.task.switch ?_ ?_ ?_, hrest.frame (fun _ _ _ => hevents.head_not_mem) _,
      .inr (hl.batch_eq_nil (by simp [hphase]))⟩, hl.watched.move hstage rfl, ?_,
      hl.awaited.frame ?_⟩
    · simp [htask, Task.conn]
    · exact ⟨progress, fd, Function.update_self .., hremains⟩
    · exact fun _ _ _ _ => rfl
    · rintro other _ stage ⟨⟩ hother
      rw [Function.update_self] at hother
      cases hother
      exact hcalls
    · rcases hprogress with rfl | rfl <;> simp

/-- Nobody else is registered under the descriptor of a connection that has it. -/
theorem Tracked.registered_unique (hs : s.Tracked stages)
    (hstage : stages conn = some ⟨progress, l, fd⟩) (hopen : progress.isOpen) :
    ∀ other found, stages other = some ⟨found, l, fd⟩ → found.isRegistered → other = conn :=
  fun _ _ hother hregistered =>
    hs.files.conn_unique hother (Stages.isOpen_of_isRegistered hregistered) hstage hopen rfl

/-- The first part of a removal: the channel leaves the epoll set. -/
theorem tracked_del (hs : s.Tracked stages)
    (htask : (s.loops l).task = .handler conn (teardown fd))
    (hstage : stages conn = some ⟨.doomed, l, fd⟩) :
    ((s.setInterest l fd none).setTask l (.handler conn [.close fd, .queueErase fd])).Tracked
      (Function.update stages conn (some ⟨.leaving, l, fd⟩)) := by
  have hl := hs.loops l
  rw [setTask, setInterest, setLoop_setLoop, setLoop_self]
  refine hs.move hstage rfl rfl hs.unmade (Stages.of_stage rfl rfl)
    (hs.files.move hstage rfl .leaving) (hs.opened.move hstage fun _ => rfl)
    (hs.heap.move hstage (fun _ => rfl) (by simp [Progress.isServed])) ?_ (hs.others_setLoop _)
  rw [setLoop_self]
  exact ⟨hl.advance hstage (by simp) rfl (hl.interest.removeSelf hstage _)
    (hl.functors.move hstage rfl rfl) (by simp [htask, Task.conn])
    ⟨.leaving, fd, Function.update_self .., rfl⟩ (fun _ => rfl) (Task.spares_handler htask _)
    hl.batch, hl.watched.remove (hs.registered_unique hstage rfl) (Stages.of_progress rfl rfl),
    (hl.calls.tail htask).move hstage, hl.awaited.frame (by simp)⟩

/-- The second part: the descriptor is closed, and what is registered under its
number in any loop goes with it, which is nothing. -/
theorem tracked_close (hs : s.Tracked stages)
    (htask : (s.loops l).task = .handler conn [.close fd, .queueErase fd])
    (hstage : stages conn = some ⟨.leaving, l, fd⟩) :
    ((s.close fd).setTask l (.handler conn [.queueErase fd])).Tracked
      (Function.update stages conn (some ⟨.closing, l, fd⟩)) := by
  have hl := hs.loops l
  have hfile : s.files fd = some conn := hs.files conn _ hstage rfl
  refine hs.move hstage rfl rfl hs.unmade (Stages.of_stage rfl rfl)
    (hs.files.close hfile (Stages.of_stage rfl rfl)) (hs.opened.close hfile hstage _)
    (hs.heap.move hstage (fun _ => rfl) (by simp [Progress.isServed])) ?_ ?_
  · rw [setTask, setLoop_self]
    exact ⟨hl.advance hstage (by simp) rfl (hl.interest.removeSelf hstage _)
      (hl.functors.move hstage rfl rfl) (by simp [htask, Task.conn])
      ⟨.closing, fd, Function.update_self .., rfl⟩ (fun _ => rfl) (Task.spares_handler htask _)
      hl.batch, hl.watched.remove (hs.registered_unique hstage rfl) (Stages.of_progress rfl rfl),
    (hl.calls.tail htask).move hstage, hl.awaited.frame (by simp)⟩
  · intro l' hne
    rw [setTask, setLoop_of_ne hne]
    have hl' := hs.loops l'
    refine ⟨⟨hl'.interest.remove fd, hl'.functors, hl'.task, hl'.events, hl'.batch⟩, ?_, hl'.calls,
      hl'.awaited⟩
    intro other fd' found hother hregistered
    have hwatched := hl'.watched other fd' found hother hregistered
    show Function.update (s.loops l').interest fd none fd' = some other
    rw [Function.update_of_ne, hwatched]
    rintro rfl
    have hsame : other = conn := hs.files.conn_unique hother
      (Stages.isOpen_of_isRegistered hregistered) hstage rfl rfl
    subst hsame
    cases hstage.symm.trans hother
    exact hne rfl

/-- The third part: the erase functor is queued. -/
theorem tracked_queueErase (hs : s.Tracked stages)
    (htask : (s.loops l).task = .handler conn [.queueErase fd])
    (hstage : stages conn = some ⟨.closing, l, fd⟩) :
    ((s.queueInLoop l (.erase fd conn)).setTask l (.handler conn [])).Tracked
      (Function.update stages conn (some ⟨.queued, l, fd⟩)) := by
  have hl := hs.loops l
  have hpushed := hl.functors.push (.erase fd conn) (Stages.of_progress hstage rfl)
  have hawaited := hl.awaited.push (.erase fd conn)
  rw [← BatchQueue.pending_push] at hpushed hawaited
  rw [setTask, queueInLoop, setLoop_setLoop, setLoop_self]
  refine hs.move hstage rfl rfl hs.unmade (Stages.of_stage rfl rfl) (hs.files.update ?_)
    (hs.opened.leave (Stages.of_stage hstage rfl) _)
    (hs.heap.move hstage (fun _ => rfl) (by simp [Progress.isServed])) ?_ (hs.others_setLoop _)
  · rintro stage ⟨⟩ hopen
    cases hopen
  · rw [setLoop_self]
    exact ⟨hl.advance hstage (by simp) rfl (hl.interest.frame (Stages.of_progress hstage rfl) _)
      hpushed (by simp [htask, Task.conn]) ⟨.queued, fd, Function.update_self .., rfl⟩
      (fun _ => rfl) (Task.spares_handler htask _) hl.batch,
      hl.watched.frame (Stages.of_progress rfl rfl), (hl.calls.tail htask).move hstage,
      hawaited⟩

/-- The step lemma for handlers. -/
theorem tracked_perform (hs : s.Tracked stages) {e : Effect} {effects : List Effect}
    (htask : (s.loops l).task = .handler conn (e :: effects)) :
    ∃ stages', ((s.perform l conn e).setTask l (.handler conn effects)).Tracked stages' := by
  have hrunning := (hs.loops l).task.running
  rw [htask] at hrunning
  obtain ⟨progress, fd, hstage, hremains⟩ := hrunning
  cases progress with
  | accepted | starting | storing => exact hremains.elim
  | live =>
      have hlocal : ∀ e' ∈ e :: effects, e'.isLocal fd := hremains
      refine ⟨stages, tracked_local hs htask hstage rfl ?_ (hlocal e (List.mem_cons_self ..))⟩
      exact fun e' he' => hlocal e' (List.mem_cons_of_mem _ he')
  | doomed =>
      obtain ⟨first, hfirst, hlocal⟩ := hremains
      cases first with
      | nil =>
          obtain ⟨rfl, rfl⟩ := List.cons.inj hfirst
          exact ⟨_, tracked_del hs htask hstage⟩
      | cons e' first =>
          obtain ⟨rfl, rfl⟩ := List.cons.inj hfirst
          refine ⟨stages, tracked_local hs htask hstage rfl ?_ (hlocal e (List.mem_cons_self ..))⟩
          exact ⟨first, rfl, fun e' he' => hlocal e' (List.mem_cons_of_mem _ he')⟩
  | leaving =>
      obtain ⟨rfl, rfl⟩ := List.cons.inj (hremains : e :: effects = _)
      exact ⟨_, tracked_close hs htask hstage⟩
  | closing =>
      obtain ⟨rfl, rfl⟩ := List.cons.inj (hremains : e :: effects = _)
      exact ⟨_, tracked_queueErase hs htask hstage⟩
  | queued => cases (hremains : e :: effects = [])

/-! ## Accepting and creating connections -/

/-- A new connection begins in the loop whose turn it is. -/
theorem Tracked.admit (hs : s.Tracked stages) (hfree : s.files fd = none) {loop : LoopState}
    (hopen : progress.isOpen) (hl : s.getNextLoop.1 = l)
    (hloop : loop.Tracked (Function.update stages s.accepted (some ⟨progress, l, fd⟩)) l) :
    ({ s with
      files := Function.update s.files fd (some s.accepted)
      accepted := s.accepted + 1
      next := s.getNextLoop.2 }.setLoop l loop).Tracked
        (Function.update stages s.accepted (some ⟨progress, l, fd⟩)) where
  fresh conn hconn := by
    have hne : conn ≠ s.accepted := (Nat.lt_of_succ_le hconn).ne'
    rw [Function.update_of_ne hne]
    exact hs.fresh conn (Nat.le_of_succ_le hconn)
  unmade conn hconn := hs.unmade conn (Nat.le_of_succ_le hconn)
  turn hn := by
    show s.getNextLoop.2 = (s.accepted + 1) % n
    rw [getNextLoop, if_neg hn.ne', hs.turn hn, Nat.mod_add_mod]
  placed conn stage hconn := by
    rcases Stages.update_eq_some.mp hconn with ⟨rfl, ⟨⟩⟩ | ⟨_, hother⟩
    · rw [← hl]
      exact hs.getNextLoop_eq
    · exact hs.placed conn stage hother
  files := hs.files.accept hfree
  opened := hs.opened.accept (hs.fresh _ le_rfl) hopen
  heap := by
    refine hs.heap.update fun session stage hheap _ => ?_
    cases (hs.unmade _ le_rfl).symm.trans hheap
  loops l' := by
    by_cases hne : l' = l
    · subst hne
      rw [setLoop_self]
      exact hloop
    · rw [setLoop_of_ne hne]
      refine (hs.loops l').frame (fun fd' found hfound => ?_) fun fd' found hx => ?_
      · cases (hs.fresh _ le_rfl).symm.trans hfound
      · cases hx
        exact hne rfl

theorem tracked_accept (hs : s.Tracked stages) (htask : (s.loops 0).task = .idle)
    (hfree : s.files fd = none) : ∃ stages', (s.onNewConnection fd).Tracked stages' := by
  have hnone : stages s.accepted = none := hs.fresh _ le_rfl
  have hnot {l : Fin (n + 1)} {P : Progress → Prop} :
      ∀ fd progress, stages s.accepted = some ⟨progress, l, fd⟩ → P progress := by
    intro fd progress hstage
    cases hnone.symm.trans hstage
  have hnotLive {l : Fin (n + 1)} {P : ℕ → Dispatch → Prop} :
      ∀ fd d, stages s.accepted = some ⟨.live, l, fd⟩ → P fd d := by
    intro fd d hstage
    cases hnone.symm.trans hstage
  by_cases hbase : s.getNextLoop.1 = 0
  · have hl := hs.loops 0
    have hevents : stages.EventsAgree 0 (.starting fd s.accepted) (s.loops 0).phase.events :=
      hl.events.switch fun _ _ => trivial
    refine ⟨Function.update stages s.accepted (some ⟨.starting, 0, fd⟩), ?_⟩
    simp only [onNewConnection, if_pos hbase, setTask]
    exact hs.admit hfree rfl hbase ⟨⟨hl.interest.frame hnot _,
      hl.functors.frame hnot (Stages.of_progress rfl rfl),
      hl.task.switch (by simp [htask, Task.conn]) (Function.update_self ..) fun _ _ _ _ => rfl,
      hevents.frame hnotLive _, hl.batch⟩, hl.watched.frame (Stages.of_progress rfl rfl),
      Stages.callsAgree_of_not_handler (by simp), hl.awaited.frame (by simp)⟩
  · generalize hloop : s.getNextLoop.1 = l at hbase
    have hl := hs.loops l
    have hpushed := hl.functors.push (.create fd s.accepted) hnot
    have hawaited := hl.awaited.push (.create fd s.accepted)
    rw [← BatchQueue.pending_push] at hpushed hawaited
    refine ⟨Function.update stages s.accepted (some ⟨.accepted, l, fd⟩), ?_⟩
    simp only [onNewConnection, hloop, if_neg hbase, queueInLoop]
    exact hs.admit hfree rfl hloop ⟨⟨hl.interest.frame hnot _, hpushed,
      hl.task.frame (by simp [hnone]) (Stages.of_progress rfl rfl), hl.events.frame hnotLive _,
      hl.batch⟩, hl.watched.frame (Stages.of_progress rfl rfl),
      hl.calls.frame hl.task.running (by simp [hnone]) _, hawaited⟩

theorem tracked_start (hs : s.Tracked stages) {functors : BatchQueue ServerFunctor}
    (hphase : (s.loops l).phase = .run) (htask : (s.loops l).task = .idle)
    (hnext : (s.loops l).functors.next = some (.create fd conn, functors)) :
    (s.setLoop l { s.loops l with functors := functors, task := .starting fd conn }).Tracked
      (Function.update stages conn (some ⟨.starting, l, fd⟩)) := by
  have hl := hs.loops l
  have hfunctors := hl.functors
  have hawaited := hl.awaited
  rw [BatchQueue.pending_next hnext] at hfunctors hawaited
  have hstage : stages conn = some ⟨.accepted, l, fd⟩ := hfunctors.waited _ (List.mem_cons_self ..)
  refine hs.move hstage rfl rfl hs.unmade (Stages.of_stage rfl rfl)
    (hs.files.move hstage rfl .starting) (hs.opened.move hstage fun _ => rfl)
    (hs.heap.move hstage (by simp [Progress.isBuilt]) (by simp [Progress.isServed])) ?_
    (hs.others_setLoop _)
  rw [setLoop_self]
  exact ⟨hl.advance hstage (by simp) rfl (hl.interest.frame (Stages.of_progress hstage rfl) _)
    (hfunctors.pop (Stages.of_progress rfl rfl)) (by simp [htask, Task.conn])
    (Function.update_self ..) (fun _ => rfl) (fun _ _ => trivial) (.inl hphase),
    hl.watched.frame (Stages.of_progress rfl rfl), Stages.callsAgree_of_not_handler (by simp),
    hawaited.pop (by simp)⟩

/-- `epoll_ctl` accepts a new channel: the descriptor is open, and nothing is
registered under it in any loop. -/
theorem Tracked.startable (hs : s.Tracked stages) (htask : (s.loops l).task = .starting fd conn) :
    stages conn = some ⟨.starting, l, fd⟩ ∧ s.files fd = some conn ∧
      ∀ l', (s.loops l').interest fd = none := by
  have hstage : stages conn = some ⟨.starting, l, fd⟩ := by
    have hrunning := (hs.loops l).task.running
    rwa [htask] at hrunning
  refine ⟨hstage, hs.files conn _ hstage rfl, fun l' => ?_⟩
  by_contra hentry
  obtain ⟨other, hother⟩ := Option.ne_none_iff_exists'.mp hentry
  obtain ⟨found, hfound, hregistered⟩ := (hs.loops l').interest fd other hother
  have hsame : other = conn := hs.files.conn_unique hfound
    (Stages.isOpen_of_isRegistered hregistered) hstage rfl rfl
  subst hsame
  cases hstage.symm.trans hfound
  cases hregistered

theorem tracked_register (hs : s.Tracked stages) (htask : (s.loops l).task = .starting fd conn) :
    (({ s with heap := Function.update s.heap conn (some (.created l fd)) }.epollCtl l conn fd
      (.add EPOLLIN)).setTask l (.storing fd conn)).Tracked
        (Function.update stages conn (some ⟨.storing, l, fd⟩)) := by
  have hl := hs.loops l
  obtain ⟨hstage, hfile, hfree⟩ := hs.startable htask
  have hsession : (Session.created l fd).fd = fd := by
    rw [Session.created_eq]
    rfl
  let made : HttpServer n :=
    { s with heap := Function.update s.heap conn (some (.created l fd)) }
  have hadd : made.epollCtl l conn fd (.add EPOLLIN) = made.setInterest l fd (some conn) :=
    if_pos ⟨Option.isSome_iff_exists.mpr ⟨conn, hfile⟩, hfree l⟩
  rw [hadd, setTask, setInterest, setLoop_setLoop, setLoop_self]
  refine hs.move hstage rfl rfl (fun other hother => ?_) (Stages.of_stage rfl rfl)
    (hs.files.move hstage rfl .storing) (hs.opened.move hstage fun _ => rfl)
    (hs.heap.set hsession rfl fun _ => Session.live_created l fd) ?_ (hs.others_setLoop (s := s) _)
  · have hne : other ≠ conn := by
      rintro rfl
      exact absurd (hs.lt_accepted hstage) (Nat.not_lt.mpr hother)
    exact (Function.update_of_ne hne ..).trans (hs.unmade other hother)
  · rw [setLoop_self]
    refine ⟨hl.advance hstage (by simp) rfl
      ((hl.interest.frame (Stages.of_progress hstage rfl) _).add (Function.update_self ..) rfl)
      (hl.functors.move hstage rfl rfl) (by simp [htask, Task.conn]) (Function.update_self ..)
      (fun _ => rfl) (fun _ _ => trivial) hl.batch, hl.watched.add (hfree l),
      Stages.callsAgree_of_not_handler (by simp), hl.awaited.frame (by simp)⟩

/-! ## `connections_` -/

theorem tracked_store (hs : s.Tracked stages) (htask : (s.loops l).task = .storing fd conn) :
    ((s.setConnection fd (some conn)).setTask l .idle).Tracked
      (Function.update stages conn (some ⟨.live, l, fd⟩)) := by
  have hl := hs.loops l
  have hstage : stages conn = some ⟨.storing, l, fd⟩ := by
    have hrunning := hl.task.running
    rwa [htask] at hrunning
  refine hs.move hstage rfl rfl
    (fun other hother => heap_setConnection_none s fd (some conn) (hs.unmade other hother))
    (Stages.of_stage rfl rfl) (hs.files.move hstage rfl .live) (hs.opened.move hstage fun _ => rfl)
    ((hs.heap.mono (heap_setConnection_le s fd (some conn))).move hstage (fun _ => rfl)
      fun _ => rfl)
    ?_ (hs.others_setLoop _)
  rw [setTask, setLoop_self]
  exact ⟨hl.advance hstage (by simp) rfl (hl.interest.move hstage rfl)
    (hl.functors.move hstage rfl rfl) (by simp [htask, Task.conn]) trivial
    (by simp [Progress.isBusy]) (fun _ _ => trivial) hl.batch, hl.watched.move hstage rfl,
    Stages.callsAgree_of_not_handler (by simp), hl.awaited.frame (by simp)⟩

theorem tracked_erase (hs : s.Tracked stages) {functors : BatchQueue ServerFunctor}
    (hphase : (s.loops l).phase = .run) (htask : (s.loops l).task = .idle)
    (hnext : (s.loops l).functors.next = some (.erase fd conn, functors)) :
    ((s.setLoop l { s.loops l with functors := functors }).setConnection fd none).Tracked
      (Function.update stages conn none) := by
  have hl := hs.loops l
  have hfunctors := hl.functors
  have hawaited := hl.awaited
  rw [BatchQueue.pending_next hnext] at hfunctors hawaited
  have hstage : stages conn = some ⟨.queued, l, fd⟩ := hfunctors.waited _ (List.mem_cons_self ..)
  let taken : HttpServer n := s.setLoop l { s.loops l with functors := functors }
  refine hs.move hstage rfl rfl
    (fun other hother => heap_setConnection_none taken fd none (hs.unmade other hother)) (by simp)
    (hs.files.update (by simp)) (hs.opened.leave (Stages.of_stage hstage rfl) _)
    ((hs.heap.mono (heap_setConnection_le taken fd none)).update (by simp)) ?_
    (hs.others_setLoop (s := s) _)
  show (taken.loops l).Tracked (Function.update stages conn none) l
  rw [setLoop_self]
  refine ⟨⟨hl.interest.frame (Stages.of_progress hstage rfl) _, hfunctors.pop (by simp),
    hl.task.switch ?_ ?_ (by simp), hl.events.frame ?_ _, .inl hphase⟩, hl.watched.frame (by simp),
    Stages.callsAgree_of_not_handler (by simp [htask]), hawaited.pop (by simp)⟩
  · simp [htask, Task.conn]
  · rw [htask]
    trivial
  · intro fd' d hfound
    cases hstage.symm.trans hfound

/-! ## All steps -/

/-- The step lemma: whatever a step moves, the stages can follow it. -/
theorem tracked_step {a : ServerAction n} (hs : s.Tracked stages)
    (hmade : ∀ conn session, s.heap conn = some session → (sessions service).Reachable session)
    (hstep : s.step service a = some t) : ∃ stages', t.Tracked stages' := by
  cases moves_of_step hstep with
  | wait l events hphase htask hreport =>
      exact ⟨stages, tracked_wait hs hphase htask hreport⟩
  | handle l fd conn d events before after hphase htask hheap hdispatch =>
      have hevents := (hs.loops l).events
      rw [hphase] at hevents
      have hstage := (hevents.live fd conn d (List.mem_cons_self ..)).1
      obtain ⟨_, hfd, hlive⟩ := hs.heap conn before _ hheap hstage
      dsimp only at hfd
      have hleads : before.Leads after := by
        rw [(Session.sessions_step hdispatch).2.2]
        exact Session.leads_dispatch (hlive rfl) d
      have hcalls {effects : List Effect} (hlog : after.log = before.log ++ effects)
          (hafter : after.fd = fd) : ∀ e ∈ effects, e.isOn fd := by
        intro e he
        have hexplained := Session.explained_of_reachable
          ((hmade conn before hheap).next trivial hdispatch)
        obtain ⟨first, rest, rfl⟩ := List.append_of_mem he
        rw [← hafter]
        exact isOn_of_explains (hexplained.entries (before.log ++ first) e rest (by simp [hlog]))
      cases hleads with
      | stays effects hlocal hlog hafter hlive' =>
          rw [hfd] at hlocal hafter
          have hon := hcalls hlog hafter
          rw [hlog, List.drop_left]
          exact ⟨_, tracked_handle hs (.inl rfl) hphase htask hafter hlocal hon fun _ => hlive'⟩
      | ends effects hlocal hlog hafter hclosed =>
          rw [hfd] at hlocal hafter hlog
          have hon := hcalls hlog hafter
          rw [hlog, List.drop_left]
          exact ⟨_, tracked_handle hs (.inr rfl) hphase htask hafter ⟨effects, rfl, hlocal⟩ hon
            (by simp [Progress.isServed])⟩
  | perform l conn effect effects htask => exact tracked_perform hs htask
  | leave l conn htask => exact ⟨stages, tracked_leave hs htask⟩
  | accept fd htask hfree => exact tracked_accept hs htask hfree
  | acceptDone events hphase htask => exact ⟨stages, tracked_acceptDone hs hphase⟩
  | swap l hphase htask => exact ⟨stages, tracked_swap hs hphase⟩
  | create l fd conn functors hphase htask hnext => exact ⟨_, tracked_start hs hphase htask hnext⟩
  | erase l fd conn functors hphase htask hnext => exact ⟨_, tracked_erase hs hphase htask hnext⟩
  | batchDone l hphase htask hnext => exact ⟨stages, tracked_batchDone hs hnext⟩
  | register l fd conn htask => exact ⟨_, tracked_register hs htask⟩
  | store l fd conn htask => exact ⟨_, tracked_store hs htask⟩

theorem tracked_create : (create : HttpServer n).Tracked fun _ => none where
  fresh _ _ := rfl
  unmade _ _ := rfl
  turn _ := (Nat.zero_mod n).symm
  placed _ _ hstage := by cases hstage
  files _ _ hstage := by cases hstage
  opened _ _ hfile := by cases hfile
  heap _ _ _ hheap := by cases hheap
  loops _ :=
    { interest := fun _ _ hconn => by cases hconn
      functors := ⟨fun _ hf => (by cases hf), List.nodup_nil, fun _ _ hstage => by cases hstage⟩
      task := ⟨trivial, fun _ _ _ hstage => by cases hstage⟩
      events := Stages.eventsAgree_nil
      batch := .inr rfl
      watched := fun _ _ _ hstage => by cases hstage
      calls := Stages.callsAgree_of_not_handler (by simp [create])
      awaited := fun _ _ hstage => by cases hstage }

/-- Any run may be followed when nothing is asked of the events of a connection. -/
theorem reachable_of_heap (hreach : (servers service n).Reachable s) :
    ∀ conn session, s.heap conn = some session → (sessions service).Reachable session := by
  intro conn session hheap
  refine reachable_of_hands (hreach.mono fun s a _ => ?_) hheap
  cases a with
  | handle l => exact fun _ _ _ _ _ => trivial
  | _ => trivial

theorem tracked_of_reachable (hreach : (servers service n).Reachable s) :
    ∃ stages, s.Tracked stages := by
  refine Machine.ReachableWhere.invariant_along (I := fun s : HttpServer n =>
    ∃ stages, s.Tracked stages) ?_ ?_ hreach
  · rintro s rfl
    exact ⟨_, tracked_create⟩
  · rintro s a t hs ⟨stages, htracked⟩ _ hstep
    exact tracked_step htracked (reachable_of_heap hs) hstep

/-! ## What the kernel sees -/

/-- A descriptor that is open for a connection is still in use: its creation is
queued or under way, its channel is registered, or its handler is going to
close it. -/
def InUse (s : HttpServer n) (l : Fin (n + 1)) (fd : ℕ) (conn : ConnectionId) : Prop :=
  .create fd conn ∈ (s.loops l).functors.pending ∨ (s.loops l).task = .starting fd conn ∨
    (s.loops l).interest fd = some conn ∨
    ∃ effects, (s.loops l).task = .handler conn effects ∧ .close fd ∈ effects

/-- The descriptors and the epoll sets are in order. -/
structure InCustody (s : HttpServer n) : Prop where
  /-- What is registered is open, for the connection that has registered it. -/
  registered : ∀ l fd conn, (s.loops l).interest fd = some conn → s.files fd = some conn
  /-- A handler makes its next call on a descriptor of its own that is open. -/
  calls : ∀ l conn e effects fd, (s.loops l).task = .handler conn (e :: effects) →
    e.descriptor = some fd → s.files fd = some conn
  /-- `epoll_ctl` accepts the next change, which is of the own registration. -/
  changes : ∀ l conn fd ctl effects,
    (s.loops l).task = .handler conn (.epollCtl fd ctl :: effects) →
      (s.loops l).interest fd = some conn ∧ ∀ events, ctl ≠ .add events
  /-- `epoll_ctl` accepts a new channel. -/
  additions : ∀ l conn fd, (s.loops l).task = .starting fd conn →
    s.files fd = some conn ∧ ∀ l', (s.loops l').interest fd = none
  /-- When a descriptor is closed, nothing is registered under it. -/
  closes : ∀ l conn fd effects, (s.loops l).task = .handler conn (.close fd :: effects) →
    ∀ l', (s.loops l').interest fd = none
  /-- No open descriptor is forgotten. -/
  used : ∀ fd conn, s.files fd = some conn → s.InUse (loopOf n conn) fd conn

/-- The next effect of a handler, with the stage it is made in. -/
theorem Tracked.effect_cases (hs : s.Tracked stages) {e : Effect} {effects : List Effect}
    (htask : (s.loops l).task = .handler conn (e :: effects)) :
    ∃ progress fd, stages conn = some ⟨progress, l, fd⟩ ∧ e.isOn fd ∧
      (progress.isRegistered ∧ (e.isLocal fd ∨ e = .epollCtl fd .del) ∨
        progress = .leaving ∧ e = .close fd ∨ progress = .closing ∧ e = .queueErase fd) := by
  have hl := hs.loops l
  have hrunning := hl.task.running
  rw [htask] at hrunning
  obtain ⟨progress, fd, hstage, hremains⟩ := hrunning
  refine ⟨progress, fd, hstage, hl.calls conn _ _ htask hstage e (List.mem_cons_self ..), ?_⟩
  cases progress with
  | accepted | starting | storing => exact hremains.elim
  | live => exact .inl ⟨rfl, .inl (hremains e (List.mem_cons_self ..))⟩
  | doomed =>
      obtain ⟨first, hfirst, hlocal⟩ := hremains
      refine .inl ⟨rfl, ?_⟩
      cases first with
      | nil => exact .inr (List.cons.inj hfirst).1
      | cons e' first =>
          obtain ⟨rfl, _⟩ := List.cons.inj hfirst
          exact .inl (hlocal e (List.mem_cons_self ..))
  | leaving => exact .inr (.inl ⟨rfl, (List.cons.inj (hremains : e :: effects = _)).1⟩)
  | closing => exact .inr (.inr ⟨rfl, (List.cons.inj (hremains : e :: effects = _)).1⟩)
  | queued => cases (hremains : e :: effects = [])

theorem Tracked.calls_open (hs : s.Tracked stages) {e : Effect} {effects : List Effect}
    (htask : (s.loops l).task = .handler conn (e :: effects)) (hfd : e.descriptor = some fd) :
    s.files fd = some conn := by
  obtain ⟨progress, fd', hstage, hon, hcases⟩ := hs.effect_cases htask
  have hsame : fd = fd' := by
    cases e with
    | read | write | epollCtl | close =>
        cases hfd
        exact hon
    | _ => cases hfd
  subst hsame
  apply hs.files conn _ hstage
  rcases hcases with ⟨hregistered, _⟩ | ⟨rfl, _⟩ | ⟨_, rfl⟩
  · exact Stages.isOpen_of_isRegistered hregistered
  · rfl
  · cases hfd

theorem Tracked.inUse (hs : s.Tracked stages) (hfile : s.files fd = some conn) :
    s.InUse (loopOf n conn) fd conn := by
  obtain ⟨⟨progress, l, fd'⟩, hstage, hopen, hfd⟩ := hs.opened fd conn hfile
  dsimp only at hopen hfd
  subst hfd
  rw [← hs.placed conn _ hstage]
  have hl := hs.loops l
  cases progress with
  | accepted => exact .inl (hl.awaited conn fd' hstage)
  | starting =>
      rcases hl.task.of_busy hstage rfl with ⟨_, htask⟩ | ⟨⟨⟩, _⟩ | ⟨effects, _, hremains⟩
      · exact .inr (.inl htask)
      · exact hremains.elim
  | storing | live | doomed => exact .inr (.inr (.inl (hl.watched conn fd' _ hstage rfl)))
  | leaving =>
      rcases hl.task.of_busy hstage rfl with ⟨⟨⟩, _⟩ | ⟨⟨⟩, _⟩ | ⟨effects, htask, hremains⟩
      refine .inr (.inr (.inr ⟨effects, htask, ?_⟩))
      rw [show effects = [.close fd', .queueErase fd'] from hremains]
      exact List.mem_cons_self ..
  | closing | queued => cases hopen

/-- **Descriptors stay in custody.** In every run of the server, whatever is
erased when: what is registered is open; a handler makes its system calls on
its own open descriptor; `epoll_ctl` accepts every call; nothing is registered
under a descriptor that is closed; and no open descriptor is forgotten.  For the
source this is a statement about the run up to the first use of a connection
that has been destroyed. -/
theorem descriptors_in_custody (service : Service) (n : ℕ) (s : HttpServer n)
    (hreach : (servers service n).Reachable s) : s.InCustody := by
  obtain ⟨stages, hs⟩ := tracked_of_reachable hreach
  refine ⟨fun l fd conn hconn => ?_, fun l conn e effects fd htask hfd => hs.calls_open htask hfd,
    ?_, fun l conn fd htask => (hs.startable htask).2, ?_, fun fd conn hfile => hs.inUse hfile⟩
  · obtain ⟨progress, hstage, hregistered⟩ := (hs.loops l).interest fd conn hconn
    exact (hs.registered hstage hregistered).1
  · intro l conn fd ctl effects htask
    obtain ⟨progress, fd', hstage, hon, hcases⟩ := hs.effect_cases htask
    have hfd : fd = fd' := hon
    subst hfd
    rcases hcases with ⟨hregistered, hlocal | hdel⟩ | ⟨_, ⟨⟩⟩ | ⟨_, ⟨⟩⟩
    · refine ⟨(hs.registered hstage hregistered).2, ?_⟩
      rintro events rfl
      exact hlocal
    · refine ⟨(hs.registered hstage hregistered).2, ?_⟩
      rintro events rfl
      cases hdel
  · intro l conn fd effects htask l'
    obtain ⟨progress, fd', hstage, hon, hcases⟩ := hs.effect_cases htask
    have hfd : fd = fd' := hon
    subst hfd
    rcases hcases with ⟨_, hlocal | hdel⟩ | ⟨rfl, _⟩ | ⟨_, hqueue⟩
    · exact hlocal.elim
    · cases hdel
    · by_contra hentry
      obtain ⟨other, hother⟩ := Option.ne_none_iff_exists'.mp hentry
      obtain ⟨found, hfound, hregistered⟩ := (hs.loops l').interest fd other hother
      have hsame : other = conn := hs.files.conn_unique hfound
        (Stages.isOpen_of_isRegistered hregistered) hstage rfl rfl
      subst hsame
      cases hstage.symm.trans hfound
      cases hregistered
    · cases hqueue

/-- A run in which the erase functor of one connection destroys the one that has
its descriptor now. -/
theorem descriptors_in_custody_reused :
    ∃ s : HttpServer 0, (s.loops 0).interest 6 = some 1 ∧ s.heap 1 = none ∧ s.InCustody := by
  obtain ⟨s, hreach, hregistered, hdestroyed⟩ := Machine.exists_reachable_of_run
    (M := servers ⟨.stored, none⟩ 0) (s := .create)
    (P := fun s => (s.loops 0).interest 6 = some 1 ∧ s.heap 1 = none) Machine.anyStep
    [.wait 0 [.accept], .accept 6, .register 0, .store 0, .acceptDone, .swap 0, .next 0,
      .wait 0 [.connection 6 0 ⟨EPOLLIN, .data [], []⟩, .accept], .handle 0, .perform 0, .perform 0,
      .perform 0, .perform 0, .leave 0, .accept 6, .register 0, .store 0, .acceptDone, .swap 0,
      .next 0]
    rfl (Machine.follows_anyStep _ _) (by decide +kernel)
  exact ⟨s, hregistered, hdestroyed, descriptors_in_custody _ 0 s hreach⟩

end HttpServer

end EpollHttpServer.Server
