/-
# How far a connection has come

Every accepted connection is in a stage, from the queueing of its creation
functor to the queueing of its erase functor.  The stages agree with a state
when every place that mentions a connection puts it in the same stage: the
table of descriptors, the heap, `connections_`, and in the loop it belongs to
the epoll set, the queue of functors, the reported events and the code that is
running.

A step moves one connection at most.  For each of these places there is a lemma
that says when it agrees with the stages after the move.
-/

import EpollHttpServer.Server.HttpServer
import EpollHttpServer.Server.Outcomes

namespace EpollHttpServer.Server

open EpollHttpServer.Lib EpollHttpServer.Reactor

/-- How far a connection has come. -/
inductive Progress where
  | /-- Its creation functor is queued. -/
    accepted
  | starting
  | storing
  | live
  | /-- Its handler is going to remove it. -/
    doomed
  | /-- Its channel is out of the epoll set. -/
    leaving
  | /-- Its descriptor is closed. -/
    closing
  | /-- Its erase functor is queued. -/
    queued
  deriving DecidableEq

namespace Progress

def isOpen : Progress → Bool
  | .closing | .queued => false
  | _ => true

def isBuilt : Progress → Bool
  | .accepted | .starting => false
  | _ => true

def isStored : Progress → Bool
  | .accepted | .starting | .storing => false
  | _ => true

def isRegistered : Progress → Bool
  | .storing | .live | .doomed => true
  | _ => false

/-- No handler has begun to remove the connection. -/
def isServed : Progress → Bool
  | .storing | .live => true
  | _ => false

/-- A functor that mentions the connection is queued. -/
def isQueued : Progress → Bool
  | .accepted | .queued => true
  | _ => false

/-- Its loop is running code of the connection. -/
def isBusy : Progress → Bool
  | .accepted | .live | .queued => false
  | _ => true

/-- What the handler of a connection in this state may have left to do. -/
def Remains (fd : ℕ) : Progress → List Effect → Prop
  | .live, effects => ∀ e ∈ effects, e.isLocal fd
  | .doomed, effects => ∃ first, effects = first ++ teardown fd ∧ ∀ e ∈ first, e.isLocal fd
  | .leaving, effects => effects = [.close fd, .queueErase fd]
  | .closing, effects => effects = [.queueErase fd]
  | .queued, effects => effects = []
  | _, _ => False

end Progress

/-- The progress of a connection, and the loop and the descriptor it has. -/
structure Stage (n : ℕ) where
  progress : Progress
  loop : Fin (n + 1)
  fd : ℕ

/-- The stages of the connections that have been accepted and not been erased. -/
abbrev Stages (n : ℕ) : Type := ConnectionId → Option (Stage n)

def ServerFunctor.conn : ServerFunctor → ConnectionId
  | .create _ conn => conn
  | .erase _ conn => conn

/-- The stage of a connection whose functor is queued in a loop. -/
def ServerFunctor.stage {n : ℕ} (l : Fin (n + 1)) : ServerFunctor → Stage n
  | .create fd _ => ⟨.accepted, l, fd⟩
  | .erase fd _ => ⟨.queued, l, fd⟩

/-- A connection in a given stage waits for one functor only. -/
theorem ServerFunctor.eq_of_stage {n : ℕ} {l : Fin (n + 1)} {f g : ServerFunctor}
    (hconn : f.conn = g.conn) (hstage : f.stage l = g.stage l) : f = g := by
  cases f <;> cases g <;> simp_all [ServerFunctor.conn, ServerFunctor.stage]

/-- The stages agree with the code that a loop is in. -/
def Task.Agrees {n : ℕ} (stages : Stages n) (l : Fin (n + 1)) : Task → Prop
  | .idle => True
  | .starting fd conn => stages conn = some ⟨.starting, l, fd⟩
  | .storing fd conn => stages conn = some ⟨.storing, l, fd⟩
  | .handler conn effects =>
    ∃ progress fd, stages conn = some ⟨progress, l, fd⟩ ∧ progress.Remains fd effects

/-- The connection whose code it is. -/
def Task.conn : Task → Option ConnectionId
  | .idle => none
  | .starting _ conn => some conn
  | .storing _ conn => some conn
  | .handler conn _ => some conn

/-- The code is not a handler of this connection. -/
def Task.Spares (conn : ConnectionId) : Task → Prop
  | .handler other _ => other ≠ conn
  | _ => True

/-- A handler that goes on is the handler of the same connection. -/
theorem Task.spares_handler {task : Task} {conn : ConnectionId} {effects : List Effect}
    (htask : task = .handler conn effects) (effects' : List Effect) :
    ∀ other, task.Spares other → (Task.handler conn effects').Spares other := by
  subst htask
  exact fun _ hspares => hspares

namespace Stages

variable {n : ℕ} {stages : Stages n} {c conn : ConnectionId} {x : Option (Stage n)}
  {stage : Stage n} {l : Fin (n + 1)} {fd : ℕ} {progress : Progress}

/-- A registered channel belongs to a connection of this loop. -/
def InterestAgrees (stages : Stages n) (l : Fin (n + 1)) (interest : ℕ → Option ConnectionId) :
    Prop :=
  ∀ fd conn, interest fd = some conn →
    ∃ progress, stages conn = some ⟨progress, l, fd⟩ ∧ progress.isRegistered

/-- The queued functors are those that connections of this loop wait for, once each. -/
structure FunctorsAgree (stages : Stages n) (l : Fin (n + 1)) (functors : List ServerFunctor) :
    Prop where
  waited : ∀ f ∈ functors, stages f.conn = some (f.stage l)
  nodup : functors.Nodup
  queued : ∀ conn fd, stages conn = some ⟨.queued, l, fd⟩ → .erase fd conn ∈ functors

/-- The code that is running is the code of a connection that has come as far. -/
structure TaskAgrees (stages : Stages n) (l : Fin (n + 1)) (task : Task) : Prop where
  running : task.Agrees stages l
  busy : ∀ conn fd progress, stages conn = some ⟨progress, l, fd⟩ → progress.isBusy →
    task.conn = some conn

/-- The events to be dispatched are for live connections that are not being handled. -/
structure EventsAgree (stages : Stages n) (l : Fin (n + 1)) (task : Task)
    (events : List ServerEvent) : Prop where
  live : ∀ fd conn d, .connection fd conn d ∈ events →
    stages conn = some ⟨.live, l, fd⟩ ∧ task.Spares conn
  distinct : (events.map ServerEvent.fd).Nodup

theorem update_eq_some : Function.update stages c x conn = some stage ↔
    conn = c ∧ x = some stage ∨ conn ≠ c ∧ stages conn = some stage := by
  by_cases hconn : conn = c
  · subst hconn
    simp
  · simp [hconn]

/-- A connection stays in its stage when another one moves. -/
theorem update_of_stage (hstage : stages conn = some stage) (hother : stages c ≠ some stage)
    (x : Option (Stage n)) : Function.update stages c x conn = some stage := by
  rw [Function.update_of_ne, hstage]
  rintro rfl
  exact hother hstage

/-- What holds of a stage that is known holds of every stage found in its place. -/
theorem of_stage (hstage : x = some stage) {P : Stage n → Prop} (hholds : P stage) :
    ∀ found, x = some found → P found := by
  intro found hfound
  cases hstage.symm.trans hfound
  exact hholds

theorem of_progress (hstage : x = some ⟨progress, l, fd⟩) {P : Progress → Prop}
    (hholds : P progress) : ∀ fd' found, x = some ⟨found, l, fd'⟩ → P found := by
  intro fd' found hfound
  cases hstage.symm.trans hfound
  exact hholds

/-! ## Epoll sets -/

section interest

variable {interest : ℕ → Option ConnectionId}

/-- A connection moves whose channel is not registered here. -/
theorem InterestAgrees.frame (h : stages.InterestAgrees l interest)
    (hnot : ∀ fd progress, stages c = some ⟨progress, l, fd⟩ → progress.isRegistered = false)
    (x : Option (Stage n)) : InterestAgrees (Function.update stages c x) l interest := by
  intro fd conn hconn
  obtain ⟨progress, hstage, hregistered⟩ := h fd conn hconn
  refine ⟨progress, update_of_stage hstage (fun hc => ?_) x, hregistered⟩
  exact absurd (hregistered.symm.trans (hnot fd progress hc)) (by simp)

/-- A connection moves and stays registered. -/
theorem InterestAgrees.move (h : stages.InterestAgrees l interest)
    (hstage : stages c = some ⟨progress, l, fd⟩) {progress' : Progress}
    (hregistered : progress'.isRegistered) :
    InterestAgrees (Function.update stages c (some ⟨progress', l, fd⟩)) l interest := by
  intro fd' conn hconn
  obtain ⟨found, hfound, hfoundRegistered⟩ := h fd' conn hconn
  by_cases hc : conn = c
  · subst hc
    cases hstage.symm.trans hfound
    exact ⟨progress', Function.update_self .., hregistered⟩
  · exact ⟨found, by rw [Function.update_of_ne hc, hfound], hfoundRegistered⟩

theorem InterestAgrees.remove (h : stages.InterestAgrees l interest) (fd : ℕ) :
    stages.InterestAgrees l (Function.update interest fd none) := by
  intro fd' conn hconn
  by_cases hfd : fd' = fd
  · subst hfd
    rw [Function.update_self] at hconn
    cases hconn
  · rw [Function.update_of_ne hfd] at hconn
    exact h fd' conn hconn

/-- A connection moves, and its channel is removed. -/
theorem InterestAgrees.removeSelf (h : stages.InterestAgrees l interest)
    (hstage : stages c = some ⟨progress, l, fd⟩) (x : Option (Stage n)) :
    InterestAgrees (Function.update stages c x) l (Function.update interest fd none) := by
  intro fd' conn hconn
  by_cases hfd : fd' = fd
  · subst hfd
    rw [Function.update_self] at hconn
    cases hconn
  · rw [Function.update_of_ne hfd] at hconn
    obtain ⟨found, hfound, hregistered⟩ := h fd' conn hconn
    refine ⟨found, update_of_stage hfound (fun hc => ?_) x, hregistered⟩
    cases hstage.symm.trans hc
    exact hfd rfl

theorem InterestAgrees.add (h : stages.InterestAgrees l interest)
    (hstage : stages c = some ⟨progress, l, fd⟩) (hregistered : progress.isRegistered) :
    stages.InterestAgrees l (Function.update interest fd (some c)) := by
  intro fd' conn hconn
  by_cases hfd : fd' = fd
  · subst hfd
    rw [Function.update_self] at hconn
    cases hconn
    exact ⟨progress, hstage, hregistered⟩
  · rw [Function.update_of_ne hfd] at hconn
    exact h fd' conn hconn

end interest

/-! ## Queues -/

section functors

variable {functors : List ServerFunctor}

/-- A functor's connection waits for it. -/
theorem isQueued_of_mem (h : stages.FunctorsAgree l functors) {f : ServerFunctor}
    (hf : f ∈ functors) :
    ∃ progress fd, stages f.conn = some ⟨progress, l, fd⟩ ∧ progress.isQueued := by
  have hwaited := h.waited f hf
  cases f with
  | create fd conn => exact ⟨_, _, hwaited, rfl⟩
  | erase fd conn => exact ⟨_, _, hwaited, rfl⟩

/-- A connection moves that waits for no functor of this loop, before and after. -/
theorem FunctorsAgree.frame (h : stages.FunctorsAgree l functors)
    (hnot : ∀ fd progress, stages c = some ⟨progress, l, fd⟩ → progress.isQueued = false)
    (hnew : ∀ fd progress, x = some ⟨progress, l, fd⟩ → progress.isQueued = false) :
    FunctorsAgree (Function.update stages c x) l functors where
  waited f hf := by
    obtain ⟨progress, fd, hstage, hqueued⟩ := isQueued_of_mem h hf
    rw [h.waited f hf] at hstage
    refine update_of_stage (h.waited f hf) (fun hc => ?_) x
    exact absurd (hqueued.symm.trans (hnot fd progress (hc.trans hstage))) (by simp)
  nodup := h.nodup
  queued conn fd hconn := by
    rcases update_eq_some.mp hconn with ⟨_, hx⟩ | ⟨_, hstage⟩
    · exact absurd (hnew fd .queued hx) (by simp [Progress.isQueued])
    · exact h.queued conn fd hstage

/-- A connection of this loop moves on and waits for no functor. -/
theorem FunctorsAgree.move (h : stages.FunctorsAgree l functors)
    (hstage : stages c = some ⟨progress, l, fd⟩) (hqueued : progress.isQueued = false)
    {progress' : Progress} (hqueued' : progress'.isQueued = false) :
    FunctorsAgree (Function.update stages c (some ⟨progress', l, fd⟩)) l functors := by
  exact h.frame (of_progress hstage hqueued) (of_progress rfl hqueued')

/-- A connection that waits for no functor of this loop begins to. -/
theorem FunctorsAgree.push (h : stages.FunctorsAgree l functors) (f : ServerFunctor)
    (hnot : ∀ fd progress, stages f.conn = some ⟨progress, l, fd⟩ → progress.isQueued = false) :
    FunctorsAgree (Function.update stages f.conn (some (f.stage l))) l (functors ++ [f]) where
  waited g hg := by
    rcases List.mem_append.mp hg with hearlier | hlast
    · obtain ⟨progress, fd, hstage, hqueued⟩ := isQueued_of_mem h hearlier
      rw [h.waited g hearlier] at hstage
      refine update_of_stage (h.waited g hearlier) (fun hc => ?_) _
      exact absurd (hqueued.symm.trans (hnot fd progress (hc.trans hstage))) (by simp)
    · rw [List.mem_singleton.mp hlast]
      exact Function.update_self ..
  nodup := by
    rw [← List.concat_eq_append]
    refine h.nodup.concat fun hmem => ?_
    obtain ⟨progress, fd, hstage, hqueued⟩ := isQueued_of_mem h hmem
    exact absurd (hqueued.symm.trans (hnot fd progress hstage)) (by simp)
  queued conn fd hconn := by
    rcases update_eq_some.mp hconn with ⟨rfl, hx⟩ | ⟨_, hstage⟩
    · cases f with
      | create => cases hx
      | erase fd' conn' =>
          cases hx
          exact List.mem_append_right _ (List.mem_singleton.mpr rfl)
    · exact List.mem_append_left _ (h.queued conn fd hstage)

/-- The first functor is taken, and its connection waits no longer. -/
theorem FunctorsAgree.pop {f : ServerFunctor} (h : stages.FunctorsAgree l (f :: functors))
    (hnew : ∀ fd progress, x = some ⟨progress, l, fd⟩ → progress.isQueued = false) :
    FunctorsAgree (Function.update stages f.conn x) l functors where
  waited g hg := by
    have hgstage := h.waited g (List.mem_cons_of_mem _ hg)
    have hne : g.conn ≠ f.conn := by
      intro hconn
      have hstage := h.waited f (List.mem_cons_self ..)
      rw [← hconn, hgstage] at hstage
      have hsame := ServerFunctor.eq_of_stage hconn (Option.some.inj hstage)
      exact (List.nodup_cons.mp h.nodup).1 (hsame ▸ hg)
    rw [Function.update_of_ne hne, hgstage]
  nodup := (List.nodup_cons.mp h.nodup).2
  queued conn fd hconn := by
    rcases update_eq_some.mp hconn with ⟨_, hx⟩ | ⟨hne, hstage⟩
    · exact absurd (hnew fd .queued hx) (by simp [Progress.isQueued])
    · rcases List.mem_cons.mp (h.queued conn fd hstage) with hfirst | hmem
      · subst hfirst
        exact absurd rfl hne
      · exact hmem

end functors

/-! ## Running code -/

section task

variable {task : Task}

/-- The code that is running belongs to a connection of this loop. -/
theorem running_update (h : task.Agrees stages l)
    (hnot : ∀ fd progress, stages c ≠ some ⟨progress, l, fd⟩) (x : Option (Stage n)) :
    task.Agrees (Function.update stages c x) l := by
  cases task with
  | idle => trivial
  | starting fd conn => exact update_of_stage h (hnot fd _) x
  | storing fd conn => exact update_of_stage h (hnot fd _) x
  | handler conn effects =>
      obtain ⟨progress, fd, hstage, hremains⟩ := h
      exact ⟨progress, fd, update_of_stage hstage (hnot fd progress) x, hremains⟩

/-- A connection moves that is not in this loop, to where it needs no code of it. -/
theorem TaskAgrees.frame (h : stages.TaskAgrees l task)
    (hnot : ∀ fd progress, stages c ≠ some ⟨progress, l, fd⟩)
    (hnew : ∀ fd progress, x = some ⟨progress, l, fd⟩ → progress.isBusy = false) :
    TaskAgrees (Function.update stages c x) l task where
  running := running_update h.running hnot x
  busy conn fd progress hconn hbusy := by
    rcases update_eq_some.mp hconn with ⟨_, hx⟩ | ⟨_, hstage⟩
    · exact absurd (hbusy.symm.trans (hnew fd progress hx)) (by simp)
    · exact h.busy conn fd progress hstage hbusy

/-- The loop goes on with other code, and no connection moves. -/
theorem TaskAgrees.goOn (h : stages.TaskAgrees l task) {task' : Task}
    (hrunning : task'.Agrees stages l)
    (hbusy : ∀ conn fd progress, stages conn = some ⟨progress, l, fd⟩ → progress.isBusy →
      task.conn = some conn → task'.conn = some conn) : stages.TaskAgrees l task' where
  running := hrunning
  busy conn fd progress hstage hyes :=
    hbusy conn fd progress hstage hyes (h.busy conn fd progress hstage hyes)

/-- The loop goes on with other code, and the connection moves whose code it
was, if it was the code of one. -/
theorem TaskAgrees.switch (h : stages.TaskAgrees l task) {task' : Task}
    (hmine : ∀ conn, task.conn = some conn → conn = c)
    (hrunning : task'.Agrees (Function.update stages c x) l)
    (hnew : ∀ fd progress, x = some ⟨progress, l, fd⟩ → progress.isBusy → task'.conn = some c) :
    TaskAgrees (Function.update stages c x) l task' where
  running := hrunning
  busy conn fd progress hconn hbusy := by
    rcases update_eq_some.mp hconn with ⟨rfl, hx⟩ | ⟨hne, hstage⟩
    · exact hnew fd progress hx hbusy
    · exact absurd (hmine conn (h.busy conn fd progress hstage hbusy)) hne

/-- The code of a connection that is half-way is the code that is running. -/
theorem TaskAgrees.of_busy (h : stages.TaskAgrees l task)
    (hstage : stages conn = some ⟨progress, l, fd⟩) (hbusy : progress.isBusy) :
    progress = .starting ∧ task = .starting fd conn ∨
      progress = .storing ∧ task = .storing fd conn ∨
      ∃ effects, task = .handler conn effects ∧ progress.Remains fd effects := by
  have hrunning := h.running
  have hconn := h.busy conn fd progress hstage hbusy
  cases task with
  | idle => cases hconn
  | starting fd' conn' =>
      cases hconn
      cases hstage.symm.trans hrunning
      exact .inl ⟨rfl, rfl⟩
  | storing fd' conn' =>
      cases hconn
      cases hstage.symm.trans hrunning
      exact .inr (.inl ⟨rfl, rfl⟩)
  | handler conn' effects =>
      cases hconn
      obtain ⟨found, fd', hfound, hremains⟩ := hrunning
      cases hstage.symm.trans hfound
      exact .inr (.inr ⟨effects, rfl, hremains⟩)

theorem TaskAgrees.of_storing (h : stages.TaskAgrees l task)
    (hstage : stages conn = some ⟨.storing, l, fd⟩) : task = .storing fd conn := by
  rcases h.of_busy hstage rfl with ⟨⟨⟩, _⟩ | ⟨_, htask⟩ | ⟨effects, _, hremains⟩
  · exact htask
  · exact hremains.elim

/-- A closed connection whose erase functor is not queued is about to queue it. -/
theorem TaskAgrees.of_closing (h : stages.TaskAgrees l task)
    (hstage : stages conn = some ⟨.closing, l, fd⟩) : task = .handler conn [.queueErase fd] := by
  rcases h.of_busy hstage rfl with ⟨⟨⟩, _⟩ | ⟨⟨⟩, _⟩ | ⟨effects, htask, hremains⟩
  rw [htask, show effects = [.queueErase fd] from hremains]

end task

/-! ## Reported events -/

section events

variable {task : Task} {events : List ServerEvent}

theorem eventsAgree_nil : stages.EventsAgree l task [] where
  live _ _ _ hevent := by cases hevent
  distinct := List.nodup_nil

/-- A connection moves that is not live here, or that no event is for. -/
theorem EventsAgree.frame (h : stages.EventsAgree l task events)
    (hnot : ∀ fd d, stages c = some ⟨.live, l, fd⟩ → .connection fd c d ∉ events)
    (x : Option (Stage n)) : EventsAgree (Function.update stages c x) l task events where
  live fd conn d hevent := by
    obtain ⟨hstage, hspares⟩ := h.live fd conn d hevent
    refine ⟨?_, hspares⟩
    rw [Function.update_of_ne, hstage]
    rintro rfl
    exact hnot fd d hstage hevent
  distinct := h.distinct

/-- The loop goes on with other code. -/
theorem EventsAgree.switch (h : stages.EventsAgree l task events) {task' : Task}
    (hspares : ∀ conn, task.Spares conn → task'.Spares conn) :
    stages.EventsAgree l task' events where
  live fd conn d hevent := ⟨(h.live fd conn d hevent).1, hspares conn (h.live fd conn d hevent).2⟩
  distinct := h.distinct

/-- The first event is taken. -/
theorem EventsAgree.tail {event : ServerEvent} (h : stages.EventsAgree l task (event :: events)) :
    stages.EventsAgree l task events where
  live fd conn d hevent := h.live fd conn d (List.mem_cons_of_mem _ hevent)
  distinct := (List.nodup_cons.mp h.distinct).2

/-- No two events are for the same connection. -/
theorem EventsAgree.head_not_mem {d d' : Dispatch}
    (h : stages.EventsAgree l task (.connection fd conn d :: events)) {fd' : ℕ} :
    .connection fd' conn d' ∉ events := by
  intro hmem
  have hfirst := (h.live fd conn d (List.mem_cons_self ..)).1
  have hlater := (h.live fd' conn d' (List.mem_cons_of_mem _ hmem)).1
  cases hfirst.symm.trans hlater
  exact (List.nodup_cons.mp h.distinct).1 (List.mem_map.mpr ⟨_, hmem, rfl⟩)

end events

/-! ## Descriptors, the heap and `connections_` -/

section tables

variable {files connections : ℕ → Option ConnectionId} {heap : ConnectionId → Option Session}

/-- A connection that has not closed its descriptor has it. -/
def FilesAgree (stages : Stages n) (files : ℕ → Option ConnectionId) : Prop :=
  ∀ conn stage, stages conn = some stage → stage.progress.isOpen → files stage.fd = some conn

/-- The connections that are stored are those that have come so far. -/
def StoredAgrees (stages : Stages n) (connections : ℕ → Option ConnectionId) : Prop :=
  ∀ fd conn, connections fd = some conn ↔
    ∃ stage, stages conn = some stage ∧ stage.progress.isStored ∧ stage.fd = fd

/-- A connection that has been made has not been destroyed. -/
def HeapAgrees (stages : Stages n) (heap : ConnectionId → Option Session) : Prop :=
  ∀ conn stage, stages conn = some stage → stage.progress.isBuilt →
    ∃ session, heap conn = some session ∧ session.fd = stage.fd ∧
      (stage.progress.isServed → session.conn.Live)

theorem FilesAgree.update (h : stages.FilesAgree files)
    (hnew : ∀ stage, x = some stage → stage.progress.isOpen → files stage.fd = some c) :
    FilesAgree (Function.update stages c x) files := by
  intro conn stage hconn hopen
  rcases update_eq_some.mp hconn with ⟨rfl, hx⟩ | ⟨_, hstage⟩
  · exact hnew stage hx hopen
  · exact h conn stage hstage hopen

/-- A connection moves on with its descriptor. -/
theorem FilesAgree.move (h : stages.FilesAgree files) (hstage : stages c = some ⟨progress, l, fd⟩)
    (hopen : progress.isOpen) (progress' : Progress) :
    FilesAgree (Function.update stages c (some ⟨progress', l, fd⟩)) files := by
  have hfile : files fd = some c := h c _ hstage hopen
  apply h.update
  rintro stage ⟨⟩ _
  exact hfile

theorem FilesAgree.accept (h : stages.FilesAgree files) (hfree : files fd = none) :
    FilesAgree (Function.update stages c (some ⟨progress, l, fd⟩))
      (Function.update files fd (some c)) := by
  intro conn stage hconn hopen
  rcases update_eq_some.mp hconn with ⟨rfl, ⟨⟩⟩ | ⟨_, hstage⟩
  · exact Function.update_self ..
  · have hfile := h conn stage hstage hopen
    rw [Function.update_of_ne, hfile]
    intro hfd
    rw [hfd, hfree] at hfile
    cases hfile

theorem FilesAgree.close (h : stages.FilesAgree files) (hfile : files fd = some c)
    (hnew : ∀ stage, x = some stage → stage.progress.isOpen = false) :
    FilesAgree (Function.update stages c x) (Function.update files fd none) := by
  intro conn stage hconn hopen
  rcases update_eq_some.mp hconn with ⟨rfl, hx⟩ | ⟨hne, hstage⟩
  · exact absurd (hopen.symm.trans (hnew stage hx)) (by simp)
  · have hfile' := h conn stage hstage hopen
    rw [Function.update_of_ne, hfile']
    intro hfd
    rw [hfd, hfile] at hfile'
    exact hne (Option.some.inj hfile').symm

/-- A connection moves that is not stored, before and after. -/
theorem StoredAgrees.frame (h : stages.StoredAgrees connections)
    (hnot : ∀ stage, stages c = some stage → stage.progress.isStored = false)
    (hnew : ∀ stage, x = some stage → stage.progress.isStored = false) :
    StoredAgrees (Function.update stages c x) connections := by
  intro fd conn
  rw [h fd conn]
  by_cases hconn : conn = c
  · subst hconn
    rw [Function.update_self]
    constructor
    · rintro ⟨stage, hstage, hstored, _⟩
      exact absurd (hstored.symm.trans (hnot stage hstage)) (by simp)
    · rintro ⟨stage, hstage, hstored, _⟩
      exact absurd (hstored.symm.trans (hnew stage hstage)) (by simp)
  · rw [Function.update_of_ne hconn]

/-- A connection moves and stays stored. -/
theorem StoredAgrees.move (h : stages.StoredAgrees connections)
    (hstage : stages c = some ⟨progress, l, fd⟩) (hstored : progress.isStored)
    {progress' : Progress} (hstored' : progress'.isStored) :
    StoredAgrees (Function.update stages c (some ⟨progress', l, fd⟩)) connections := by
  intro fd' conn
  rw [h fd' conn]
  by_cases hconn : conn = c
  · subst hconn
    simp [hstage, hstored, hstored']
  · rw [Function.update_of_ne hconn]

theorem StoredAgrees.store (h : stages.StoredAgrees connections) (hfree : connections fd = none)
    (hnot : ∀ stage, stages c = some stage → stage.progress.isStored = false)
    (hstored : progress.isStored) :
    StoredAgrees (Function.update stages c (some ⟨progress, l, fd⟩))
      (Function.update connections fd (some c)) := by
  intro fd' conn
  by_cases hconn : conn = c
  · subst hconn
    rw [Function.update_self]
    by_cases hfd : fd' = fd
    · subst hfd
      simp [hstored]
    · rw [Function.update_of_ne hfd, h fd' conn]
      constructor
      · rintro ⟨stage, hstage, hyes, _⟩
        exact absurd (hyes.symm.trans (hnot stage hstage)) (by simp)
      · rintro ⟨stage, ⟨⟩, _, hother⟩
        exact absurd hother.symm hfd
  · rw [Function.update_of_ne hconn, ← h fd' conn]
    by_cases hfd : fd' = fd
    · subst hfd
      simp [hfree, Ne.symm hconn]
    · rw [Function.update_of_ne hfd]

theorem StoredAgrees.erase (h : stages.StoredAgrees connections)
    (hstage : stages c = some ⟨progress, l, fd⟩) (hstored : progress.isStored) :
    StoredAgrees (Function.update stages c none) (Function.update connections fd none) := by
  have hentry : connections fd = some c := (h fd c).mpr ⟨_, hstage, hstored, rfl⟩
  intro fd' conn
  by_cases hfd : fd' = fd
  · subst hfd
    rw [Function.update_self]
    constructor
    · rintro ⟨⟩
    · rintro ⟨stage, hconn, hyes, hsame⟩
      rcases update_eq_some.mp hconn with ⟨_, ⟨⟩⟩ | ⟨hne, hother⟩
      have hentry' := (h fd' conn).mpr ⟨stage, hother, hyes, hsame⟩
      exact absurd (Option.some.inj (hentry'.symm.trans hentry)) hne
  · rw [Function.update_of_ne hfd, h fd' conn]
    by_cases hconn : conn = c
    · subst hconn
      simp [hstage, Ne.symm hfd]
    · rw [Function.update_of_ne hconn]

theorem HeapAgrees.update (h : stages.HeapAgrees heap)
    (hnew : ∀ stage, x = some stage → stage.progress.isBuilt →
      ∃ session, heap c = some session ∧ session.fd = stage.fd ∧
        (stage.progress.isServed → session.conn.Live)) :
    HeapAgrees (Function.update stages c x) heap := by
  intro conn stage hconn hbuilt
  rcases update_eq_some.mp hconn with ⟨rfl, hx⟩ | ⟨_, hstage⟩
  · exact hnew stage hx hbuilt
  · exact h conn stage hstage hbuilt

/-- A connection moves on as it is. -/
theorem HeapAgrees.move (h : stages.HeapAgrees heap) (hstage : stages c = some ⟨progress, l, fd⟩)
    (hbuilt : progress.isBuilt) {progress' : Progress}
    (hserved : progress'.isServed → progress.isServed) :
    HeapAgrees (Function.update stages c (some ⟨progress', l, fd⟩)) heap := by
  apply h.update
  rintro stage ⟨⟩ _
  obtain ⟨session, hheap, hfd, hlive⟩ := h c _ hstage hbuilt
  exact ⟨session, hheap, hfd, fun hnow => hlive (hserved hnow)⟩

/-- A connection is made or changed. -/
theorem HeapAgrees.set (h : stages.HeapAgrees heap) {session : Session} (hfd : session.fd = fd)
    (hlive : progress.isServed → session.conn.Live) :
    HeapAgrees (Function.update stages c (some ⟨progress, l, fd⟩))
      (Function.update heap c (some session)) := by
  intro conn stage hconn hbuilt
  rcases update_eq_some.mp hconn with ⟨rfl, ⟨⟩⟩ | ⟨hne, hstage⟩
  · exact ⟨session, Function.update_self .., hfd, hlive⟩
  · rw [Function.update_of_ne hne]
    exact h conn stage hstage hbuilt

theorem HeapAgrees.destroy (h : stages.HeapAgrees heap) (c : ConnectionId) :
    HeapAgrees (Function.update stages c none) (Function.update heap c none) := by
  intro conn stage hconn hbuilt
  rcases update_eq_some.mp hconn with ⟨_, ⟨⟩⟩ | ⟨hne, hstage⟩
  rw [Function.update_of_ne hne]
  exact h conn stage hstage hbuilt

end tables

end Stages

/-- The stages agree with a loop. -/
structure LoopState.Agrees {n : ℕ} (stages : Stages n) (l : Fin (n + 1)) (loop : LoopState) :
    Prop where
  interest : stages.InterestAgrees l loop.interest
  functors : stages.FunctorsAgree l loop.functors.pending
  task : stages.TaskAgrees l loop.task
  events : stages.EventsAgree l loop.task loop.phase.events
  batch : loop.phase = .run ∨ loop.functors.batch = []

/-- A connection of another loop moves. -/
theorem LoopState.Agrees.frame {n : ℕ} {stages : Stages n} {l : Fin (n + 1)} {loop : LoopState}
    {c : ConnectionId} {x : Option (Stage n)} (h : loop.Agrees stages l)
    (hnot : ∀ fd progress, stages c ≠ some ⟨progress, l, fd⟩)
    (hnew : ∀ fd progress, x ≠ some ⟨progress, l, fd⟩) :
    loop.Agrees (Function.update stages c x) l where
  interest := h.interest.frame (fun fd progress hc => absurd hc (hnot fd progress)) x
  functors := h.functors.frame (fun fd progress hc => absurd hc (hnot fd progress))
    fun fd progress hx => absurd hx (hnew fd progress)
  task := h.task.frame hnot fun fd progress hx => absurd hx (hnew fd progress)
  events := h.events.frame (fun fd _ hc => absurd hc (hnot fd _)) x
  batch := h.batch

/-- There is a batch only while it is run. -/
theorem LoopState.Agrees.batch_eq_nil {n : ℕ} {stages : Stages n} {l : Fin (n + 1)}
    {loop : LoopState} (h : loop.Agrees stages l) (hphase : loop.phase ≠ .run) :
    loop.functors.batch = [] :=
  h.batch.resolve_left hphase

/-- A loop does something for a connection of its own, which moves on from a
stage in which no event is for it. -/
theorem LoopState.Agrees.advance {n : ℕ} {stages : Stages n} {l : Fin (n + 1)}
    {loop loop' : LoopState} {c : ConnectionId} {fd : ℕ} {progress progress' : Progress}
    (h : loop.Agrees stages l) (hstage : stages c = some ⟨progress, l, fd⟩)
    (hnotLive : progress ≠ .live) (hphase : loop'.phase = loop.phase)
    (hinterest : Stages.InterestAgrees (Function.update stages c (some ⟨progress', l, fd⟩)) l
      loop'.interest)
    (hfunctors : Stages.FunctorsAgree (Function.update stages c (some ⟨progress', l, fd⟩)) l
      loop'.functors.pending)
    (hmine : ∀ conn, loop.task.conn = some conn → conn = c)
    (hrunning : loop'.task.Agrees (Function.update stages c (some ⟨progress', l, fd⟩)) l)
    (hbusy : progress'.isBusy → loop'.task.conn = some c)
    (hspares : ∀ conn, loop.task.Spares conn → loop'.task.Spares conn)
    (hbatch : loop'.phase = .run ∨ loop'.functors.batch = []) :
    loop'.Agrees (Function.update stages c (some ⟨progress', l, fd⟩)) l where
  interest := hinterest
  functors := hfunctors
  task := h.task.switch hmine hrunning (by
    rintro fd' found ⟨⟩ hyes
    exact hbusy hyes)
  events := by
    rw [hphase]
    refine (h.events.switch hspares).frame (fun fd' d hc => ?_) _
    cases hstage.symm.trans hc
    exact absurd rfl hnotLive
  batch := hbatch

namespace HttpServer

variable {n : ℕ} {s t : HttpServer n} {stages : Stages n} {c conn : ConnectionId}
  {x : Option (Stage n)} {l : Fin (n + 1)} {fd : ℕ} {progress : Progress}

/-- The stages agree with everything in a state. -/
structure Agrees (s : HttpServer n) (stages : Stages n) : Prop where
  fresh : ∀ conn, s.accepted ≤ conn → stages conn = none
  files : stages.FilesAgree s.files
  stored : stages.StoredAgrees s.connections
  heap : stages.HeapAgrees s.heap
  loops : ∀ l, (s.loops l).Agrees stages l

theorem Agrees.lt_accepted (hs : s.Agrees stages) {stage : Stage n}
    (hstage : stages conn = some stage) : conn < s.accepted := by
  by_contra hnot
  rw [hs.fresh conn (Nat.le_of_not_lt hnot)] at hstage
  cases hstage

/-- A step of one loop that moves no connection. -/
theorem Agrees.stay (hs : s.Agrees stages) {loop : LoopState} (hloop : loop.Agrees stages l) :
    (s.setLoop l loop).Agrees stages where
  fresh := hs.fresh
  files := hs.files
  stored := hs.stored
  heap := hs.heap
  loops l' := by
    by_cases hl : l' = l
    · subst hl
      rw [setLoop_self]
      exact hloop
    · rw [setLoop_of_ne hl]
      exact hs.loops l'

/-- A step of one loop that moves one of its connections. -/
theorem Agrees.move (hs : s.Agrees stages) (haccepted : s.accepted ≤ t.accepted)
    (hc : c < t.accepted)
    (hold : ∀ stage, stages c = some stage → stage.loop = l)
    (hnew : ∀ stage, x = some stage → stage.loop = l)
    (hfiles : Stages.FilesAgree (Function.update stages c x) t.files)
    (hstored : Stages.StoredAgrees (Function.update stages c x) t.connections)
    (hheap : Stages.HeapAgrees (Function.update stages c x) t.heap)
    (hloop : (t.loops l).Agrees (Function.update stages c x) l)
    (hothers : ∀ l', l' ≠ l → (t.loops l').Agrees stages l') :
    t.Agrees (Function.update stages c x) where
  fresh conn hconn := by
    have hne : conn ≠ c := by
      rintro rfl
      exact absurd hc (Nat.not_lt.mpr hconn)
    rw [Function.update_of_ne hne]
    exact hs.fresh conn (haccepted.trans hconn)
  files := hfiles
  stored := hstored
  heap := hheap
  loops l' := by
    by_cases hl : l' = l
    · subst hl
      exact hloop
    · refine (hothers l' hl).frame (fun fd progress hstage => ?_) fun fd progress hx => ?_
      · exact hl (hold _ hstage)
      · exact hl (hnew _ hx)

/-- A step of one loop that moves a connection of its own to another stage. -/
theorem Agrees.advance (hs : s.Agrees stages) {progress' : Progress}
    (hstage : stages c = some ⟨progress, l, fd⟩) (haccepted : t.accepted = s.accepted)
    (hfiles : Stages.FilesAgree (Function.update stages c (some ⟨progress', l, fd⟩)) t.files)
    (hstored : Stages.StoredAgrees (Function.update stages c (some ⟨progress', l, fd⟩))
      t.connections)
    (hheap : Stages.HeapAgrees (Function.update stages c (some ⟨progress', l, fd⟩)) t.heap)
    (hloop : (t.loops l).Agrees (Function.update stages c (some ⟨progress', l, fd⟩)) l)
    (hothers : ∀ l', l' ≠ l → (t.loops l').Agrees stages l') :
    t.Agrees (Function.update stages c (some ⟨progress', l, fd⟩)) := by
  have hc : c < t.accepted := by
    rw [haccepted]
    exact hs.lt_accepted hstage
  exact hs.move haccepted.ge hc (Stages.of_stage hstage rfl) (Stages.of_stage rfl rfl) hfiles
    hstored hheap hloop hothers

theorem Agrees.others_setLoop (hs : s.Agrees stages) (loop : LoopState) :
    ∀ l', l' ≠ l → ((s.setLoop l loop).loops l').Agrees stages l' := by
  intro l' hne
  rw [setLoop_of_ne hne]
  exact hs.loops l'

end HttpServer

end EpollHttpServer.Server
