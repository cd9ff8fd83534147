/-
# The clients of the example server

Every connection that has been accepted and not been closed is in a stage, and
each table of the server shows the connections in certain stages: the open
descriptors, `clients_`, the epoll sets, the channels on the heap, the queued
functors, the reported events and the code that is running.  Since the entry of
`clients_` is removed before the descriptor is closed, no table is ever behind
another one, and this agreement needs no assumption about the order of steps.
-/

import EpollHttpServer.Lib.Tables
import EpollHttpServer.Examples.ReactorServer

namespace EpollHttpServer.Examples

open EpollHttpServer.Lib EpollHttpServer.Http EpollHttpServer.Reactor EpollHttpServer.Server

/-- How far a client has come. -/
inductive ClientProgress where
  | /-- Its creation functor is queued. -/
    accepted
  | starting
  | storing
  | live
  | /-- Its callback is running. -/
    serving
  | /-- Its channel is out of the epoll set. -/
    leaving
  | /-- Its entry of `clients_` is erased. -/
    erased
  | /-- Its descriptor is closed, and its callback has not returned. -/
    closed
  deriving DecidableEq

/-- A call on this descriptor that changes no table. -/
def ClientCall.isTransfer (fd : ℕ) : ClientCall → Prop
  | .read fd' _ => fd' = fd
  | .write fd' data _ => fd' = fd ∧ data = RESPONSE
  | _ => False

namespace ClientProgress

def isOpen : ClientProgress → Bool
  | .closed => false
  | _ => true

def isStored : ClientProgress → Bool
  | .live | .serving | .leaving => true
  | _ => false

def isWatched : ClientProgress → Bool
  | .storing | .live | .serving => true
  | _ => false

def isBuilt : ClientProgress → Bool
  | .storing | .live | .serving | .leaving => true
  | _ => false

/-- Its loop is running code of the client. -/
def isBusy : ClientProgress → Bool
  | .accepted | .live => false
  | _ => true

/-- The code that the loop of a client with this number is running. -/
def Runs (fd : ℕ) (conn : ConnectionId) : ClientProgress → ClientTask → Prop
  | .starting, task => task = .starting fd conn
  | .storing, task => task = .storing fd conn
  | .serving, task => ∃ first last, task = .callback conn (first ++ last) ∧
      (∀ call ∈ first, call.isTransfer fd) ∧ (last = [] ∨ last = removeConnection fd)
  | .leaving, task => task = .callback conn [.erase fd, .close fd]
  | .erased, task => task = .callback conn [.close fd]
  | .closed, task => task = .callback conn []
  | _, _ => False

end ClientProgress

/-- The progress of a client, and the loop and the descriptor it has. -/
structure ClientStage (n : ℕ) where
  progress : ClientProgress
  loop : Fin (n + 1)
  fd : ℕ

namespace ClientStage

variable {n : ℕ}

def openFd (stage : ClientStage n) : Option ℕ :=
  if stage.progress.isOpen then some stage.fd else none

def storedFd (stage : ClientStage n) : Option ℕ :=
  if stage.progress.isStored then some stage.fd else none

def watchedFd (l : Fin (n + 1)) (stage : ClientStage n) : Option ℕ :=
  if stage.progress.isWatched ∧ stage.loop = l then some stage.fd else none

/-- The creation functor is queued in this loop. -/
def awaits (l : Fin (n + 1)) (stage : ClientStage n) : Prop :=
  stage.progress = .accepted ∧ stage.loop = l

theorem openFd_eq_some {stage : ClientStage n} {fd : ℕ} :
    stage.openFd = some fd ↔ stage.progress.isOpen ∧ stage.fd = fd := by
  simp [openFd]

theorem storedFd_eq_some {stage : ClientStage n} {fd : ℕ} :
    stage.storedFd = some fd ↔ stage.progress.isStored ∧ stage.fd = fd := by
  simp [storedFd]

theorem watchedFd_eq_some {l : Fin (n + 1)} {stage : ClientStage n} {fd : ℕ} :
    stage.watchedFd l = some fd ↔
      (stage.progress.isWatched ∧ stage.loop = l) ∧ stage.fd = fd := by
  simp [watchedFd]

/-- What is watched or stored is open, and has a channel. -/
theorem isOpen_of_isWatched {progress : ClientProgress} (hwatched : progress.isWatched) :
    progress.isOpen := by
  cases progress <;> first | rfl | cases hwatched

theorem isOpen_of_isStored {progress : ClientProgress} (hstored : progress.isStored) :
    progress.isOpen := by
  cases progress <;> first | rfl | cases hstored

theorem isBuilt_of_isWatched {progress : ClientProgress} (hwatched : progress.isWatched) :
    progress.isBuilt := by
  cases progress <;> first | rfl | cases hwatched

theorem isBuilt_of_isStored {progress : ClientProgress} (hstored : progress.isStored) :
    progress.isBuilt := by
  cases progress <;> first | rfl | cases hstored

end ClientStage

/-- The code belongs to this client. -/
def ClientTask.conn : ClientTask → Option ConnectionId
  | .idle => none
  | .starting _ conn => some conn
  | .storing _ conn => some conn
  | .callback conn _ => some conn

namespace ClientProgress.Runs

variable {fd fd' : ℕ} {conn conn' : ConnectionId} {progress : ClientProgress} {task : ClientTask}

theorem conn_eq (hruns : progress.Runs fd conn task) : task.conn = some conn := by
  cases progress with
  | starting | storing | leaving | erased | closed =>
      obtain rfl := hruns
      rfl
  | serving =>
      obtain ⟨first, last, rfl, _⟩ := hruns
      rfl
  | accepted | live => exact hruns.elim

theorem of_starting (hruns : progress.Runs fd conn (.starting fd' conn')) :
    progress = .starting ∧ fd' = fd := by
  cases progress with
  | starting =>
      cases hruns
      exact ⟨rfl, rfl⟩
  | serving =>
      obtain ⟨first, last, hparts, _⟩ := hruns
      cases hparts
  | storing | leaving | erased | closed => cases hruns
  | accepted | live => exact hruns.elim

theorem of_storing (hruns : progress.Runs fd conn (.storing fd' conn')) :
    progress = .storing ∧ fd' = fd := by
  cases progress with
  | storing =>
      cases hruns
      exact ⟨rfl, rfl⟩
  | serving =>
      obtain ⟨first, last, hparts, _⟩ := hruns
      cases hparts
  | starting | leaving | erased | closed => cases hruns
  | accepted | live => exact hruns.elim

/-- The next call of a callback, and what it has to do afterwards. -/
theorem of_callback {call : ClientCall} {calls : List ClientCall}
    (hruns : progress.Runs fd conn (.callback conn' (call :: calls))) :
    progress = .serving ∧ call.isTransfer fd ∧
        ClientProgress.Runs fd conn .serving (.callback conn calls) ∨
      progress = .serving ∧ call = .disableAll ∧ calls = [.erase fd, .close fd] ∨
      progress = .leaving ∧ call = .erase fd ∧ calls = [.close fd] ∨
      progress = .erased ∧ call = .close fd ∧ calls = [] := by
  cases progress with
  | serving =>
      obtain ⟨first, last, hparts, hfirst, hlast⟩ := hruns
      obtain ⟨-, hcalls⟩ := ClientTask.callback.inj hparts
      cases first with
      | nil =>
          rcases hlast with rfl | rfl
          · cases hcalls
          · cases hcalls
            exact .inr (.inl ⟨rfl, rfl, rfl⟩)
      | cons transfer first =>
          cases hcalls
          exact .inl ⟨rfl, hfirst call (List.mem_cons_self ..), first, last, rfl,
            fun other hmem => hfirst other (List.mem_cons_of_mem _ hmem), hlast⟩
  | leaving =>
      cases hruns
      exact .inr (.inr (.inl ⟨rfl, rfl, rfl⟩))
  | erased =>
      cases hruns
      exact .inr (.inr (.inr ⟨rfl, rfl, rfl⟩))
  | starting | storing | closed => cases hruns
  | accepted | live => exact hruns.elim

/-- A callback that has nothing left to do. -/
theorem of_callback_nil (hruns : progress.Runs fd conn (.callback conn' [])) :
    progress = .serving ∨ progress = .closed := by
  cases progress with
  | serving => exact .inl rfl
  | closed => exact .inr rfl
  | starting | storing | leaving | erased => cases hruns
  | accepted | live => exact hruns.elim

end ClientProgress.Runs

/-- The stages of the clients that have been accepted and not been done with. -/
abbrev ClientStages (n : ℕ) : Type := ConnectionId → Option (ClientStage n)

namespace ClientStages

variable {n : ℕ} {stages : ClientStages n} {c : ConnectionId} {x : Option (ClientStage n)}
  {l : Fin (n + 1)} {fd : ℕ} {progress progress' : ClientProgress}

/-- The loop runs code of a client of its own that has come as far, or is idle. -/
structure TaskAgrees (stages : ClientStages n) (l : Fin (n + 1)) (task : ClientTask) : Prop where
  running : ∀ conn, task.conn = some conn →
    ∃ progress fd, stages conn = some ⟨progress, l, fd⟩ ∧ progress.Runs fd conn task
  busy : ∀ conn progress fd, stages conn = some ⟨progress, l, fd⟩ → progress.isBusy →
    task.conn = some conn

/-- The functors that are queued are those that accepted clients of this loop wait for. -/
structure FunctorsAgree (stages : ClientStages n) (l : Fin (n + 1)) (functors : List Creation) :
    Prop where
  queued : Queues (functors.map Creation.conn) (ClientStage.awaits l) stages
  fd : ∀ f ∈ functors, stages f.conn = some ⟨.accepted, l, f.fd⟩

/-- The events to be dispatched are for clients of this loop that wait for events,
or for the listening socket in the base loop. -/
structure EventsAgree (stages : ClientStages n) (l : Fin (n + 1)) (events : List ServerEvent) :
    Prop where
  live : ∀ fd conn d, .connection fd conn d ∈ events → stages conn = some ⟨.live, l, fd⟩
  accept : .accept ∈ events → l = mainLoop n
  distinct : (events.map ServerEvent.fd).Nodup

/-! ## Code -/

section task

variable {task task' : ClientTask}

/-- A client of another loop moves. -/
theorem TaskAgrees.frame (h : stages.TaskAgrees l task)
    (hnot : ∀ progress fd, stages c ≠ some ⟨progress, l, fd⟩)
    (hnew : ∀ progress fd, x ≠ some ⟨progress, l, fd⟩) :
    TaskAgrees (Function.update stages c x) l task where
  running conn hconn := by
    obtain ⟨progress, fd, hstage, hruns⟩ := h.running conn hconn
    refine ⟨progress, fd, ?_, hruns⟩
    rw [Function.update_of_ne, hstage]
    rintro rfl
    exact hnot progress fd hstage
  busy conn progress fd hstage hbusy := by
    by_cases hc : conn = c
    · rw [hc, Function.update_self] at hstage
      exact absurd hstage (hnew progress fd)
    · rw [Function.update_of_ne hc] at hstage
      exact h.busy conn progress fd hstage hbusy

/-- A client that no code is running for moves, and there is none afterwards. -/
theorem TaskAgrees.idle (hnone : ∀ conn progress fd, stages conn = some ⟨progress, l, fd⟩ →
      progress.isBusy → conn = c)
    (hnew : ∀ progress fd, x = some ⟨progress, l, fd⟩ → progress.isBusy = false) :
    TaskAgrees (Function.update stages c x) l .idle where
  running conn hconn := by cases hconn
  busy conn progress fd hstage hbusy := by
    by_cases hc : conn = c
    · rw [hc, Function.update_self] at hstage
      exact absurd (hbusy.symm.trans (hnew progress fd hstage)) (by simp)
    · rw [Function.update_of_ne hc] at hstage
      exact absurd (hnone conn progress fd hstage hbusy) hc

/-- The loop runs, or goes on to run, code of a client. -/
theorem TaskAgrees.run (hnone : ∀ conn progress fd, stages conn = some ⟨progress, l, fd⟩ →
      progress.isBusy → conn = c) (hruns : progress'.Runs fd c task') :
    TaskAgrees (Function.update stages c (some ⟨progress', l, fd⟩)) l task' where
  running conn hconn := by
    obtain rfl := Option.some.inj (hruns.conn_eq.symm.trans hconn)
    exact ⟨progress', fd, Function.update_self .., hruns⟩
  busy conn progress fd' hstage hbusy := by
    by_cases hc : conn = c
    · rw [hc]
      exact hruns.conn_eq
    · rw [Function.update_of_ne hc] at hstage
      exact absurd (hnone conn progress fd' hstage hbusy) hc

/-- A client begins to wait for its functor, and no code is running for it. -/
theorem TaskAgrees.await (h : stages.TaskAgrees l task) (hnone : stages c = none) (fd : ℕ) :
    TaskAgrees (Function.update stages c (some ⟨.accepted, l, fd⟩)) l task where
  running conn hconn := by
    obtain ⟨progress, fd', hstage, hruns⟩ := h.running conn hconn
    refine ⟨progress, fd', ?_, hruns⟩
    rw [Function.update_of_ne, hstage]
    rintro rfl
    cases hnone.symm.trans hstage
  busy conn progress fd' hstage hbusy := by
    by_cases hc : conn = c
    · rw [hc, Function.update_self] at hstage
      cases hstage
      cases hbusy
    · rw [Function.update_of_ne hc] at hstage
      exact h.busy conn progress fd' hstage hbusy

/-- The code of a busy client is running. -/
theorem TaskAgrees.runs (h : stages.TaskAgrees l task) (hstage : stages c = some ⟨progress, l, fd⟩)
    (hbusy : progress.isBusy) : progress.Runs fd c task := by
  obtain ⟨progress', fd', hfound, hruns⟩ := h.running c (h.busy c progress fd hstage hbusy)
  cases hstage.symm.trans hfound
  exact hruns

/-- While the loop runs code of a client, no other client of it is busy. -/
theorem TaskAgrees.only (h : stages.TaskAgrees l task) (hconn : task.conn = some c) :
    ∀ conn progress fd, stages conn = some ⟨progress, l, fd⟩ → progress.isBusy → conn = c := by
  intro conn progress fd hstage hbusy
  exact Option.some.inj ((h.busy conn progress fd hstage hbusy).symm.trans hconn)

/-- While the loop is idle, no client of it is busy. -/
theorem TaskAgrees.none_busy (h : stages.TaskAgrees l task) (hidle : task = .idle)
    (c : ConnectionId) :
    ∀ conn progress fd, stages conn = some ⟨progress, l, fd⟩ → progress.isBusy → conn = c := by
  intro conn progress fd hstage hbusy
  have hconn := h.busy conn progress fd hstage hbusy
  rw [hidle] at hconn
  cases hconn

end task

/-! ## Queues -/

section functors

variable {functors : List Creation}

theorem FunctorsAgree.keep (h : stages.FunctorsAgree l functors)
    (hbefore : ∀ fd, stages c ≠ some ⟨.accepted, l, fd⟩)
    (hafter : ∀ fd, x ≠ some ⟨.accepted, l, fd⟩) :
    FunctorsAgree (Function.update stages c x) l functors where
  queued := by
    apply h.queued.keep
    · rintro ⟨progress, loop, fd⟩ hstage ⟨hprogress, hloop⟩
      dsimp only at hprogress hloop
      subst hprogress hloop
      exact hbefore fd hstage
    · rintro ⟨progress, loop, fd⟩ hstage ⟨hprogress, hloop⟩
      dsimp only at hprogress hloop
      subst hprogress hloop
      exact hafter fd hstage
  fd f hf := by
    rw [Function.update_of_ne, h.fd f hf]
    rintro rfl
    exact hbefore f.fd (h.fd f hf)

theorem FunctorsAgree.push (h : stages.FunctorsAgree l functors) (hnone : stages c = none)
    (fd : ℕ) : FunctorsAgree (Function.update stages c (some ⟨.accepted, l, fd⟩)) l
      (functors ++ [⟨fd, c⟩]) where
  queued := by
    rw [List.map_append]
    exact h.queued.push (by simp [hnone]) ⟨rfl, rfl⟩
  fd f hf := by
    rcases List.mem_append.mp hf with hearlier | hlast
    · have hstage := h.fd f hearlier
      rw [Function.update_of_ne, hstage]
      rintro rfl
      cases hnone.symm.trans hstage
    · obtain rfl := List.mem_singleton.mp hlast
      exact Function.update_self ..

theorem FunctorsAgree.pop (h : stages.FunctorsAgree l (⟨fd, c⟩ :: functors))
    (hafter : ∀ fd, x ≠ some ⟨.accepted, l, fd⟩) :
    FunctorsAgree (Function.update stages c x) l functors where
  queued := by
    apply h.queued.pop
    rintro ⟨progress, loop, fd⟩ hstage ⟨hprogress, hloop⟩
    dsimp only at hprogress hloop
    subst hprogress hloop
    exact hafter fd hstage
  fd f hf := by
    have hmem : f.conn ∈ functors.map Creation.conn := List.mem_map_of_mem hf
    rw [Function.update_of_ne, h.fd f (List.mem_cons_of_mem _ hf)]
    rintro rfl
    exact (List.nodup_cons.mp h.queued.nodup).1 hmem

/-- The functor that an accepted client waits for is queued. -/
theorem FunctorsAgree.mem_of_stage (h : stages.FunctorsAgree l functors)
    (hstage : stages c = some ⟨.accepted, l, fd⟩) : ⟨fd, c⟩ ∈ functors := by
  have hqueued := (h.queued.mem_iff c).mpr ⟨_, hstage, rfl, rfl⟩
  obtain ⟨⟨fd', conn⟩, hf, rfl⟩ := List.mem_map.mp hqueued
  cases hstage.symm.trans (h.fd _ hf)
  exact hf

end functors

/-! ## Events -/

section events

variable {events : List ServerEvent} {d : Dispatch}

theorem EventsAgree.keep (h : stages.EventsAgree l events)
    (hnot : ∀ fd, stages c ≠ some ⟨.live, l, fd⟩) :
    EventsAgree (Function.update stages c x) l events where
  live fd conn d hevent := by
    have hstage := h.live fd conn d hevent
    rw [Function.update_of_ne, hstage]
    rintro rfl
    exact hnot fd hstage
  accept := h.accept
  distinct := h.distinct

theorem EventsAgree.tail {event : ServerEvent} (h : stages.EventsAgree l (event :: events)) :
    stages.EventsAgree l events where
  live fd conn d hevent := h.live fd conn d (List.mem_cons_of_mem _ hevent)
  accept hevent := h.accept (List.mem_cons_of_mem _ hevent)
  distinct := (List.nodup_cons.mp h.distinct).2

/-- The client of the first event moves, and has no other event. -/
theorem EventsAgree.head (h : stages.EventsAgree l (.connection fd c d :: events)) :
    EventsAgree (Function.update stages c x) l events where
  live fd' conn d' hevent := by
    have hfirst := h.live fd c d (List.mem_cons_self ..)
    have hstage := h.live fd' conn d' (List.mem_cons_of_mem _ hevent)
    have hmem : some fd' ∈ events.map ServerEvent.fd :=
      List.mem_map_of_mem (f := ServerEvent.fd) hevent
    rw [Function.update_of_ne, hstage]
    rintro rfl
    cases hfirst.symm.trans hstage
    exact (List.nodup_cons.mp h.distinct).1 hmem
  accept hevent := h.accept (List.mem_cons_of_mem _ hevent)
  distinct := (List.nodup_cons.mp h.distinct).2

end events

end ClientStages

open ClientStages

/-- The stages agree with a loop. -/
structure ClientLoop.Agrees {n : ℕ} (stages : ClientStages n) (l : Fin (n + 1))
    (loop : ClientLoop) : Prop where
  interest : Shows loop.interest (ClientStage.watchedFd l) stages
  task : stages.TaskAgrees l loop.task
  functors : stages.FunctorsAgree l loop.functors.pending
  events : stages.EventsAgree l loop.phase.events
  drained : loop.phase ≠ .run → loop.functors.batch = []

/-- A client of another loop moves. -/
theorem ClientLoop.Agrees.frame {n : ℕ} {stages : ClientStages n} {l : Fin (n + 1)}
    {loop : ClientLoop} {c : ConnectionId} {x : Option (ClientStage n)}
    (h : loop.Agrees stages l) (hnot : ∀ progress fd, stages c ≠ some ⟨progress, l, fd⟩)
    (hnew : ∀ progress fd, x ≠ some ⟨progress, l, fd⟩) :
    loop.Agrees (Function.update stages c x) l where
  interest := by
    have hout {y : Option (ClientStage n)} (hy : ∀ progress fd, y ≠ some ⟨progress, l, fd⟩) :
        y.bind (ClientStage.watchedFd l) = none := by
      rcases y with _ | ⟨progress, l', fd⟩
      · rfl
      · have hl : l' ≠ l := by
          rintro rfl
          exact hy progress fd rfl
        simp [ClientStage.watchedFd, hl]
    exact h.interest.keep ((hout hnew).trans (hout hnot).symm)
  task := h.task.frame hnot hnew
  functors := h.functors.keep (fun fd => hnot _ fd) fun fd => hnew _ fd
  events := h.events.keep fun fd => hnot _ fd
  drained := h.drained

namespace ReactorServer

variable {n : ℕ} {s t : ReactorServer n} {stages : ClientStages n} {a : ServerAction n}
  {l : Fin (n + 1)} {c : ConnectionId} {fd : ℕ} {x : Option (ClientStage n)}
  {progress progress' : ClientProgress}

/-- The channel of a client as its stage says. -/
structure ChannelAgrees (stage : ClientStage n) (ch : Channel) : Prop where
  fd : ch.fd = stage.fd
  callbacks : ch.callbacks = [.read, .close]
  registered : ch.addedToEpoll = stage.progress.isWatched

/-- The channels on the heap are those of the clients for which one has been
made and not been destroyed. -/
structure HeapAgrees (stages : ClientStages n) (heap : ConnectionId → Option Channel) : Prop where
  exists_channel : ∀ conn stage, stages conn = some stage → stage.progress.isBuilt →
    ∃ ch, heap conn = some ch ∧ ChannelAgrees stage ch
  exists_stage : ∀ conn ch, heap conn = some ch →
    ∃ stage, stages conn = some stage ∧ stage.progress.isBuilt

/-- The stages agree with a server. -/
structure Agrees (s : ReactorServer n) (stages : ClientStages n) : Prop where
  loops : ∀ l, (s.loops l).Agrees stages l
  files : Shows s.files ClientStage.openFd stages
  clients : Shows s.clients ClientStage.storedFd stages
  heap : HeapAgrees stages s.heap
  newer : ∀ conn, s.accepted ≤ conn → stages conn = none

theorem agrees_create : (create : ReactorServer n).Agrees fun _ => none where
  loops _ :=
    { interest := .empty (fun _ => rfl) fun _ => rfl
      task := ⟨nofun, nofun⟩
      functors := ⟨.empty fun _ => rfl, nofun⟩
      events := ⟨nofun, nofun, List.nodup_nil⟩
      drained := fun _ => rfl }
  files := .empty (fun _ => rfl) fun _ => rfl
  clients := .empty (fun _ => rfl) fun _ => rfl
  heap := ⟨nofun, nofun⟩
  newer _ _ := rfl

/-! ## The heap -/

section heap

variable {heap : ConnectionId → Option Channel}

/-- A client moves, and its channel is made, changed or left alone. -/
theorem HeapAgrees.set (h : HeapAgrees stages heap) {stage : ClientStage n} {ch : Channel}
    (hbuilt : stage.progress.isBuilt) (hch : ChannelAgrees stage ch) :
    HeapAgrees (Function.update stages c (some stage)) (Function.update heap c (some ch)) where
  exists_channel conn found hfound hfoundBuilt := by
    by_cases hc : conn = c
    · rw [hc, Function.update_self] at hfound ⊢
      cases hfound
      exact ⟨ch, rfl, hch⟩
    · rw [Function.update_of_ne hc] at hfound ⊢
      exact h.exists_channel conn found hfound hfoundBuilt
  exists_stage conn found hfound := by
    by_cases hc : conn = c
    · rw [hc, Function.update_self]
      exact ⟨stage, rfl, hbuilt⟩
    · rw [Function.update_of_ne hc] at hfound ⊢
      exact h.exists_stage conn found hfound

/-- A client moves, and there is no channel for it any more. -/
theorem HeapAgrees.clear (h : HeapAgrees stages heap)
    (hx : ∀ stage, x = some stage → stage.progress.isBuilt = false) :
    HeapAgrees (Function.update stages c x) (Function.update heap c none) where
  exists_channel conn found hfound hfoundBuilt := by
    by_cases hc : conn = c
    · rw [hc, Function.update_self] at hfound
      exact absurd (hfoundBuilt.symm.trans (hx found hfound)) (by simp)
    · rw [Function.update_of_ne hc] at hfound ⊢
      exact h.exists_channel conn found hfound hfoundBuilt
  exists_stage conn found hfound := by
    by_cases hc : conn = c
    · rw [hc, Function.update_self] at hfound
      cases hfound
    · rw [Function.update_of_ne hc] at hfound ⊢
      exact h.exists_stage conn found hfound

/-- No channel is there for a client that is not built. -/
theorem HeapAgrees.eq_none (h : HeapAgrees stages heap)
    (hnot : ∀ stage, stages c = some stage → stage.progress.isBuilt = false) : heap c = none := by
  by_contra hne
  obtain ⟨ch, hch⟩ := Option.ne_none_iff_exists'.mp hne
  obtain ⟨stage, hstage, hbuilt⟩ := h.exists_stage c ch hch
  exact absurd (hbuilt.symm.trans (hnot stage hstage)) (by simp)

/-- A client moves that has no channel before and after. -/
theorem HeapAgrees.keep (h : HeapAgrees stages heap)
    (hnot : ∀ stage, stages c = some stage → stage.progress.isBuilt = false)
    (hx : ∀ stage, x = some stage → stage.progress.isBuilt = false) :
    HeapAgrees (Function.update stages c x) heap := by
  have hcleared := h.clear (c := c) hx
  rwa [← h.eq_none hnot, Function.update_eq_self] at hcleared

/-- A client moves and keeps its channel. -/
theorem HeapAgrees.move (h : HeapAgrees stages heap) (hstage : stages c = some ⟨progress, l, fd⟩)
    (hbuilt : progress.isBuilt) (hbuilt' : progress'.isBuilt)
    (hwatched : progress'.isWatched = progress.isWatched) :
    HeapAgrees (Function.update stages c (some ⟨progress', l, fd⟩)) heap := by
  obtain ⟨ch, hch, hagrees⟩ := h.exists_channel c _ hstage hbuilt
  have hchannel : ChannelAgrees (⟨progress', l, fd⟩ : ClientStage n) ch :=
    ⟨hagrees.fd, hagrees.callbacks, hagrees.registered.trans hwatched.symm⟩
  have hset := h.set (c := c) hbuilt' hchannel
  rwa [← hch, Function.update_eq_self] at hset

end heap

/-! ## What follows for the tables -/

/-- Nothing is registered under the descriptor of a client that is not watched. -/
theorem Agrees.interest_eq_none (hs : s.Agrees stages) (hstage : stages c = some ⟨progress, l, fd⟩)
    (hopen : progress.isOpen) (hnot : progress.isWatched = false) (l' : Fin (n + 1)) :
    (s.loops l').interest fd = none := by
  by_contra hne
  obtain ⟨other, hother⟩ := Option.ne_none_iff_exists'.mp hne
  obtain ⟨stage, hfound, hkey⟩ := (hs.loops l').interest.exists_stage hother
  obtain ⟨⟨hwatched, _⟩, hfd⟩ := ClientStage.watchedFd_eq_some.mp hkey
  have hsame : other = c := hs.files.unique hfound
    (ClientStage.openFd_eq_some.mpr ⟨ClientStage.isOpen_of_isWatched hwatched, hfd⟩) hstage
    (ClientStage.openFd_eq_some.mpr ⟨hopen, rfl⟩)
  rw [hsame, hstage] at hfound
  cases hfound
  exact absurd (hwatched.symm.trans hnot) (by simp)

/-- Nothing is stored under the descriptor of a client that is not stored. -/
theorem Agrees.clients_eq_none (hs : s.Agrees stages) (hstage : stages c = some ⟨progress, l, fd⟩)
    (hopen : progress.isOpen) (hnot : progress.isStored = false) : s.clients fd = none := by
  by_contra hne
  obtain ⟨other, hother⟩ := Option.ne_none_iff_exists'.mp hne
  obtain ⟨stage, hfound, hkey⟩ := hs.clients.exists_stage hother
  obtain ⟨hstored, hfd⟩ := ClientStage.storedFd_eq_some.mp hkey
  have hsame : other = c := hs.files.unique hfound
    (ClientStage.openFd_eq_some.mpr ⟨ClientStage.isOpen_of_isStored hstored, hfd⟩) hstage
    (ClientStage.openFd_eq_some.mpr ⟨hopen, rfl⟩)
  rw [hsame, hstage] at hfound
  cases hfound
  exact absurd (hstored.symm.trans hnot) (by simp)

/-- One loop changes, and with it at most one client of it. -/
theorem loops_setLoop {loop : ClientLoop} (hs : ∀ l', (s.loops l').Agrees stages l')
    (hold : ∀ stage, stages c = some stage → stage.loop = l)
    (hnew : ∀ stage, x = some stage → stage.loop = l)
    (hloop : loop.Agrees (Function.update stages c x) l) :
    ∀ l', ((s.setLoop l loop).loops l').Agrees (Function.update stages c x) l' := by
  intro l'
  by_cases hl : l' = l
  · subst hl
    rw [setLoop_self]
    exact hloop
  · rw [setLoop_of_ne hl]
    exact (hs l').frame (fun progress fd hstage => hl (hold _ hstage))
      fun progress fd hx => hl (hnew _ hx)

/-- One loop changes, and no client. -/
theorem loops_setLoop_same {loop : ClientLoop} (hs : ∀ l', (s.loops l').Agrees stages l')
    (hloop : loop.Agrees stages l) : ∀ l', ((s.setLoop l loop).loops l').Agrees stages l' := by
  intro l'
  by_cases hl : l' = l
  · subst hl
    rw [setLoop_self]
    exact hloop
  · rw [setLoop_of_ne hl]
    exact hs l'

/-- What `disableAll` does to a channel that is registered. -/
theorem disableAll_of_added {ch : Channel} (hadded : ch.addedToEpoll = true) :
    ch.disableAll = ({ ch with events := 0, addedToEpoll := false }, [.del]) := by
  simp [Channel.disableAll, Channel.updateChannel, hadded]

theorem operate_disableAll {ch : Channel} (hadded : ch.addedToEpoll = true) (l : Fin (n + 1))
    (conn : ConnectionId) :
    s.operate l conn ch.disableAll =
      { s with heap := Function.update s.heap conn (some ch.disableAll.1) }.setInterest
        l ch.fd none := by
  rw [operate, disableAll_of_added hadded]
  rfl

theorem createChannel_eq (fd : ℕ) : createChannel fd =
    ({ Channel.create fd with
        events := EPOLLIN
        addedToEpoll := true
        callbacks := [.read, .close] }, [.add EPOLLIN]) := by
  have hmask : (0 : Events) ||| EPOLLIN = EPOLLIN ∧ EPOLLIN ≠ 0 := by decide
  simp [createChannel, Channel.enableReading, Channel.updateChannel, Channel.create, hmask]

theorem channelAgrees_createChannel (l : Fin (n + 1)) (fd : ℕ) :
    ChannelAgrees ⟨.storing, l, fd⟩ (createChannel fd).1 := by
  rw [createChannel_eq]
  exact ⟨rfl, rfl, rfl⟩

/-- What a creation functor does, if the descriptor is open and not registered. -/
theorem operate_createChannel (hopen : s.files fd = some c) (hfree : (s.loops l).interest fd = none)
    (conn : ConnectionId) :
    s.operate l conn (createChannel fd) =
      { s with heap := Function.update s.heap conn (some (createChannel fd).1) }.setInterest
        l fd (some conn) := by
  have hfile : (s.files fd).isSome := by rw [hopen]; rfl
  rw [operate, createChannel_eq]
  exact if_pos ⟨hfile, hfree⟩

/-- Closing a descriptor that is not registered. -/
theorem close_eq (hfree : ∀ l, (s.loops l).interest fd = none) :
    s.close fd = { s with files := Function.update s.files fd none } := by
  have hloops : (fun l => { s.loops l with
      interest := Function.update (s.loops l).interest fd none }) = s.loops := by
    funext l
    rw [← hfree l, Function.update_eq_self]
  rw [close, hloops]

/-- What a callback consists of. -/
theorem handleEvent_parts (ch : Channel) (d : Dispatch) :
    ∃ first last, handleEvent ch d = first ++ last ∧ (∀ call ∈ first, call.isTransfer ch.fd) ∧
      (last = [] ∨ last = removeConnection ch.fd) := by
  unfold handleEvent
  split
  · unfold onRead
    split
    · exact ⟨[_], _, rfl, by simp [ClientCall.isTransfer], .inr rfl⟩
    · exact ⟨[_, _], _, rfl, by simp [ClientCall.isTransfer], .inr rfl⟩
    · split
      · exact ⟨[_], [], rfl, by simp [ClientCall.isTransfer], .inl rfl⟩
      · exact ⟨[_], _, rfl, by simp [ClientCall.isTransfer], .inr rfl⟩
  · exact ⟨[], _, rfl, nofun, .inr rfl⟩
  · exact ⟨[], [], rfl, nofun, .inl rfl⟩

end ReactorServer

end EpollHttpServer.Examples
