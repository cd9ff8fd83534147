/-
# Removing a client at once

Every step of the example server leads from an agreement of its tables to
another one.  So in every run a table shows the clients that it should, nothing
is used after it has been destroyed, no entry is overwritten, and no step gets
stuck; `HttpServer`, which erases an entry after its descriptor has been
closed, needs for this that its functors run in time.
-/

import EpollHttpServer.Examples.Clients

namespace EpollHttpServer.Examples

open EpollHttpServer.Lib EpollHttpServer.Http EpollHttpServer.Reactor EpollHttpServer.Server

namespace ReactorServer

variable {n : ℕ} {s t : ReactorServer n} {stages : ClientStages n} {a : ServerAction n}
  {l : Fin (n + 1)} {c : ConnectionId} {fd : ℕ} {x : Option (ClientStage n)}
  {progress progress' : ClientProgress}

/-- A client that has a stage has been accepted. -/
theorem Agrees.accepted_of_stage (hs : s.Agrees stages) {stage : ClientStage n}
    (hstage : stages c = some stage) : c < s.accepted := by
  by_contra hnot
  cases hstage.symm.trans (hs.newer c (not_lt.mp hnot))

/-- A client that has a stage moves, or is done with. -/
theorem Agrees.newer_update (hs : s.Agrees stages) {stage : ClientStage n}
    (hstage : stages c = some stage) (x : Option (ClientStage n)) :
    ∀ conn, s.accepted ≤ conn → Function.update stages c x conn = none := by
  intro conn hnew
  rw [Function.update_of_ne, hs.newer conn hnew]
  rintro rfl
  exact absurd (hs.accepted_of_stage hstage) (not_lt.mpr hnew)

/-- Only the phase and the queue of a loop change, and they agree with the stages. -/
theorem Agrees.of_loop (hs : s.Agrees stages) {loop : ClientLoop}
    (hinterest : loop.interest = (s.loops l).interest) (htask : loop.task = (s.loops l).task)
    (hfunctors : loop.functors.pending = (s.loops l).functors.pending)
    (hevents : stages.EventsAgree l loop.phase.events)
    (hdrained : loop.phase ≠ .run → loop.functors.batch = []) :
    (s.setLoop l loop).Agrees stages where
  loops := loops_setLoop_same hs.loops
    { interest := hinterest ▸ (hs.loops l).interest
      task := htask ▸ (hs.loops l).task
      functors := hfunctors ▸ (hs.loops l).functors
      events := hevents
      drained := hdrained }
  files := hs.files
  clients := hs.clients
  heap := hs.heap
  newer := hs.newer

/-- What `epoll_wait` returns to an idle loop is for clients that wait for events. -/
theorem Agrees.events_of_wait (hs : s.Agrees stages) (htask : (s.loops l).task = .idle)
    {events : List ServerEvent} (hreport : s.MayReport l events) :
    stages.EventsAgree l events where
  live fd conn d hevent := by
    obtain ⟨hentry, _⟩ := hreport.2 _ hevent
    obtain ⟨⟨progress, l', fd'⟩, hstage, hkey⟩ := (hs.loops l).interest.exists_stage hentry
    obtain ⟨⟨hwatched, hl⟩, hfd⟩ := ClientStage.watchedFd_eq_some.mp hkey
    dsimp only at hwatched hl hfd
    subst hl hfd
    cases progress with
    | live => exact hstage
    | storing | serving =>
        have hbusy := (hs.loops l').task.busy conn _ fd' hstage rfl
        rw [htask] at hbusy
        cases hbusy
    | accepted | starting | leaving | erased | closed => cases hwatched
  accept hevent := hreport.2 _ hevent
  distinct := hreport.1

/-- The client of a creation functor that is running. -/
theorem Agrees.stage_of_starting (hs : s.Agrees stages)
    (htask : (s.loops l).task = .starting fd c) : stages c = some ⟨.starting, l, fd⟩ := by
  have hconn : (s.loops l).task.conn = some c := by rw [htask]; rfl
  obtain ⟨progress, fd', hstage, hruns⟩ := (hs.loops l).task.running c hconn
  rw [htask] at hruns
  obtain ⟨rfl, rfl⟩ := hruns.of_starting
  exact hstage

theorem Agrees.stage_of_storing (hs : s.Agrees stages)
    (htask : (s.loops l).task = .storing fd c) : stages c = some ⟨.storing, l, fd⟩ := by
  have hconn : (s.loops l).task.conn = some c := by rw [htask]; rfl
  obtain ⟨progress, fd', hstage, hruns⟩ := (hs.loops l).task.running c hconn
  rw [htask] at hruns
  obtain ⟨rfl, rfl⟩ := hruns.of_storing
  exact hstage

/-- A client of the loop moves with its code, and the tables follow. -/
theorem Agrees.of_move (hs : s.Agrees stages) (hstage : stages c = some ⟨progress, l, fd⟩)
    (hnew : ∀ stage, x = some stage → stage.loop = l)
    (hloops : t.loops = (s.setLoop l (t.loops l)).loops)
    (hloop : (t.loops l).Agrees (Function.update stages c x) l)
    (hfiles : Shows t.files ClientStage.openFd (Function.update stages c x))
    (hclients : Shows t.clients ClientStage.storedFd (Function.update stages c x))
    (hheap : HeapAgrees (Function.update stages c x) t.heap)
    (haccepted : t.accepted = s.accepted) : t.Agrees (Function.update stages c x) where
  loops := by
    have hold : ∀ stage, stages c = some stage → stage.loop = l := by
      intro stage hfound
      cases hstage.symm.trans hfound
      rfl
    rw [hloops]
    exact loops_setLoop hs.loops hold hnew hloop
  files := hfiles
  clients := hclients
  heap := hheap
  newer := by
    rw [haccepted]
    exact hs.newer_update hstage x

/-- A client moves without changing what a table shows of it. -/
theorem bind_of_stage {key : ClientStage n → Option ℕ} (hstage : stages c = some ⟨progress, l, fd⟩)
    (hsame : key ⟨progress', l, fd⟩ = key ⟨progress, l, fd⟩) :
    (some (⟨progress', l, fd⟩ : ClientStage n)).bind key = (stages c).bind key := by
  rw [hstage]
  exact hsame

/-- A callback begins. -/
theorem agrees_handle (hs : s.Agrees stages) {d : Dispatch} {events : List ServerEvent}
    {ch : Channel} (hphase : (s.loops l).phase = .dispatch (.connection fd c d :: events))
    (htask : (s.loops l).task = .idle) (hheap : s.heap c = some ch) :
    ({ s with heap := Function.update s.heap c (some (ch.setRevents d.revents)) }.setLoop l
      { s.loops l with
        phase := .dispatch events
        task := .callback c (handleEvent ch d) }).Agrees
          (Function.update stages c (some ⟨.serving, l, fd⟩)) := by
  have hl := hs.loops l
  have hevents : stages.EventsAgree l (.connection fd c d :: events) := by
    have hphaseEvents := hl.events
    rwa [hphase] at hphaseEvents
  have hstage := hevents.live fd c d (List.mem_cons_self ..)
  obtain ⟨ch', hch', hagrees⟩ := hs.heap.exists_channel c _ hstage rfl
  cases hheap.symm.trans hch'
  obtain ⟨first, last, hparts, hfirst, hlast⟩ := handleEvent_parts ch d
  rw [hagrees.fd] at hfirst hlast
  refine hs.of_move hstage (fun stage hx => by cases hx; rfl) (by simp [setLoop]) ?_
    (hs.files.keep (bind_of_stage hstage rfl)) (hs.clients.keep (bind_of_stage hstage rfl))
    (hs.heap.set rfl ⟨hagrees.fd, hagrees.callbacks, hagrees.registered⟩) rfl
  rw [setLoop_self]
  exact
    { interest := hl.interest.keep (bind_of_stage hstage rfl)
      task := .run (hl.task.none_busy htask c) ⟨first, last, by rw [hparts], hfirst, hlast⟩
      functors := hl.functors.keep (by simp [hstage]) (by simp)
      events := hevents.head
      drained := fun _ => hl.drained (by simp [hphase]) }

/-- A creation functor is taken from the queue. -/
theorem agrees_create_next (hs : s.Agrees stages) {functors : BatchQueue Creation}
    (hphase : (s.loops l).phase = .run) (htask : (s.loops l).task = .idle)
    (hnext : (s.loops l).functors.next = some (⟨fd, c⟩, functors)) :
    (s.setLoop l { s.loops l with functors := functors, task := .starting fd c }).Agrees
      (Function.update stages c (some ⟨.starting, l, fd⟩)) := by
  have hl := hs.loops l
  have hqueue : stages.FunctorsAgree l (⟨fd, c⟩ :: functors.pending) := by
    rw [← BatchQueue.pending_next hnext]
    exact hl.functors
  have hstage := hqueue.fd ⟨fd, c⟩ (List.mem_cons_self ..)
  refine hs.of_move hstage (fun stage hx => by cases hx; rfl) (by simp [setLoop]) ?_
    (hs.files.keep (bind_of_stage hstage rfl)) (hs.clients.keep (bind_of_stage hstage rfl))
    (hs.heap.keep (by simp [hstage, ClientProgress.isBuilt]) (by simp [ClientProgress.isBuilt])) rfl
  rw [setLoop_self]
  exact
    { interest := hl.interest.keep (bind_of_stage hstage rfl)
      task := .run (hl.task.none_busy htask c) rfl
      functors := hqueue.pop (by simp)
      events := hl.events.keep (by simp [hstage])
      drained := fun hrun => absurd hphase hrun }

/-- The functors and events of a loop while it runs code of one of its clients,
which has been taken out of both. -/
theorem agrees_loop (hs : s.Agrees stages) (hstage : stages c = some ⟨progress, l, fd⟩)
    (hbusy : progress.isBusy) (hnew : ∀ fd, x ≠ some ⟨.accepted, l, fd⟩) {task : ClientTask}
    {interest : ℕ → Option ConnectionId}
    (htask : ClientStages.TaskAgrees (Function.update stages c x) l task)
    (hinterest : Shows interest (ClientStage.watchedFd l) (Function.update stages c x)) :
    { s.loops l with task := task, interest := interest }.Agrees
      (Function.update stages c x) l where
  interest := hinterest
  task := htask
  functors := by
    refine (hs.loops l).functors.keep (fun fd' hfound => ?_) hnew
    cases hstage.symm.trans hfound
    cases hbusy
  events := by
    refine (hs.loops l).events.keep fun fd' hfound => ?_
    cases hstage.symm.trans hfound
    cases hbusy
  drained := (hs.loops l).drained

/-- A callback reads or writes. -/
theorem agrees_transfer (hs : s.Agrees stages) (hstage : stages c = some ⟨.serving, l, fd⟩)
    {calls : List ClientCall} (hconn : (s.loops l).task.conn = some c)
    (hruns : ClientProgress.Runs fd c .serving (.callback c calls)) :
    (s.setTask l (.callback c calls)).Agrees
      (Function.update stages c (some ⟨.serving, l, fd⟩)) := by
  refine hs.of_move hstage (fun stage hx => by cases hx; rfl) (by simp [setTask, setLoop]) ?_
    (hs.files.keep (bind_of_stage hstage rfl)) (hs.clients.keep (bind_of_stage hstage rfl))
    (hs.heap.move hstage rfl rfl rfl) rfl
  rw [setTask, setLoop_self]
  exact agrees_loop hs hstage rfl (by simp) (.run ((hs.loops l).task.only hconn) hruns)
    ((hs.loops l).interest.keep (bind_of_stage hstage rfl))

/-- A callback takes its channel out of the epoll set. -/
theorem agrees_disableAll (hs : s.Agrees stages) (hstage : stages c = some ⟨.serving, l, fd⟩)
    {ch : Channel} (hheap : s.heap c = some ch) (hconn : (s.loops l).task.conn = some c) :
    ((s.operate l c ch.disableAll).setTask l (.callback c [.erase fd, .close fd])).Agrees
      (Function.update stages c (some ⟨.leaving, l, fd⟩)) := by
  obtain ⟨ch', hch', hagrees⟩ := hs.heap.exists_channel c _ hstage rfl
  cases hheap.symm.trans hch'
  rw [operate_disableAll hagrees.registered, hagrees.fd]
  refine hs.of_move hstage (fun stage hx => by cases hx; rfl)
    (by simp [setTask, setLoop, setInterest]) ?_
    (hs.files.keep (bind_of_stage hstage rfl)) (hs.clients.keep (bind_of_stage hstage rfl))
    (hs.heap.set rfl ?_) rfl
  · rw [setTask, setLoop_self, setInterest, setLoop_self]
    refine agrees_loop hs hstage rfl (by simp) (.run ((hs.loops l).task.only hconn) rfl)
      ((hs.loops l).interest.leave ?_ ?_)
    · rw [hstage]
      simp [ClientStage.watchedFd, ClientProgress.isWatched]
    · simp [ClientStage.watchedFd, ClientProgress.isWatched]
  · rw [disableAll_of_added hagrees.registered]
    exact ⟨hagrees.fd, hagrees.callbacks, rfl⟩

/-- A callback erases its entry of `clients_`, and destroys its channel. -/
theorem agrees_erase (hs : s.Agrees stages) (hstage : stages c = some ⟨.leaving, l, fd⟩)
    (hconn : (s.loops l).task.conn = some c) :
    ((s.setClient fd none).setTask l (.callback c [.close fd])).Agrees
      (Function.update stages c (some ⟨.erased, l, fd⟩)) := by
  have hentry : s.clients fd = some c := hs.clients.entry hstage rfl
  refine hs.of_move hstage (fun stage hx => by cases hx; rfl)
    (by simp [setTask, setLoop, setClient]) ?_ (hs.files.keep (bind_of_stage hstage rfl))
    (hs.clients.leave ?_ rfl) ?_ rfl
  · rw [setTask, setLoop_self]
    exact agrees_loop hs hstage rfl (by simp) (.run ((hs.loops l).task.only hconn) rfl)
      ((hs.loops l).interest.keep (bind_of_stage hstage rfl))
  · rw [hstage]
    rfl
  · show HeapAgrees _ (s.setClient fd none).heap
    rw [setClient, hentry]
    exact hs.heap.clear (by simp [ClientProgress.isBuilt])

/-- A callback closes its descriptor. -/
theorem agrees_close (hs : s.Agrees stages) (hstage : stages c = some ⟨.erased, l, fd⟩)
    (hconn : (s.loops l).task.conn = some c) :
    ((s.close fd).setTask l (.callback c [])).Agrees
      (Function.update stages c (some ⟨.closed, l, fd⟩)) := by
  rw [close_eq (hs.interest_eq_none hstage rfl rfl)]
  refine hs.of_move hstage (fun stage hx => by cases hx; rfl) (by simp [setTask, setLoop]) ?_
    (hs.files.leave ?_ rfl) (hs.clients.keep (bind_of_stage hstage rfl)) ?_ rfl
  · rw [setTask, setLoop_self]
    exact agrees_loop hs hstage rfl (by simp) (.run ((hs.loops l).task.only hconn) rfl)
      ((hs.loops l).interest.keep (bind_of_stage hstage rfl))
  · rw [hstage]
    rfl
  · exact hs.heap.keep (by simp [hstage, ClientProgress.isBuilt]) (by simp [ClientProgress.isBuilt])

/-- A callback returns, and its client stays or is done with. -/
theorem agrees_leave (hs : s.Agrees stages) (htask : (s.loops l).task = .callback c []) :
    ∃ stages', (s.setTask l .idle).Agrees stages' := by
  have hconn : (s.loops l).task.conn = some c := by rw [htask]; rfl
  obtain ⟨progress, fd, hstage, hruns⟩ := (hs.loops l).task.running c hconn
  have honly := (hs.loops l).task.only hconn
  rw [htask] at hruns
  rcases hruns.of_callback_nil with rfl | rfl
  · refine ⟨_, hs.of_move (x := some ⟨.live, l, fd⟩) hstage (fun stage hx => by cases hx; rfl)
      (by simp [setTask, setLoop]) ?_ (hs.files.keep (bind_of_stage hstage rfl))
      (hs.clients.keep (bind_of_stage hstage rfl)) (hs.heap.move hstage rfl rfl rfl) rfl⟩
    rw [setTask, setLoop_self]
    refine agrees_loop hs hstage rfl (by simp) (.idle honly ?_)
      ((hs.loops l).interest.keep (bind_of_stage hstage rfl))
    rintro progress fd' ⟨⟩
    rfl
  · refine ⟨_, hs.of_move (x := none) hstage (by simp) (by simp [setTask, setLoop]) ?_
      (hs.files.keep ?_) (hs.clients.keep ?_)
      (hs.heap.keep (by simp [hstage, ClientProgress.isBuilt]) (by simp)) rfl⟩
    · rw [setTask, setLoop_self]
      refine agrees_loop hs hstage rfl (by simp) (.idle honly (by simp))
        ((hs.loops l).interest.keep ?_)
      rw [hstage]
      rfl
    · rw [hstage]
      rfl
    · rw [hstage]
      rfl

/-- A creation functor makes the channel. -/
theorem agrees_register (hs : s.Agrees stages) (htask : (s.loops l).task = .starting fd c) :
    ((s.operate l c (createChannel fd)).setTask l (.storing fd c)).Agrees
      (Function.update stages c (some ⟨.storing, l, fd⟩)) := by
  have hconn : (s.loops l).task.conn = some c := by rw [htask]; rfl
  have hstage := hs.stage_of_starting htask
  have hfree := hs.interest_eq_none hstage rfl rfl
  rw [operate_createChannel (hs.files.entry hstage rfl) (hfree l)]
  refine hs.of_move hstage (fun stage hx => by cases hx; rfl)
    (by simp [setTask, setLoop, setInterest]) ?_
    (hs.files.keep (bind_of_stage hstage rfl)) (hs.clients.keep (bind_of_stage hstage rfl))
    (hs.heap.set rfl (channelAgrees_createChannel l fd)) rfl
  rw [setTask, setLoop_self, setInterest, setLoop_self]
  refine agrees_loop hs hstage rfl (by simp) (.run ((hs.loops l).task.only hconn) rfl)
    ((hs.loops l).interest.enter ?_ ?_ (hfree l))
  · rw [hstage]
    simp [ClientStage.watchedFd, ClientProgress.isWatched]
  · simp [ClientStage.watchedFd, ClientProgress.isWatched]

/-- A creation functor stores the channel, and returns. -/
theorem agrees_store (hs : s.Agrees stages) (htask : (s.loops l).task = .storing fd c) :
    ((s.setClient fd (some c)).setTask l .idle).Agrees
      (Function.update stages c (some ⟨.live, l, fd⟩)) := by
  have hconn : (s.loops l).task.conn = some c := by rw [htask]; rfl
  have hstage := hs.stage_of_storing htask
  have hfree : s.clients fd = none := hs.clients_eq_none hstage rfl rfl
  refine hs.of_move hstage (fun stage hx => by cases hx; rfl)
    (by simp [setTask, setLoop, setClient]) ?_
    (hs.files.keep (bind_of_stage hstage rfl)) (hs.clients.enter ?_ rfl hfree) ?_ rfl
  · rw [setTask, setLoop_self]
    refine agrees_loop hs hstage rfl (by simp)
      (.idle ((hs.loops l).task.only hconn) ?_)
      ((hs.loops l).interest.keep (bind_of_stage hstage rfl))
    rintro progress fd' ⟨⟩
    rfl
  · rw [hstage]
    rfl
  · show HeapAgrees _ (s.setClient fd (some c)).heap
    rw [setClient, hfree]
    exact hs.heap.move hstage rfl rfl rfl

/-- A connection is accepted, and its creation functor is started or queued. -/
theorem agrees_accept (hs : s.Agrees stages) (htask : (s.loops (mainLoop n)).task = .idle)
    (hfree : s.files fd = none) : ∃ stages', (s.onNewConnection fd).Agrees stages' := by
  have hnone : stages s.accepted = none := hs.newer _ le_rfl
  have hfiles (progress : ClientProgress) (l : Fin (n + 1)) (hopen : progress.isOpen) :
      Shows (Function.update s.files fd (some s.accepted)) ClientStage.openFd
        (Function.update stages s.accepted (some ⟨progress, l, fd⟩)) := by
    refine hs.files.enter ?_ ?_ hfree
    · rw [hnone]
      rfl
    · exact ClientStage.openFd_eq_some.mpr ⟨hopen, rfl⟩
  have hkeep {key : ClientStage n → Option ℕ} {stage : ClientStage n} (hkey : key stage = none) :
      (some stage).bind key = (stages s.accepted).bind key := by
    rw [hnone]
    exact hkey
  have hnewer (stage : ClientStage n) : ∀ conn, s.accepted + 1 ≤ conn →
      Function.update stages s.accepted (some stage) conn = none := by
    intro conn hconn
    rw [Function.update_of_ne (Nat.ne_of_gt hconn), hs.newer conn (Nat.le_of_succ_le hconn)]
  have hheap {stage : ClientStage n} (hunbuilt : stage.progress.isBuilt = false) :
      HeapAgrees (Function.update stages s.accepted (some stage)) s.heap :=
    hs.heap.keep (by simp [hnone]) (by simpa using hunbuilt)
  generalize hl : s.getNextLoop.1 = l
  have hloop := hs.loops l
  by_cases hmain : l = mainLoop n
  · refine ⟨Function.update stages s.accepted (some ⟨.starting, l, fd⟩), ?_⟩
    simp only [onNewConnection, hl, if_pos hmain]
    exact
      { loops := loops_setLoop hs.loops (by simp [hnone]) (by simp)
          { interest := hloop.interest.keep (hkeep rfl)
            task := .run (hloop.task.none_busy (hmain ▸ htask) _) rfl
            functors := hloop.functors.keep (by simp [hnone]) (by simp)
            events := hloop.events.keep (by simp [hnone])
            drained := hloop.drained }
        files := hfiles _ _ rfl
        clients := hs.clients.keep (hkeep rfl)
        heap := hheap rfl
        newer := hnewer _ }
  · refine ⟨Function.update stages s.accepted (some ⟨.accepted, l, fd⟩), ?_⟩
    simp only [onNewConnection, hl, if_neg hmain]
    exact
      { loops := loops_setLoop hs.loops (by simp [hnone]) (by simp)
          { interest := hloop.interest.keep (hkeep rfl)
            task := hloop.task.await hnone fd
            functors := by
              rw [BatchQueue.pending_push]
              exact hloop.functors.push hnone fd
            events := hloop.events.keep (by simp [hnone])
            drained := hloop.drained }
        files := hfiles _ _ rfl
        clients := hs.clients.keep (hkeep rfl)
        heap := hheap rfl
        newer := hnewer _ }

/-- A callback makes its next call. -/
theorem agrees_perform (hs : s.Agrees stages) {call : ClientCall} {calls : List ClientCall}
    (htask : (s.loops l).task = .callback c (call :: calls))
    (hperform : s.perform l c call = some t) :
    ∃ stages', (t.setTask l (.callback c calls)).Agrees stages' := by
  have hconn : (s.loops l).task.conn = some c := by rw [htask]; rfl
  obtain ⟨progress, fd, hstage, hruns⟩ := (hs.loops l).task.running c hconn
  rw [htask] at hruns
  rcases hruns.of_callback with ⟨rfl, htransfer, hrest⟩ | ⟨rfl, rfl, rfl⟩ | ⟨rfl, rfl, rfl⟩ |
    ⟨rfl, rfl, rfl⟩
  · have hsame : t = s := by
      cases call with
      | read | write => exact (Option.some.inj hperform).symm
      | disableAll | erase | close => exact htransfer.elim
    rw [hsame]
    exact ⟨_, agrees_transfer hs hstage hconn hrest⟩
  · obtain ⟨ch, hheap, rfl⟩ := Option.map_eq_some_iff.mp hperform
    exact ⟨_, agrees_disableAll hs hstage hheap hconn⟩
  · obtain rfl := Option.some.inj hperform
    exact ⟨_, agrees_erase hs hstage hconn⟩
  · obtain rfl := Option.some.inj hperform
    exact ⟨_, agrees_close hs hstage hconn⟩

/-- The step lemma. -/
theorem agrees_step (hs : s.Agrees stages) (hstep : s.step a = some t) :
    ∃ stages', t.Agrees stages' := by
  cases moves_of_step hstep with
  | wait l events hphase htask hreport =>
      exact ⟨stages, hs.of_loop rfl rfl rfl (hs.events_of_wait htask hreport)
        fun _ => (hs.loops l).drained (by simp [hphase])⟩
  | handle l fd conn d events ch hphase htask hheap =>
      exact ⟨_, agrees_handle hs hphase htask hheap⟩
  | perform l conn call calls t' htask hperform =>
      exact agrees_perform hs htask hperform
  | leave l conn htask => exact agrees_leave hs htask
  | accept fd htask hfree => exact agrees_accept hs htask hfree
  | acceptDone events hphase htask =>
      have hevents := (hs.loops (mainLoop n)).events
      rw [hphase] at hevents
      exact ⟨stages, hs.of_loop rfl rfl rfl hevents.tail
        fun _ => (hs.loops (mainLoop n)).drained (by simp [hphase])⟩
  | swap l hphase htask =>
      have hdrained := (hs.loops l).drained (by simp [hphase])
      exact ⟨stages, hs.of_loop rfl rfl (BatchQueue.pending_swap hdrained)
        ⟨nofun, nofun, List.nodup_nil⟩ fun hrun => absurd rfl hrun⟩
  | create l fd conn functors hphase htask hnext =>
      exact ⟨_, agrees_create_next hs hphase htask hnext⟩
  | batchDone l hphase htask hnext =>
      exact ⟨stages, hs.of_loop rfl rfl rfl ⟨nofun, nofun, List.nodup_nil⟩
        fun _ => BatchQueue.next_eq_none hnext⟩
  | register l fd conn htask => exact ⟨_, agrees_register hs htask⟩
  | store l fd conn htask => exact ⟨_, agrees_store hs htask⟩

/-- The run lemma. -/
theorem agrees_of_reachable (hreach : (reactorServers n).Reachable s) :
    ∃ stages, s.Agrees stages := by
  refine Machine.Reachable.invariant (I := fun s : ReactorServer n => ∃ stages, s.Agrees stages)
    ?_ ?_ hreach
  · rintro s rfl
    exact ⟨_, agrees_create⟩
  · rintro s a t ⟨stages, hs⟩ hstep
    exact agrees_step hs hstep

end ReactorServer

end EpollHttpServer.Examples
