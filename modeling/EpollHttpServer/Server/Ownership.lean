/-
# Connection ownership across loops

A descriptor is free from the moment it is closed, but the entry of
`connections_` stays until the erase functor has run.  In a run in which no
connection is stored under a number whose erase functor has yet to run, the
stages of the connections can follow every step, and every registered channel
belongs to the connection stored under its number.  Without that the functor
erases the connection that came later.
-/

import EpollHttpServer.Server.Stages

namespace EpollHttpServer.Server

open EpollHttpServer.Lib EpollHttpServer.Reactor

/-! ## Runs in which erasures are settled -/

def ServerFunctor.erased : ServerFunctor → Option ℕ
  | .create _ _ => none
  | .erase fd _ => some fd

def Effect.erased : Effect → Option ℕ
  | .queueErase fd => some fd
  | _ => none

/-- What a loop is still going to do before it returns to its events or functors. -/
def Task.effects : Task → List Effect
  | .handler _ effects => effects
  | _ => []

/-- The descriptors for which an erase functor is queued in a loop, or about to be. -/
def LoopState.owedErases (loop : LoopState) : List ℕ :=
  loop.functors.pending.filterMap ServerFunctor.erased ++ loop.task.effects.filterMap Effect.erased

/-- No connection is stored under a descriptor for which an erase functor of an
earlier connection has yet to run. -/
def HttpServer.erasesSettled {n : ℕ} (s : HttpServer n) : ServerAction n → Prop
  | .store l =>
    match (s.loops l).task with
    | .storing fd _ => ∀ l', fd ∉ (s.loops l').owedErases
    | _ => True
  | _ => True

instance {n : ℕ} (s : HttpServer n) (a : ServerAction n) : Decidable (s.erasesSettled a) := by
  unfold HttpServer.erasesSettled
  split
  · split <;> infer_instance
  · infer_instance

namespace HttpServer

variable {n : ℕ} {service : Service} {s t : HttpServer n} {stages : Stages n}
  {conn : ConnectionId} {l : Fin (n + 1)} {fd : ℕ} {progress : Progress}

/-! ## Steps that move no connection -/

theorem agrees_wait (hs : s.Agrees stages) {events : List ServerEvent}
    (hphase : (s.loops l).phase = .wait) (htask : (s.loops l).task = .idle)
    (hreport : s.MayReport l events) : (s.setPhase l (.dispatch events)).Agrees stages := by
  have hl := hs.loops l
  have hbatch := hl.batch_eq_nil (by simp [hphase])
  refine hs.stay ⟨hl.interest, hl.functors, hl.task, ⟨fun fd conn d hevent => ?_, hreport.1⟩,
    .inr hbatch⟩
  obtain ⟨progress, hstage, hregistered⟩ := hl.interest fd conn (hreport.2 _ hevent).1
  -- The loop runs nobody's code, so nobody is half-way.
  have hbusy : progress.isBusy = false := by
    by_contra hbusy
    have hconn := hl.task.busy conn fd progress hstage (by simpa using hbusy)
    rw [htask] at hconn
    cases hconn
  have hlive : progress = .live := by
    cases progress <;> simp_all [Progress.isBusy, Progress.isRegistered]
  subst hlive
  exact ⟨hstage, by simp [htask, Task.Spares]⟩

theorem agrees_leave (hs : s.Agrees stages) (htask : (s.loops l).task = .handler conn []) :
    (s.setTask l .idle).Agrees stages := by
  have hl := hs.loops l
  refine hs.stay ⟨hl.interest, hl.functors, hl.task.goOn trivial ?_,
    hl.events.switch fun _ _ => trivial, hl.batch⟩
  intro other fd progress hstage hbusy hother
  have hrunning := hl.task.running
  rw [htask] at hother hrunning
  cases hother
  obtain ⟨found, fd', hfound, hremains⟩ := hrunning
  cases hstage.symm.trans hfound
  cases progress <;> simp_all [Progress.isBusy, Progress.Remains, teardown]

theorem agrees_acceptDone (hs : s.Agrees stages) {events : List ServerEvent}
    (hphase : (s.loops 0).phase = .dispatch (.accept :: events)) :
    (s.setPhase 0 (.dispatch events)).Agrees stages := by
  have hl := hs.loops 0
  have hevents := hl.events
  rw [hphase] at hevents
  exact hs.stay ⟨hl.interest, hl.functors, hl.task, hevents.tail,
    .inr (hl.batch_eq_nil (by simp [hphase]))⟩

theorem agrees_swap (hs : s.Agrees stages) (hphase : (s.loops l).phase = .dispatch []) :
    (s.setLoop l
      { s.loops l with phase := .run, functors := (s.loops l).functors.swap }).Agrees stages := by
  have hl := hs.loops l
  have hfunctors := hl.functors
  rw [← BatchQueue.pending_swap (hl.batch_eq_nil (by simp [hphase]))] at hfunctors
  exact hs.stay ⟨hl.interest, hfunctors, hl.task, Stages.eventsAgree_nil, .inl rfl⟩

theorem agrees_batchDone (hs : s.Agrees stages) (hnext : (s.loops l).functors.next = none) :
    (s.setPhase l .wait).Agrees stages := by
  have hl := hs.loops l
  exact hs.stay ⟨hl.interest, hl.functors, hl.task, Stages.eventsAgree_nil,
    .inr (BatchQueue.next_eq_none hnext)⟩

/-! ## Handlers -/

/-- A handler of a live connection begins: the connection stays in service, or
is going to be removed. -/
theorem agrees_handle (hs : s.Agrees stages) {d : Dispatch} {events : List ServerEvent}
    {effects : List Effect} {after : Session} (hprogress : progress = .live ∨ progress = .doomed)
    (hphase : (s.loops l).phase = .dispatch (.connection fd conn d :: events))
    (htask : (s.loops l).task = .idle) (hfd : after.fd = fd)
    (hremains : progress.Remains fd effects) (hlive : progress.isServed → after.conn.Live) :
    ({ s with heap := Function.update s.heap conn (some after) }.setLoop l
      { s.loops l with phase := .dispatch events, task := .handler conn effects }).Agrees
        (Function.update stages conn (some ⟨progress, l, fd⟩)) := by
  have hl := hs.loops l
  have hevents := hl.events
  rw [hphase] at hevents
  have hstage := (hevents.live fd conn d (List.mem_cons_self ..)).1
  have hfile : progress.isOpen ∧ progress.isStored ∧ progress.isRegistered ∧
      progress.isQueued = false := by
    rcases hprogress with rfl | rfl <;> exact ⟨rfl, rfl, rfl, rfl⟩
  refine hs.advance hstage rfl (hs.files.move hstage rfl progress)
    (hs.stored.move hstage rfl hfile.2.1) (hs.heap.set hfd hlive) ?_ (hs.others_setLoop _)
  rw [setLoop_self]
  refine ⟨hl.interest.move hstage hfile.2.2.1, hl.functors.move hstage rfl hfile.2.2.2, ?_, ?_,
    .inr (hl.batch_eq_nil (by simp [hphase]))⟩
  · apply hl.task.switch
    · simp [htask, Task.conn]
    · exact ⟨progress, fd, Function.update_self .., hremains⟩
    · intro _ _ _ _
      rfl
  · have hrest : stages.EventsAgree l (.handler conn effects) events := by
      refine ⟨fun fd' other d' hevent => ⟨?_, ?_⟩, hevents.tail.distinct⟩
      · exact (hevents.tail.live fd' other d' hevent).1
      · rintro rfl
        exact hevents.head_not_mem hevent
    exact hrest.frame (fun _ _ _ => hevents.head_not_mem) _

/-- A local effect leaves the server alone, but for the mask of the registration. -/
theorem perform_of_isLocal (s : HttpServer n) (l : Fin (n + 1)) (conn : ConnectionId) {e : Effect}
    (hlocal : e.isLocal fd) :
    s.perform l conn e = s ∨ s.perform l conn e = s.setInterest l fd (some conn) := by
  cases e with
  | epollCtl fd' ctl =>
      cases ctl with
      | mod events =>
          subst hlocal
          simp only [perform, epollCtl]
          split
          · exact .inl rfl
          · exact .inr rfl
      | add | del => exact hlocal.elim
  | close | queueErase => exact hlocal.elim
  | read | write | completed | callback | respond | reset => exact .inl rfl

theorem agrees_local (hs : s.Agrees stages) {e : Effect} {effects : List Effect}
    (htask : (s.loops l).task = .handler conn (e :: effects))
    (hstage : stages conn = some ⟨progress, l, fd⟩) (hregistered : progress.isRegistered)
    (hremains : progress.Remains fd effects) (hlocal : e.isLocal fd) :
    ((s.perform l conn e).setTask l (.handler conn effects)).Agrees stages := by
  have hl := hs.loops l
  have htask' : stages.TaskAgrees l (.handler conn effects) :=
    hl.task.goOn ⟨progress, fd, hstage, hremains⟩ fun _ _ _ _ _ hother => by
      rwa [htask] at hother
  have hevents : stages.EventsAgree l (.handler conn effects) (s.loops l).phase.events :=
    hl.events.switch (Task.spares_handler htask _)
  rcases perform_of_isLocal s l conn hlocal with hsame | hsame
  · rw [hsame]
    exact hs.stay ⟨hl.interest, hl.functors, htask', hevents, hl.batch⟩
  · rw [hsame, setTask, setInterest, setLoop_setLoop, setLoop_self]
    exact hs.stay ⟨hl.interest.add hstage hregistered, hl.functors, htask', hevents, hl.batch⟩

/-- The first part of a removal: the channel leaves the epoll set. -/
theorem agrees_del (hs : s.Agrees stages)
    (htask : (s.loops l).task = .handler conn (teardown fd))
    (hstage : stages conn = some ⟨.doomed, l, fd⟩) :
    ((s.setInterest l fd none).setTask l (.handler conn [.close fd, .queueErase fd])).Agrees
      (Function.update stages conn (some ⟨.leaving, l, fd⟩)) := by
  have hl := hs.loops l
  rw [setTask, setInterest, setLoop_setLoop, setLoop_self]
  refine hs.advance hstage rfl (hs.files.move hstage rfl .leaving) (hs.stored.move hstage rfl rfl)
    (hs.heap.move hstage rfl (by simp [Progress.isServed])) ?_ (hs.others_setLoop _)
  rw [setLoop_self]
  exact hl.advance hstage (by simp) rfl (hl.interest.removeSelf hstage _)
    (hl.functors.move hstage rfl rfl) (by simp [htask, Task.conn])
    ⟨.leaving, fd, Function.update_self .., rfl⟩ (fun _ => rfl) (Task.spares_handler htask _)
    hl.batch

/-- The second part: the descriptor is closed. -/
theorem agrees_close (hs : s.Agrees stages)
    (htask : (s.loops l).task = .handler conn [.close fd, .queueErase fd])
    (hstage : stages conn = some ⟨.leaving, l, fd⟩) :
    ((s.close fd).setTask l (.handler conn [.queueErase fd])).Agrees
      (Function.update stages conn (some ⟨.closing, l, fd⟩)) := by
  have hl := hs.loops l
  refine hs.advance hstage rfl
    (hs.files.close (hs.files conn _ hstage rfl) (Stages.of_stage rfl rfl))
    (hs.stored.move hstage rfl rfl) (hs.heap.move hstage rfl (by simp [Progress.isServed])) ?_ ?_
  · rw [setTask, setLoop_self]
    exact hl.advance hstage (by simp) rfl (hl.interest.removeSelf hstage _)
      (hl.functors.move hstage rfl rfl) (by simp [htask, Task.conn])
      ⟨.closing, fd, Function.update_self .., rfl⟩ (fun _ => rfl) (Task.spares_handler htask _)
      hl.batch
  · intro l' hne
    rw [setTask, setLoop_of_ne hne]
    have hl' := hs.loops l'
    exact ⟨hl'.interest.remove fd, hl'.functors, hl'.task, hl'.events, hl'.batch⟩

/-- The third part: the erase functor is queued. -/
theorem agrees_queueErase (hs : s.Agrees stages)
    (htask : (s.loops l).task = .handler conn [.queueErase fd])
    (hstage : stages conn = some ⟨.closing, l, fd⟩) :
    ((s.queueInLoop l (.erase fd conn)).setTask l (.handler conn [])).Agrees
      (Function.update stages conn (some ⟨.queued, l, fd⟩)) := by
  have hl := hs.loops l
  have hpushed := hl.functors.push (.erase fd conn) (Stages.of_progress hstage rfl)
  rw [← BatchQueue.pending_push] at hpushed
  rw [setTask, queueInLoop, setLoop_setLoop, setLoop_self]
  refine hs.advance hstage rfl (hs.files.update ?_) (hs.stored.move hstage rfl rfl)
    (hs.heap.move hstage rfl (by simp [Progress.isServed])) ?_ (hs.others_setLoop _)
  · rintro stage ⟨⟩ hopen
    cases hopen
  · rw [setLoop_self]
    exact hl.advance hstage (by simp) rfl (hl.interest.frame (Stages.of_progress hstage rfl) _)
      hpushed (by simp [htask, Task.conn]) ⟨.queued, fd, Function.update_self .., rfl⟩
      (fun _ => rfl) (Task.spares_handler htask _) hl.batch

/-- The step lemma for handlers. -/
theorem agrees_perform (hs : s.Agrees stages) {e : Effect} {effects : List Effect}
    (htask : (s.loops l).task = .handler conn (e :: effects)) :
    ∃ stages', ((s.perform l conn e).setTask l (.handler conn effects)).Agrees stages' := by
  have hrunning := (hs.loops l).task.running
  rw [htask] at hrunning
  obtain ⟨progress, fd, hstage, hremains⟩ := hrunning
  cases progress with
  | accepted | starting | storing => exact hremains.elim
  | live =>
      have hlocal : ∀ e' ∈ e :: effects, e'.isLocal fd := hremains
      refine ⟨stages, agrees_local hs htask hstage rfl ?_ (hlocal e (List.mem_cons_self ..))⟩
      exact fun e' he' => hlocal e' (List.mem_cons_of_mem _ he')
  | doomed =>
      obtain ⟨first, hfirst, hlocal⟩ := hremains
      cases first with
      | nil =>
          obtain ⟨rfl, rfl⟩ := List.cons.inj hfirst
          exact ⟨_, agrees_del hs htask hstage⟩
      | cons e' first =>
          obtain ⟨rfl, rfl⟩ := List.cons.inj hfirst
          refine ⟨stages, agrees_local hs htask hstage rfl ?_ (hlocal e (List.mem_cons_self ..))⟩
          exact ⟨first, rfl, fun e' he' => hlocal e' (List.mem_cons_of_mem _ he')⟩
  | leaving =>
      obtain ⟨rfl, rfl⟩ := List.cons.inj (hremains : e :: effects = _)
      exact ⟨_, agrees_close hs htask hstage⟩
  | closing =>
      obtain ⟨rfl, rfl⟩ := List.cons.inj (hremains : e :: effects = _)
      exact ⟨_, agrees_queueErase hs htask hstage⟩
  | queued => cases (hremains : e :: effects = [])

/-! ## Accepting and creating connections -/

/-- A new connection begins in one of the loops. -/
theorem Agrees.admit (hs : s.Agrees stages) (hfree : s.files fd = none) (next : ℕ)
    {loop : LoopState} (hstored : progress.isStored = false) (hbuilt : progress.isBuilt = false)
    (hloop : loop.Agrees (Function.update stages s.accepted (some ⟨progress, l, fd⟩)) l) :
    ({ s with
      files := Function.update s.files fd (some s.accepted)
      accepted := s.accepted + 1
      next := next }.setLoop l loop).Agrees
        (Function.update stages s.accepted (some ⟨progress, l, fd⟩)) := by
  have hold {P : Stage n → Prop} : ∀ stage, stages s.accepted = some stage → P stage := by
    intro stage hstage
    cases (hs.fresh _ le_rfl).symm.trans hstage
  refine hs.move (Nat.le_succ _) (Nat.lt_succ_self _) hold (Stages.of_stage rfl rfl)
    (hs.files.accept hfree) (hs.stored.frame hold (Stages.of_stage rfl hstored))
    (hs.heap.update ?_) ?_ (hs.others_setLoop (s := s) _)
  · rintro stage ⟨⟩ hyes
    exact absurd (hyes.symm.trans hbuilt) (by simp)
  · rw [setLoop_self]
    exact hloop

theorem agrees_accept (hs : s.Agrees stages) (htask : (s.loops 0).task = .idle)
    (hfree : s.files fd = none) : ∃ stages', (s.onNewConnection fd).Agrees stages' := by
  have hnone : stages s.accepted = none := hs.fresh _ le_rfl
  have hnot {l : Fin (n + 1)} {P : Progress → Prop} :
      ∀ fd progress, stages s.accepted = some ⟨progress, l, fd⟩ → P progress := by
    intro fd progress hstage
    cases hnone.symm.trans hstage
  have hnotLive {l : Fin (n + 1)} {P : ℕ → Dispatch → Prop} :
      ∀ fd d, stages s.accepted = some ⟨.live, l, fd⟩ → P fd d := by
    intro fd d hstage
    cases hnone.symm.trans hstage
  by_cases hbase : s.getNextLoop.1 = 0
  · have hl := hs.loops 0
    have hevents : stages.EventsAgree 0 (.starting fd s.accepted) (s.loops 0).phase.events :=
      hl.events.switch fun _ _ => trivial
    refine ⟨Function.update stages s.accepted (some ⟨.starting, 0, fd⟩), ?_⟩
    simp only [onNewConnection, if_pos hbase, setTask]
    exact hs.admit hfree _ rfl rfl ⟨hl.interest.frame hnot _,
      hl.functors.frame hnot (Stages.of_progress rfl rfl),
      hl.task.switch (by simp [htask, Task.conn]) (Function.update_self ..) fun _ _ _ _ => rfl,
      hevents.frame hnotLive _, hl.batch⟩
  · generalize hloop : s.getNextLoop.1 = l at hbase
    have hl := hs.loops l
    have hpushed := hl.functors.push (.create fd s.accepted) hnot
    rw [← BatchQueue.pending_push] at hpushed
    refine ⟨Function.update stages s.accepted (some ⟨.accepted, l, fd⟩), ?_⟩
    simp only [onNewConnection, hloop, if_neg hbase, queueInLoop]
    exact hs.admit hfree _ rfl rfl ⟨hl.interest.frame hnot _, hpushed,
      hl.task.frame (by simp [hnone]) (Stages.of_progress rfl rfl), hl.events.frame hnotLive _,
      hl.batch⟩

theorem agrees_start (hs : s.Agrees stages) {functors : BatchQueue ServerFunctor}
    (hphase : (s.loops l).phase = .run) (htask : (s.loops l).task = .idle)
    (hnext : (s.loops l).functors.next = some (.create fd conn, functors)) :
    (s.setLoop l { s.loops l with functors := functors, task := .starting fd conn }).Agrees
      (Function.update stages conn (some ⟨.starting, l, fd⟩)) := by
  have hl := hs.loops l
  have hfunctors := hl.functors
  rw [BatchQueue.pending_next hnext] at hfunctors
  have hstage : stages conn = some ⟨.accepted, l, fd⟩ := hfunctors.waited _ (List.mem_cons_self ..)
  refine hs.advance hstage rfl (hs.files.move hstage rfl .starting)
    (hs.stored.frame (Stages.of_stage hstage rfl) (Stages.of_stage rfl rfl)) (hs.heap.update ?_) ?_
    (hs.others_setLoop _)
  · rintro stage ⟨⟩ hbuilt
    cases hbuilt
  · rw [setLoop_self]
    exact hl.advance hstage (by simp) rfl (hl.interest.frame (Stages.of_progress hstage rfl) _)
      (hfunctors.pop (Stages.of_progress rfl rfl)) (by simp [htask, Task.conn])
      (Function.update_self ..) (fun _ => rfl) (fun _ _ => trivial) (.inl hphase)

/-- `epoll_ctl` adds the channel, or fails. -/
theorem epollCtl_add_cases (s : HttpServer n) (l : Fin (n + 1)) (conn : ConnectionId) (fd : ℕ)
    (events : Events) : s.epollCtl l conn fd (.add events) = s ∨
      s.epollCtl l conn fd (.add events) = s.setInterest l fd (some conn) := by
  simp only [epollCtl]
  split
  · exact .inr rfl
  · exact .inl rfl

theorem agrees_register (hs : s.Agrees stages) (htask : (s.loops l).task = .starting fd conn) :
    (({ s with heap := Function.update s.heap conn (some (.created l fd)) }.epollCtl l conn fd
      (.add EPOLLIN)).setTask l (.storing fd conn)).Agrees
        (Function.update stages conn (some ⟨.storing, l, fd⟩)) := by
  have hl := hs.loops l
  have hstage : stages conn = some ⟨.starting, l, fd⟩ := by
    have hrunning := hl.task.running
    rwa [htask] at hrunning
  have hsession : (Session.created l fd).fd = fd := by
    rw [Session.created_eq]
    rfl
  let made : HttpServer n :=
    { s with heap := Function.update s.heap conn (some (.created l fd)) }
  have hinterest : Stages.InterestAgrees (Function.update stages conn (some ⟨.storing, l, fd⟩)) l
      (s.loops l).interest :=
    hl.interest.frame (Stages.of_progress hstage rfl) _
  have hmade {loop : LoopState} (hphase : loop.phase = (s.loops l).phase)
      (hfunctors : loop.functors = (s.loops l).functors) (hstoring : loop.task = .storing fd conn)
      (hinterest' : Stages.InterestAgrees (Function.update stages conn (some ⟨.storing, l, fd⟩)) l
        loop.interest) :
      (made.setLoop l loop).Agrees (Function.update stages conn (some ⟨.storing, l, fd⟩)) := by
    refine hs.advance hstage rfl (hs.files.move hstage rfl .storing)
      (hs.stored.frame (Stages.of_stage hstage rfl) (Stages.of_stage rfl rfl))
      (hs.heap.set hsession fun _ => Session.live_created l fd) ?_ (hs.others_setLoop _)
    rw [setLoop_self]
    refine hl.advance hstage (by simp) hphase hinterest' ?_ (by simp [htask, Task.conn])
      ?_ ?_ ?_ ?_
    · rw [hfunctors]
      exact hl.functors.move hstage rfl rfl
    · rw [hstoring]
      exact Function.update_self ..
    · rw [hstoring]
      exact fun _ => rfl
    · rw [hstoring]
      exact fun _ _ => trivial
    · rw [hphase, hfunctors]
      exact hl.batch
  rcases epollCtl_add_cases made l conn fd EPOLLIN with hadd | hadd
  · rw [hadd]
    exact hmade rfl rfl rfl hinterest
  · rw [hadd, setTask, setInterest, setLoop_setLoop, setLoop_self]
    exact hmade rfl rfl rfl (hinterest.add (Function.update_self ..) rfl)

/-! ## `connections_` -/

theorem setConnection_of_free (hfree : s.connections fd = none) (entry : Option ConnectionId) :
    s.setConnection fd entry =
      { s with connections := Function.update s.connections fd entry } := by
  simp [setConnection, hfree]

theorem setConnection_of_entry {old : ConnectionId} (hentry : s.connections fd = some old)
    (entry : Option ConnectionId) :
    s.setConnection fd entry =
      { s with
        heap := Function.update s.heap old none
        connections := Function.update s.connections fd entry } := by
  simp [setConnection, hentry]

/-- Nothing is stored under a descriptor that is open for a connection still to
be stored, unless an erase functor is to come. -/
theorem connection_free (hs : s.Agrees stages) (hstage : stages conn = some ⟨.storing, l, fd⟩)
    (hsettled : ∀ l', fd ∉ (s.loops l').owedErases) : s.connections fd = none := by
  cases hentry : s.connections fd with
  | none => rfl
  | some old =>
      obtain ⟨⟨progress, l', fd'⟩, hold, hstored, hfd⟩ := (hs.stored fd old).mp hentry
      dsimp only at hstored hfd
      subst hfd
      have hfile : s.files fd' = some conn := hs.files conn _ hstage rfl
      have hclosed : progress.isOpen = false := by
        by_contra hopen
        have hfile' := hs.files old _ hold (by simpa using hopen)
        cases hfile'.symm.trans hfile
        cases hold.symm.trans hstage
        cases hstored
      have howed : fd' ∈ (s.loops l').owedErases := by
        rw [LoopState.owedErases, List.mem_append]
        cases progress with
        | closing =>
            right
            rw [(hs.loops l').task.of_closing hold]
            simp [Task.effects, Effect.erased]
        | queued =>
            left
            exact List.mem_filterMap.mpr ⟨_, (hs.loops l').functors.queued old fd' hold, rfl⟩
        | _ => cases hclosed
      exact absurd howed (hsettled l')

theorem agrees_store (hs : s.Agrees stages) (htask : (s.loops l).task = .storing fd conn)
    (hsettled : s.erasesSettled (.store l)) :
    ((s.setConnection fd (some conn)).setTask l .idle).Agrees
      (Function.update stages conn (some ⟨.live, l, fd⟩)) := by
  have hl := hs.loops l
  have hstage : stages conn = some ⟨.storing, l, fd⟩ := by
    have hrunning := hl.task.running
    rwa [htask] at hrunning
  have hfree : s.connections fd = none := by
    apply connection_free hs hstage
    simpa only [erasesSettled, htask] using hsettled
  rw [setConnection_of_free hfree]
  refine hs.advance hstage rfl (hs.files.move hstage rfl .live)
    (hs.stored.store hfree (Stages.of_stage hstage rfl) rfl)
    (hs.heap.move hstage rfl (fun _ => rfl)) ?_ (hs.others_setLoop _)
  rw [setTask, setLoop_self]
  exact hl.advance hstage (by simp) rfl (hl.interest.move hstage rfl)
    (hl.functors.move hstage rfl rfl) (by simp [htask, Task.conn]) trivial
    (by simp [Progress.isBusy]) (fun _ _ => trivial) hl.batch

/-- The connection that an erase functor finds is the one that queued it. -/
theorem entry_of_erase (hs : s.Agrees stages) {functors : BatchQueue ServerFunctor}
    (hnext : (s.loops l).functors.next = some (.erase fd conn, functors)) :
    stages conn = some ⟨.queued, l, fd⟩ ∧ s.connections fd = some conn := by
  have hfunctors := (hs.loops l).functors
  rw [BatchQueue.pending_next hnext] at hfunctors
  have hstage : stages conn = some ⟨.queued, l, fd⟩ := hfunctors.waited _ (List.mem_cons_self ..)
  exact ⟨hstage, (hs.stored fd conn).mpr ⟨_, hstage, rfl, rfl⟩⟩

theorem agrees_erase (hs : s.Agrees stages) {functors : BatchQueue ServerFunctor}
    (hphase : (s.loops l).phase = .run) (htask : (s.loops l).task = .idle)
    (hnext : (s.loops l).functors.next = some (.erase fd conn, functors)) :
    ((s.setLoop l { s.loops l with functors := functors }).setConnection fd none).Agrees
      (Function.update stages conn none) := by
  have hl := hs.loops l
  have hfunctors := hl.functors
  rw [BatchQueue.pending_next hnext] at hfunctors
  obtain ⟨hstage, hentry⟩ := entry_of_erase hs hnext
  rw [setConnection_of_entry (s := s.setLoop l { s.loops l with functors := functors }) hentry]
  refine hs.move le_rfl (hs.lt_accepted hstage) (Stages.of_stage hstage rfl) (by simp)
    (hs.files.update (by simp)) (hs.stored.erase hstage rfl) (hs.heap.destroy conn) ?_
    (hs.others_setLoop _)
  rw [setLoop_self]
  refine ⟨hl.interest.frame (Stages.of_progress hstage rfl) _, hfunctors.pop (by simp),
    hl.task.switch ?_ ?_ (by simp), hl.events.frame ?_ _, .inl hphase⟩
  · simp [htask, Task.conn]
  · rw [htask]
    trivial
  · intro fd' d hfound
    cases hstage.symm.trans hfound

/-! ## All steps -/

/-- The step lemma: whatever a step moves, the stages can follow it. -/
theorem agrees_step {a : ServerAction n} (hs : s.Agrees stages) (hsettled : s.erasesSettled a)
    (hstep : s.step service a = some t) : ∃ stages', t.Agrees stages' := by
  cases moves_of_step hstep with
  | wait l events hphase htask hreport =>
      exact ⟨stages, agrees_wait hs hphase htask hreport⟩
  | handle l fd conn d events before after hphase htask hheap hdispatch =>
      have hevents := (hs.loops l).events
      rw [hphase] at hevents
      have hstage := (hevents.live fd conn d (List.mem_cons_self ..)).1
      obtain ⟨session, hsession, hfd, hlive⟩ := hs.heap conn _ hstage rfl
      cases hheap.symm.trans hsession
      have hleads : before.Leads after := by
        rw [(Session.sessions_step hdispatch).2.2]
        exact Session.leads_dispatch (hlive rfl) d
      cases hleads with
      | stays effects hlocal hlog hafter hlive' =>
          rw [hfd] at hlocal hafter
          rw [hlog, List.drop_left]
          exact ⟨_, agrees_handle hs (.inl rfl) hphase htask hafter hlocal fun _ => hlive'⟩
      | ends effects hlocal hlog hafter hclosed =>
          rw [hfd] at hlocal hafter hlog
          rw [hlog, List.drop_left]
          exact ⟨_, agrees_handle hs (.inr rfl) hphase htask hafter ⟨effects, rfl, hlocal⟩
            (by simp [Progress.isServed])⟩
  | perform l conn effect effects htask => exact agrees_perform hs htask
  | leave l conn htask => exact ⟨stages, agrees_leave hs htask⟩
  | accept fd htask hfree => exact agrees_accept hs htask hfree
  | acceptDone events hphase htask => exact ⟨stages, agrees_acceptDone hs hphase⟩
  | swap l hphase htask => exact ⟨stages, agrees_swap hs hphase⟩
  | create l fd conn functors hphase htask hnext => exact ⟨_, agrees_start hs hphase htask hnext⟩
  | erase l fd conn functors hphase htask hnext => exact ⟨_, agrees_erase hs hphase htask hnext⟩
  | batchDone l hphase htask hnext => exact ⟨stages, agrees_batchDone hs hnext⟩
  | register l fd conn htask => exact ⟨_, agrees_register hs htask⟩
  | store l fd conn htask => exact ⟨_, agrees_store hs htask hsettled⟩

theorem agrees_create : (create : HttpServer n).Agrees fun _ => none where
  fresh _ _ := rfl
  files _ _ hstage := by cases hstage
  stored fd conn := by simp [create]
  heap _ _ hstage := by cases hstage
  loops _ :=
    { interest := fun _ _ hconn => by cases hconn
      functors := ⟨fun _ hf => (by cases hf), List.nodup_nil, fun _ _ hstage => by cases hstage⟩
      task := ⟨trivial, fun _ _ _ hstage => by cases hstage⟩
      events := Stages.eventsAgree_nil
      batch := .inr rfl }

theorem agrees_of_reachable (hreach : (servers service n).ReachableWhere erasesSettled s) :
    ∃ stages, s.Agrees stages := by
  apply Machine.ReachableWhere.invariant (I := fun s : HttpServer n => ∃ stages, s.Agrees stages)
    _ _ hreach
  · rintro s rfl
    exact ⟨_, agrees_create⟩
  · rintro s a t ⟨stages, hs⟩ hsettled hstep
    exact agrees_step hs hsettled hstep

/-- Every connection whose channel is registered is the one stored under its
descriptor, except in the creation functor that is about to store it; none of
them has been destroyed; and the next erase functor of a loop destroys no
connection but the one that queued it. -/
structure Owned (service : Service) (s : HttpServer n) : Prop where
  stored : ∀ l fd conn, (s.loops l).interest fd = some conn →
    s.connections fd = some conn ∨ (s.loops l).task = .storing fd conn
  alive : ∀ l fd conn, (s.loops l).interest fd = some conn →
    ∃ session, s.heap conn = some session ∧ session.fd = fd
  erased : ∀ l fd conn functors t,
    (s.loops l).functors.next = some (.erase fd conn, functors) →
      s.step service (.next l) = some t → ∀ other, other ≠ conn → t.heap other = s.heap other

/-- **Connections own what is registered while erasures are settled.** In every
run in which no creation functor stores a connection under a descriptor whose
earlier erase functor has yet to run, every state is `Owned`. -/
theorem owned_of_erasesSettled (service : Service) (n : ℕ) (s : HttpServer n)
    (hreach : (servers service n).ReachableWhere erasesSettled s) : s.Owned service := by
  obtain ⟨stages, hs⟩ := agrees_of_reachable hreach
  refine ⟨fun l fd conn hconn => ?_, fun l fd conn hconn => ?_, ?_⟩
  · obtain ⟨progress, hstage, hregistered⟩ := (hs.loops l).interest fd conn hconn
    cases progress with
    | storing => exact .inr ((hs.loops l).task.of_storing hstage)
    | live | doomed => exact .inl ((hs.stored fd conn).mpr ⟨_, hstage, rfl, rfl⟩)
    | accepted | starting | leaving | closing | queued => cases hregistered
  · obtain ⟨progress, hstage, hregistered⟩ := (hs.loops l).interest fd conn hconn
    have hbuilt : progress.isBuilt := by
      cases progress <;> first | rfl | cases hregistered
    obtain ⟨session, hheap, hfd, _⟩ := hs.heap conn _ hstage hbuilt
    exact ⟨session, hheap, hfd⟩
  · intro l fd conn functors t hnext hstep other hother
    have hentry := (entry_of_erase hs hnext).2
    cases moves_of_step hstep with
    | create l fd' conn' functors' hphase htask hnext' =>
        rw [hnext] at hnext'
        cases hnext'
    | erase l fd' conn' functors' hphase htask hnext' =>
        rw [hnext] at hnext'
        cases hnext'
        rw [setConnection_of_entry
          (s := s.setLoop l { s.loops l with functors := functors }) hentry]
        exact Function.update_of_ne hother ..
    | batchDone l hphase htask hnext' =>
        rw [hnext] at hnext'
        cases hnext'

/-- A descriptor is handed out again in the turn after its erase functor. -/
theorem owned_after_erase :
    ∃ s : HttpServer 0, (s.loops 0).interest 6 = some 1 ∧ s.heap 0 = none ∧
      s.Owned ⟨.stored, none⟩ := by
  obtain ⟨s, hreach, hregistered, herased⟩ := Machine.exists_reachable_of_run
    (M := servers ⟨.stored, none⟩ 0) (s := .create)
    (P := fun s => (s.loops 0).interest 6 = some 1 ∧ s.heap 0 = none) erasesSettled
    [.wait 0 [.accept], .accept 6, .register 0, .store 0, .acceptDone, .swap 0, .next 0,
      .wait 0 [.connection 6 0 ⟨EPOLLIN, .data [], []⟩], .handle 0, .perform 0, .perform 0,
      .perform 0, .perform 0, .leave 0, .swap 0, .next 0, .next 0,
      .wait 0 [.accept], .accept 6, .register 0, .store 0]
    rfl (by decide +kernel) (by decide +kernel)
  exact ⟨s, hregistered, herased, owned_of_erasesSettled _ 0 s hreach⟩

/-- The number of a connection that has been closed is accepted again in the
same turn, before its erase functor runs: the functor destroys the second
connection, and its channel stays registered. -/
theorem erased_while_registered :
    (¬ ∀ (service : Service) (n : ℕ) (s : HttpServer n),
      (servers service n).Reachable s → s.Owned service) ∧
    ∃ s : HttpServer 0, (servers ⟨.stored, none⟩ 0).Reachable s ∧
      (s.loops 0).interest 6 = some 1 ∧ s.connections 6 = none ∧ s.heap 1 = none := by
  obtain ⟨s, hreach, hregistered, hentry, hdestroyed⟩ := Machine.exists_reachable_of_run
    (M := servers ⟨.stored, none⟩ 0) (s := .create)
    (P := fun s => (s.loops 0).interest 6 = some 1 ∧ s.connections 6 = none ∧ s.heap 1 = none)
    Machine.anyStep
    [.wait 0 [.accept], .accept 6, .register 0, .store 0, .acceptDone, .swap 0, .next 0,
      .wait 0 [.connection 6 0 ⟨EPOLLIN, .data [], []⟩, .accept], .handle 0, .perform 0, .perform 0,
      .perform 0, .perform 0, .leave 0, .accept 6, .register 0, .store 0, .acceptDone, .swap 0,
      .next 0]
    rfl (Machine.follows_anyStep _ _) (by decide +kernel)
  refine ⟨fun hall => ?_, s, hreach, hregistered, hentry, hdestroyed⟩
  obtain ⟨session, halive, _⟩ := (hall ⟨.stored, none⟩ 0 s hreach).alive 0 6 1 hregistered
  cases hdestroyed.symm.trans halive

end HttpServer

end EpollHttpServer.Server
