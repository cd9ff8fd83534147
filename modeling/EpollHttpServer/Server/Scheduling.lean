/-
# Every loop gets its turn

A schedule is fair if a loop that can go on does so sooner or later, `accept`
does not return connections forever, and no loop stays in its wait while a
functor is queued for it, since whoever queues a functor wakes the loop up.

Under a fair schedule every loop comes back to its wait again and again, every
event that has been reported is handled, and every functor that has been queued
is run.
-/

import EpollHttpServer.Lib.History
import EpollHttpServer.Server.Persistence

namespace EpollHttpServer.Server

open EpollHttpServer.Lib EpollHttpServer.Http EpollHttpServer.Reactor

/-- The read of the event is one that the kernel may make. -/
def ServerEvent.fits : ServerEvent → Prop
  | .accept => True
  | .connection _ _ d => d.read.fits

instance (event : ServerEvent) : Decidable event.fits :=
  match event with
  | .accept => .isTrue trivial
  | .connection _ _ d => inferInstanceAs (Decidable d.read.fits)

namespace HttpServer

variable {n : ℕ} {service : Service} {s t : HttpServer n} {a : ServerAction n}
  {l : Fin (n + 1)}

/-! ## What a step does to one loop -/

/-- The base loop is calling `accept`. -/
def Accepts (s : HttpServer n) : Prop :=
  ∃ events, (s.loops (mainLoop n)).phase = .dispatch (.accept :: events)

/-- The loop is in `epoll_wait`. -/
def Waits (s : HttpServer n) (l : Fin (n + 1)) : Prop :=
  (s.loops l).phase = .wait ∧ (s.loops l).task = .idle

/-- What one step can do to one loop: go on in `loop()`, or something else. -/
inductive LoopMoves (s : HttpServer n) (a : ServerAction n) (l : Fin (n + 1)) (after : LoopState) :
    Prop where
  | wait (events : List ServerEvent) (haction : a = .wait l events) (hwaits : s.Waits l)
      (hphase : after.phase = .dispatch events) (hfunctors : after.functors = (s.loops l).functors)
  | handle (fd : ℕ) (conn : ConnectionId) (d : Dispatch) (events : List ServerEvent)
      (haction : a = .handle l)
      (hbefore : (s.loops l).phase = .dispatch (.connection fd conn d :: events))
      (hphase : after.phase = .dispatch events) (hfunctors : after.functors = (s.loops l).functors)
  | acceptDone (events : List ServerEvent)
      (hbefore : (s.loops l).phase = .dispatch (.accept :: events))
      (hphase : after.phase = .dispatch events) (hfunctors : after.functors = (s.loops l).functors)
  | swap (hbefore : (s.loops l).phase = .dispatch []) (hphase : after.phase = .run)
      (hfunctors : after.functors = (s.loops l).functors.swap)
  | next (functor : ServerFunctor) (haction : a = .next l) (hbefore : (s.loops l).phase = .run)
      (hphase : after.phase = .run)
      (hnext : (s.loops l).functors.next = some (functor, after.functors))
  | batchDone (hbefore : (s.loops l).phase = .run) (hphase : after.phase = .wait)
      (hfunctors : after.functors = (s.loops l).functors)
  | stays (hphase : after.phase = (s.loops l).phase)
      (hbatch : after.functors.batch = (s.loops l).functors.batch)
      (hinbox : (s.loops l).functors.inbox <+: after.functors.inbox)
      (htask : (s.loops l).task = .idle → after.task = .idle ∨ l = mainLoop n ∧ s.Accepts)

/-- The loop is as before, apart from its epoll set and new functors. -/
def LooksLike (after before : LoopState) : Prop :=
  after.phase = before.phase ∧ after.functors.batch = before.functors.batch ∧
    before.functors.inbox <+: after.functors.inbox ∧ after.task = before.task

theorem LooksLike.refl (loop : LoopState) : LooksLike loop loop :=
  ⟨rfl, rfl, List.prefix_refl _, rfl⟩

theorem LoopMoves.of_looksLike {after : LoopState} (hlike : LooksLike after (s.loops l)) :
    s.LoopMoves a l after :=
  .stays hlike.1 hlike.2.1 hlike.2.2.1 fun hidle => .inl (hlike.2.2.2.trans hidle)

/-- A step of one loop, and of no other. -/
theorem loopMoves_setLoop {u : HttpServer n} {loop : LoopState} {l' : Fin (n + 1)}
    (hloops : u.loops = s.loops) (hmoves : s.LoopMoves a l' loop) (l : Fin (n + 1)) :
    s.LoopMoves a l ((u.setLoop l' loop).loops l) := by
  by_cases hl : l = l'
  · subst hl
    rwa [setLoop_self]
  · rw [setLoop_of_ne hl, hloops]
    exact .of_looksLike (.refl _)

/-- A loop goes on with other code. -/
theorem loopMoves_setTask {u : HttpServer n} {task : Task} {l' : Fin (n + 1)}
    (hlike : ∀ l, LooksLike (u.loops l) (s.loops l)) (hbusy : (s.loops l').task ≠ .idle)
    (l : Fin (n + 1)) : s.LoopMoves a l ((u.setTask l' task).loops l) := by
  by_cases hl : l = l'
  · subst hl
    obtain ⟨hphase, hbatch, hinbox, _⟩ := hlike l
    rw [setTask, setLoop_self]
    exact .stays hphase hbatch hinbox fun hidle => absurd hidle hbusy
  · rw [setTask, setLoop_of_ne hl]
    exact .of_looksLike (hlike l)

theorem looksLike_epollCtl (s : HttpServer n) (l' : Fin (n + 1)) (conn : ConnectionId) (fd : ℕ)
    (ctl : EpollCtl) (l : Fin (n + 1)) : LooksLike ((s.epollCtl l' conn fd ctl).loops l)
      (s.loops l) := by
  obtain ⟨interest, heq⟩ := epollCtl_eq s l' conn fd ctl
  rw [heq]
  by_cases hl : l = l'
  · subst hl
    rw [setLoop_self]
    exact ⟨rfl, rfl, List.prefix_refl _, rfl⟩
  · rw [setLoop_of_ne hl]
    exact .refl _

theorem looksLike_queueInLoop (s : HttpServer n) (l' : Fin (n + 1)) (functor : ServerFunctor)
    (l : Fin (n + 1)) : LooksLike ((s.queueInLoop l' functor).loops l) (s.loops l) := by
  by_cases hl : l = l'
  · subst hl
    rw [queueInLoop, setLoop_self]
    exact ⟨rfl, rfl, List.prefix_append _ _, rfl⟩
  · rw [queueInLoop, setLoop_of_ne hl]
    exact .refl _

theorem looksLike_perform (s : HttpServer n) (l' : Fin (n + 1)) (conn : ConnectionId)
    (effect : Effect) (l : Fin (n + 1)) :
    LooksLike ((s.perform l' conn effect).loops l) (s.loops l) := by
  cases effect with
  | epollCtl fd ctl => exact looksLike_epollCtl s l' conn fd ctl l
  | queueErase fd => exact looksLike_queueInLoop s l' (.erase fd conn) l
  | close => exact ⟨rfl, rfl, List.prefix_refl _, rfl⟩
  | read | write | completed | callback | respond | reset => exact .refl _

theorem accepts_of_step {fd : ℕ} (hstep : s.step service (.accept fd) = some t) : s.Accepts := by
  simp only [step] at hstep
  split at hstep
  · next events hphase _ _ => exact ⟨events, hphase⟩
  · cases hstep

/-- The inversion lemma. -/
theorem loopMoves_of_step (hstep : s.step service a = some t) (l : Fin (n + 1)) :
    s.LoopMoves a l (t.loops l) := by
  cases moves_of_step hstep with
  | wait l' events hphase htask =>
      refine loopMoves_setLoop rfl ?_ l
      exact .wait events rfl ⟨hphase, htask⟩ rfl rfl
  | handle l' fd conn d events before after hphase =>
      refine loopMoves_setLoop rfl ?_ l
      exact .handle fd conn d events rfl hphase rfl rfl
  | perform l' conn effect effects htask =>
      exact loopMoves_setTask (looksLike_perform s l' conn effect) (by simp [htask]) l
  | leave l' conn htask =>
      exact loopMoves_setTask (fun _ => .refl _) (by simp [htask]) l
  | accept fd htask hfree =>
      have haccepts := accepts_of_step hstep
      simp only [onNewConnection]
      split
      · refine loopMoves_setLoop rfl ?_ l
        exact .stays rfl rfl (List.prefix_refl _) fun _ => .inr ⟨rfl, haccepts⟩
      · exact .of_looksLike (looksLike_queueInLoop _ _ _ l)
  | acceptDone events hphase =>
      refine loopMoves_setLoop rfl ?_ l
      exact .acceptDone events hphase rfl rfl
  | swap l' hphase =>
      refine loopMoves_setLoop rfl ?_ l
      exact .swap hphase rfl rfl
  | create l' fd conn functors hphase htask hnext =>
      refine loopMoves_setLoop rfl ?_ l
      exact .next _ rfl hphase hphase hnext
  | erase l' fd conn functors hphase htask hnext =>
      refine loopMoves_setLoop (u := s) rfl ?_ l
      exact .next _ rfl hphase hphase hnext
  | batchDone l' hphase =>
      refine loopMoves_setLoop rfl ?_ l
      exact .batchDone hphase rfl rfl
  | register l' fd conn htask =>
      refine loopMoves_setTask (fun l => ?_) ?_ l
      · exact looksLike_epollCtl { s with heap := _ } l' conn fd _ l
      · simp [htask]
  | store l' fd conn htask =>
      refine loopMoves_setTask (s := s) (fun _ => .refl _) ?_ l
      simp [htask]

/-! ## What a step does to running code -/

/-- What one step can do to code that is running in a loop. -/
inductive TaskMoves (s : HttpServer n) (l : Fin (n + 1)) (a : ServerAction n) (t : HttpServer n) :
    Prop where
  | stays (htask : (t.loops l).task = (s.loops l).task)
  | perform (conn : ConnectionId) (effect : Effect) (effects : List Effect)
      (hbefore : (s.loops l).task = .handler conn (effect :: effects))
      (hafter : t = (s.perform l conn effect).setTask l (.handler conn effects))
  | leave (conn : ConnectionId) (hbefore : (s.loops l).task = .handler conn [])
  | register (fd : ℕ) (conn : ConnectionId) (hbefore : (s.loops l).task = .starting fd conn)
      (hafter : (t.loops l).task = .storing fd conn)
      (hheap : t.heap conn = some (.created l fd))
  | store (fd : ℕ) (conn : ConnectionId) (hbefore : (s.loops l).task = .storing fd conn)
      (haction : a = .store l) (hafter : t.connections fd = some conn)

/-- A loop that was idle does something. -/
theorem TaskMoves.of_idle {u : HttpServer n} {loop : LoopState} {l' : Fin (n + 1)}
    (hloops : u.loops = s.loops) (hidle : (s.loops l').task = .idle)
    (hbusy : (s.loops l).task ≠ .idle) : s.TaskMoves l a (u.setLoop l' loop) := by
  refine .stays ?_
  rw [setLoop_of_ne, hloops]
  rintro rfl
  exact hbusy hidle

/-- The inversion lemma. -/
theorem taskMoves_of_step (hstep : s.step service a = some t) (hbusy : (s.loops l).task ≠ .idle) :
    s.TaskMoves l a t := by
  -- the code of another loop goes on
  have hother {u : HttpServer n} {task : Task} {l' : Fin (n + 1)} (hl : l ≠ l')
      (hlike : ∀ l, LooksLike (u.loops l) (s.loops l)) : s.TaskMoves l a (u.setTask l' task) := by
    refine .stays ?_
    rw [setTask, setLoop_of_ne hl]
    exact (hlike l).2.2.2
  cases moves_of_step hstep with
  | wait l' events hphase htask => exact .of_idle rfl htask hbusy
  | handle l' fd conn d events before after hphase htask => exact .of_idle rfl htask hbusy
  | acceptDone events hphase htask => exact .of_idle rfl htask hbusy
  | swap l' hphase htask => exact .of_idle rfl htask hbusy
  | create l' fd conn functors hphase htask => exact .of_idle rfl htask hbusy
  | batchDone l' hphase htask => exact .of_idle rfl htask hbusy
  | erase l' fd conn functors hphase htask =>
      exact .of_idle (u := { s with heap := _, connections := _ }) rfl htask hbusy
  | accept fd htask =>
      simp only [onNewConnection]
      split
      · exact .of_idle rfl htask hbusy
      · exact .stays (looksLike_queueInLoop _ _ _ l).2.2.2
  | perform l' conn effect effects htask =>
      by_cases hl : l = l'
      · subst hl
        exact .perform conn effect effects htask rfl
      · exact hother hl (looksLike_perform s l' conn effect)
  | leave l' conn htask =>
      by_cases hl : l = l'
      · subst hl
        exact .leave conn htask
      · exact hother hl fun _ => .refl _
  | register l' fd conn htask =>
      by_cases hl : l = l'
      · subst hl
        refine .register fd conn htask (by simp [setTask]) ?_
        simp [setTask, setLoop, heap_epollCtl]
      · exact hother hl fun l => looksLike_epollCtl { s with heap := _ } l' conn fd _ l
  | store l' fd conn htask =>
      by_cases hl : l = l'
      · subst hl
        exact .store fd conn htask rfl (Function.update_self ..)
      · exact hother hl fun _ => .refl _

/-! ## What follows for phases, events and functors -/

namespace LoopMoves

variable {after : LoopState}

/-- A phase ends by some of the turn's work, or at the wait. -/
theorem phase_cases (hmoves : s.LoopMoves a l after) :
    after.phase = (s.loops l).phase ∨ after.phase.work < (s.loops l).phase.work ∨
      s.Waits l ∧ ∃ events, a = .wait l events ∧ after.phase = .dispatch events := by
  cases hmoves with
  | wait events haction hwaits hphase => exact .inr (.inr ⟨hwaits, events, haction, hphase⟩)
  | stays hphase => exact .inl hphase
  | next functor _ hbefore hphase => exact .inl (hphase.trans hbefore.symm)
  | handle _ _ _ _ _ hbefore hphase => exact .inr (.inl (by simp [hbefore, hphase, Phase.work]))
  | acceptDone _ hbefore hphase | swap hbefore hphase | batchDone hbefore hphase =>
      exact .inr (.inl (by simp [hbefore, hphase, Phase.work]))

/-- A loop leaves its wait when `epoll_wait` returns. -/
theorem of_waits (hmoves : s.LoopMoves a l after) (hwaits : s.Waits l)
    (hnot : ¬ (after.phase = .wait ∧ after.task = .idle)) :
    ∃ events, a = .wait l events ∧ after.phase = .dispatch events := by
  cases hmoves with
  | wait events haction _ hphase => exact ⟨events, haction, hphase⟩
  | stays hphase _ _ htask =>
      rcases htask hwaits.2 with hidle | ⟨rfl, events, haccept⟩
      · exact absurd ⟨hphase.trans hwaits.1, hidle⟩ hnot
      · cases hwaits.1.symm.trans haccept
  | handle _ _ _ _ _ hbefore | acceptDone _ hbefore | swap hbefore | next _ _ hbefore
  | batchDone hbefore => cases hwaits.1.symm.trans hbefore

/-- The functors are run after the events. -/
theorem of_dispatch (hmoves : s.LoopMoves a l after) {events : List ServerEvent}
    (hbefore : (s.loops l).phase = .dispatch events)
    (hnot : ∀ events, after.phase ≠ .dispatch events) :
    after.functors = (s.loops l).functors.swap := by
  cases hmoves with
  | swap _ _ hfunctors => exact hfunctors
  | stays hphase => exact absurd (hphase.trans hbefore) (hnot events)
  | wait _ _ _ hphase | handle _ _ _ _ _ _ hphase | acceptDone _ _ hphase =>
      exact absurd hphase (hnot _)
  | next _ _ hrun | batchDone hrun => cases hbefore.symm.trans hrun

/-- An event does not get lost. -/
theorem of_event (hmoves : s.LoopMoves a l after) {fd : ℕ} {conn : ConnectionId} {d : Dispatch}
    (hevent : .connection fd conn d ∈ (s.loops l).phase.events)
    (hnot : .connection fd conn d ∉ after.phase.events) :
    a = .handle l ∧ (s.loops l).phase.handed = some (conn, d) := by
  cases hmoves with
  | wait _ _ hwaits =>
      rw [hwaits.1] at hevent
      cases hevent
  | handle fd' conn' d' events haction hbefore hphase =>
      rw [hbefore] at hevent ⊢
      rw [hphase] at hnot
      rcases List.mem_cons.mp hevent with hhead | htail
      · cases hhead
        exact ⟨haction, rfl⟩
      · exact absurd htail hnot
  | acceptDone events hbefore hphase =>
      rw [hbefore] at hevent
      rw [hphase] at hnot
      rcases List.mem_cons.mp hevent with ⟨⟨⟩⟩ | htail
      exact absurd htail hnot
  | stays hphase =>
      rw [hphase] at hnot
      exact absurd hevent hnot
  | swap hbefore | next _ _ hbefore | batchDone hbefore =>
      rw [hbefore] at hevent
      cases hevent

/-- Neither does a functor of the batch. -/
theorem of_batch (hmoves : s.LoopMoves a l after) {functor : ServerFunctor}
    (hbatch : (s.loops l).phase ≠ .run → (s.loops l).functors.batch = [])
    (hmem : functor ∈ (s.loops l).functors.batch) :
    functor ∈ after.functors.batch ∨
      a = .next l ∧ (s.loops l).functors.next = some (functor, after.functors) := by
  cases hmoves with
  | swap hbefore =>
      rw [hbatch (by simp [hbefore])] at hmem
      cases hmem
  | next first haction _ _ hnext =>
      rw [(BatchQueue.next_eq_some hnext).1] at hmem
      rcases List.mem_cons.mp hmem with rfl | htail
      · exact .inr ⟨haction, hnext⟩
      · exact .inl htail
  | stays _ hsame => exact .inl (hsame ▸ hmem)
  | wait _ _ _ _ hfunctors | handle _ _ _ _ _ _ _ hfunctors | acceptDone _ _ _ hfunctors
  | batchDone _ _ hfunctors => exact .inl (hfunctors ▸ hmem)

/-- Nor one that is queued. -/
theorem of_pending (hmoves : s.LoopMoves a l after) {functor : ServerFunctor}
    (hbatch : (s.loops l).phase ≠ .run → (s.loops l).functors.batch = [])
    (hmem : functor ∈ (s.loops l).functors.pending) (hnot : functor ∉ after.functors.pending) :
    a = .next l ∧ (s.loops l).functors.next = some (functor, after.functors) := by
  cases hmoves with
  | swap hbefore _ hfunctors =>
      rw [hfunctors, BatchQueue.pending_swap (hbatch (by simp [hbefore]))] at hnot
      exact absurd hmem hnot
  | next first haction _ _ hnext =>
      rw [BatchQueue.pending_next hnext] at hmem
      rcases List.mem_cons.mp hmem with rfl | htail
      · exact ⟨haction, hnext⟩
      · exact absurd htail hnot
  | stays _ hsame hinbox =>
      refine absurd ?_ hnot
      rw [BatchQueue.pending, List.mem_append] at hmem ⊢
      rw [hsame]
      exact hmem.imp_right (hinbox.subset ·)
  | wait _ _ _ _ hfunctors | handle _ _ _ _ _ _ _ hfunctors | acceptDone _ _ _ hfunctors
  | batchDone _ _ hfunctors => exact absurd (hfunctors ▸ hmem) hnot

/-- Events come from a wait. -/
theorem events_cases (hmoves : s.LoopMoves a l after) {event : ServerEvent}
    (hevent : event ∈ after.phase.events) : event ∈ (s.loops l).phase.events ∨
      ∃ events, a = .wait l events ∧ event ∈ events := by
  cases hmoves with
  | wait events haction _ hphase => exact .inr ⟨events, haction, by rwa [hphase] at hevent⟩
  | handle _ _ _ _ _ hbefore hphase | acceptDone _ hbefore hphase =>
      rw [hphase] at hevent
      rw [hbefore]
      exact .inl (List.mem_cons_of_mem _ hevent)
  | stays hphase => exact .inl (hphase ▸ hevent)
  | swap _ hphase | next _ _ _ hphase | batchDone _ hphase =>
      rw [hphase] at hevent
      cases hevent

end LoopMoves

/-- Steps other than waits that return and accepted connections make no work. -/
theorem work_le_of_step (hstep : s.step service a = some t) (l : Fin (n + 1)) :
    (t.loops l).work ≤ (s.loops l).work ∨ (∃ events, a = .wait l events) ∨
      l = mainLoop n ∧ s.Accepts := by
  by_cases hwork : a.isWork
  · obtain ⟨hlt, hle⟩ := progresses_step hwork hstep
    by_cases hl : l = a.loop
    · subst hl
      exact .inl hlt.le
    · exact .inl (hle l hl)
  · cases moves_of_step hstep with
    | wait l' events =>
        by_cases hl : l = l'
        · subst hl
          exact .inr (.inl ⟨events, rfl⟩)
        · left
          rw [setPhase, setLoop_of_ne hl]
    | accept fd htask hfree =>
        by_cases hl : l = mainLoop n
        · exact .inr (.inr ⟨hl, accepts_of_step hstep⟩)
        · left
          simp only [onNewConnection]
          split
          · rw [setTask, setLoop_of_ne hl]
          · refine (view_setLoop LoopState.work ?_ l).le
            rfl
    | _ => exact absurd trivial hwork

theorem wait_of_step {events : List ServerEvent}
    (hstep : s.step service (.wait l events) = some t) :
    s.Waits l ∧ (t.loops l).phase = .dispatch events := by
  cases moves_of_step hstep with
  | wait _ _ hphase htask => exact ⟨⟨hphase, htask⟩, by simp [setPhase]⟩

theorem phase_work_lt_of_acceptDone (hstep : s.step service .acceptDone = some t) :
    (t.loops (mainLoop n)).phase.work < (s.loops (mainLoop n)).phase.work := by
  cases moves_of_step hstep with
  | acceptDone events hphase => simp [setPhase, hphase, Phase.work]

/-! ## Fair schedules -/

/-- No read returns more than there is room for. -/
def fits (_ : HttpServer n) : ServerAction n → Prop
  | .wait _ events => ∀ event ∈ events, event.fits
  | _ => True

instance (s : HttpServer n) (a : ServerAction n) : Decidable (s.fits a) :=
  match a with
  | .wait _ events => inferInstanceAs (Decidable (∀ event ∈ events, event.fits))
  | .handle _ | .perform _ | .leave _ | .accept _ | .acceptDone | .swap _ | .next _
  | .register _ | .store _ => .isTrue trivial

/-- The order of steps settles erasures, and reads fit. -/
def orderly : Machine.Discipline (HttpServer n) (ServerAction n) :=
  fun s a => s.erasesSettled a ∧ s.fits a

theorem fitting_of_reachable (hreach : (servers service n).ReachableWhere fits s) :
    s.Fitting := by
  refine Machine.ReachableWhere.invariant (I := fun s : HttpServer n => s.Fitting) ?_ ?_ hreach
  · rintro s rfl l fd conn d hevent
    cases hevent
  · intro s a t hs hfits hstep l fd conn d hevent
    rcases (loopMoves_of_step hstep l).events_cases hevent with hbefore | ⟨events, rfl, hreported⟩
    · exact hs l fd conn d hbefore
    · exact hfits _ hreported

/-- The loop does some of its work. -/
def worksIn (l : Fin (n + 1)) : Machine.Discipline (HttpServer n) (ServerAction n) :=
  fun _ a => a.isWork ∧ a.loop = l

/-- There is a step that does some of the work of the loop. -/
def CanWork (service : Service) (l : Fin (n + 1)) (s : HttpServer n) : Prop :=
  ∃ a, worksIn l s a ∧ ∃ t, s.step service a = some t

variable {ok : Machine.Discipline (HttpServer n) (ServerAction n)}

/-- A fair schedule. -/
structure Scheduled (h : (servers service n).History ok) : Prop where
  /-- A loop that can go on does so sooner or later. -/
  works : ∀ l, h.Attends (CanWork service l) (worksIn l)
  /-- `accept` says sooner or later that there is no further connection. -/
  accepts : h.Attends Accepts fun _ a => a = .acceptDone
  /-- A wait returns sooner or later if a functor is queued. -/
  wakes : ∀ l, h.Attends (fun s => s.Waits l ∧ (s.loops l).functors.inbox ≠ [])
    fun _ a => ∃ events, a = .wait l events

/-- A schedule that ends when nothing is left to do is fair. -/
theorem scheduled_of_atRest {h : (servers service n).History ok} {m : ℕ}
    (hrest : ∀ k, m ≤ k → (h.state k).AtRest) : Scheduled h := by
  have hattends {waits : HttpServer n → Prop}
      {serves : Machine.Discipline (HttpServer n) (ServerAction n)}
      (hnot : ∀ s : HttpServer n, s.AtRest → ¬ waits s) : h.Attends waits serves :=
    fun k hwaits => absurd (hwaits (max k m) (le_max_left k m))
      (hnot _ (hrest _ (le_max_right k m)))
  refine ⟨fun l => hattends ?_, hattends ?_, fun l => hattends ?_⟩
  · rintro s hs ⟨a, ⟨hwork, _⟩, t, hstep⟩
    have hfinished : (servers service n).Finished working s :=
      finished_of_waiting fun l => ⟨(hs l).1, (hs l).2.1⟩
    cases (hfinished a hwork).symm.trans hstep
  · rintro s hs ⟨events, hphase⟩
    cases (hs (mainLoop n)).1.symm.trans hphase
  · rintro s hs ⟨_, hinbox⟩
    exact hinbox (List.append_eq_nil_iff.mp (hs l).2.2).2

section Scheduled

variable {h : (servers service n).History ok} (horderly : ∀ s a, ok s a → orderly s a)
  (hfair : Scheduled h)

theorem taken {k : ℕ} (haction : h.action k = some a) :
    (h.state k).step service a = some (h.state (k + 1)) :=
  (h.steps k a haction).2

variable (h) in
theorem rests_or_steps (k : ℕ) : h.state (k + 1) = h.state k ∨
    ∃ a, (h.state k).step service a = some (h.state (k + 1)) :=
  (h.rests_or_steps k).imp_right fun ⟨a, _, _, hstep⟩ => ⟨a, hstep⟩

include horderly in
theorem orderly_at (m : ℕ) : (servers service n).ReachableWhere orderly (h.state m) :=
  (h.reachable m).mono horderly

include horderly in
theorem settled_at (m : ℕ) : (servers service n).ReachableWhere erasesSettled (h.state m) :=
  (orderly_at horderly m).mono fun _ _ hok => hok.1

include horderly in
theorem batch_eq_nil_at (m : ℕ) (hphase : ((h.state m).loops l).phase ≠ .run) :
    ((h.state m).loops l).functors.batch = [] := by
  obtain ⟨stages, hs⟩ := agrees_of_reachable (settled_at horderly m)
  exact (hs.loops l).batch_eq_nil hphase

/-- A loop that does not wait any more stays in one phase from some moment on. -/
theorem exists_same_phase {m : ℕ} (hnot : ∀ k, m ≤ k → ¬ (h.state k).Waits l) :
    ∃ p, m ≤ p ∧
      ∀ k, p ≤ k → ((h.state k).loops l).phase = ((h.state p).loops l).phase := by
  have hphases (k : ℕ) (hk : m ≤ k) :
      ((h.state (k + 1)).loops l).phase = ((h.state k).loops l).phase ∨
        ((h.state (k + 1)).loops l).phase.work < ((h.state k).loops l).phase.work := by
    rcases rests_or_steps h k with hsame | ⟨a, hstep⟩
    · rw [hsame]
      exact .inl rfl
    · rcases (loopMoves_of_step hstep l).phase_cases with hsame | hlt | ⟨hwaits, _⟩
      · exact .inl hsame
      · exact .inr hlt
      · exact absurd hwaits (hnot k hk)
  obtain ⟨p, hmp, hlevel⟩ := Machine.History.exists_settled
    (fun k => ((h.state k).loops l).phase.work) m fun k hk =>
      (hphases k hk).elim (fun hsame => (congrArg Phase.work hsame).le) le_of_lt
  refine ⟨p, hmp, fun k hk => ?_⟩
  induction k, hk using Nat.le_induction with
  | base => rfl
  | succ k hk ih =>
      rcases hphases k (hmp.trans hk) with hsame | hlt
      · exact hsame.trans ih
      · rw [hlevel k hk, hlevel (k + 1) (Nat.le_succ_of_le hk)] at hlt
        exact absurd hlt (lt_irrefl _)

include horderly hfair

/-- Every loop comes back to its wait. -/
theorem exists_waits (l : Fin (n + 1)) (m : ℕ) : ∃ k, m ≤ k ∧ (h.state k).Waits l := by
  by_contra hnever
  have hnot (k : ℕ) (hk : m ≤ k) : ¬ (h.state k).Waits l := fun hwaits => hnever ⟨k, hk, hwaits⟩
  obtain ⟨p, hmp, hphase⟩ := exists_same_phase hnot
  by_cases haccept : l = mainLoop n ∧ (h.state p).Accepts
  · -- it would be accepting forever
    obtain ⟨rfl, events, hevents⟩ := haccept
    obtain ⟨k, hk, a, haction, rfl⟩ :=
      hfair.accepts p fun k hk => ⟨events, (hphase k hk).trans hevents⟩
    have hlt := phase_work_lt_of_acceptDone (taken haction)
    rw [hphase k hk, hphase (k + 1) (Nat.le_succ_of_le hk)] at hlt
    exact lt_irrefl _ hlt
  · -- it would have work to do forever
    have hle (k : ℕ) (hk : p ≤ k) :
        ((h.state (k + 1)).loops l).work ≤ ((h.state k).loops l).work := by
      rcases rests_or_steps h k with hsame | ⟨a, hstep⟩
      · rw [hsame]
      · rcases work_le_of_step hstep l with hless | ⟨events, rfl⟩ | ⟨rfl, events, haccepts⟩
        · exact hless
        · exact absurd (wait_of_step hstep).1 (hnot k (hmp.trans hk))
        · exact absurd ⟨rfl, events, (hphase k hk).symm.trans haccepts⟩ haccept
    have hlt (s : HttpServer n) (a : ServerAction n) (t : HttpServer n)
        (_ : (servers service n).ReachableWhere ok s) (_ : ok s a) (hworks : worksIn l s a)
        (hstep : s.step service a = some t) : (t.loops l).work < (s.loops l).work := by
      obtain ⟨hwork, rfl⟩ := hworks
      exact (progresses_step hwork hstep).1
    obtain ⟨q, hpq, hlevel⟩ := Machine.History.exists_settled
      (fun k => ((h.state k).loops l).work) p hle
    obtain ⟨k, hk, hidle⟩ := (hfair.works l).exists_not_waiting hlt hlevel
    exact hidle (enabled_of_not_waiting (safe_of_reachable (settled_at horderly k))
      (reported_of_reachable ((h.reachable k).mono fun _ _ _ => trivial))
      (fitting_of_reachable ((orderly_at horderly k).mono fun _ _ hok => hok.2))
      (hnot k (hmp.trans (hpq.trans hk))))

/-- Running code comes to its end. -/
theorem exists_moved {task : Task} {m : ℕ} (htask : ((h.state m).loops l).task = task)
    (hbusy : task ≠ .idle) : ∃ k a, m ≤ k ∧ ((h.state k).loops l).task = task ∧
      ((h.state (k + 1)).loops l).task ≠ task ∧ ok (h.state k) a ∧
        (h.state k).step service a = some (h.state (k + 1)) ∧
          (h.state k).TaskMoves l a (h.state (k + 1)) := by
  obtain ⟨w, hw, hwaits⟩ := exists_waits horderly hfair l m
  obtain ⟨k, a, hk, hbefore, hafter, _, hok, hstep⟩ := h.exists_step
    (P := fun s => (s.loops l).task = task) hw htask (by
      rw [hwaits.2]
      exact hbusy.symm)
  exact ⟨k, a, hk, hbefore, hafter, hok, hstep,
    taskMoves_of_step hstep (by rw [hbefore]; exact hbusy)⟩

/-- Every reported event is handled. -/
theorem exists_handle {fd : ℕ} {conn : ConnectionId} {d : Dispatch} {m : ℕ}
    (hevent : .connection fd conn d ∈ ((h.state m).loops l).phase.events) :
    ∃ k, m ≤ k ∧ h.action k = some (.handle l) ∧
      ((h.state k).loops l).phase.handed = some (conn, d) := by
  obtain ⟨k, hk, hwaits⟩ := exists_waits horderly hfair l m
  obtain ⟨j, a, hj, hbefore, hafter, haction, _, hstep⟩ := h.exists_step
    (P := fun s => .connection fd conn d ∈ (s.loops l).phase.events) hk hevent (by
      rw [hwaits.1]
      exact List.not_mem_nil)
  obtain ⟨rfl, hhanded⟩ := (loopMoves_of_step hstep l).of_event hbefore hafter
  exact ⟨j, hj, haction, hhanded⟩

/-- Every loop leaves its wait while a functor is queued. -/
theorem exists_dispatch {functor : ServerFunctor} {m : ℕ}
    (hqueued : ∀ k, m ≤ k → functor ∈ ((h.state k).loops l).functors.inbox) :
    ∃ k events, m ≤ k ∧ ((h.state k).loops l).phase = .dispatch events := by
  obtain ⟨w, hw, hwaits⟩ := exists_waits horderly hfair l m
  obtain ⟨k, hk, hnot⟩ := (hfair.wakes l).exists_ended
    (fun s a t _ _ ⟨events, hwait⟩ hstep ⟨hwaits', _⟩ => by
      subst hwait
      have hreturned : s.step service (.wait l events) = some t := hstep
      cases hwaits'.1.symm.trans (wait_of_step hreturned).2) w
  have hleaves : ¬ (h.state k).Waits l := fun hwaits' =>
    hnot ⟨hwaits', List.ne_nil_of_mem (hqueued k (hw.trans hk))⟩
  obtain ⟨j, a, hj, hbefore, hafter, _, _, hstep⟩ :=
    h.exists_step (P := fun s => s.Waits l) hk hwaits hleaves
  obtain ⟨events, _, hphase⟩ := (loopMoves_of_step hstep l).of_waits hbefore hafter
  exact ⟨j + 1, events, by omega, hphase⟩

/-- A functor that is never run is not in the batch. -/
theorem not_mem_batch {functor : ServerFunctor} {m : ℕ}
    (hqueued : ∀ k, m ≤ k → functor ∈ ((h.state k).loops l).functors.pending) :
    functor ∉ ((h.state m).loops l).functors.batch := by
  intro hbatch
  obtain ⟨k, hk, hwaits⟩ := exists_waits horderly hfair l m
  have hempty : ((h.state k).loops l).functors.batch = [] :=
    batch_eq_nil_at horderly k (by simp [hwaits.1])
  obtain ⟨j, a, hj, hbefore, hafter, _, _, hstep⟩ := h.exists_step
    (P := fun s => functor ∈ (s.loops l).functors.batch) hk hbatch (by simp [hempty])
  rcases (loopMoves_of_step hstep l).of_batch (batch_eq_nil_at horderly j) hbefore with
    hstays | ⟨_, hnext⟩
  · exact hafter hstays
  · -- it was queued once
    obtain ⟨stages, hs⟩ := agrees_of_reachable (settled_at horderly j)
    have honce := (hs.loops l).functors.nodup
    rw [BatchQueue.pending_next hnext] at honce
    exact (List.nodup_cons.mp honce).1 (hqueued (j + 1) (Nat.le_succ_of_le hj))

/-- Every queued functor is run. -/
theorem exists_run {functor : ServerFunctor} {m : ℕ}
    (hqueued : functor ∈ ((h.state m).loops l).functors.pending) :
    ∃ k functors, m ≤ k ∧ h.action k = some (.next l) ∧
      ((h.state k).loops l).functors.next = some (functor, functors) := by
  have hleaves : ∃ k, m ≤ k ∧ functor ∉ ((h.state k).loops l).functors.pending := by
    by_contra hnever
    have hforever (k : ℕ) (hk : m ≤ k) :
        functor ∈ ((h.state k).loops l).functors.pending := by
      by_contra hnot
      exact hnever ⟨k, hk, hnot⟩
    have hnot (k : ℕ) (hk : m ≤ k) : functor ∉ ((h.state k).loops l).functors.batch :=
      not_mem_batch horderly hfair fun k' hk' => hforever k' (hk.trans hk')
    have hinbox (k : ℕ) (hk : m ≤ k) : functor ∈ ((h.state k).loops l).functors.inbox :=
      (List.mem_append.mp (hforever k hk)).resolve_left (hnot k hk)
    obtain ⟨k, events, hk, hphase⟩ := exists_dispatch horderly hfair hinbox
    obtain ⟨w, hw, hwaits⟩ := exists_waits horderly hfair l k
    obtain ⟨j, a, hj, ⟨events', hbefore⟩, hafter, _, _, hstep⟩ := h.exists_step
      (P := fun s => ∃ events, (s.loops l).phase = .dispatch events) hw ⟨events, hphase⟩
      (by simp [hwaits.1])
    have hfunctors := (loopMoves_of_step hstep l).of_dispatch hbefore
      fun events hdispatch => hafter ⟨events, hdispatch⟩
    -- the swap would take it into the batch
    refine hnot (j + 1) (Nat.le_succ_of_le (hk.trans hj)) ?_
    rw [hfunctors]
    exact hinbox j (hk.trans hj)
  obtain ⟨k, hk, hnot⟩ := hleaves
  obtain ⟨j, a, hj, hbefore, hafter, haction, _, hstep⟩ := h.exists_step
    (P := fun s => functor ∈ (s.loops l).functors.pending) hk hqueued hnot
  obtain ⟨rfl, hnext⟩ := (loopMoves_of_step hstep l).of_pending
    (batch_eq_nil_at horderly j) hbefore hafter
  exact ⟨j, _, hj, haction, hnext⟩

end Scheduled

end HttpServer

end EpollHttpServer.Server
