/-
# Connections in service stay

Only a connection that has been taken out of service is about to be erased.  So
in a run that settles erasures a connection in service is not destroyed by
whatever any loop does, and while its own loop waits it is registered there.
-/

import EpollHttpServer.Server.Turns

namespace EpollHttpServer.Server

open EpollHttpServer.Lib EpollHttpServer.Http EpollHttpServer.Reactor

/-- The code is a handler that is going to queue the erase functor of this
connection. -/
def Task.Dooms (conn : ConnectionId) : Task → Prop
  | .handler other effects => other = conn ∧ ∃ fd, .queueErase fd ∈ effects
  | _ => False

/-- The loop is going to erase this connection. -/
def LoopState.Dooms (loop : LoopState) (conn : ConnectionId) : Prop :=
  (∃ fd, .erase fd conn ∈ loop.functors.pending) ∨ loop.task.Dooms conn

namespace HttpServer

variable {n : ℕ} {service : Service} {s t : HttpServer n} {stages : Stages n}
  {a : ServerAction n} {l : Fin (n + 1)} {conn : ConnectionId} {session before : Session}

/-! ## Erased connections are out of service -/

/-- No connection is about to be erased that is not closing. -/
def ErasesClosing (s : HttpServer n) : Prop :=
  ∀ l conn session, (s.loops l).Dooms conn → s.heap conn = some session →
    session.conn.closing = true

/-- A step that dooms and makes no connection. -/
theorem ErasesClosing.of_le (hs : s.ErasesClosing)
    (hdooms : ∀ l conn, (t.loops l).Dooms conn → (s.loops l).Dooms conn)
    (hheap : ∀ conn session, t.heap conn = some session → s.heap conn = some session) :
    t.ErasesClosing :=
  fun l conn session hdoomed hsession =>
    hs l conn session (hdooms l conn hdoomed) (hheap conn session hsession)

theorem dooms_setLoop {loop : LoopState}
    (hle : ∀ conn, loop.Dooms conn → (s.loops l).Dooms conn) :
    ∀ l' conn, ((s.setLoop l loop).loops l').Dooms conn → (s.loops l').Dooms conn := by
  intro l' conn hdoomed
  by_cases hl : l' = l
  · subst hl
    rw [setLoop_self] at hdoomed
    exact hle conn hdoomed
  · rwa [setLoop_of_ne hl] at hdoomed

/-- A doomed connection is in a stage in which it is not served. -/
theorem Agrees.not_served_of_dooms (hs : s.Agrees stages) (hdoomed : (s.loops l).Dooms conn) :
    ∃ stage, stages conn = some stage ∧ stage.progress.isServed = false ∧
      stage.progress.isBuilt := by
  rcases hdoomed with ⟨fd, herase⟩ | hhandler
  · exact ⟨_, (hs.loops l).functors.waited _ herase, rfl, rfl⟩
  · have hrunning := (hs.loops l).task.running
    cases htask : (s.loops l).task with
    | idle | starting | storing =>
        rw [htask] at hhandler
        exact hhandler.elim
    | handler other effects =>
        rw [htask] at hhandler hrunning
        obtain ⟨rfl, fd, herase⟩ := hhandler
        obtain ⟨progress, fd', hstage, hremains⟩ := hrunning
        refine ⟨_, hstage, ?_⟩
        cases progress with
        | accepted | starting | storing => exact hremains.elim
        | live => exact (hremains _ herase).elim
        | doomed | leaving | closing | queued => exact ⟨rfl, rfl⟩

/-- Conversely, a connection that is built and not served any more is doomed. -/
theorem Agrees.dooms_of_not_served (hs : s.Agrees stages) {stage : Stage n}
    (hstage : stages conn = some stage) (hbuilt : stage.progress.isBuilt)
    (hnot : stage.progress.isServed = false) : (s.loops stage.loop).Dooms conn := by
  obtain ⟨progress, l, fd⟩ := stage
  have hhandler (hbusy : progress.isBusy)
      (herase : ∀ effects, progress.Remains fd effects → .queueErase fd ∈ effects) :
      (s.loops l).Dooms conn := by
    have hconn := (hs.loops l).task.busy conn fd progress hstage hbusy
    have hrunning := (hs.loops l).task.running
    right
    cases htask : (s.loops l).task with
    | idle =>
        rw [htask] at hconn
        cases hconn
    | starting =>
        rw [htask] at hconn hrunning
        cases hconn
        cases hstage.symm.trans hrunning
        cases hbuilt
    | storing =>
        rw [htask] at hconn hrunning
        cases hconn
        cases hstage.symm.trans hrunning
        cases hnot
    | handler other effects =>
        rw [htask] at hconn hrunning
        cases hconn
        obtain ⟨found, fd', hfound, hremains⟩ := hrunning
        cases hstage.symm.trans hfound
        exact ⟨rfl, fd, herase effects hremains⟩
  cases progress with
  | accepted | starting => cases hbuilt
  | storing | live => cases hnot
  | doomed =>
      refine hhandler rfl ?_
      rintro effects ⟨first, rfl, _⟩
      simp [teardown]
  | leaving =>
      refine hhandler rfl ?_
      rintro effects rfl
      simp
  | closing =>
      refine hhandler rfl ?_
      rintro effects rfl
      simp
  | queued => exact .inl ⟨fd, (hs.loops l).functors.queued conn fd hstage⟩

/-- The loop goes on with code that dooms nothing new. -/
theorem dooms_setTask {task : Task}
    (hle : ∀ conn, task.Dooms conn → (s.loops l).Dooms conn) :
    ∀ l' conn, ((s.setTask l task).loops l').Dooms conn → (s.loops l').Dooms conn :=
  dooms_setLoop fun conn hdoomed => hdoomed.elim .inl (hle conn)

theorem dooms_epollCtl (s : HttpServer n) (l : Fin (n + 1)) (conn : ConnectionId) (fd : ℕ)
    (ctl : EpollCtl) (l' : Fin (n + 1)) (other : ConnectionId) :
    ((s.epollCtl l conn fd ctl).loops l').Dooms other = (s.loops l').Dooms other :=
  view_epollCtl (fun loop => loop.Dooms other) (fun _ _ => rfl) l conn fd ctl l'

/-- A handler dooms its own connection at most, and only if it was going to. -/
theorem dooms_perform {effect : Effect} {effects : List Effect}
    (htask : (s.loops l).task = .handler conn (effect :: effects)) (l' : Fin (n + 1))
    (other : ConnectionId) (hdoomed : ((s.perform l conn effect).loops l').Dooms other) :
    (s.loops l').Dooms other := by
  cases effect with
  | epollCtl fd ctl => rwa [← dooms_epollCtl s l conn fd ctl]
  | queueErase fd =>
      refine dooms_setLoop (fun c hc => ?_) l' other hdoomed
      rcases hc with ⟨fd', herase⟩ | hhandler
      · rw [BatchQueue.pending_push] at herase
        rcases List.mem_append.mp herase with hearlier | hlast
        · exact .inl ⟨fd', hearlier⟩
        · cases List.mem_singleton.mp hlast
          right
          rw [htask]
          exact ⟨rfl, fd, List.mem_cons_self ..⟩
      · exact .inr hhandler
  | close | read | write | completed | callback | respond | reset => exact hdoomed

theorem dooms_onNewConnection (s : HttpServer n) (fd : ℕ) :
    ∀ l conn, ((s.onNewConnection fd).loops l).Dooms conn → (s.loops l).Dooms conn := by
  simp only [onNewConnection]
  split
  · exact dooms_setTask fun _ hdoomed => hdoomed.elim
  · refine dooms_setLoop fun conn hdoomed => hdoomed.imp_left ?_
    rintro ⟨fd', herase⟩
    rw [BatchQueue.pending_push] at herase
    rcases List.mem_append.mp herase with hearlier | hlast
    · exact ⟨fd', hearlier⟩
    · cases List.mem_singleton.mp hlast

/-- A handler that is going to queue an erase functor has taken its connection
out of service. -/
theorem closing_of_handled (hlive : before.conn.Live) {d : Dispatch} {after : Session}
    (hdispatch : (sessions service).step before d = some after) {fd : ℕ}
    (herase : .queueErase fd ∈ after.log.drop before.log.length) :
    after.conn.closing = true := by
  have hleads : before.Leads after := by
    rw [(Session.sessions_step hdispatch).2.2]
    exact Session.leads_dispatch hlive d
  cases hleads with
  | stays effects hlocal hlog =>
      rw [hlog, List.drop_left] at herase
      exact (hlocal _ herase).elim
  | ends effects hlocal hlog hfd hclosed => exact hclosed.closing

/-- The step lemma. -/
theorem erasesClosing_step (hs : s.Agrees stages) (herases : s.ErasesClosing)
    (hstep : s.step service a = some t) : t.ErasesClosing := by
  cases moves_of_step hstep with
  | wait | acceptDone | batchDone =>
      exact herases.of_le (dooms_setLoop fun _ hdoomed => hdoomed) fun _ _ hsession => hsession
  | leave l conn htask =>
      exact herases.of_le (dooms_setTask fun _ hdoomed => hdoomed.elim) fun _ _ hsession => hsession
  | handle l fd conn d events before after hphase htask hheap hdispatch =>
      have hevents := (hs.loops l).events
      rw [hphase] at hevents
      have hstage := (hevents.live fd conn d (List.mem_cons_self ..)).1
      obtain ⟨found, hfound, _, hlive⟩ := hs.heap conn _ hstage rfl
      cases hheap.symm.trans hfound
      intro l' other session hdoomed hsession
      have hcases : (s.loops l').Dooms other ∨
          other = conn ∧ ∃ fd, .queueErase fd ∈ after.log.drop before.log.length := by
        by_cases hl : l' = l
        · rw [hl, setLoop_self] at hdoomed
          rw [hl]
          rcases hdoomed with herase | ⟨hconn, herase⟩
          · exact .inl (.inl herase)
          · exact .inr ⟨hconn.symm, herase⟩
        · rw [setLoop_of_ne hl] at hdoomed
          exact .inl hdoomed
      by_cases hother : other = conn
      · subst hother
        obtain rfl : after = session := by simpa [setLoop] using hsession
        rcases hcases with hbefore | ⟨_, fd', herase⟩
        · obtain ⟨stage, hfound, hnot, _⟩ := hs.not_served_of_dooms hbefore
          cases hstage.symm.trans hfound
          cases hnot
        · exact closing_of_handled (hlive rfl) hdispatch herase
      · have hsame : s.heap other = some session := by simpa [setLoop, hother] using hsession
        exact herases l' other session (hcases.resolve_right fun hnew => hother hnew.1) hsame
  | perform l conn effect effects htask =>
      refine herases.of_le (fun l' other hdoomed => ?_) fun other session hsession => ?_
      · refine dooms_perform htask l' other (dooms_setTask (fun c hc => .inr ?_) l' other hdoomed)
        obtain ⟨hconn, fd, herase⟩ := hc
        rw [view_perform LoopState.task (fun _ _ => rfl) (fun _ _ => rfl) l effect l, htask]
        exact ⟨hconn, fd, List.mem_cons_of_mem _ herase⟩
      · rwa [← heap_perform s l conn effect]
  | accept fd htask hfree =>
      refine herases.of_le (dooms_onNewConnection s fd) fun conn session hsession => ?_
      rwa [← heap_onNewConnection s fd]
  | swap l hphase htask =>
      refine herases.of_le (dooms_setLoop fun conn hdoomed => hdoomed.imp_left ?_)
        fun _ _ hsession => hsession
      rw [BatchQueue.pending_swap ((hs.loops l).batch_eq_nil (by simp [hphase]))]
      exact id
  | create l fd conn functors hphase htask hnext =>
      refine herases.of_le (dooms_setLoop fun other hdoomed => ?_) fun _ _ hsession => hsession
      rcases hdoomed with ⟨fd', herase⟩ | hstarting
      · left
        rw [BatchQueue.pending_next hnext]
        exact ⟨fd', List.mem_cons_of_mem _ herase⟩
      · exact hstarting.elim
  | erase l fd conn functors hphase htask hnext =>
      refine herases.of_le (dooms_setLoop (s := s) fun other hdoomed => hdoomed.imp_left ?_)
        (heap_setConnection_le _ fd none)
      rintro ⟨fd', herase⟩
      rw [BatchQueue.pending_next hnext]
      exact ⟨fd', List.mem_cons_of_mem _ herase⟩
  | register l fd conn htask =>
      intro l' other session hdoomed hsession
      have hbefore : (s.loops l').Dooms other := by
        have hdoomed' := dooms_setTask (by
          intro _ hstoring
          exact hstoring.elim) l' other hdoomed
        rwa [dooms_epollCtl] at hdoomed'
      by_cases hother : other = conn
      · subst hother
        have hrunning := (hs.loops l).task.running
        rw [htask] at hrunning
        obtain ⟨stage, hfound, _, hbuilt⟩ := hs.not_served_of_dooms hbefore
        cases hfound.symm.trans hrunning
        cases hbuilt
      · have hsame : s.heap other = some session := by
          simpa [setTask, setLoop, heap_epollCtl, hother] using hsession
        exact herases l' other session hbefore hsame
  | store l fd conn htask =>
      exact herases.of_le (dooms_setTask (s := s) fun _ hdoomed => hdoomed.elim)
        (heap_setConnection_le s fd (some conn))

theorem erasesClosing_of_reachable
    (hreach : (servers service n).ReachableWhere erasesSettled s) : s.ErasesClosing := by
  refine Machine.ReachableWhere.invariant_along (I := fun s : HttpServer n => s.ErasesClosing)
    ?_ ?_ hreach
  · rintro s rfl l conn session hdoomed hsession
    cases hsession
  · intro s a t hs herases _ hstep
    obtain ⟨stages, hagrees⟩ := agrees_of_reachable hs
    exact erasesClosing_step hagrees herases hstep

/-! ## What is on the heap -/

/-- Every connection on the heap has a stage. -/
theorem Agrees.exists_stage (hs : s.Agrees stages) (howners : s.Owners)
    (hheap : s.heap conn = some session) :
    ∃ stage, stages conn = some stage ∧ stage.progress.isBuilt ∧ stage.fd = session.fd := by
  rcases howners.owned conn session hheap with hentry | ⟨l, htask⟩
  · obtain ⟨⟨progress, l, fd⟩, hstage, hstored, hfd⟩ := (hs.stored session.fd conn).mp hentry
    refine ⟨_, hstage, ?_, hfd⟩
    cases progress <;> first | rfl | cases hstored
  · have hrunning := (hs.loops l).task.running
    rw [htask] at hrunning
    exact ⟨_, hrunning, rfl, rfl⟩

/-- A connection that is about to be made is not there. -/
theorem Agrees.heap_eq_none (hs : s.Agrees stages) (howners : s.Owners) {fd : ℕ}
    (htask : (s.loops l).task = .starting fd conn) : s.heap conn = none := by
  by_contra hsome
  obtain ⟨session, hheap⟩ := Option.ne_none_iff_exists'.mp hsome
  have hrunning := (hs.loops l).task.running
  rw [htask] at hrunning
  obtain ⟨stage, hstage, hbuilt, _⟩ := hs.exists_stage howners hheap
  cases hstage.symm.trans hrunning
  cases hbuilt

/-- Nothing but its own erase functor destroys a connection. -/
theorem Agrees.heap_survives (hs : s.Agrees stages) (hsettled : s.erasesSettled a)
    (hstep : s.step service a = some t) (hheap : s.heap conn = some session) :
    (∃ after, t.heap conn = some after) ∨ ∃ l fd functors, a = .next l ∧
      (s.loops l).functors.next = some (.erase fd conn, functors) := by
  cases moves_of_step hstep with
  | wait | leave | acceptDone | swap | create | batchDone => exact .inl ⟨session, hheap⟩
  | handle l fd other d events before after hphase htask hbefore hdispatch =>
      left
      by_cases hother : conn = other
      · subst hother
        exact ⟨after, Function.update_self ..⟩
      · exact ⟨session, (Function.update_of_ne hother ..).trans hheap⟩
  | perform l other effect effects htask =>
      exact .inl ⟨session, (congrFun (heap_perform s l other effect) conn).trans hheap⟩
  | accept fd htask hfree =>
      exact .inl ⟨session, (congrFun (heap_onNewConnection s fd) conn).trans hheap⟩
  | erase l fd other functors hphase htask hnext =>
      by_cases hother : conn = other
      · subst hother
        exact .inr ⟨l, fd, functors, rfl, hnext⟩
      · left
        rw [setConnection_of_entry (s := s.setLoop l { s.loops l with functors := functors })
          (entry_of_erase hs hnext).2]
        exact ⟨session, (Function.update_of_ne hother ..).trans hheap⟩
  | register l fd other htask =>
      left
      by_cases hother : conn = other
      · subst hother
        exact ⟨.created l fd, by simp [setTask, setLoop, heap_epollCtl]⟩
      · exact ⟨session, by simp [setTask, setLoop, heap_epollCtl, hother, hheap]⟩
  | store l fd other htask =>
      left
      have hstage := (hs.loops l).task.running
      rw [htask] at hstage
      have hfree : s.connections fd = none := by
        apply connection_free hs hstage
        simpa only [erasesSettled, htask] using hsettled
      rw [setConnection_of_free hfree]
      exact ⟨session, hheap⟩

/-- **A connection in service stays.** Whatever any loop does, it is there
afterwards, as it was or as its own handler has left it. -/
theorem exists_after (hreach : (servers service n).ReachableWhere erasesSettled s)
    (hsettled : s.erasesSettled a) (hstep : s.step service a = some t)
    (hheap : s.heap conn = some before) (hlive : before.conn.Live) :
    ∃ after, t.heap conn = some after ∧ (after = before ∨ ∃ l d, a = .handle l ∧
      (s.loops l).phase.handed = some (conn, d) ∧
        (sessions service).step before d = some after) := by
  obtain ⟨stages, hs⟩ := agrees_of_reachable hreach
  rcases hs.heap_survives hsettled hstep hheap with ⟨after, hafter⟩ | ⟨l, fd, functors, _, hnext⟩
  · refine ⟨after, hafter, ?_⟩
    rcases heap_of_step hstep hafter with hsame | ⟨l, fd, htask, _⟩ |
      ⟨l, d, found, hhandle, hhanded, hfound, hdispatch⟩
    · exact .inl (Option.some.inj (hsame.symm.trans hheap))
    · have hnone := hs.heap_eq_none (owners_of_reachable (hreach.mono fun _ _ _ => trivial)) htask
      cases hnone.symm.trans hheap
    · cases hheap.symm.trans hfound
      exact .inr ⟨l, d, hhandle, hhanded, hdispatch⟩
  · have hclosing := erasesClosing_of_reachable hreach l conn before
      (.inl ⟨fd, BatchQueue.pending_next hnext ▸ List.mem_cons_self ..⟩) hheap
    cases hclosing.symm.trans hlive.notClosing

/-- A connection in service is registered, unless its loop is running code. -/
theorem registered_of_live (hreach : (servers service n).ReachableWhere erasesSettled s)
    (hheap : s.heap conn = some session) (hlive : session.conn.Live)
    (hidle : (s.loops (loopOf n conn)).task = .idle) :
    (s.loops (loopOf n conn)).interest session.fd = some conn := by
  have hany : (servers service n).Reachable s := hreach.mono fun _ _ _ => trivial
  obtain ⟨stages, hs⟩ := agrees_of_reachable hreach
  obtain ⟨tracking, htracked⟩ := tracked_of_reachable hany
  obtain ⟨⟨progress, l, fd⟩, hstage, hbuilt, hfd⟩ :=
    hs.exists_stage (owners_of_reachable hany) hheap
  obtain rfl : fd = session.fd := hfd
  have hserved : progress.isServed := by
    by_contra hnot
    have hclosing := erasesClosing_of_reachable hreach l conn session
      (hs.dooms_of_not_served hstage hbuilt (by simpa using hnot)) hheap
    cases hclosing.symm.trans hlive.notClosing
  have hopen : progress.isOpen := by
    cases progress <;> first | rfl | cases hserved
  rcases htracked.inUse (hs.files conn _ hstage hopen) with hcreate | hstart | hinterest |
    ⟨effects, hhandler, _⟩
  · cases hstage.symm.trans ((hs.loops _).functors.waited _ hcreate)
    cases hserved
  · cases hidle.symm.trans hstart
  · exact hinterest
  · cases hidle.symm.trans hhandler

end HttpServer

end EpollHttpServer.Server
