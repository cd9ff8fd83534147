/-
# The lifetimes of connections

A `Connection` belongs to `connections_`, and before it is stored to the
creation functor that has made it.  No order of steps makes it belong to both
or to nobody, so none is leaked or destroyed twice, not even where an erase
functor destroys the wrong one.

With erasures settled, moreover, a connection lives as long as anything may
still use it; and when all loops wait with nothing to do, the open descriptors,
the registrations, `connections_` and the heap name the same connections.
-/

import EpollHttpServer.Server.Placement

namespace EpollHttpServer.Server

open EpollHttpServer.Lib EpollHttpServer.Http EpollHttpServer.Reactor

namespace HttpServer

variable {n : ℕ} {service : Service} {s t : HttpServer n} {stages : Stages n}
  {conn : ConnectionId} {l : Fin (n + 1)} {fd : ℕ}

/-! ## Ownership of the objects -/

/-- Every connection on the heap has one owner. -/
structure Owners (s : HttpServer n) : Prop where
  /-- What is stored is on the heap, and has the descriptor it is stored under. -/
  stored : ∀ fd conn, s.connections fd = some conn →
    ∃ session, s.heap conn = some session ∧ session.fd = fd
  /-- So is what a creation functor holds, and it is not stored. -/
  held : ∀ l fd conn, (s.loops l).task = .storing fd conn →
    (∃ session, s.heap conn = some session ∧ session.fd = fd) ∧
      ∀ fd', s.connections fd' ≠ some conn
  /-- What is on the heap is stored, or held by a creation functor. -/
  owned : ∀ conn session, s.heap conn = some session →
    s.connections session.fd = some conn ∨ ∃ l, (s.loops l).task = .storing session.fd conn

theorem owners_create : (create : HttpServer n).Owners where
  stored _ _ hentry := by cases hentry
  held _ _ _ htask := by cases htask
  owned _ _ hheap := by cases hheap

/-- A step that makes, stores and destroys nothing. -/
theorem Owners.of_same (hs : s.Owners) (hheap : t.heap = s.heap)
    (hconnections : t.connections = s.connections)
    (htasks : ∀ l fd conn, (t.loops l).task = .storing fd conn ↔
      (s.loops l).task = .storing fd conn) : t.Owners where
  stored := by
    rw [hheap, hconnections]
    exact hs.stored
  held l fd conn htask := by
    rw [hheap, hconnections]
    exact hs.held l fd conn ((htasks l fd conn).mp htask)
  owned conn session hsession := by
    rw [hheap] at hsession
    rw [hconnections]
    refine (hs.owned conn session hsession).imp_right ?_
    rintro ⟨l, htask⟩
    exact ⟨l, (htasks l _ conn).mpr htask⟩

/-- The loop goes from code that holds no connection to code that holds none. -/
theorem storing_setLoop {loop : LoopState}
    (hbefore : ∀ fd conn, (s.loops l).task ≠ .storing fd conn)
    (hafter : ∀ fd conn, loop.task ≠ .storing fd conn) :
    ∀ l' fd conn, ((s.setLoop l loop).loops l').task = .storing fd conn ↔
      (s.loops l').task = .storing fd conn := by
  intro l' fd conn
  by_cases hl : l' = l
  · subst hl
    rw [setLoop_self]
    exact iff_of_false (hafter fd conn) (hbefore fd conn)
  · rw [setLoop_of_ne hl]

theorem storing_setLoop_same {loop : LoopState} (hsame : loop.task = (s.loops l).task) :
    ∀ l' fd conn, ((s.setLoop l loop).loops l').task = .storing fd conn ↔
      (s.loops l').task = .storing fd conn := by
  intro l' fd conn
  by_cases hl : l' = l
  · subst hl
    rw [setLoop_self, hsame]
  · rw [setLoop_of_ne hl]

theorem connections_perform (s : HttpServer n) (l : Fin (n + 1)) (conn : ConnectionId)
    (e : Effect) : (s.perform l conn e).connections = s.connections := by
  cases e with
  | epollCtl fd ctl =>
      obtain ⟨interest, heq⟩ := epollCtl_eq s l conn fd ctl
      rw [perform, heq]
      rfl
  | _ => rfl

/-- A handler changes its connection, which keeps its descriptor. -/
theorem owners_handle (hs : s.Owners) {before after : Session} {loop : LoopState}
    (hheap : s.heap conn = some before) (hfd : after.fd = before.fd)
    (hbefore : ∀ fd conn, (s.loops l).task ≠ .storing fd conn)
    (hafter : ∀ fd conn, loop.task ≠ .storing fd conn) :
    ({ s with heap := Function.update s.heap conn (some after) }.setLoop l loop).Owners := by
  have htasks := storing_setLoop hbefore hafter
  have hfound {other : ConnectionId} {session : Session} (hother : s.heap other = some session) :
      ∃ session', Function.update s.heap conn (some after) other = some session' ∧
        session'.fd = session.fd := by
    by_cases hc : other = conn
    · subst hc
      cases hheap.symm.trans hother
      exact ⟨after, Function.update_self .., hfd⟩
    · exact ⟨session, by rw [Function.update_of_ne hc, hother], rfl⟩
  refine ⟨fun fd other hentry => ?_, fun l' fd other htask => ?_, fun other session hother => ?_⟩
  · obtain ⟨session, hsession, hsame⟩ := hs.stored fd other hentry
    obtain ⟨session', hsession', hsame'⟩ := hfound hsession
    exact ⟨session', hsession', hsame'.trans hsame⟩
  · obtain ⟨⟨session, hsession, hsame⟩, hnot⟩ := hs.held l' fd other ((htasks l' fd other).mp htask)
    obtain ⟨session', hsession', hsame'⟩ := hfound hsession
    exact ⟨⟨session', hsession', hsame'.trans hsame⟩, hnot⟩
  · have hold : ∃ session', s.heap other = some session' ∧ session'.fd = session.fd := by
      by_cases hc : other = conn
      · subst hc
        have hsame : after = session := by simpa [setLoop] using hother
        subst hsame
        exact ⟨before, hheap, hfd.symm⟩
      · refine ⟨session, ?_, rfl⟩
        simpa [setLoop, hc] using hother
    obtain ⟨session', hsession', hsame⟩ := hold
    rw [← hsame]
    refine (hs.owned other session' hsession').imp_right ?_
    rintro ⟨l', htask⟩
    exact ⟨l', (htasks l' _ other).mpr htask⟩

/-- An entry is removed, and the connection destroyed that it owned. -/
theorem owners_erase (hs : s.Owners) (fd : ℕ) : (s.setConnection fd none).Owners := by
  cases hentry : s.connections fd with
  | none =>
      rw [setConnection_of_free hentry, ← hentry, Function.update_eq_self]
      exact hs
  | some old =>
      obtain ⟨oldSession, hold, holdFd⟩ := hs.stored fd old hentry
      rw [setConnection_of_entry hentry]
      refine ⟨fun fd' conn hconn => ?_, fun l fd' conn htask => ?_, fun conn session hheap => ?_⟩
      · dsimp only at hconn
        by_cases hfd : fd' = fd
        · subst hfd
          rw [Function.update_self] at hconn
          cases hconn
        · rw [Function.update_of_ne hfd] at hconn
          obtain ⟨session, hsession, hsame⟩ := hs.stored fd' conn hconn
          refine ⟨session, ?_, hsame⟩
          dsimp only
          rw [Function.update_of_ne, hsession]
          rintro rfl
          cases hold.symm.trans hsession
          exact hfd (hsame.symm.trans holdFd)
      · obtain ⟨⟨session, hsession, hsame⟩, hnot⟩ := hs.held l fd' conn htask
        refine ⟨⟨session, ?_, hsame⟩, fun fd'' hconn => ?_⟩
        · dsimp only
          rw [Function.update_of_ne, hsession]
          rintro rfl
          exact hnot fd hentry
        · dsimp only at hconn
          by_cases hfd : fd'' = fd
          · subst hfd
            rw [Function.update_self] at hconn
            cases hconn
          · rw [Function.update_of_ne hfd] at hconn
            exact hnot fd'' hconn
      · dsimp only at hheap
        have hne : conn ≠ old := by
          rintro rfl
          rw [Function.update_self] at hheap
          cases hheap
        rw [Function.update_of_ne hne] at hheap
        refine (hs.owned conn session hheap).imp_left fun hconn => ?_
        dsimp only
        rw [Function.update_of_ne, hconn]
        intro hfd
        rw [hfd, hentry] at hconn
        exact hne (Option.some.inj hconn).symm

/-- Storing an entry is removing the old one first. -/
theorem setConnection_some (s : HttpServer n) (fd : ℕ) (conn : ConnectionId) :
    s.setConnection fd (some conn) =
      { s.setConnection fd none with
        connections :=
          Function.update (s.setConnection fd none).connections fd (some conn) } := by
  simp [setConnection]

/-- A creation functor hands its connection over to `connections_`. -/
theorem owners_store (hs : s.Owners) (hstages : s.Tracked stages)
    (htask : (s.loops l).task = .storing fd conn) :
    ((s.setConnection fd (some conn)).setTask l .idle).Owners := by
  have hs' := owners_erase hs fd
  have hfree : (s.setConnection fd none).connections fd = none := Function.update_self ..
  have hloops : (s.setConnection fd none).loops = s.loops := rfl
  rw [setConnection_some]
  generalize s.setConnection fd none = s' at hs' hfree hloops
  rw [← hloops] at htask
  obtain ⟨⟨session, hsession, hfd⟩, hnot⟩ := hs'.held l fd conn htask
  have htasks : ∀ l', l' ≠ l → ∀ fd' other,
      (((({ s' with connections := Function.update s'.connections fd (some conn) } :
        HttpServer n).setTask l .idle).loops l').task = .storing fd' other ↔
          (s'.loops l').task = .storing fd' other) := by
    intro l' hl fd' other
    rw [setTask, setLoop_of_ne hl]
  refine ⟨fun fd' other hentry => ?_, fun l' fd' other htask' => ?_, fun other found hheap => ?_⟩
  · by_cases hsame : fd' = fd
    · subst hsame
      have hother : conn = other := by simpa [setTask, setLoop] using hentry
      subst hother
      exact ⟨session, hsession, hfd⟩
    · refine hs'.stored fd' other ?_
      simpa [setTask, setLoop, hsame] using hentry
  · by_cases hl : l' = l
    · subst hl
      rw [setTask, setLoop_self] at htask'
      cases htask'
    · rw [htasks l' hl] at htask'
      obtain ⟨hexists, hother⟩ := hs'.held l' fd' other htask'
      refine ⟨hexists, fun fd'' hentry => ?_⟩
      by_cases hsame : fd'' = fd
      · subst hsame
        have hconn : conn = other := by simpa [setTask, setLoop] using hentry
        subst hconn
        -- A connection is being stored by the one loop that it belongs to.
        have hconfined := hstages.confined.task
        rw [hloops] at htask htask'
        exact hl ((hconfined l' conn (by rw [htask']; rfl)).symm.trans
          (hconfined l conn (by rw [htask]; rfl)))
      · refine hother fd'' ?_
        simpa [setTask, setLoop, hsame] using hentry
  · rcases hs'.owned other found hheap with hentry | ⟨l', htask'⟩
    · left
      have hne : found.fd ≠ fd := by
        intro hsame
        rw [hsame, hfree] at hentry
        cases hentry
      show Function.update s'.connections fd (some conn) found.fd = some other
      rw [Function.update_of_ne hne, hentry]
    · by_cases hl : l' = l
      · subst hl
        rw [htask] at htask'
        cases htask'
        exact .inl (Function.update_self ..)
      · exact .inr ⟨l', (htasks l' hl found.fd other).mpr htask'⟩

/-- A creation functor makes a connection. -/
theorem owners_register (hs : s.Owners) (hstages : s.Tracked stages)
    (htask : (s.loops l).task = .starting fd conn) :
    (({ s with heap := Function.update s.heap conn (some (.created l fd)) }.epollCtl l conn fd
      (.add EPOLLIN)).setTask l (.storing fd conn)).Owners := by
  obtain ⟨hstage, hfile, hfree⟩ := hstages.startable htask
  have hnone : s.heap conn = none := by
    by_contra hsome
    obtain ⟨session, hsession⟩ := Option.ne_none_iff_exists'.mp hsome
    cases (hstages.heap conn session _ hsession hstage).1
  have hunstored (fd' : ℕ) : s.connections fd' ≠ some conn := by
    intro hentry
    obtain ⟨session, hsession, _⟩ := hs.stored fd' conn hentry
    cases hnone.symm.trans hsession
  have hkept {other : ConnectionId} {session : Session} (hother : s.heap other = some session) :
      Function.update s.heap conn (some (.created l fd)) other = some session := by
    rw [Function.update_of_ne, hother]
    rintro rfl
    cases hnone.symm.trans hother
  let made : HttpServer n :=
    { s with heap := Function.update s.heap conn (some (.created l fd)) }
  have hadd : made.epollCtl l conn fd (.add EPOLLIN) = made.setInterest l fd (some conn) :=
    if_pos ⟨Option.isSome_iff_exists.mpr ⟨conn, hfile⟩, hfree l⟩
  rw [hadd, setTask, setInterest, setLoop_setLoop, setLoop_self]
  refine ⟨fun fd' other hentry => ?_, fun l' fd' other htask' => ?_, fun other found hheap => ?_⟩
  · obtain ⟨session, hsession, hfd⟩ := hs.stored fd' other hentry
    exact ⟨session, hkept hsession, hfd⟩
  · by_cases hl : l' = l
    · subst hl
      rw [setLoop_self] at htask'
      cases htask'
      refine ⟨⟨_, Function.update_self .., ?_⟩, hunstored⟩
      rw [Session.created_eq]
      rfl
    · rw [setLoop_of_ne hl] at htask'
      obtain ⟨⟨session, hsession, hfd⟩, hnot⟩ := hs.held l' fd' other htask'
      exact ⟨⟨session, hkept hsession, hfd⟩, hnot⟩
  · by_cases hc : other = conn
    · subst hc
      have hsession : Session.created l fd = found := by simpa [setLoop, made] using hheap
      subst hsession
      refine .inr ⟨l, ?_⟩
      rw [setLoop_self, Session.created_eq]
      rfl
    · have hother : s.heap other = some found := by simpa [setLoop, made, hc] using hheap
      refine (hs.owned other found hother).imp_right ?_
      rintro ⟨l', htask'⟩
      refine ⟨l', ?_⟩
      rw [setLoop_of_ne, ← htask']
      rintro rfl
      cases htask.symm.trans htask'

/-- The step lemma. -/
theorem owners_step {a : ServerAction n} (hs : s.Owners) (hstages : s.Tracked stages)
    (hstep : s.step service a = some t) : t.Owners := by
  cases moves_of_step hstep with
  | wait | acceptDone | swap | batchDone => exact hs.of_same rfl rfl (storing_setLoop_same rfl)
  | handle l fd conn d events before after hphase htask hheap hdispatch =>
      refine owners_handle hs hheap ?_ (by simp [htask]) (by simp)
      obtain ⟨_, _, hlive⟩ := hstages.heap conn before _ hheap
        ((hstages.loops l).events.live fd conn d (by rw [hphase]; exact List.mem_cons_self ..)).1
      have hleads : before.Leads after := by
        rw [(Session.sessions_step hdispatch).2.2]
        exact Session.leads_dispatch (hlive rfl) d
      cases hleads with
      | stays _ _ _ hfd => exact hfd
      | ends _ _ _ hfd => exact hfd
  | perform l conn effect effects htask =>
      have htasks : ∀ l', ((s.perform l conn effect).loops l').task = (s.loops l').task :=
        view_perform LoopState.task (fun _ _ => rfl) (fun _ _ => rfl) l effect
      have hafter : ∀ fd' other, ((s.perform l conn effect).loops l).task ≠ .storing fd' other := by
        simp [htasks, htask]
      refine hs.of_same (heap_perform s l conn effect) (connections_perform s l conn effect)
        fun l' fd' other => ?_
      rw [← htasks l']
      exact storing_setLoop hafter (by simp) l' fd' other
  | leave l conn htask =>
      exact hs.of_same rfl rfl (storing_setLoop (by simp [htask]) (by simp))
  | accept fd htask hfree =>
      refine hs.of_same (heap_onNewConnection s fd) ?_ ?_
      · simp only [onNewConnection]
        split <;> rfl
      · simp only [onNewConnection]
        split
        · exact storing_setLoop (s := s) (by simp [htask]) (by simp)
        · exact storing_setLoop_same (s := s) rfl
  | create l fd conn functors hphase htask hnext =>
      exact hs.of_same rfl rfl (storing_setLoop (by simp [htask]) (by simp))
  | erase l fd conn functors hphase htask hnext =>
      exact owners_erase (hs.of_same (t := s.setLoop l { s.loops l with functors := functors })
        rfl rfl (storing_setLoop_same rfl)) fd
  | register l fd conn htask => exact owners_register hs hstages htask
  | store l fd conn htask => exact owners_store hs hstages htask

theorem owners_of_reachable (hreach : (servers service n).Reachable s) : s.Owners := by
  refine Machine.ReachableWhere.invariant_along (I := fun s : HttpServer n => s.Owners) ?_ ?_ hreach
  · rintro s rfl
    exact owners_create
  · intro s a t hs howners _ hstep
    obtain ⟨stages, htracked⟩ := tracked_of_reachable hs
    exact owners_step howners htracked hstep

/-- **Every connection has one owner.** In every run of the server, whatever is
erased when, a `Connection` on the heap is owned by `connections_`, under its
own descriptor, or else by the creation functor that has just made it: none is
leaked, and none is owned, and so destroyed, twice.  For the source this is a
statement about the run up to the first use of a connection that has been
destroyed. -/
theorem connections_owned_once (service : Service) (n : ℕ) (s : HttpServer n)
    (hreach : (servers service n).Reachable s) : s.Owners :=
  owners_of_reachable hreach

/-- A run in which the erase functor of one connection destroys the one that has
its descriptor now. -/
theorem connections_owned_once_reused :
    ∃ s : HttpServer 0, (s.loops 0).interest 6 = some 1 ∧ s.heap 1 = none ∧ s.Owners := by
  obtain ⟨s, hreach, hregistered, hdestroyed⟩ := Machine.exists_reachable_of_run
    (M := servers ⟨.stored, none⟩ 0) (s := .create)
    (P := fun s => (s.loops 0).interest 6 = some 1 ∧ s.heap 1 = none) Machine.anyStep
    [.wait 0 [.accept], .accept 6, .register 0, .store 0, .acceptDone, .swap 0, .next 0,
      .wait 0 [.connection 6 0 ⟨EPOLLIN, .data [], []⟩, .accept], .handle 0, .perform 0, .perform 0,
      .perform 0, .perform 0, .leave 0, .accept 6, .register 0, .store 0, .acceptDone, .swap 0,
      .next 0]
    rfl (Machine.follows_anyStep _ _) (by decide +kernel)
  exact ⟨s, hregistered, hdestroyed, connections_owned_once _ 0 s hreach⟩

/-! ## Events that have been reported -/

/-- The event may be reported, as far as the connection itself is concerned. -/
def StillReportable (s : HttpServer n) (l : Fin (n + 1)) : ServerEvent → Prop
  | .accept => l = mainLoop n
  | .connection _ conn d =>
    ∀ session, s.heap conn = some session → session.conn.channel.mayReport d.revents

/-- What has been reported may still be reported. -/
def Reported (s : HttpServer n) : Prop :=
  ∀ l event, event ∈ (s.loops l).phase.events → s.StillReportable l event

/-- A step that reports nothing, and changes no connection that something has
been reported for. -/
theorem Reported.of_le (hs : s.Reported)
    (hevents : ∀ l event, event ∈ (t.loops l).phase.events → event ∈ (s.loops l).phase.events)
    (hheap : ∀ l fd conn d, .connection fd conn d ∈ (t.loops l).phase.events →
      ∀ session, t.heap conn = some session → s.heap conn = some session) : t.Reported := by
  intro l event hevent
  have hbefore := hs l event (hevents l event hevent)
  cases event with
  | accept => exact hbefore
  | connection fd conn d =>
      exact fun session hsession => hbefore session (hheap l fd conn d hevent session hsession)

/-- The events of a loop whose state is replaced. -/
theorem events_setLoop {loop : LoopState}
    (hle : ∀ event, event ∈ loop.phase.events → event ∈ (s.loops l).phase.events) :
    ∀ l' event, event ∈ ((s.setLoop l loop).loops l').phase.events →
      event ∈ (s.loops l').phase.events := by
  intro l' event hevent
  by_cases hl : l' = l
  · subst hl
    rw [setLoop_self] at hevent
    exact hle event hevent
  · rwa [setLoop_of_ne hl] at hevent

theorem events_setTask (l : Fin (n + 1)) (task : Task) :
    ∀ l' event, event ∈ ((s.setTask l task).loops l').phase.events →
      event ∈ (s.loops l').phase.events :=
  events_setLoop fun _ hmem => hmem

/-- The step lemma. -/
theorem reported_step {a : ServerAction n} (hs : s.Reported) (hstages : s.Tracked stages)
    (hstep : s.step service a = some t) : t.Reported := by
  cases moves_of_step hstep with
  | wait l events hphase htask hreport =>
      intro l' event hevent
      by_cases hl : l' = l
      · subst hl
        rw [setPhase, setLoop_self] at hevent
        have hnow := hreport.2 event hevent
        cases event with
        | accept => exact hnow
        | connection fd conn d => exact hnow.2
      · rw [setPhase, setLoop_of_ne hl] at hevent
        exact hs l' event hevent
  | handle l fd conn d events before after hphase htask hheap hdispatch =>
      have hagree := (hstages.loops l).events
      rw [hphase] at hagree
      have hstage := (hagree.live fd conn d (List.mem_cons_self ..)).1
      have hshorter : ∀ l' event, event ∈ ((s.setLoop l { s.loops l with
          phase := .dispatch events
          task := .handler conn (after.log.drop before.log.length) }).loops l').phase.events →
          event ∈ (s.loops l').phase.events := by
        refine events_setLoop fun event hevent => ?_
        rw [hphase]
        exact List.mem_cons_of_mem _ hevent
      refine hs.of_le hshorter fun l' fd' other d' hevent session hsession => ?_
      have hother : other ≠ conn := by
        rintro rfl
        have hlive := ((hstages.loops l').events.live fd' other d' (hshorter l' _ hevent)).1
        have hl : l' = l := congrArg Stage.loop (Option.some.inj (hlive.symm.trans hstage))
        subst hl
        rw [setLoop_self] at hevent
        exact hagree.head_not_mem hevent
      exact (Function.update_of_ne hother ..).symm.trans hsession
  | perform l conn effect effects htask =>
      have hphases : ∀ l', ((s.perform l conn effect).loops l').phase = (s.loops l').phase :=
        view_perform LoopState.phase (fun _ _ => rfl) (fun _ _ => rfl) l effect
      refine hs.of_le (fun l' event hevent => ?_) fun _ _ _ _ _ session hsession => ?_
      · rw [← hphases l']
        exact events_setTask l _ l' event hevent
      · rw [← heap_perform s l conn effect]
        exact hsession
  | leave l conn htask =>
      exact hs.of_le (events_setTask l .idle) fun _ _ _ _ _ _ hsession => hsession
  | accept fd htask hfree =>
      refine hs.of_le ?_ fun _ _ _ _ _ session hsession => ?_
      · simp only [onNewConnection]
        split
        · exact events_setTask (s := s) 0 (.starting fd s.accepted)
        · exact events_setLoop (s := s) fun _ hmem => hmem
      · rw [← heap_onNewConnection s fd]
        exact hsession
  | acceptDone events hphase htask =>
      refine hs.of_le (events_setLoop fun _ hmem => ?_) fun _ _ _ _ _ _ hsession => hsession
      rw [hphase]
      exact List.mem_cons_of_mem _ hmem
  | swap l hphase htask =>
      exact hs.of_le (events_setLoop (by simp [Phase.events])) fun _ _ _ _ _ _ hsession => hsession
  | create l fd conn functors hphase htask hnext =>
      exact hs.of_le (events_setLoop fun _ hmem => hmem) fun _ _ _ _ _ _ hsession => hsession
  | erase l fd conn functors hphase htask hnext =>
      refine hs.of_le (events_setLoop (s := s) fun _ hmem => hmem)
        fun _ _ other _ _ session hsession => ?_
      exact heap_setConnection_le (s.setLoop l { s.loops l with functors := functors }) fd none
        other session hsession
  | batchDone l hphase htask hnext =>
      exact hs.of_le (events_setLoop (by simp [Phase.events])) fun _ _ _ _ _ _ hsession => hsession
  | register l fd conn htask =>
      have hstage := (hstages.startable htask).1
      let made : HttpServer n :=
        { s with heap := Function.update s.heap conn (some (.created l fd)) }
      have hevents : ∀ l' event,
          event ∈ (((made.epollCtl l conn fd (.add EPOLLIN)).setTask l (.storing fd conn)).loops
            l').phase.events → event ∈ (s.loops l').phase.events := by
        intro l' event hevent
        rw [show (s.loops l').phase = (made.loops l').phase from rfl,
          ← view_epollCtl (s := made) LoopState.phase (fun _ _ => rfl) l conn fd (.add EPOLLIN) l']
        exact events_setTask l _ l' event hevent
      refine hs.of_le hevents fun l' fd' other d' hevent session hsession => ?_
      have hother : other ≠ conn := by
        rintro rfl
        have hlive := ((hstages.loops l').events.live fd' other d' (hevents l' _ hevent)).1
        cases hstage.symm.trans hlive
      have hheap := congrFun (heap_epollCtl made l conn fd (.add EPOLLIN)) other
      exact (Function.update_of_ne hother ..).symm.trans (hheap.symm.trans hsession)
  | store l fd conn htask =>
      refine hs.of_le ?_ fun _ _ other _ _ session hsession =>
        heap_setConnection_le s fd (some conn) other session hsession
      exact events_setTask (s := s.setConnection fd (some conn)) l .idle

theorem reported_of_reachable (hreach : (servers service n).Reachable s) : s.Reported := by
  refine Machine.ReachableWhere.invariant_along (I := fun s : HttpServer n => s.Reported) ?_ ?_
    hreach
  · rintro s rfl l event hevent
    cases hevent
  · intro s a t hs hreported _ hstep
    obtain ⟨stages, htracked⟩ := tracked_of_reachable hs
    exact reported_step hreported htracked hstep

/-! ## Uses of a connection -/

/-- What the loops are about to touch has not been destroyed. -/
structure Safe (service : Service) (s : HttpServer n) : Prop where
  /-- An event that has been reported is for a connection that is served, and
  may still be reported. -/
  events : ∀ l fd conn d, .connection fd conn d ∈ (s.loops l).phase.events →
    s.connections fd = some conn ∧ ∃ session, s.heap conn = some session ∧ session.fd = fd ∧
      session.conn.closing = false ∧ session.conn.channel.mayReport d.revents
  /-- The connection of a handler stays until the handler returns. -/
  handlers : ∀ l conn effects, (s.loops l).task = .handler conn effects →
    ∃ session, s.heap conn = some session ∧ s.connections session.fd = some conn
  /-- So does the connection that a creation functor is about to store. -/
  creations : ∀ l fd conn, (s.loops l).task = .storing fd conn →
    ∃ session, s.heap conn = some session ∧ session.fd = fd
  /-- The next event can be handed over, whatever the kernel answers. -/
  dispatches : ∀ l fd conn d events,
    (s.loops l).phase = .dispatch (.connection fd conn d :: events) →
      (s.loops l).task = .idle → d.read.fits → ∃ t, s.step service (.handle l) = some t

theorem Agrees.safe_event (hs : s.Agrees stages) (hreported : s.Reported) {d : Dispatch}
    (hevent : .connection fd conn d ∈ (s.loops l).phase.events) :
    s.connections fd = some conn ∧ ∃ session, s.heap conn = some session ∧ session.fd = fd ∧
      session.conn.closing = false ∧ session.conn.channel.mayReport d.revents := by
  have hstage := ((hs.loops l).events.live fd conn d hevent).1
  obtain ⟨session, hheap, hfd, hlive⟩ := hs.heap conn _ hstage rfl
  exact ⟨(hs.stored fd conn).mpr ⟨_, hstage, rfl, rfl⟩, session, hheap, hfd,
    (hlive rfl).notClosing, hreported l _ hevent session hheap⟩

theorem safe_of_reachable (hreach : (servers service n).ReachableWhere erasesSettled s) :
    s.Safe service := by
  have hreported : s.Reported := reported_of_reachable (hreach.mono fun _ _ _ => trivial)
  obtain ⟨stages, hs⟩ := agrees_of_reachable hreach
  refine ⟨fun l fd conn d hevent => hs.safe_event hreported hevent,
    fun l conn effects htask => ?_, fun l fd conn htask => ?_,
    fun l fd conn d events hphase htask hfits => ?_⟩
  · have hrunning := (hs.loops l).task.running
    rw [htask] at hrunning
    obtain ⟨progress, fd, hstage, hremains⟩ := hrunning
    have hkept : progress.isBuilt ∧ progress.isStored := by
      cases progress with
      | accepted | starting | storing => exact hremains.elim
      | live | doomed | leaving | closing | queued => exact ⟨rfl, rfl⟩
    obtain ⟨session, hheap, hfd, _⟩ := hs.heap conn _ hstage hkept.1
    exact ⟨session, hheap, (hs.stored session.fd conn).mpr ⟨_, hstage, hkept.2, hfd.symm⟩⟩
  · have hrunning := (hs.loops l).task.running
    rw [htask] at hrunning
    obtain ⟨session, hheap, hfd, _⟩ := hs.heap conn _ hrunning rfl
    exact ⟨session, hheap, hfd⟩
  · have hevent : .connection fd conn d ∈ (s.loops l).phase.events := by
      rw [hphase]
      exact List.mem_cons_self ..
    obtain ⟨_, session, hheap, _, _, hmay⟩ := hs.safe_event hreported hevent
    have hdispatch : (sessions service).step session d = some (session.dispatch service d) :=
      if_pos ⟨hmay, hfits⟩
    simp only [step, hphase, htask, hheap, hdispatch]
    exact ⟨_, rfl⟩

/-- **Nothing is used after it has been destroyed.** In every run that settles
erasures, a connection is alive as long as an event for it is to be dispatched,
its handler or its creation functor is running; an event that is dispatched
late is still one that may be reported, and no loop gets stuck at it. -/
theorem used_while_alive (service : Service) (n : ℕ) (s : HttpServer n)
    (hreach : (servers service n).ReachableWhere erasesSettled s) : s.Safe service :=
  safe_of_reachable hreach

/-- Two events of one turn: the first handler is running, the second event waits. -/
theorem used_while_alive_two_events :
    ∃ s : HttpServer 0, (s.loops 0).task.conn = some 0 ∧
      (s.loops 0).phase.events.length = 1 ∧ s.Safe ⟨.stored, none⟩ := by
  obtain ⟨s, hreach, hconn, hevents⟩ := Machine.exists_reachable_of_run
    (M := servers ⟨.stored, none⟩ 0) (s := .create)
    (P := fun s => (s.loops 0).task.conn = some 0 ∧ (s.loops 0).phase.events.length = 1)
    erasesSettled
    [.wait 0 [.accept], .accept 6, .register 0, .store 0, .accept 7, .register 0, .store 0,
      .acceptDone, .swap 0, .next 0,
      .wait 0 [.connection 6 0 ⟨EPOLLIN, .data [], []⟩,
        .connection 7 1 ⟨EPOLLIN, .data (literal "what"), []⟩],
      .handle 0, .perform 0]
    rfl (by decide +kernel) (by decide +kernel)
  exact ⟨s, hconn, hevents, used_while_alive _ 0 s hreach⟩

/-! ## When nothing is left to do -/

/-- Every loop waits, and no functor is queued. -/
def AtRest (s : HttpServer n) : Prop :=
  ∀ l, (s.loops l).phase = .wait ∧ (s.loops l).task = .idle ∧ (s.loops l).functors.pending = []

instance (s : HttpServer n) : Decidable s.AtRest :=
  inferInstanceAs (Decidable (∀ _, _ ∧ _))

/-- The tables name the same connections. -/
structure Balanced (s : HttpServer n) : Prop where
  files : ∀ fd conn, s.files fd = some conn ↔ s.connections fd = some conn
  interest : ∀ l fd conn, (s.loops l).interest fd = some conn ↔
    l = loopOf n conn ∧ s.connections fd = some conn
  heap : ∀ conn session, s.heap conn = some session →
    s.connections session.fd = some conn ∧ session.conn.closing = false
  stored : ∀ fd conn, s.connections fd = some conn →
    ∃ session, s.heap conn = some session ∧ session.fd = fd

/-- A connection that is stored and neither running nor about to be erased is live. -/
theorem Agrees.live_at_rest (hs : s.Agrees stages) (hrest : s.AtRest) {stage : Stage n}
    (hstage : stages conn = some stage) (hstored : stage.progress.isStored) :
    stage.progress = .live := by
  obtain ⟨progress, l, fd⟩ := stage
  obtain ⟨_, htask, hpending⟩ := hrest l
  have hidle : progress.isBusy = false := by
    by_contra hbusy
    have hconn := (hs.loops l).task.busy conn fd progress hstage (by simpa using hbusy)
    rw [htask] at hconn
    cases hconn
  cases progress with
  | accepted | starting | storing => cases hstored
  | live => rfl
  | doomed | leaving | closing => cases hidle
  | queued =>
      have hqueued := (hs.loops l).functors.queued conn fd hstage
      rw [hpending] at hqueued
      cases hqueued

/-- What is stored at rest is live. -/
theorem Agrees.stage_at_rest (hs : s.Agrees stages) (hrest : s.AtRest)
    (hentry : s.connections fd = some conn) : ∃ l, stages conn = some ⟨.live, l, fd⟩ := by
  obtain ⟨⟨progress, l, fd'⟩, hstage, hstored, hfd⟩ := (hs.stored fd conn).mp hentry
  obtain rfl : progress = .live := hs.live_at_rest hrest hstage hstored
  obtain rfl : fd' = fd := hfd
  exact ⟨l, hstage⟩

/-- What is registered at rest is stored. -/
theorem Agrees.stored_at_rest (hs : s.Agrees stages) (hrest : s.AtRest)
    (hconn : (s.loops l).interest fd = some conn) : s.connections fd = some conn := by
  obtain ⟨progress, hstage, hregistered⟩ := (hs.loops l).interest fd conn hconn
  refine (hs.stored fd conn).mpr ⟨_, hstage, ?_, rfl⟩
  cases progress with
  | live | doomed => rfl
  | storing =>
      have htask := (hs.loops l).task.of_storing hstage
      rw [(hrest l).2.1] at htask
      cases htask
  | accepted | starting | leaving | closing | queued => cases hregistered

/-- **Nothing is leaked.** In every run that settles erasures, whenever all loops
wait and no functor is queued, the open descriptors, the registrations, the
entries of `connections_` and the connections on the heap are the same
connections, each watched by its own loop and none of them closing. -/
theorem tables_agree_at_rest (service : Service) (n : ℕ) (s : HttpServer n)
    (hreach : (servers service n).ReachableWhere erasesSettled s) (hrest : s.AtRest) :
    s.Balanced := by
  have hany : (servers service n).Reachable s := hreach.mono fun _ _ _ => trivial
  obtain ⟨stages, hs⟩ := agrees_of_reachable hreach
  obtain ⟨tracking, htracked⟩ := tracked_of_reachable hany
  have hwatched {fd : ℕ} {conn : ConnectionId} (hfile : s.files fd = some conn) :
      (s.loops (loopOf n conn)).interest fd = some conn := by
    obtain ⟨_, htask, hpending⟩ := hrest (loopOf n conn)
    rcases htracked.inUse hfile with hcreate | hstart | hinterest | ⟨effects, hhandler, _⟩
    · rw [hpending] at hcreate
      cases hcreate
    · cases htask.symm.trans hstart
    · exact hinterest
    · cases htask.symm.trans hhandler
  have hopen {fd : ℕ} {conn : ConnectionId} (hentry : s.connections fd = some conn) :
      s.files fd = some conn := by
    obtain ⟨l, hstage⟩ := hs.stage_at_rest hrest hentry
    exact hs.files conn _ hstage rfl
  refine ⟨fun fd conn => ⟨fun hfile => hs.stored_at_rest hrest (hwatched hfile), hopen⟩,
    fun l fd conn => ⟨fun hconn => ?_, ?_⟩, fun conn session hheap => ?_, fun fd conn hentry => ?_⟩
  · exact ⟨(htracked.confined.interest l fd conn hconn).symm, hs.stored_at_rest hrest hconn⟩
  · rintro ⟨rfl, hentry⟩
    exact hwatched (hopen hentry)
  · have howned : s.connections session.fd = some conn := by
      rcases (owners_of_reachable hany).owned conn session hheap with hentry | ⟨l, htask⟩
      · exact hentry
      · cases (hrest l).2.1.symm.trans htask
    refine ⟨howned, ?_⟩
    obtain ⟨l, hstage⟩ := hs.stage_at_rest hrest howned
    obtain ⟨found, hfound, _, hlive⟩ := hs.heap conn _ hstage rfl
    cases hheap.symm.trans hfound
    exact (hlive rfl).notClosing
  · obtain ⟨l, hstage⟩ := hs.stage_at_rest hrest hentry
    obtain ⟨session, hheap, hfd, _⟩ := hs.heap conn _ hstage rfl
    exact ⟨session, hheap, hfd⟩

/-- Of two connections the first has been closed and erased. -/
theorem tables_agree_at_rest_after_erase :
    ∃ s : HttpServer 2, s.AtRest ∧ s.connections 7 = some 1 ∧ s.accepted = 2 ∧ s.Balanced := by
  obtain ⟨s, hreach, hrest, hentry, haccepted⟩ := Machine.exists_reachable_of_run
    (M := servers ⟨.stored, none⟩ 2) (s := .create)
    (P := fun s => s.AtRest ∧ s.connections 7 = some 1 ∧ s.accepted = 2) erasesSettled
    [.wait 0 [.accept], .accept 6, .accept 7, .acceptDone, .swap 0, .next 0,
      .wait 1 [], .swap 1, .next 1, .register 1, .store 1, .next 1,
      .wait 2 [], .swap 2, .next 2, .register 2, .store 2, .next 2,
      .wait 1 [.connection 6 0 ⟨EPOLLIN, .data [], []⟩], .handle 1, .perform 1, .perform 1,
      .perform 1, .perform 1, .leave 1, .swap 1, .next 1, .next 1]
    rfl (by decide +kernel) (by decide +kernel)
  exact ⟨s, hrest, hentry, haccepted, tables_agree_at_rest _ 2 s hreach hrest⟩

end HttpServer

end EpollHttpServer.Server
