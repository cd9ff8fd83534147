/-
# Every client is served

Under a fair schedule an accepted connection is made by the loop it belongs to
and registered there, and a connection that has been taken out of service is
erased.  In between, if its loop is told of the events that it polls for, a
connection whose client does not pipeline gets through its whole conversation,
whatever the other connections and the other loops do.

A history goes on forever, so `SIGPIPE` is assumed to be ignored: at its default
a write to a connection that the peer has reset ends the process.
-/

import EpollHttpServer.Server.Completion
import EpollHttpServer.Server.DeadSockets
import EpollHttpServer.Server.Scheduling

namespace EpollHttpServer.Server

open EpollHttpServer.Lib EpollHttpServer.Http EpollHttpServer.Reactor

/-- There are bytes to read. -/
def Dispatch.hasInput (d : Dispatch) : Prop :=
  d.revents.has EPOLLIN ∧ ∃ bytes, d.read = .data bytes

/-- There is room in the socket buffer. -/
def Dispatch.hasRoom (d : Dispatch) : Prop :=
  d.revents.has EPOLLOUT ∧ ∃ room answers, d.writes = .room room :: answers

namespace Session

variable {service : Service} {s : Session} {d : Dispatch} {c : Conversation}

theorem reads_of_hasInput (hlive : s.conn.Live) (hdrained : s.conn.pending = [])
    (hmay : s.conn.channel.mayReport d.revents) (hinput : d.hasInput) : reads s d := by
  have hnot : ¬ d.revents.has EPOLLOUT := by
    intro hout
    refine pending_of_selects_write hlive hmay ?_ hdrained
    rw [selects_of_live hlive, if_pos hout]
  refine ⟨?_, hinput.2⟩
  rw [selects_of_live hlive, if_neg hnot, if_pos hinput.1]

theorem writes_of_hasRoom (hlive : s.conn.Live) (hroom : d.hasRoom) : writes s d := by
  refine ⟨?_, hroom.2⟩
  rw [selects_of_live hlive, if_pos hroom.1]

/-- A connection is not closed before its conversation is completed. -/
theorem live_of_not_completed (hphase : Phase service c.requests s)
    (hnot : ¬ Completed service c.requests s) : s.conn.Live := by
  have hcases : s.conn.Live ∨
      s.conn.pending = [] ∧ (outstanding service c.requests s).1 = 0 := by
    cases hphase with
    | receiving _ _ _ _ _ hlive => exact .inl hlive
    | sending _ _ _ _ _ hlive => exact .inl hlive
    | finished done r hsplit hprogress _ _ hdrained =>
        refine .inr ⟨hdrained, ?_⟩
        rw [outstanding, hprogress.received, hsplit]
        simp
  exact hcases.resolve_right fun hdone => hnot (completed_of_read hphase hdone.1 hdone.2)

end Session

namespace HttpServer

variable {n : ℕ} {service : Service} {s t : HttpServer n} {a : ServerAction n}
  {l : Fin (n + 1)} {conn : ConnectionId} {fd : ℕ}

/-! ## Connections are made -/

/-- The connection is queued, or about to be made. -/
def Expects (s : HttpServer n) (l : Fin (n + 1)) (fd : ℕ) (conn : ConnectionId) : Prop :=
  .create fd conn ∈ (s.loops l).functors.pending ∨ (s.loops l).task = .starting fd conn

theorem accepted_of_step (hstep : s.step service a = some t) :
    t.accepted = s.accepted ∨
      t.accepted = s.accepted + 1 ∧ ∃ l fd, t.Expects l fd s.accepted := by
  cases moves_of_step hstep with
  | wait | handle | leave | acceptDone | swap | create | erase | batchDone | store =>
      exact .inl rfl
  | perform l conn effect =>
      cases effect with
      | epollCtl fd ctl => exact .inl (accepted_epollCtl s l conn fd ctl)
      | _ => exact .inl rfl
  | register l fd conn =>
      exact .inl (accepted_epollCtl { s with heap := _ } l conn fd (.add EPOLLIN))
  | accept fd =>
      right
      simp only [onNewConnection]
      split
      · exact ⟨rfl, 0, fd, .inr (by simp [setTask])⟩
      · refine ⟨rfl, s.getNextLoop.1, fd, .inl ?_⟩
        rw [queueInLoop, setLoop_self]
        simp [BatchQueue.pending_push]

theorem starting_of_next {functors : BatchQueue ServerFunctor}
    (hnext : (s.loops l).functors.next = some (.create fd conn, functors))
    (hstep : s.step service (.next l) = some t) : (t.loops l).task = .starting fd conn := by
  cases moves_of_step hstep with
  | create _ fd' conn' functors' _ _ hnext' =>
      rw [hnext] at hnext'
      cases hnext'
      rw [setLoop_self]
  | erase _ _ _ _ _ _ hnext' | batchDone _ _ _ hnext' =>
      rw [hnext] at hnext'
      cases hnext'

/-- When a connection is stored, it is in service. -/
theorem Agrees.live_of_storing {stages : Stages n} (hs : s.Agrees stages)
    (htask : (s.loops l).task = .storing fd conn) :
    ∃ session, s.heap conn = some session ∧ session.conn.Live := by
  have hrunning := (hs.loops l).task.running
  rw [htask] at hrunning
  obtain ⟨session, hheap, _, hlive⟩ := hs.heap conn _ hrunning rfl
  exact ⟨session, hheap, hlive rfl⟩

section Scheduled

variable {ok : Machine.Discipline (HttpServer n) (ServerAction n)}
  {h : (servers service n).History ok} (horderly : ∀ s a, ok s a → orderly s a)
  (hfair : Scheduled h)

include horderly hfair

theorem exists_created {m : ℕ} (hexpects : (h.state m).Expects l fd conn) :
    ∃ k, ((h.state k).loops l).task = .storing fd conn ∧
      (h.state k).heap conn = some (.created l fd) := by
  have hstarts : ∃ k, ((h.state k).loops l).task = .starting fd conn := by
    rcases hexpects with hqueued | hstarting
    · obtain ⟨k, functors, _, haction, hnext⟩ := exists_run horderly hfair hqueued
      exact ⟨k + 1, starting_of_next hnext (taken haction)⟩
    · exact ⟨m, hstarting⟩
  obtain ⟨k, hstarting⟩ := hstarts
  obtain ⟨j, a, _, hbefore, hleft, _, _, hmoves⟩ :=
    exists_moved horderly hfair hstarting (by simp)
  refine ⟨j + 1, ?_⟩
  cases hmoves with
  | register fd' conn' hfound hafter hheap =>
      cases hbefore.symm.trans hfound
      exact ⟨hafter, hheap⟩
  | stays htask => exact absurd (htask.trans hbefore) hleft
  | perform _ _ _ hfound | leave _ hfound | store _ _ hfound => cases hbefore.symm.trans hfound

theorem exists_stored {m : ℕ} (hstoring : ((h.state m).loops l).task = .storing fd conn) :
    ∃ k session, (h.state k).connections fd = some conn ∧
      (h.state k).heap conn = some session ∧ session.conn.Live := by
  obtain ⟨j, a, _, hbefore, hleft, hok, hstep, hmoves⟩ :=
    exists_moved horderly hfair hstoring (by simp)
  cases hmoves with
  | store fd' conn' hfound haction hentry =>
      cases hbefore.symm.trans hfound
      subst haction
      obtain ⟨stages, hs⟩ := agrees_of_reachable (settled_at horderly j)
      obtain ⟨session, hheap, hlive⟩ := hs.live_of_storing hbefore
      obtain ⟨after, hafter, rfl | ⟨_, _, ⟨⟩, _⟩⟩ :=
        exists_after (settled_at horderly j) (horderly _ _ hok).1 hstep hheap hlive
      exact ⟨j + 1, after, hentry, hafter, hlive⟩
  | stays htask => exact absurd (htask.trans hbefore) hleft
  | perform _ _ _ hfound | leave _ hfound | register _ _ hfound => cases hbefore.symm.trans hfound

/-- Every accepted connection is made. -/
theorem exists_created_of_accepted {m : ℕ} (haccepted : conn < (h.state m).accepted) :
    ∃ k l fd, ((h.state k).loops l).task = .storing fd conn ∧
      (h.state k).heap conn = some (.created l fd) := by
  have hnone : (h.state 0).accepted ≤ conn := by
    rw [show h.state 0 = create from h.init]
    exact Nat.zero_le conn
  obtain ⟨j, a, _, hbefore, hafter, _, _, hstep⟩ := h.exists_step
    (P := fun s => s.accepted ≤ conn) (Nat.zero_le m) hnone (not_le.mpr haccepted)
  rcases accepted_of_step hstep with hsame | ⟨hone, l, fd, hexpects⟩
  · rw [hsame] at hafter
    exact absurd hbefore hafter
  · have hconn : (h.state j).accepted = conn := by omega
    rw [hconn] at hexpects
    obtain ⟨k, hcreated⟩ := exists_created horderly hfair hexpects
    exact ⟨k, l, fd, hcreated⟩

end Scheduled

/-! ## Connections are erased -/

/-- Nothing is left of the connection. -/
structure Gone (s : HttpServer n) (conn : ConnectionId) : Prop where
  heap : s.heap conn = none
  connections : ∀ fd, s.connections fd ≠ some conn
  files : ∀ fd, s.files fd ≠ some conn
  interest : ∀ l fd, (s.loops l).interest fd ≠ some conn

/-- Its erase functor takes care of a connection that has been closed. -/
theorem gone_of_next {stages tracking : Stages n} (hs : s.Agrees stages)
    (htracked : s.Tracked tracking) {functors : BatchQueue ServerFunctor}
    (hnext : (s.loops l).functors.next = some (.erase fd conn, functors))
    (hstep : s.step service (.next l) = some t) : t.Gone conn := by
  cases moves_of_step hstep with
  | create _ _ _ _ _ _ hnext' | batchDone _ _ _ hnext' =>
      rw [hnext] at hnext'
      cases hnext'
  | erase _ fd' conn' functors' _ _ hnext' =>
      rw [hnext] at hnext'
      cases hnext'
      obtain ⟨hstage, hentry⟩ := entry_of_erase hs hnext
      rw [setConnection_of_entry (s := s.setLoop l { s.loops l with functors := functors }) hentry]
      refine ⟨Function.update_self .., fun fd' hconn => ?_, fun fd' hfile => ?_,
        fun l' fd' hconn => ?_⟩
      · by_cases hfd : fd' = fd
        · subst hfd
          cases (Function.update_self ..).symm.trans hconn
        · have hother : s.connections fd' = some conn :=
            (Function.update_of_ne hfd ..).symm.trans hconn
          obtain ⟨stage, hfound, _, hsame⟩ := (hs.stored fd' conn).mp hother
          cases hstage.symm.trans hfound
          exact hfd hsame.symm
      · obtain ⟨stage, hfound, hopen, _⟩ := htracked.opened fd' conn hfile
        have hqueued := (htracked.loops l).functors.waited (.erase fd conn)
          (BatchQueue.pending_next hnext ▸ List.mem_cons_self ..)
        cases hfound.symm.trans hqueued
        cases hopen
      · have hsame : ((s.setLoop l { s.loops l with functors := functors }).loops l').interest =
            (s.loops l').interest := by
          refine view_setLoop LoopState.interest ?_ l'
          rfl
        obtain ⟨progress, hfound, hregistered⟩ :=
          (hs.loops l').interest fd' conn ((congrFun hsame fd').symm.trans hconn)
        cases hstage.symm.trans hfound
        cases hregistered

section Scheduled

variable {ok : Machine.Discipline (HttpServer n) (ServerAction n)}
  {h : (servers service n).History ok} (horderly : ∀ s a, ok s a → orderly s a)
  (hfair : Scheduled h)

include horderly hfair

/-- A handler that is going to queue an erase functor does so. -/
theorem exists_queued {m : ℕ} (hdoomed : ((h.state m).loops l).Dooms conn) :
    ∃ k fd, m ≤ k ∧ .erase fd conn ∈ ((h.state k).loops l).functors.pending := by
  rcases hdoomed with ⟨fd, hqueued⟩ | hhandler
  · exact ⟨m, fd, le_rfl, hqueued⟩
  · obtain ⟨w, hw, hwaits⟩ := exists_waits horderly hfair l m
    obtain ⟨j, a, hj, hbefore, hafter, _, _, hstep⟩ := h.exists_step
      (P := fun s => (s.loops l).task.Dooms conn) hw hhandler (by
        rw [hwaits.2]
        exact id)
    have hbusy : ((h.state j).loops l).task ≠ .idle := by
      intro hidle
      rw [hidle] at hbefore
      exact hbefore
    cases taskMoves_of_step hstep hbusy with
    | stays htask =>
        rw [htask] at hafter
        exact absurd hbefore hafter
    | perform other effect effects htask hperformed =>
        rw [htask] at hbefore
        obtain ⟨rfl, fd, hmem⟩ := hbefore
        rw [hperformed] at hafter
        rcases List.mem_cons.mp hmem with rfl | hlater
        · refine ⟨j + 1, fd, Nat.le_succ_of_le hj, ?_⟩
          rw [hperformed]
          simp [perform, queueInLoop, setTask, BatchQueue.pending_push]
        · rw [setTask, setLoop_self] at hafter
          exact absurd ⟨rfl, fd, hlater⟩ hafter
    | leave other htask =>
        rw [htask] at hbefore
        obtain ⟨_, fd, ⟨⟩⟩ := hbefore
    | register fd other htask | store fd other htask =>
        rw [htask] at hbefore
        exact hbefore.elim

/-- Every connection that has been taken out of service is erased. -/
theorem exists_gone {m : ℕ} {session : Session} (hheap : (h.state m).heap conn = some session)
    (hclosing : session.conn.closing = true) : ∃ k, m ≤ k ∧ (h.state k).Gone conn := by
  have hany (k : ℕ) : (servers service n).Reachable (h.state k) :=
    (h.reachable k).mono fun _ _ _ => trivial
  obtain ⟨stages, hs⟩ := agrees_of_reachable (settled_at horderly m)
  obtain ⟨stage, hstage, hbuilt, _⟩ := hs.exists_stage (owners_of_reachable (hany m)) hheap
  have hnot : stage.progress.isServed = false := by
    by_contra hserved
    obtain ⟨found, hfound, _, hlive⟩ := hs.heap conn stage hstage hbuilt
    cases hheap.symm.trans hfound
    cases hclosing.symm.trans (hlive (by simpa using hserved)).notClosing
  obtain ⟨k, fd, hk, hqueued⟩ :=
    exists_queued horderly hfair (hs.dooms_of_not_served hstage hbuilt hnot)
  obtain ⟨j, functors, hj, haction, hnext⟩ := exists_run horderly hfair hqueued
  obtain ⟨stages', hs'⟩ := agrees_of_reachable (settled_at horderly j)
  obtain ⟨tracking, htracked⟩ := tracked_of_reachable (hany j)
  exact ⟨j + 1, (hk.trans hj).trans (Nat.le_succ j),
    gone_of_next hs' htracked hnext (taken haction)⟩

end Scheduled

/-- **Connections come and go.** Under every fair schedule that settles erasures,
with any number of loops, every connection that is accepted is made, stored and
in service at some time, and of every connection that is taken out of service
nothing is left some time later, provided that no `SIGPIPE` ends the process. -/
theorem connections_come_and_go (service : Service) (n : ℕ)
    (h : (servers service n).History orderly) (hfair : Scheduled h) (conn : ConnectionId)
    (m : ℕ) :
    (conn < (h.state m).accepted →
      ∃ k fd session, (h.state k).connections fd = some conn ∧
        (h.state k).heap conn = some session ∧ session.conn.Live) ∧
    ∀ session, (h.state m).heap conn = some session → session.conn.closing = true →
      ∃ k, m ≤ k ∧ (h.state k).Gone conn := by
  have horderly (s : HttpServer n) (a : ServerAction n) (hok : s.orderly a) : s.orderly a := hok
  refine ⟨fun haccepted => ?_, fun session hheap => exists_gone horderly hfair hheap⟩
  obtain ⟨k, l, fd, hstoring, _⟩ := exists_created_of_accepted horderly hfair haccepted
  obtain ⟨k, session, hstored⟩ := exists_stored horderly hfair hstoring
  exact ⟨k, fd, session, hstored⟩

/-! ## Conversations are completed -/

/-- The dispatch that the step hands to this connection. -/
def hears (conn : ConnectionId) (s : HttpServer n) : ServerAction n → Option Dispatch
  | .handle l => ((s.loops l).phase.handed.filter fun next => next.1 = conn).map Prod.snd
  | _ => none

/-- The run of a connection goes on as the server hands events to it. -/
theorem session_of_step (hreach : (servers service n).ReachableWhere erasesSettled s)
    {okay : Machine.Discipline Session Dispatch} (hok : hands conn okay s a)
    (hstep : s.step service a = some t) {before after : Session}
    (hbefore : s.heap conn = some before) (hafter : t.heap conn = some after) :
    hears conn s a = none ∧ after = before ∨ ∃ d, hears conn s a = some d ∧ okay before d ∧
      (sessions service).step before d = some after := by
  cases a with
  | handle l =>
      cases moves_of_step hstep with
      | handle _ fd other d events before' after' hphase htask hheap hdispatch =>
          have hhanded : (s.loops l).phase.handed = some (other, d) := by
            rw [hphase]
            rfl
          by_cases hother : other = conn
          · subst hother
            cases hbefore.symm.trans hheap
            obtain rfl : after' = after := by simpa [setLoop] using hafter
            exact .inr ⟨d, by simp [hears, hhanded], hok _ hhanded rfl before hheap, hdispatch⟩
          · have hsame : s.heap conn = some after := by
              simpa [setLoop, Ne.symm hother] using hafter
            exact .inl ⟨by simp [hears, hhanded, hother],
              Option.some.inj (hsame.symm.trans hbefore)⟩
  | _ =>
      refine .inl ⟨rfl, ?_⟩
      rcases heap_of_step hstep hafter with hsame | ⟨l, fd, htask, _⟩ | ⟨_, _, _, ⟨⟩, _⟩
      · exact Option.some.inj (hsame.symm.trans hbefore)
      · obtain ⟨stages, hs⟩ := agrees_of_reachable hreach
        have hnone := hs.heap_eq_none (owners_of_reachable (hreach.mono fun _ _ _ => trivial)) htask
        cases hnone.symm.trans hbefore

/-- The loop of the connection waits and watches it, and the connection waits
for something. -/
def Polls (conn : ConnectionId) (waits : Session → Prop) (s : HttpServer n) : Prop :=
  s.Waits (loopOf n conn) ∧ ∃ session, s.heap conn = some session ∧
    (s.loops (loopOf n conn)).interest session.fd = some conn ∧ waits session

/-- `epoll_wait` reports such an event for the connection. -/
def reports (conn : ConnectionId) (serves : Dispatch → Prop) :
    Machine.Discipline (HttpServer n) (ServerAction n) :=
  fun _ a => ∃ l events fd d, a = .wait l events ∧ .connection fd conn d ∈ events ∧ serves d

/-- A fair schedule in which one connection is notified of what it waits for, if
its loop polls for it again and again. -/
structure Attended {ok : Machine.Discipline (HttpServer n) (ServerAction n)}
    (conn : ConnectionId) (requests : List CompleteRequest)
    (h : (servers service n).History ok) : Prop extends Scheduled h where
  reads : h.AttendsAgain (Polls conn (Session.AwaitsInput requests))
    (reports conn Dispatch.hasInput)
  writes : h.AttendsAgain (Polls conn Session.AwaitsRoom) (reports conn Dispatch.hasRoom)

/-- Every order of steps that settles erasures in time, with reads that fit and
one client that does not pipeline. -/
def attending (conn : ConnectionId) (c : Conversation) :
    Machine.Discipline (HttpServer n) (ServerAction n) :=
  fun s a => serving conn c s a ∧ s.fits a

instance (conn : ConnectionId) (c : Conversation) (s : HttpServer n) (a : ServerAction n) :
    Decidable (attending conn c s a) :=
  inferInstanceAs (Decidable (_ ∧ _))

theorem orderly_of_attending {c : Conversation} (s : HttpServer n) (a : ServerAction n)
    (hok : attending conn c s a) : s.orderly a :=
  ⟨hok.1.1, hok.2⟩

section Attended

variable {c : Conversation} {h : (servers service n).History (attending conn c)}

/-- What a connection waits for all the time is handed to it. -/
theorem exists_handed (hfair : Scheduled h) {waits : Session → Prop} {serves : Dispatch → Prop}
    (hattends : h.AttendsAgain (Polls conn waits) (reports conn serves)) {m : ℕ}
    (hwaits : ∀ k, m ≤ k → ∃ session, (h.state k).heap conn = some session ∧
      session.conn.Live ∧ waits session) :
    ∃ k l d, m ≤ k ∧ h.action k = some (.handle l) ∧
      ((h.state k).loops l).phase.handed = some (conn, d) ∧ serves d := by
  have hpolls (k : ℕ) : ∃ w, k ≤ w ∧ Polls conn waits (h.state w) := by
    obtain ⟨w, hw, hwaiting⟩ :=
      exists_waits orderly_of_attending hfair (loopOf n conn) (max k m)
    obtain ⟨session, hheap, hlive, hyes⟩ := hwaits w ((le_max_right k m).trans hw)
    exact ⟨w, (le_max_left k m).trans hw, hwaiting, session, hheap,
      registered_of_live (settled_at orderly_of_attending w) hheap hlive hwaiting.2, hyes⟩
  obtain ⟨k, hk, a, haction, l, events, fd, d, rfl, hevent, hserves⟩ := hattends hpolls m
  have hreported : .connection fd conn d ∈ ((h.state (k + 1)).loops l).phase.events := by
    rw [(wait_of_step (taken haction)).2]
    exact hevent
  obtain ⟨j, hj, hhandle, hhanded⟩ := exists_handle orderly_of_attending hfair hreported
  exact ⟨j, l, d, (hk.trans (Nat.le_succ k)).trans hj, hhandle, hhanded, hserves⟩

theorem phase_at (hcallback : service.callback.isSome = true) {k : ℕ} {session : Session}
    (hheap : (h.state k).heap conn = some session) :
    Session.Phase service c.requests session :=
  Session.phase_of_reachable hcallback
    (reachable_of_hands ((h.reachable k).mono fun _ _ hok => hok.1.2) hheap)

/-- A connection whose conversation is never completed stays in service. -/
theorem exists_live (hcallback : service.callback.isSome = true) {start : ℕ} {first : Session}
    (hfirst : (h.state start).heap conn = some first)
    (hnever : ∀ k session, start ≤ k → (h.state k).heap conn = some session →
      ¬ Session.Completed service c.requests session) (i : ℕ) :
    ∃ session, (h.state (start + i)).heap conn = some session ∧ session.conn.Live := by
  have hlive {k : ℕ} {session : Session} (hk : start ≤ k)
      (hheap : (h.state k).heap conn = some session) : session.conn.Live :=
    Session.live_of_not_completed (phase_at hcallback hheap) (hnever k session hk hheap)
  induction i with
  | zero => exact ⟨first, hfirst, hlive le_rfl hfirst⟩
  | succ i ih =>
      obtain ⟨session, hheap, hserved⟩ := ih
      have hafter : ∃ after, (h.state (start + i + 1)).heap conn = some after := by
        rcases h.rests_or_steps (start + i) with hsame | ⟨a, _, hok, hstep⟩
        · exact ⟨session, hsame ▸ hheap⟩
        · obtain ⟨after, hafter, _⟩ :=
            exists_after (settled_at orderly_of_attending _) hok.1.1 hstep hheap hserved
          exact ⟨after, hafter⟩
      obtain ⟨after, hafter⟩ := hafter
      exact ⟨after, hafter, hlive (by omega) hafter⟩

/-- What happens to a connection that stays in service is a history of this connection. -/
theorem exists_history {start l fd : ℕ} {f : ℕ → Session}
    (hheap : ∀ i, (h.state (start + i)).heap conn = some (f i)) (hfirst : f 0 = .created l fd) :
    ∃ g : (sessions service).History (Session.conversing c.requests), g.state = f ∧
      ∀ i a, h.action (start + i) = some a → g.action i = hears conn (h.state (start + i)) a := by
  have hstep (s : HttpServer n) (a : ServerAction n) (t : HttpServer n) (before after : Session)
      (hreach : (servers service n).ReachableWhere (attending conn c) s)
      (hok : attending conn c s a) (hnext : s.step service a = some t)
      (hbefore : s.heap conn = some before) (hafter : t.heap conn = some after) :=
    session_of_step (hreach.mono fun _ _ hok => hok.1.1) hok.1.2 hnext hbefore hafter
  exact h.exists_component hstep hheap ⟨l, fd, hfirst⟩

/-- If the server attends to a connection, then the history of the connection is
one in which it is attended to. -/
theorem attended_of_attended (hcallback : service.callback.isSome = true)
    (hattended : Attended conn c.requests h) {start : ℕ}
    {g : (sessions service).History (Session.conversing c.requests)}
    (hheap : ∀ i, (h.state (start + i)).heap conn = some (g.state i))
    (hlive : ∀ i, (g.state i).conn.Live)
    (hactions : ∀ i a, h.action (start + i) = some a →
      g.action i = hears conn (h.state (start + i)) a) :
    Session.Attended c.requests g := by
  have hhanded {waits : Session → Prop} {serves : Dispatch → Prop} {m : ℕ}
      (hattends : h.AttendsAgain (Polls conn waits) (reports conn serves))
      (hwaits : ∀ i, m ≤ i → waits (g.state i)) :
      ∃ i d, m ≤ i ∧ g.action i = some d ∧ (g.state i).conn.channel.mayReport d.revents ∧
        serves d := by
    have hserved (k : ℕ) (hk : start + m ≤ k) : ∃ session, (h.state k).heap conn = some session ∧
        session.conn.Live ∧ waits session := by
      obtain ⟨i, rfl⟩ := Nat.exists_eq_add_of_le ((Nat.le_add_right start m).trans hk)
      exact ⟨g.state i, hheap i, hlive i, hwaits i (by omega)⟩
    obtain ⟨k, l, d, hk, haction, hnext, hserves⟩ :=
      exists_handed hattended.toScheduled hattends hserved
    obtain ⟨i, rfl⟩ := Nat.exists_eq_add_of_le ((Nat.le_add_right start m).trans hk)
    have hdispatch : g.action i = some d := by
      rw [hactions i _ haction]
      simp [hears, hnext]
    exact ⟨i, d, by omega, hdispatch, (Session.sessions_step (g.steps i d hdispatch).2).1, hserves⟩
  refine ⟨fun m hwaits => ?_, fun m hwaits => ?_⟩
  · obtain ⟨i, d, hi, haction, hmay, hinput⟩ := hhanded hattended.reads hwaits
    obtain ⟨_, bytes, hturn⟩ := hwaits i hi
    have hphase := Session.phase_of_reachable hcallback (g.reachable i)
    exact ⟨i, hi, d, haction,
      Session.reads_of_hasInput (hlive i) (Session.drained_of_inTurn hphase hturn) hmay hinput⟩
  · obtain ⟨i, d, hi, haction, _, hroom⟩ := hhanded hattended.writes hwaits
    exact ⟨i, hi, d, haction, Session.writes_of_hasRoom (hlive i) hroom⟩

end Attended

/-- **Every client that does not pipeline is served to the end.** In every fair
schedule of the server, with any number of loops and any other clients, in which
erasures are settled and one connection is told of what it waits for: once it
has been accepted, there is a time at which all its requests have been handed to
the callback and answered to the last byte; and if the last request does not
keep the connection, nothing is left of it some time later.  No `SIGPIPE` is to
end the process, and the callback is not to depend on other connections. -/
theorem conversation_completed_in_server (order : IterationOrder)
    (callback : ℕ → HttpRequest → HttpResponse → HttpResponse) (n : ℕ) (conn : ConnectionId)
    (c : Conversation) (h : (servers ⟨order, some callback⟩ n).History (attending conn c))
    (hattended : Attended conn c.requests h) (m : ℕ) (haccepted : conn < (h.state m).accepted) :
    ∃ k session, (h.state k).heap conn = some session ∧
      Session.Completed ⟨order, some callback⟩ c.requests session ∧
        ((∃ r ∈ c.requests.getLast?, r.request.keepAlive = false) →
          ∃ k', k ≤ k' ∧ (h.state k').Gone conn) := by
  have hfair := hattended.toScheduled
  obtain ⟨start, l, fd, _, hcreated⟩ :=
    exists_created_of_accepted orderly_of_attending hfair haccepted
  have hcompleted : ∃ k session, start ≤ k ∧ (h.state k).heap conn = some session ∧
      Session.Completed ⟨order, some callback⟩ c.requests session := by
    by_contra hnever
    have hlives := exists_live (h := h) rfl hcreated fun k session hk hheap hdone =>
      hnever ⟨k, session, hk, hheap, hdone⟩
    choose f hheap hlive using hlives
    obtain ⟨g, rfl, hactions⟩ :=
      exists_history hheap (Option.some.inj ((hheap 0).symm.trans hcreated))
    obtain ⟨i, hdone⟩ :=
      Session.exists_completed rfl (attended_of_attended rfl hattended hheap hlive hactions)
    exact hnever ⟨_, _, Nat.le_add_right start i, hheap i, hdone i le_rfl⟩
  obtain ⟨k, session, _, hheap, hdone⟩ := hcompleted
  exact ⟨k, session, hheap, hdone, fun hlast =>
    exists_gone orderly_of_attending hfair hheap (hdone.closing.mpr hlast)⟩

/-- Two clients, until both have been served and nothing is left to do. -/
theorem exists_twoClients_served :
    ∃ s : HttpServer 2, (servers ⟨.stored, some fun _ _ resp => resp⟩ 2).ReachableWhere
      (attending 0 Session.twoRequests) s ∧ s.accepted = 2 ∧ s.AtRest ∧ s.heap 0 = none := by
  refine Machine.exists_reachable_of_run (s := .create) (attending 0 Session.twoRequests)
    (twoClients ++
      [.swap 0, .next 0,
        .perform 1, .perform 1, .perform 1, .perform 1, .perform 1, .leave 1, .swap 1, .next 1,
        .perform 2, .perform 2, .perform 2, .perform 2, .perform 2, .leave 2, .swap 2, .next 2,
        .next 2,
        .wait 1 [.connection 6 0 ⟨EPOLLOUT, .error EAGAIN, [.room 100]⟩],
        .handle 1, .perform 1, .perform 1, .perform 1, .leave 1, .swap 1, .next 1,
        .wait 1 [.connection 6 0 ⟨EPOLLIN,
          .data (literal "POST / HTTP/1.0\r\nContent-Length: 2\r\n\r\nhi"), [.room 100]⟩],
        .handle 1, .perform 1, .perform 1, .perform 1, .perform 1, .perform 1, .perform 1,
        .perform 1, .perform 1, .leave 1, .swap 1, .next 1, .next 1])
    rfl ?_ ?_
  · decide +kernel
  · decide +kernel

/-- The client whose request could not be parsed had been accepted like the other. -/
theorem connections_come_and_go_two_clients :
    ∃ h : (servers ⟨.stored, some fun _ _ resp => resp⟩ 2).History orderly,
      ∃ k fd session, (h.state k).connections fd = some 1 ∧
        (h.state k).heap 1 = some session ∧ session.conn.Live := by
  obtain ⟨s, hreach, haccepted, hrest, _⟩ := exists_twoClients_served
  obtain ⟨h, m, hend⟩ := Machine.History.exists_of_reachable (hreach.mono orderly_of_attending)
  have hfair : Scheduled h := scheduled_of_atRest fun k hk => (hend k hk).symm ▸ hrest
  refine ⟨h, (connections_come_and_go _ 2 h hfair 1 m).1 ?_⟩
  rw [hend m le_rfl, haccepted]
  decide

theorem conversation_completed_in_server_two_clients :
    ∃ h : (servers ⟨.stored, some fun _ _ resp => resp⟩ 2).History
        (attending 0 Session.twoRequests), ∃ k session, (h.state k).heap 0 = some session ∧
      Session.Completed ⟨.stored, some fun _ _ resp => resp⟩ Session.twoRequests.requests
        session ∧ ∃ k', k ≤ k' ∧ (h.state k').Gone 0 := by
  obtain ⟨s, hreach, haccepted, hrest, hgone⟩ := exists_twoClients_served
  obtain ⟨h, m, hend⟩ := Machine.History.exists_of_reachable hreach
  have hagain {waits : Session → Prop} {serves : Dispatch → Prop} :
      h.AttendsAgain (Polls 0 waits) (reports 0 serves) := by
    intro hpolls
    obtain ⟨k, hk, _, session, hheap, _⟩ := hpolls m
    rw [hend k hk, hgone] at hheap
    cases hheap
  have hattended : Attended 0 Session.twoRequests.requests h :=
    ⟨scheduled_of_atRest fun k hk => (hend k hk).symm ▸ hrest, hagain, hagain⟩
  have hmade : 0 < (h.state m).accepted := by
    rw [hend m le_rfl, haccepted]
    decide
  obtain ⟨k, session, hheap, hdone, hcloses⟩ :=
    conversation_completed_in_server .stored _ 2 0 Session.twoRequests h hattended m hmade
  exact ⟨h, k, session, hheap, hdone, hcloses ⟨_, rfl, by decide +kernel⟩⟩

end HttpServer

end EpollHttpServer.Server
