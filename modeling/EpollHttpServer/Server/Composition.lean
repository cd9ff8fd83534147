/-
# A server is made of its connections

In the server any number of connections is handled by any number of loops, and
whatever one loop does may come between two steps of another.  A connection
takes no notice: as long as it is not destroyed, it is in a state of a run of a
single connection, with the events that were handed to it.  What is proved of
one connection under some discipline holds in a server under the same
discipline for the events of this connection alone.  This is so for callbacks
whose responses do not depend on what other connections have asked.
-/

import EpollHttpServer.Server.Conversation
import EpollHttpServer.Server.Ownership

namespace EpollHttpServer.Server

open EpollHttpServer.Lib EpollHttpServer.Http EpollHttpServer.Reactor

/-- The connection and the dispatch that a loop comes to next. -/
def Phase.handed : Phase → Option (ConnectionId × Dispatch)
  | .dispatch (.connection _ conn d :: _) => some (conn, d)
  | _ => none

namespace HttpServer

variable {n : ℕ} {service : Service} {s t : HttpServer n} {conn : ConnectionId}

/-- Events that are handed to this connection meet the discipline `ok` of
connections; anything may happen to the others. -/
def hands (conn : ConnectionId) (ok : Machine.Discipline Session Dispatch) (s : HttpServer n) :
    ServerAction n → Prop
  | .handle l =>
    ∀ next ∈ (s.loops l).phase.handed, next.1 = conn → ∀ session ∈ s.heap conn, ok session next.2
  | _ => True

instance (conn : ConnectionId) (ok : Machine.Discipline Session Dispatch)
    [∀ session d, Decidable (ok session d)] (s : HttpServer n) (a : ServerAction n) :
    Decidable (s.hands conn ok a) :=
  match a with
  | .handle l => inferInstanceAs (Decidable (∀ next ∈ (s.loops l).phase.handed, _ → _))
  | .wait _ _ | .perform _ | .leave _ | .accept _ | .acceptDone | .swap _ | .next _
  | .register _ | .store _ => .isTrue trivial

/-! ## What an operation leaves alone -/

/-- `epoll_ctl` changes one epoll set at most. -/
theorem epollCtl_eq (s : HttpServer n) (l : Fin (n + 1)) (conn : ConnectionId) (fd : ℕ)
    (ctl : EpollCtl) :
    ∃ interest, s.epollCtl l conn fd ctl = s.setLoop l { s.loops l with interest := interest } := by
  have hsame : s = s.setLoop l { s.loops l with interest := (s.loops l).interest } := by
    rw [setLoop, Function.update_eq_self]
  cases ctl with
  | add | mod =>
      simp only [epollCtl]
      split
      · first | exact ⟨_, rfl⟩ | exact ⟨_, hsame⟩
      · first | exact ⟨_, rfl⟩ | exact ⟨_, hsame⟩
  | del => exact ⟨_, rfl⟩

theorem heap_epollCtl (s : HttpServer n) (l : Fin (n + 1)) (conn : ConnectionId) (fd : ℕ)
    (ctl : EpollCtl) : (s.epollCtl l conn fd ctl).heap = s.heap := by
  obtain ⟨interest, heq⟩ := epollCtl_eq s l conn fd ctl
  rw [heq]
  rfl

theorem heap_perform (s : HttpServer n) (l : Fin (n + 1)) (conn : ConnectionId) (e : Effect) :
    (s.perform l conn e).heap = s.heap := by
  cases e with
  | epollCtl fd ctl => exact heap_epollCtl s l conn fd ctl
  | _ => rfl

section view

variable {β : Type*} (view : LoopState → β) {l : Fin (n + 1)}

/-- A loop is replaced by one that looks the same. -/
theorem view_setLoop {loop : LoopState} (hsame : view loop = view (s.loops l)) (l' : Fin (n + 1)) :
    view ((s.setLoop l loop).loops l') = view (s.loops l') := by
  by_cases hl : l' = l
  · subst hl
    rw [setLoop_self, hsame]
  · rw [setLoop_of_ne hl]

variable (hinterest : ∀ loop interest, view { loop with interest := interest } = view loop)

include hinterest in
theorem view_epollCtl (l : Fin (n + 1)) (conn : ConnectionId) (fd : ℕ) (ctl : EpollCtl)
    (l' : Fin (n + 1)) : view ((s.epollCtl l conn fd ctl).loops l') = view (s.loops l') := by
  obtain ⟨interest, heq⟩ := epollCtl_eq s l conn fd ctl
  rw [heq]
  exact view_setLoop view (hinterest _ _) l'

include hinterest in
/-- A handler changes epoll sets and queues an erase functor, nothing else in a loop. -/
theorem view_perform
    (hpush : ∀ loop fd, view { loop with functors := loop.functors.push (.erase fd conn) } =
      view loop) (l : Fin (n + 1)) (e : Effect) (l' : Fin (n + 1)) :
    view ((s.perform l conn e).loops l') = view (s.loops l') := by
  cases e with
  | epollCtl fd ctl => exact view_epollCtl view hinterest l conn fd ctl l'
  | close fd => exact hinterest _ _
  | queueErase fd => exact view_setLoop view (hpush _ fd) l'
  | read | write | completed | callback | respond | reset => rfl

end view

/-- Writing an entry of `connections_` destroys a connection or none. -/
theorem heap_setConnection_le (s : HttpServer n) (fd : ℕ) (entry : Option ConnectionId) :
    ∀ conn session, (s.setConnection fd entry).heap conn = some session →
      s.heap conn = some session := by
  intro conn session hheap
  cases hentry : s.connections fd with
  | none => rwa [setConnection_of_free hentry] at hheap
  | some old =>
      rw [setConnection_of_entry hentry] at hheap
      dsimp only at hheap
      by_cases hold : conn = old
      · subst hold
        rw [Function.update_self] at hheap
        cases hheap
      · rwa [Function.update_of_ne hold] at hheap

theorem heap_setConnection_none (s : HttpServer n) (fd : ℕ) (entry : Option ConnectionId)
    (hnone : s.heap conn = none) : (s.setConnection fd entry).heap conn = none := by
  cases hheap : (s.setConnection fd entry).heap conn with
  | none => rfl
  | some session =>
      rw [heap_setConnection_le s fd entry conn session hheap] at hnone
      cases hnone

theorem heap_onNewConnection (s : HttpServer n) (fd : ℕ) :
    (s.onNewConnection fd).heap = s.heap := by
  simp only [onNewConnection]
  split <;> rfl

/-- What is on the heap after a step was there before, has been made by a
creation functor, or has handled an event. -/
theorem heap_of_step {a : ServerAction n} (hstep : s.step service a = some t) {after : Session}
    (hafter : t.heap conn = some after) :
    s.heap conn = some after ∨
      (∃ l fd, (s.loops l).task = .starting fd conn ∧ after = .created l fd) ∨
      ∃ l d before, a = .handle l ∧ (s.loops l).phase.handed = some (conn, d) ∧
        s.heap conn = some before ∧ (sessions service).step before d = some after := by
  cases moves_of_step hstep with
  | wait | leave | acceptDone | swap | create | batchDone => exact .inl hafter
  | handle l fd other d events before after' hphase htask hheap hdispatch =>
      by_cases hconn : conn = other
      · subst hconn
        have hsame : after' = after := by
          simpa [setLoop] using hafter
        subst hsame
        exact .inr (.inr ⟨l, d, before, rfl, by rw [hphase]; rfl, hheap, hdispatch⟩)
      · left
        simpa [setLoop, hconn] using hafter
  | perform l other effect effects htask =>
      left
      rwa [← heap_perform s l other effect]
  | accept fd htask hfree =>
      left
      rwa [← heap_onNewConnection s fd]
  | erase l fd other functors hphase htask hnext =>
      left
      exact heap_setConnection_le _ fd none conn after hafter
  | register l fd other htask =>
      by_cases hconn : conn = other
      · subst hconn
        have hsame : Session.created l fd = after := by
          simpa [setTask, setLoop, heap_epollCtl] using hafter
        exact .inr (.inl ⟨l, fd, htask, hsame.symm⟩)
      · left
        simpa [setTask, setLoop, heap_epollCtl, hconn] using hafter
  | store l fd other htask =>
      left
      exact heap_setConnection_le s fd (some other) conn after hafter

/-- The run lemma for one connection of a server. -/
theorem reachable_of_hands {ok : Machine.Discipline Session Dispatch}
    (hreach : (servers service n).ReachableWhere (hands conn ok) s) {session : Session}
    (hheap : s.heap conn = some session) : (sessions service).ReachableWhere ok session := by
  refine Machine.ReachableWhere.component (p := fun s : HttpServer n => s.heap conn) ?_ ?_
    hreach hheap
  · rintro s rfl
    rfl
  · intro s a t after hok hstep hafter
    rcases heap_of_step hstep hafter with hsame | ⟨l, fd, _, hmade⟩ |
      ⟨l, d, before, rfl, hhanded, hbefore, hmove⟩
    · exact .inl hsame
    · exact .inr (.inl ⟨l, fd, hmade⟩)
    · exact .inr (.inr ⟨before, d, hbefore, hok (conn, d) hhanded rfl before hbefore, hmove⟩)

/-- **A connection in a server is a connection.** In every run of a server, with
any number of loops and of other connections, in which the events of one
connection meet a discipline, this connection is in a state of a run of a single
connection under that discipline. -/
theorem connection_in_server (service : Service) (n : ℕ) (conn : ConnectionId)
    (ok : Machine.Discipline Session Dispatch) (s : HttpServer n)
    (hreach : (servers service n).ReachableWhere (hands conn ok) s) (session : Session)
    (hheap : s.heap conn = some session) : (sessions service).ReachableWhere ok session :=
  reachable_of_hands hreach hheap

/-- Two connections in different loops: one client does not pipeline, the other
one sends what cannot be parsed. -/
def twoClients : List (ServerAction 2) :=
  [.wait 0 [.accept], .accept 6, .accept 7, .acceptDone,
    .wait 1 [], .swap 1, .next 1, .register 1, .store 1, .next 1,
    .wait 2 [], .swap 2, .next 2, .register 2, .store 2, .next 2,
    .wait 1 [.connection 6 0 ⟨EPOLLIN, .data (literal "GET / HTTP/1.1\r\n\r\n"), [.room 10]⟩],
    .wait 2 [.connection 7 1 ⟨EPOLLIN, .data (literal "what\r\n"), [.fail 104]⟩],
    .handle 2, .handle 1, .perform 1, .perform 2]

theorem connection_in_server_two_clients :
    ∃ session : Session, (invoked session.log).length = 1 ∧
      (sessions ⟨.stored, some fun _ _ resp => resp⟩).ReachableWhere
        (Session.conversing Session.twoRequests.requests) session := by
  obtain ⟨s, hreach, hinvoked⟩ := Machine.exists_reachable_of_run
    (M := servers ⟨.stored, some fun _ _ resp => resp⟩ 2) (s := .create)
    (P := fun s => (s.heap 0).any (fun session => (invoked session.log).length = 1) = true)
    (hands 0 (Session.conversing Session.twoRequests.requests)) twoClients
    rfl (by decide +kernel) (by decide +kernel)
  rw [Option.any_eq_true] at hinvoked
  obtain ⟨session, hheap, hlength⟩ := hinvoked
  exact ⟨session, of_decide_eq_true hlength,
    connection_in_server _ 2 0 _ s hreach session hheap⟩

/-- Every order of steps that settles erasures in time, with one client that
does not pipeline. -/
def serving (conn : ConnectionId) (c : Conversation) :
    Machine.Discipline (HttpServer n) (ServerAction n) :=
  fun s a => s.erasesSettled a ∧ s.hands conn (Session.conversing c.requests) a

instance (conn : ConnectionId) (c : Conversation) (s : HttpServer n) (a : ServerAction n) :
    Decidable (serving conn c s a) :=
  inferInstanceAs (Decidable (_ ∧ _))

/-- **A client that does not pipeline is served whatever the others do.** In
every run of the server, with any number of loops and any other clients, in
which erasures are settled and one client does not pipeline: its connection is
not destroyed while it is registered, and at every moment it has been served as
a conversation is. -/
theorem conversation_served_in_server (order : IterationOrder)
    (callback : ℕ → HttpRequest → HttpResponse → HttpResponse) (n : ℕ) (conn : ConnectionId)
    (c : Conversation) (s : HttpServer n)
    (hreach : (servers ⟨order, some callback⟩ n).ReachableWhere (serving conn c) s) :
    (∀ l fd, (s.loops l).interest fd = some conn → ∃ session, s.heap conn = some session) ∧
      ∀ session, s.heap conn = some session →
        Session.Served ⟨order, some callback⟩ c.requests session := by
  constructor
  · intro l fd hregistered
    obtain ⟨stages, hs⟩ := agrees_of_reachable (hreach.mono fun _ _ hok => hok.1)
    obtain ⟨progress, hstage, hyes⟩ := (hs.loops l).interest fd conn hregistered
    have hbuilt : progress.isBuilt := by
      cases progress <;> first | rfl | cases hyes
    obtain ⟨session, hheap, _⟩ := hs.heap conn _ hstage hbuilt
    exact ⟨session, hheap⟩
  · intro session hheap
    have hsession := reachable_of_hands (hreach.mono fun _ _ hok => hok.2) hheap
    obtain ⟨done, todo, hsplit⟩ := Session.exists_split (Session.phase_of_reachable rfl hsession)
    exact hsplit.served

theorem conversation_served_in_server_two_clients :
    ∃ s : HttpServer 2, (s.loops 1).interest 6 = some 0 ∧
      ∀ session, s.heap 0 = some session →
        Session.Served ⟨.stored, some fun _ _ resp => resp⟩ Session.twoRequests.requests
          session := by
  obtain ⟨s, hreach, hregistered⟩ := Machine.exists_reachable_of_run
    (M := servers ⟨.stored, some fun _ _ resp => resp⟩ 2) (s := .create)
    (P := fun s => (s.loops 1).interest 6 = some 0) (serving 0 Session.twoRequests) twoClients
    rfl (by decide +kernel) (by decide +kernel)
  exact ⟨s, hregistered,
    (conversation_served_in_server .stored (fun _ _ resp => resp) 2 0 Session.twoRequests s
      hreach).2⟩

end HttpServer

end EpollHttpServer.Server
