/-
# Which loop a connection is in

The sub loops take turns, so the creation functors that a sub loop is given are
those of every `n`-th connection, and it runs them in the order of acceptance.
The loads of two sub loops never differ by more than one.

A connection stays in its loop.  With erasures settled, no other loop touches
it: the connections are handled without a lock, and need none.
-/

import Mathlib.Data.Int.CardIntervalMod
import EpollHttpServer.Server.Descriptors

namespace EpollHttpServer.Server

open EpollHttpServer.Lib EpollHttpServer.Reactor

/-- The connection that a functor creates. -/
def ServerFunctor.created : ServerFunctor → Option ConnectionId
  | .create _ conn => some conn
  | .erase _ _ => none

/-- The loop whose thread takes the step. -/
def ServerAction.loop {n : ℕ} : ServerAction n → Fin (n + 1)
  | .wait l _ => l
  | .handle l => l
  | .perform l => l
  | .leave l => l
  | .accept _ => mainLoop n
  | .acceptDone => mainLoop n
  | .swap l => l
  | .next l => l
  | .register l => l
  | .store l => l

/-- The connections that one loop gets, when so many have been accepted. -/
def share (n : ℕ) (l : Fin (n + 1)) (accepted : ℕ) : List ConnectionId :=
  (List.range accepted).filter fun conn => loopOf n conn = l

theorem share_succ (n : ℕ) (l : Fin (n + 1)) (accepted : ℕ) :
    share n l (accepted + 1) =
      share n l accepted ++ if loopOf n accepted = l then [accepted] else [] := by
  rw [share, share, List.range_succ, List.filter_append]
  by_cases hl : loopOf n accepted = l <;> simp [hl]

/-- Only a server without sub loops handles connections in the base loop. -/
theorem loopOf_eq_zero {n : ℕ} {conn : ConnectionId} : loopOf n conn = 0 ↔ n = 0 := by
  unfold loopOf
  by_cases hn : n = 0
  · simp [hn]
  · have hlt : conn % n + 1 < n + 1 :=
      Nat.succ_lt_succ (Nat.mod_lt conn (Nat.pos_of_ne_zero hn))
    simp [hn, Fin.ext_iff, Fin.ofNat, Nat.mod_eq_of_lt hlt]

theorem loopOf_eq_iff {n : ℕ} (hn : 0 < n) {l : Fin (n + 1)} (hl : l ≠ 0) (conn : ConnectionId) :
    loopOf n conn = l ↔ conn ≡ (l : ℕ) - 1 [MOD n] := by
  have hpos : 0 < (l : ℕ) := Nat.pos_of_ne_zero fun hzero => hl (Fin.ext hzero)
  have hle : (l : ℕ) - 1 < n := by omega
  have hlt : conn % n + 1 < n + 1 := Nat.succ_lt_succ (Nat.mod_lt conn hn)
  rw [loopOf, if_neg hn.ne', Fin.ext_iff, Fin.ofNat, Nat.ModEq, Nat.mod_eq_of_lt hle]
  simp only [Nat.mod_eq_of_lt hlt]
  omega

/-- Every sub loop has the same share but for one connection. -/
theorem length_share {n : ℕ} (hn : 0 < n) {l : Fin (n + 1)} (hl : l ≠ 0) (accepted : ℕ) :
    accepted / n ≤ (share n l accepted).length ∧
      (share n l accepted).length ≤ accepted / n + 1 := by
  have hcount : (share n l accepted).length =
      accepted.count (· ≡ (l : ℕ) - 1 [MOD n]) := by
    rw [share, ← List.countP_eq_length_filter, Nat.count]
    apply List.countP_congr
    intro conn _
    simp [loopOf_eq_iff hn hl]
  rw [hcount, Nat.count_modEq_card accepted hn]
  split <;> omega

namespace HttpServer

variable {n : ℕ} {service : Service} {s t : HttpServer n} {l : Fin (n + 1)}

/-- The creation functors that a loop has been given so far, oldest first. -/
def given (s : HttpServer n) (l : Fin (n + 1)) : List ConnectionId :=
  (s.loops l).functors.contents.filterMap ServerFunctor.created

/-- The creation functors of a sub loop are those of its share. -/
def InTurn (s : HttpServer n) : Prop :=
  ∀ l, l ≠ mainLoop n → s.given l = share n l s.accepted

theorem InTurn.of_same (hs : s.InTurn) (haccepted : t.accepted = s.accepted)
    (hgiven : ∀ l, t.given l = s.given l) : t.InTurn := by
  intro l hl
  rw [hgiven, haccepted]
  exact hs l hl

/-- A loop whose creation functors stay as they are. -/
theorem given_setLoop {loop : LoopState}
    (hsame : loop.functors.contents.filterMap ServerFunctor.created = s.given l) :
    ∀ l', (s.setLoop l loop).given l' = s.given l' :=
  view_setLoop (fun loop => loop.functors.contents.filterMap ServerFunctor.created) hsame

theorem given_setTask (l : Fin (n + 1)) (task : Task) :
    ∀ l', (s.setTask l task).given l' = s.given l' :=
  given_setLoop rfl

theorem given_epollCtl (l : Fin (n + 1)) (conn : ConnectionId) (fd : ℕ) (ctl : EpollCtl) :
    ∀ l', (s.epollCtl l conn fd ctl).given l' = s.given l' :=
  view_epollCtl (fun loop => loop.functors.contents.filterMap ServerFunctor.created)
    (fun _ _ => rfl) l conn fd ctl

theorem accepted_epollCtl (s : HttpServer n) (l : Fin (n + 1)) (conn : ConnectionId) (fd : ℕ)
    (ctl : EpollCtl) : (s.epollCtl l conn fd ctl).accepted = s.accepted := by
  obtain ⟨interest, heq⟩ := epollCtl_eq s l conn fd ctl
  rw [heq]
  rfl

/-- A handler posts no creation functor. -/
theorem given_perform (l : Fin (n + 1)) (conn : ConnectionId) (e : Effect) :
    (s.perform l conn e).accepted = s.accepted ∧
      ∀ l', (s.perform l conn e).given l' = s.given l' := by
  constructor
  · cases e with
    | epollCtl fd ctl => exact accepted_epollCtl s l conn fd ctl
    | _ => rfl
  · refine view_perform (fun loop => loop.functors.contents.filterMap ServerFunctor.created)
      (fun _ _ => rfl) (fun loop fd => ?_) l e
    simp [BatchQueue.contents_push, ServerFunctor.created]

theorem inTurn_accept {stages : Stages n} (hs : s.Tracked stages) (hturn : s.InTurn) (fd : ℕ) :
    (s.onNewConnection fd).InTurn := by
  intro l hl
  have hnext := hs.getNextLoop_eq
  by_cases hbase : s.getNextLoop.1 = 0
  · rw [hbase] at hnext
    have hn : n = 0 := loopOf_eq_zero.mp hnext.symm
    subst hn
    exact absurd (Fin.ext (Nat.lt_one_iff.mp l.isLt)) hl
  · rw [hnext] at hbase
    simp only [onNewConnection, hnext, if_neg hbase, queueInLoop]
    show given _ l = share n l (s.accepted + 1)
    rw [share_succ, ← hturn l hl]
    by_cases hmine : loopOf n s.accepted = l
    · subst hmine
      rw [given, setLoop_self]
      simp [BatchQueue.contents_push, given, ServerFunctor.created]
    · rw [given, setLoop_of_ne (Ne.symm hmine), if_neg hmine, List.append_nil]
      rfl

/-- The step lemma. -/
theorem inTurn_step {a : ServerAction n} {stages : Stages n} (hs : s.Tracked stages)
    (hturn : s.InTurn) (hstep : s.step service a = some t) : t.InTurn := by
  have hbatch {l : Fin (n + 1)} (hphase : (s.loops l).phase ≠ .run) :=
    (hs.loops l).batch_eq_nil hphase
  cases moves_of_step hstep with
  | wait | leave | acceptDone | batchDone => exact hturn.of_same rfl (given_setLoop rfl)
  | handle => exact hturn.of_same rfl (given_setLoop rfl)
  | perform l conn effect effects htask =>
      obtain ⟨haccepted, hgiven⟩ := given_perform (s := s) l conn effect
      refine hturn.of_same haccepted fun l' => ?_
      rw [← hgiven l']
      exact given_setTask l _ l'
  | accept fd htask hfree => exact inTurn_accept hs hturn fd
  | swap l hphase htask =>
      refine hturn.of_same rfl (given_setLoop ?_)
      rw [given, ← BatchQueue.contents_swap (hbatch (by simp [hphase]))]
  | create l fd conn functors hphase htask hnext =>
      refine hturn.of_same rfl (given_setLoop ?_)
      rw [given, ← BatchQueue.contents_next hnext]
  | erase l fd conn functors hphase htask hnext =>
      have hgiven : ∀ l', (s.setLoop l { s.loops l with functors := functors }).given l' =
          s.given l' := given_setLoop (by rw [given, ← BatchQueue.contents_next hnext])
      exact hturn.of_same rfl hgiven
  | register l fd conn htask =>
      refine hturn.of_same (accepted_epollCtl _ l conn fd _) fun l' => ?_
      exact (given_setTask l _ l').trans (given_epollCtl l conn fd _ l')
  | store l fd conn htask => exact hturn.of_same rfl (given_setLoop rfl)

/-- The run lemma. -/
theorem inTurn_of_reachable (hreach : (servers service n).Reachable s) : s.InTurn := by
  refine Machine.ReachableWhere.invariant_along (I := fun s : HttpServer n => s.InTurn) ?_ ?_ hreach
  · rintro s rfl l -
    rfl
  · intro s a t hs hturn _ hstep
    obtain ⟨stages, htracked⟩ := tracked_of_reachable hs
    exact inTurn_step htracked hturn hstep

/-- **Sub loops take turns, and create in order.** In every run the creation
functors that a sub loop has started, followed by those it has yet to start,
are those of its share of all accepted connections, each once and in the order
of acceptance. -/
theorem creations_in_turn (service : Service) (n : ℕ) (s : HttpServer n)
    (hreach : (servers service n).Reachable s) (l : Fin (n + 1)) (hl : l ≠ 0) :
    (s.loops l).functors.started.filterMap ServerFunctor.created ++
        (s.loops l).functors.pending.filterMap ServerFunctor.created =
      (List.range s.accepted).filter fun conn => loopOf n conn = l := by
  have hgiven : s.given l = share n l s.accepted := inTurn_of_reachable hreach l hl
  rw [given, BatchQueue.contents, List.append_assoc, List.filterMap_append] at hgiven
  exact hgiven

/-- Three connections for two sub loops, of which the first one has started one. -/
theorem creations_in_turn_three :
    ∃ s : HttpServer 2, s.accepted = 3 ∧
      (s.loops 1).functors.started.filterMap ServerFunctor.created ++
          (s.loops 1).functors.pending.filterMap ServerFunctor.created =
        (List.range 3).filter fun conn => loopOf 2 conn = 1 := by
  obtain ⟨s, hreach, haccepted⟩ := Machine.exists_reachable_of_run
    (M := servers ⟨.stored, none⟩ 2) (s := .create) (P := fun s => s.accepted = 3)
    Machine.anyStep
    [.wait 0 [.accept], .accept 6, .wait 1 [], .swap 1, .next 1, .accept 7, .accept 8] rfl
    (Machine.follows_anyStep _ _) (by decide +kernel)
  have hshare := creations_in_turn _ 2 s hreach 1 (by decide)
  rw [haccepted] at hshare
  exact ⟨s, haccepted, hshare⟩

/-- **Loads differ by one at most.** At every moment of every run, the numbers of
connections that any two sub loops have been given differ by at most one. -/
theorem loads_differ_by_one (service : Service) (n : ℕ) (s : HttpServer n)
    (hreach : (servers service n).Reachable s) (l l' : Fin (n + 1)) (hl : l ≠ 0) (hl' : l' ≠ 0) :
    ((s.loops l).functors.contents.filterMap ServerFunctor.created).length ≤
      ((s.loops l').functors.contents.filterMap ServerFunctor.created).length + 1 := by
  have hturn := inTurn_of_reachable hreach
  have hn : 0 < n := by
    refine Nat.pos_of_ne_zero fun hzero => ?_
    subst hzero
    exact hl (Fin.ext (Nat.lt_one_iff.mp l.isLt))
  have hupper := (length_share hn hl s.accepted).2
  have hlower := (length_share hn hl' s.accepted).1
  rw [← hturn l hl] at hupper
  rw [← hturn l' hl'] at hlower
  exact hupper.trans (Nat.succ_le_succ hlower)

theorem loads_differ_by_one_three :
    ∃ s : HttpServer 2, s.accepted = 3 ∧
      ((s.loops 1).functors.contents.filterMap ServerFunctor.created).length ≤
        ((s.loops 2).functors.contents.filterMap ServerFunctor.created).length + 1 := by
  obtain ⟨s, hreach, haccepted⟩ := Machine.exists_reachable_of_run
    (M := servers ⟨.stored, none⟩ 2) (s := .create) (P := fun s => s.accepted = 3)
    Machine.anyStep
    [.wait 0 [.accept], .accept 6, .wait 1 [], .swap 1, .next 1, .accept 7, .accept 8] rfl
    (Machine.follows_anyStep _ _) (by decide +kernel)
  exact ⟨s, haccepted, loads_differ_by_one _ 2 s hreach 1 2 (by decide) (by decide)⟩

/-! ## Connections stay in their loop -/

/-- Everything a loop has to do with a connection is about one of its own. -/
structure Confined (s : HttpServer n) : Prop where
  interest : ∀ l fd conn, (s.loops l).interest fd = some conn → loopOf n conn = l
  functors : ∀ l, ∀ f ∈ (s.loops l).functors.pending, loopOf n f.conn = l
  task : ∀ l conn, (s.loops l).task.conn = some conn → loopOf n conn = l
  events : ∀ l fd conn d, .connection fd conn d ∈ (s.loops l).phase.events → loopOf n conn = l

theorem Tracked.confined {stages : Stages n} (hs : s.Tracked stages) : s.Confined where
  interest l fd conn hconn := by
    obtain ⟨progress, hstage, _⟩ := (hs.loops l).interest fd conn hconn
    exact (hs.placed conn _ hstage).symm
  functors l f hf := by
    obtain ⟨progress, fd, hstage, _⟩ := Stages.isQueued_of_mem (hs.loops l).functors hf
    exact (hs.placed f.conn _ hstage).symm
  task l conn hconn := by
    have hrunning := (hs.loops l).task.running
    cases htask : (s.loops l).task with
    | idle =>
        rw [htask] at hconn
        cases hconn
    | starting fd other | storing fd other =>
        rw [htask] at hconn hrunning
        cases hconn
        exact (hs.placed conn _ hrunning).symm
    | handler other effects =>
        rw [htask] at hconn hrunning
        cases hconn
        obtain ⟨progress, fd, hstage, _⟩ := hrunning
        exact (hs.placed conn _ hstage).symm
  events l fd conn d hevent :=
    (hs.placed conn _ ((hs.loops l).events.live fd conn d hevent).1).symm

theorem confined_of_reachable (hreach : (servers service n).Reachable s) : s.Confined := by
  obtain ⟨stages, hs⟩ := tracked_of_reachable hreach
  exact hs.confined

/-- An entry that a write has changed is the one that was written. -/
theorem eq_of_update_ne {heap : ConnectionId → Option Session} {conn other : ConnectionId}
    {entry : Option Session} (hchanged : Function.update heap other entry conn ≠ heap conn) :
    conn = other := by
  by_contra hne
  exact hchanged (Function.update_of_ne hne ..)

/-- **No connection is shared.** In every run that settles erasures, what a loop
holds of a connection, registered, queued, reported or running, it holds of its
own connections; and a step that makes, changes or destroys a connection is
taken by the thread of the loop that the connection belongs to. -/
theorem connections_confined (service : Service) (n : ℕ) (s : HttpServer n)
    (hreach : (servers service n).ReachableWhere erasesSettled s) :
    s.Confined ∧ ∀ a t, s.erasesSettled a → s.step service a = some t →
      ∀ conn, t.heap conn ≠ s.heap conn → loopOf n conn = a.loop := by
  have hconfined : s.Confined := confined_of_reachable (hreach.mono fun _ _ _ => trivial)
  obtain ⟨stages, hs⟩ := agrees_of_reachable hreach
  refine ⟨hconfined, fun a t hsettled hstep conn hchanged => ?_⟩
  cases moves_of_step hstep with
  | wait | leave | acceptDone | swap | create | batchDone => exact absurd rfl hchanged
  | handle l fd other d events before after hphase htask hheap hdispatch =>
      obtain rfl : conn = other := eq_of_update_ne hchanged
      apply hconfined.events l fd conn d
      rw [hphase]
      exact List.mem_cons_self ..
  | perform l other effect effects htask =>
      exact absurd (congrFun (heap_perform s l other effect) conn) hchanged
  | accept fd htask hfree =>
      exact absurd (congrFun (heap_onNewConnection s fd) conn) hchanged
  | erase l fd other functors hphase htask hnext =>
      have hentry := (entry_of_erase hs hnext).2
      rw [setConnection_of_entry (s := s.setLoop l { s.loops l with functors := functors })
        hentry] at hchanged
      obtain rfl : conn = other := eq_of_update_ne hchanged
      apply hconfined.functors l (.erase fd conn)
      rw [BatchQueue.pending_next hnext]
      exact List.mem_cons_self ..
  | register l fd other htask =>
      let made : HttpServer n :=
        { s with heap := Function.update s.heap other (some (.created l fd)) }
      obtain rfl : conn = other := eq_of_update_ne fun hsame =>
        hchanged ((congrFun (heap_epollCtl made l other fd (.add EPOLLIN)) conn).trans hsame)
      apply hconfined.task l conn
      rw [htask]
      rfl
  | store l fd other htask =>
      have hstage : stages other = some ⟨.storing, l, fd⟩ := by
        have hrunning := (hs.loops l).task.running
        rwa [htask] at hrunning
      have hfree : s.connections fd = none := by
        apply connection_free hs hstage
        simpa only [erasesSettled, htask] using hsettled
      rw [setConnection_of_free hfree] at hchanged
      exact absurd rfl hchanged

theorem connections_confined_two_loops :
    ∃ s : HttpServer 2, (s.loops 1).interest 6 = some 0 ∧ (s.loops 2).interest 7 = some 1 ∧
      s.Confined := by
  obtain ⟨s, hreach, hregistered⟩ := Machine.exists_reachable_of_run
    (M := servers ⟨.stored, some fun _ _ resp => resp⟩ 2) (s := .create)
    (P := fun s => (s.loops 1).interest 6 = some 0 ∧ (s.loops 2).interest 7 = some 1)
    erasesSettled twoClients rfl (by decide +kernel) (by decide +kernel)
  exact ⟨s, hregistered.1, hregistered.2, (connections_confined _ 2 s hreach).1⟩

end HttpServer

end EpollHttpServer.Server
