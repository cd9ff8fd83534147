/-
# What the tables of the example server say

In every run, whatever the order of the steps, an entry of a table means what
the code that uses it relies on: a stored or registered channel is alive and
its descriptor open, an event is for a channel that is stored and registered,
and no call of a callback finds anything but what it expects.  When all loops
wait, the tables name the same clients.

A server that queues the removal of an entry and closes the descriptor before
has to assume for this that a descriptor is not given to a new connection in
between.
-/

import EpollHttpServer.Examples.Removal
import EpollHttpServer.Server.Turns

namespace EpollHttpServer.Examples

open EpollHttpServer.Lib EpollHttpServer.Http EpollHttpServer.Reactor EpollHttpServer.Server

namespace ReactorServer

variable {n : ℕ} {s t : ReactorServer n} {stages : ClientStages n} {a : ServerAction n}
  {l : Fin (n + 1)} {c conn : ConnectionId} {fd : ℕ} {ch : Channel}
  {progress progress' : ClientProgress}

/-- What threads rely on. -/
structure Sound (s : ReactorServer n) : Prop where
  stored : ∀ fd conn, s.clients fd = some conn →
    s.files fd = some conn ∧ ∃ ch, s.heap conn = some ch ∧ ch.fd = fd
  registered : ∀ l fd conn, (s.loops l).interest fd = some conn →
    s.files fd = some conn ∧ ∃ ch, s.heap conn = some ch ∧ ch.fd = fd
  /-- A channel is owned by `clients_`, or by the functor that has just made it. -/
  owned : ∀ conn ch, s.heap conn = some ch →
    s.clients ch.fd = some conn ∨ ∃ l, (s.loops l).task = .storing ch.fd conn
  /-- An event is for a client that is stored, and registered in the loop. -/
  reported : ∀ l fd conn d, .connection fd conn d ∈ (s.loops l).phase.events →
    s.clients fd = some conn ∧ (s.loops l).interest fd = some conn
  /-- A channel is registered for an open descriptor that is not registered. -/
  registers : ∀ l fd conn, (s.loops l).task = .starting fd conn →
    s.files fd = some conn ∧ ∀ l', (s.loops l').interest fd = none
  /-- Storing a channel replaces none. -/
  stores : ∀ l fd conn, (s.loops l).task = .storing fd conn → s.clients fd = none
  /-- A callback reads from and writes to its own descriptor, which is open. -/
  transfers : ∀ l conn call calls fd, (s.loops l).task = .callback conn (call :: calls) →
    call.transferFd = some fd → s.files fd = some conn
  /-- A callback takes out of the epoll set what is in it. -/
  disables : ∀ l conn calls, (s.loops l).task = .callback conn (.disableAll :: calls) →
    ∃ ch, s.heap conn = some ch ∧ (s.loops l).interest ch.fd = some conn
  /-- A callback erases its own entry. -/
  erases : ∀ l conn fd calls, (s.loops l).task = .callback conn (.erase fd :: calls) →
    s.clients fd = some conn
  /-- A callback closes its own descriptor, which nothing mentions any more. -/
  closes : ∀ l conn fd calls, (s.loops l).task = .callback conn (.close fd :: calls) →
    s.files fd = some conn ∧ s.clients fd = none ∧ ∀ l', (s.loops l').interest fd = none
  /-- No open descriptor is forgotten. -/
  used : ∀ fd conn, s.files fd = some conn → ∃ l,
    ⟨fd, conn⟩ ∈ (s.loops l).functors.pending ∨ (s.loops l).task = .starting fd conn ∨
      (s.loops l).interest fd = some conn ∨
        ∃ calls, (s.loops l).task = .callback conn calls ∧ .close fd ∈ calls
  /-- A loop that is not at its wait can go on. -/
  continues : ∀ l, ¬ ((s.loops l).phase = .wait ∧ (s.loops l).task = .idle) →
    ∃ a : ServerAction n, a.loop = l ∧ a.isWork ∧ ∃ t, s.step a = some t

/-- The next call of a callback, with the stage that it is made in. -/
theorem Agrees.call_cases (hs : s.Agrees stages) {call : ClientCall} {calls : List ClientCall}
    (htask : (s.loops l).task = .callback conn (call :: calls)) :
    ∃ progress fd, stages conn = some ⟨progress, l, fd⟩ ∧
      (progress = .serving ∧ (call.isTransfer fd ∨ call = .disableAll) ∨
        progress = .leaving ∧ call = .erase fd ∨ progress = .erased ∧ call = .close fd) := by
  have hconn : (s.loops l).task.conn = some conn := by rw [htask]; rfl
  obtain ⟨progress, fd, hstage, hruns⟩ := (hs.loops l).task.running conn hconn
  rw [htask] at hruns
  refine ⟨progress, fd, hstage, ?_⟩
  rcases hruns.of_callback with ⟨rfl, htransfer, _⟩ | ⟨rfl, rfl, _⟩ | ⟨rfl, rfl, _⟩ | ⟨rfl, rfl, _⟩
  · exact .inl ⟨rfl, .inl htransfer⟩
  · exact .inl ⟨rfl, .inr rfl⟩
  · exact .inr (.inl ⟨rfl, rfl⟩)
  · exact .inr (.inr ⟨rfl, rfl⟩)

/-- A call that changes no table is on the descriptor of its client. -/
theorem transferFd_of_isTransfer {call : ClientCall} (htransfer : call.isTransfer fd) :
    call.transferFd = some fd := by
  cases call with
  | read => exact congrArg some htransfer
  | write => exact congrArg some htransfer.1
  | disableAll | erase | close => exact htransfer.elim

/-- What is stored or registered is open and alive. -/
theorem Agrees.alive (hs : s.Agrees stages) {stage : ClientStage n}
    (hstage : stages conn = some stage) (hopen : stage.progress.isOpen)
    (hbuilt : stage.progress.isBuilt) :
    s.files stage.fd = some conn ∧ ∃ ch, s.heap conn = some ch ∧ ch.fd = stage.fd := by
  obtain ⟨ch, hheap, hagrees⟩ := hs.heap.exists_channel conn stage hstage hbuilt
  exact ⟨hs.files.entry hstage (ClientStage.openFd_eq_some.mpr ⟨hopen, rfl⟩), ch, hheap,
    hagrees.fd⟩

/-- The next call of a callback can be made. -/
theorem Agrees.exists_perform (hs : s.Agrees stages) {call : ClientCall} {calls : List ClientCall}
    (htask : (s.loops l).task = .callback conn (call :: calls)) :
    ∃ t, s.perform l conn call = some t := by
  obtain ⟨progress, fd, hstage, hcases⟩ := hs.call_cases htask
  cases call with
  | read | write | erase | close => exact ⟨_, rfl⟩
  | disableAll =>
      rcases hcases with ⟨rfl, _⟩ | ⟨_, ⟨⟩⟩ | ⟨_, ⟨⟩⟩
      obtain ⟨ch, hheap, _⟩ := hs.heap.exists_channel conn _ hstage rfl
      exact ⟨_, by rw [perform, hheap]; rfl⟩

/-- A loop that is not at its wait has work to do that it can do. -/
theorem Agrees.continues (hs : s.Agrees stages)
    (hnot : ¬ ((s.loops l).phase = .wait ∧ (s.loops l).task = .idle)) :
    ∃ a : ServerAction n, a.loop = l ∧ a.isWork ∧ ∃ t, s.step a = some t := by
  cases htask : (s.loops l).task with
  | starting fd conn =>
      refine ⟨.register l, rfl, trivial, ?_⟩
      simp only [step, htask]
      exact ⟨_, rfl⟩
  | storing fd conn =>
      refine ⟨.store l, rfl, trivial, ?_⟩
      simp only [step, htask]
      exact ⟨_, rfl⟩
  | callback conn calls =>
      cases calls with
      | nil =>
          refine ⟨.leave l, rfl, trivial, ?_⟩
          simp only [step, htask]
          exact ⟨_, rfl⟩
      | cons call calls =>
          obtain ⟨t, hperform⟩ := hs.exists_perform htask
          refine ⟨.perform l, rfl, trivial, ?_⟩
          simp only [step, htask, hperform]
          exact ⟨_, rfl⟩
  | idle =>
      cases hphase : (s.loops l).phase with
      | wait => exact absurd ⟨hphase, htask⟩ hnot
      | run =>
          cases hnext : (s.loops l).functors.next with
          | none =>
              refine ⟨.next l, rfl, trivial, ?_⟩
              simp only [step, hphase, htask, hnext]
              exact ⟨_, rfl⟩
          | some first =>
              refine ⟨.next l, rfl, trivial, ?_⟩
              simp only [step, hphase, htask, hnext]
              exact ⟨_, rfl⟩
      | dispatch events =>
          have hevents := (hs.loops l).events
          rw [hphase] at hevents
          cases events with
          | nil =>
              refine ⟨.swap l, rfl, trivial, ?_⟩
              simp only [step, hphase, htask]
              exact ⟨_, rfl⟩
          | cons event events =>
              cases event with
              | accept =>
                  obtain rfl := hevents.accept (List.mem_cons_self ..)
                  refine ⟨.acceptDone, rfl, trivial, ?_⟩
                  simp only [step, hphase, htask]
                  exact ⟨_, rfl⟩
              | connection fd conn d =>
                  have hstage := hevents.live fd conn d (List.mem_cons_self ..)
                  obtain ⟨ch, hheap, _⟩ := hs.heap.exists_channel conn _ hstage rfl
                  refine ⟨.handle l, rfl, trivial, ?_⟩
                  simp only [step, hphase, htask, hheap]
                  exact ⟨_, rfl⟩

/-- A stage says what the tables contain. -/
theorem Agrees.sound (hs : s.Agrees stages) : s.Sound where
  stored fd conn hentry := by
    obtain ⟨⟨progress, l, fd'⟩, hstage, hkey⟩ := hs.clients.exists_stage hentry
    obtain ⟨hstored, rfl⟩ := ClientStage.storedFd_eq_some.mp hkey
    exact hs.alive hstage (ClientStage.isOpen_of_isStored hstored)
      (ClientStage.isBuilt_of_isStored hstored)
  registered l fd conn hentry := by
    obtain ⟨⟨progress, l', fd'⟩, hstage, hkey⟩ := (hs.loops l).interest.exists_stage hentry
    obtain ⟨⟨hwatched, -⟩, rfl⟩ := ClientStage.watchedFd_eq_some.mp hkey
    exact hs.alive hstage (ClientStage.isOpen_of_isWatched hwatched)
      (ClientStage.isBuilt_of_isWatched hwatched)
  owned conn ch hheap := by
    obtain ⟨⟨progress, l, fd⟩, hstage, hbuilt⟩ := hs.heap.exists_stage conn ch hheap
    obtain ⟨ch', hheap', hagrees⟩ := hs.heap.exists_channel conn _ hstage hbuilt
    cases hheap.symm.trans hheap'
    rw [hagrees.fd]
    cases progress with
    | storing =>
        obtain ⟨progress, fd', hstage', hruns⟩ :=
          (hs.loops l).task.running conn ((hs.loops l).task.busy conn _ fd hstage rfl)
        cases hstage.symm.trans hstage'
        exact .inr ⟨l, hruns⟩
    | live | serving | leaving => exact .inl (hs.clients.entry hstage rfl)
    | accepted | starting | erased | closed => cases hbuilt
  reported l fd conn d hevent := by
    have hstage := (hs.loops l).events.live fd conn d hevent
    exact ⟨hs.clients.entry hstage rfl,
      (hs.loops l).interest.entry hstage (ClientStage.watchedFd_eq_some.mpr ⟨⟨rfl, rfl⟩, rfl⟩)⟩
  registers l fd conn htask := by
    have hstage := hs.stage_of_starting htask
    exact ⟨hs.files.entry hstage rfl, hs.interest_eq_none hstage rfl rfl⟩
  stores l fd conn htask := hs.clients_eq_none (hs.stage_of_storing htask) rfl rfl
  transfers l conn call calls fd htask htransfer := by
    obtain ⟨progress, fd', hstage, hcases⟩ := hs.call_cases htask
    rcases hcases with ⟨rfl, hown | rfl⟩ | ⟨_, rfl, _⟩ | ⟨_, rfl⟩
    · cases htransfer.symm.trans (transferFd_of_isTransfer hown)
      exact hs.files.entry hstage rfl
    all_goals cases htransfer
  disables l conn calls htask := by
    obtain ⟨progress, fd, hstage, hcases⟩ := hs.call_cases htask
    rcases hcases with ⟨rfl, _⟩ | ⟨_, ⟨⟩⟩ | ⟨_, ⟨⟩⟩
    obtain ⟨ch, hheap, hagrees⟩ := hs.heap.exists_channel conn _ hstage rfl
    refine ⟨ch, hheap, ?_⟩
    rw [hagrees.fd]
    exact (hs.loops l).interest.entry hstage (ClientStage.watchedFd_eq_some.mpr ⟨⟨rfl, rfl⟩, rfl⟩)
  erases l conn fd calls htask := by
    obtain ⟨progress, fd', hstage, hcases⟩ := hs.call_cases htask
    rcases hcases with ⟨_, hother⟩ | ⟨rfl, ⟨⟩⟩ | ⟨_, ⟨⟩⟩
    · rcases hother with hother | hother <;> cases hother
    · exact hs.clients.entry hstage rfl
  closes l conn fd calls htask := by
    obtain ⟨progress, fd', hstage, hcases⟩ := hs.call_cases htask
    rcases hcases with ⟨_, hother⟩ | ⟨_, ⟨⟩⟩ | ⟨rfl, ⟨⟩⟩
    · rcases hother with hother | hother <;> cases hother
    · exact ⟨hs.files.entry hstage rfl, hs.clients_eq_none hstage rfl rfl,
        hs.interest_eq_none hstage rfl rfl⟩
  used fd conn hfile := by
    obtain ⟨⟨progress, l, fd'⟩, hstage, hkey⟩ := hs.files.exists_stage hfile
    obtain ⟨hopen, rfl⟩ := ClientStage.openFd_eq_some.mp hkey
    refine ⟨l, ?_⟩
    cases progress with
    | accepted => exact .inl ((hs.loops l).functors.mem_of_stage hstage)
    | starting => exact .inr (.inl ((hs.loops l).task.runs hstage rfl))
    | storing | live | serving =>
        exact .inr (.inr (.inl ((hs.loops l).interest.entry hstage
          (ClientStage.watchedFd_eq_some.mpr ⟨⟨rfl, rfl⟩, rfl⟩))))
    | leaving | erased =>
        exact .inr (.inr (.inr ⟨_, (hs.loops l).task.runs hstage rfl, by simp⟩))
    | closed => cases hopen
  continues _ hnot := hs.continues hnot

/-- **The tables are never behind.** In every run, whatever the order of the
steps and whichever descriptors are given out again, the tables of the example
server contain what the code that uses them expects, and no loop gets stuck. -/
theorem clients_sound (n : ℕ) (s : ReactorServer n) (hreach : (reactorServers n).Reachable s) :
    s.Sound := by
  obtain ⟨stages, hs⟩ := agrees_of_reachable hreach
  exact hs.sound

/-- The descriptor of a client that has been answered is that of the next one. -/
theorem clients_sound_after_reuse :
    ∃ s : ReactorServer 0, s.clients 6 = some 1 ∧ (s.heap 1).isSome ∧ s.Sound := by
  obtain ⟨s, hreach, hentry, hheap⟩ := Machine.exists_reachable_of_run
    (M := reactorServers 0) (s := .create)
    (P := fun s => s.clients 6 = some 1 ∧ (s.heap 1).isSome) (fun _ _ => True)
    [.wait 0 [.accept], .accept 6, .register 0, .store 0, .acceptDone, .swap 0, .next 0,
      .wait 0 [.connection 6 0 ⟨EPOLLIN, .data [65], []⟩, .accept], .handle 0,
      .perform 0, .perform 0, .perform 0, .perform 0, .perform 0, .leave 0,
      .accept 6, .register 0, .store 0]
    rfl (by decide +kernel) (by decide +kernel)
  exact ⟨s, hentry, hheap, clients_sound 0 s hreach⟩

/-! ## When nothing is left to do -/

/-- Every loop waits, and no functor is queued. -/
def AtRest (s : ReactorServer n) : Prop :=
  ∀ l, (s.loops l).phase = .wait ∧ (s.loops l).task = .idle ∧ (s.loops l).functors.pending = []

instance (s : ReactorServer n) : Decidable s.AtRest :=
  inferInstanceAs (Decidable (∀ _, _ ∧ _))

/-- The tables name the same clients. -/
structure Balanced (s : ReactorServer n) : Prop where
  files : ∀ fd, s.files fd = s.clients fd
  watched : ∀ fd conn, s.clients fd = some conn → ∃! l, (s.loops l).interest fd = some conn
  interest : ∀ l fd conn, (s.loops l).interest fd = some conn → s.clients fd = some conn
  heap : ∀ conn, (s.heap conn).isSome ↔ ∃ fd, s.clients fd = some conn

/-- A client at rest is live. -/
theorem Agrees.live_at_rest (hs : s.Agrees stages) (hrest : s.AtRest)
    (hstage : stages conn = some ⟨progress, l, fd⟩) : progress = .live := by
  obtain ⟨-, htask, hpending⟩ := hrest l
  have hidle : progress.isBusy = false := by
    by_contra hbusy
    have hconn := (hs.loops l).task.busy conn progress fd hstage (by simpa using hbusy)
    rw [htask] at hconn
    cases hconn
  cases progress with
  | live => rfl
  | accepted =>
      have hqueued := (hs.loops l).functors.mem_of_stage hstage
      rw [hpending] at hqueued
      cases hqueued
  | starting | storing | serving | leaving | erased | closed => cases hidle

/-- A table that shows all live clients shows the same at rest as another one. -/
theorem Agrees.entries_at_rest (hs : s.Agrees stages) (hrest : s.AtRest)
    {table : ℕ → Option ConnectionId} {key : ClientStage n → Option ℕ}
    (htable : Shows table key stages) (hkey : ∀ l fd, key ⟨.live, l, fd⟩ = some fd) :
    table fd = some conn ↔ ∃ l, stages conn = some ⟨.live, l, fd⟩ := by
  constructor
  · intro hentry
    obtain ⟨⟨progress, l, fd'⟩, hstage, hfd⟩ := htable.exists_stage hentry
    obtain rfl := hs.live_at_rest hrest hstage
    obtain rfl := Option.some.inj ((hkey l fd').symm.trans hfd)
    exact ⟨l, hstage⟩
  · rintro ⟨l, hstage⟩
    exact htable.entry hstage (hkey l fd)

/-- What is registered in a loop at rest is live. -/
theorem Agrees.registered_at_rest (hs : s.Agrees stages) (hrest : s.AtRest) :
    (s.loops l).interest fd = some conn ↔ stages conn = some ⟨.live, l, fd⟩ := by
  constructor
  · intro hentry
    obtain ⟨⟨progress, l', fd'⟩, hstage, hkey⟩ := (hs.loops l).interest.exists_stage hentry
    obtain ⟨⟨-, rfl⟩, rfl⟩ := ClientStage.watchedFd_eq_some.mp hkey
    obtain rfl := hs.live_at_rest hrest hstage
    exact hstage
  · intro hstage
    exact (hs.loops l).interest.entry hstage (ClientStage.watchedFd_eq_some.mpr ⟨⟨rfl, rfl⟩, rfl⟩)

/-- **Nothing is left behind.** In every run, whenever all loops wait and no
functor is queued, the open descriptors, the entries of `clients_`, the
registrations and the channels on the heap are those of the same clients, each
registered in one loop. -/
theorem clients_balanced_at_rest (n : ℕ) (s : ReactorServer n)
    (hreach : (reactorServers n).Reachable s) (hrest : s.AtRest) : s.Balanced := by
  obtain ⟨stages, hs⟩ := agrees_of_reachable hreach
  have hstored (fd : ℕ) (conn : ConnectionId) :
      s.clients fd = some conn ↔ ∃ l, stages conn = some ⟨.live, l, fd⟩ :=
    hs.entries_at_rest hrest hs.clients fun _ _ => rfl
  have hregistered (l : Fin (n + 1)) (fd : ℕ) (conn : ConnectionId) :
      (s.loops l).interest fd = some conn ↔ stages conn = some ⟨.live, l, fd⟩ :=
    hs.registered_at_rest hrest
  refine ⟨fun fd => Option.ext fun conn => ?_, fun fd conn hentry => ?_,
    fun l fd conn hentry => ?_, fun conn => ⟨fun hheap => ?_, ?_⟩⟩
  · exact (hs.entries_at_rest hrest hs.files fun _ _ => rfl).trans (hstored fd conn).symm
  · obtain ⟨l, hstage⟩ := (hstored fd conn).mp hentry
    refine ⟨l, (hregistered l fd conn).mpr hstage, fun l' hentry' => ?_⟩
    cases hstage.symm.trans ((hregistered l' fd conn).mp hentry')
    rfl
  · exact (hstored fd conn).mpr ⟨l, (hregistered l fd conn).mp hentry⟩
  · obtain ⟨ch, hheap⟩ := Option.isSome_iff_exists.mp hheap
    obtain ⟨⟨progress, l, fd⟩, hstage, _⟩ := hs.heap.exists_stage conn ch hheap
    obtain rfl := hs.live_at_rest hrest hstage
    exact ⟨fd, (hstored fd conn).mpr ⟨l, hstage⟩⟩
  · rintro ⟨fd, hentry⟩
    obtain ⟨l, hstage⟩ := (hstored fd conn).mp hentry
    obtain ⟨ch, hheap, _⟩ := hs.heap.exists_channel conn _ hstage rfl
    exact Option.isSome_iff_exists.mpr ⟨ch, hheap⟩

/-- Of two clients the first has been answered. -/
theorem clients_balanced_at_rest_after_answer :
    ∃ s : ReactorServer 2, s.AtRest ∧ s.clients 7 = some 1 ∧ s.accepted = 2 ∧ s.Balanced := by
  obtain ⟨s, hreach, hrest, hentry, haccepted⟩ := Machine.exists_reachable_of_run
    (M := reactorServers 2) (s := .create)
    (P := fun s => s.AtRest ∧ s.clients 7 = some 1 ∧ s.accepted = 2) (fun _ _ => True)
    [.wait 0 [.accept], .accept 6, .accept 7, .acceptDone, .swap 0, .next 0,
      .wait 1 [], .swap 1, .next 1, .register 1, .store 1, .next 1,
      .wait 2 [], .swap 2, .next 2, .register 2, .store 2, .next 2,
      .wait 1 [.connection 6 0 ⟨EPOLLIN, .data [65], []⟩], .handle 1,
      .perform 1, .perform 1, .perform 1, .perform 1, .perform 1, .leave 1, .swap 1, .next 1]
    rfl (by decide +kernel) (by decide +kernel)
  exact ⟨s, hrest, hentry, haccepted, clients_balanced_at_rest 2 s hreach hrest⟩

end ReactorServer

end EpollHttpServer.Examples
