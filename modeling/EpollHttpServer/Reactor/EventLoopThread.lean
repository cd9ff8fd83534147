/-
# A loop in a thread of its own

`startLoop` creates a thread that constructs an `EventLoop`, publishes it and
runs it; the owner waits for the publication and may then call `quit()` on the
loop, directly or in the destructor, which also joins the thread.  `loop()`
begins with a store to `quit_` of its own.  A `quit()` that comes after this
store is never forgotten; one that comes before it is overwritten.

The `EventLoop` is an object of the thread's function and ends with it.  That a
call of the owner may then be under way is not modelled: the load of `loop_` and
the store of `quit()` are one step, and the write of a `quit()` may come after
the end of the loop, where the source uses an object that has been destroyed.
-/

import EpollHttpServer.Reactor.EventLoop

namespace EpollHttpServer.Reactor

open EpollHttpServer.Lib

/-- Where the loop thread is in `threadFunc`. -/
inductive ThreadPc where
  | notStarted
  | /-- Before `loop_ = &loop`. -/
    constructed
  | /-- Before `loop.loop()`. -/
    published
  | inLoop
  | /-- Behind `loop_ = nullptr`. -/
    exited
  deriving DecidableEq

/-- `loop_` is not null. -/
def ThreadPc.loopIsSet : ThreadPc → Prop
  | .published => True
  | .inLoop => True
  | _ => False

instance (thread : ThreadPc) : Decidable thread.loopIsSet := by
  cases thread <;> unfold ThreadPc.loopIsSet <;> infer_instance

/-- Where the owner is. -/
inductive OwnerPc where
  | idle
  | /-- In `startLoop`, waiting for the publication. -/
    starting
  | started
  | /-- In `quit()` behind its store, called by the destructor or not. -/
    quitting (destroying : Bool)
  | /-- In the destructor, before the thread is joined. -/
    joining
  | joined
  deriving DecidableEq

structure EventLoopThread (Thread α : Type) where
  loop : EventLoop Thread α
  thread : ThreadPc
  owner : OwnerPc
  /-- A call of `quit()` by the owner has returned. -/
  quitReturned : Bool

inductive ThreadAction (Thread α : Type) where
  | /-- The owner creates the thread. -/
    startLoop
  | publish
  | /-- `startLoop` returns the loop. -/
    startReturns
  | /-- The loop thread calls `loop()`, which begins with its store. -/
    enterLoop
  | /-- Another step of the loop, or of a thread that calls it. -/
    loop (action : Action Thread α)
  | /-- `loop()` has returned; `loop_ = nullptr`. -/
    clear
  | /-- The owner's store in `quit()`, which the destructor calls only if
    `loop_` is not null. -/
    quitStore (destroying : Bool)
  | /-- The owner's write to the eventfd in `quit()`, which then returns. -/
    quitWakeup
  | /-- The destructor finds `loop_` null. -/
    skipQuit
  | join

namespace EventLoopThread

variable {Thread α : Type}

def create : EventLoopThread Thread α where
  loop := .create
  thread := .notStarted
  owner := .idle
  quitReturned := false

variable [DecidableEq Thread] (owner : Thread)

/-- The steps of the loop that may happen now: its own only in `loop()`, those
of other threads only while the loop is published.  The owner posts between
`startLoop` and the destructor; its `quit()` is not among these steps. -/
def allows (s : EventLoopThread Thread α) : Action Thread α → Prop
  | .loop => False
  | .push caller _ | .runInLoop caller _ =>
    s.thread.loopIsSet ∧ (caller = some owner → s.owner = .started)
  | .quit caller => s.thread.loopIsSet ∧ caller ≠ some owner
  | .wakeup caller => s.thread.loopIsSet ∧ (caller = some owner → s.owner = .started)
  | _ => s.thread = .inLoop

instance (s : EventLoopThread Thread α) (action : Action Thread α) :
    Decidable (s.allows owner action) := by
  cases action <;> unfold allows <;> infer_instance

/-- One step of the owner, of the loop thread or of another thread. -/
def step (s : EventLoopThread Thread α) :
    ThreadAction Thread α → Option (EventLoopThread Thread α)
  | .startLoop =>
    if s.owner = .idle then some { s with owner := .starting, thread := .constructed } else none
  | .publish =>
    if s.thread = .constructed then some { s with thread := .published } else none
  | .startReturns =>
    if s.owner = .starting ∧ s.thread.loopIsSet then some { s with owner := .started } else none
  | .enterLoop =>
    if s.thread = .published then
      (s.loop.step .loop).map fun loop => { s with loop := loop, thread := .inLoop }
    else none
  | .loop action =>
    if s.allows owner action then (s.loop.step action).map fun loop => { s with loop := loop }
    else none
  | .clear =>
    if s.thread = .inLoop ∧ s.loop.pc = .outside then some { s with thread := .exited } else none
  | .quitStore destroying =>
    if s.owner = .started ∧ s.thread.loopIsSet then
      (s.loop.step (.quit (some owner))).map fun loop =>
        { s with loop := loop, owner := .quitting destroying }
    else none
  | .quitWakeup =>
    match s.owner with
    | .quitting destroying =>
      (s.loop.step (.wakeup (some owner))).map fun loop =>
        { s with
          loop := loop
          owner := if destroying then .joining else .started
          quitReturned := true }
    | _ => none
  | .skipQuit =>
    if s.owner = .started ∧ ¬ s.thread.loopIsSet then some { s with owner := .joining } else none
  | .join =>
    if s.owner = .joining ∧ s.thread = .exited then some { s with owner := .joined } else none

/-- What one step can do. -/
inductive Moves (s : EventLoopThread Thread α) :
    ThreadAction Thread α → EventLoopThread Thread α → Prop where
  | startLoop (howner : s.owner = .idle) :
      Moves s .startLoop { s with owner := .starting, thread := .constructed }
  | publish (hthread : s.thread = .constructed) : Moves s .publish { s with thread := .published }
  | startReturns (howner : s.owner = .starting) : Moves s .startReturns { s with owner := .started }
  | enterLoop (loop : EventLoop Thread α) (hthread : s.thread = .published)
      (hloop : s.loop.step .loop = some loop) :
      Moves s .enterLoop { s with loop := loop, thread := .inLoop }
  | loop (action : Action Thread α) (loop : EventLoop Thread α) (hallows : s.allows owner action)
      (hloop : s.loop.step action = some loop) : Moves s (.loop action) { s with loop := loop }
  | clear (hthread : s.thread = .inLoop) (hpc : s.loop.pc = .outside) :
      Moves s .clear { s with thread := .exited }
  | quitStore (destroying : Bool) (loop : EventLoop Thread α) (howner : s.owner = .started)
      (hloop : s.loop.step (.quit (some owner)) = some loop) :
      Moves s (.quitStore destroying) { s with loop := loop, owner := .quitting destroying }
  | quitWakeup (destroying : Bool) (loop : EventLoop Thread α)
      (howner : s.owner = .quitting destroying)
      (hloop : s.loop.step (.wakeup (some owner)) = some loop) :
      Moves s .quitWakeup { s with
        loop := loop
        owner := if destroying then .joining else .started
        quitReturned := true }
  | skipQuit (howner : s.owner = .started) : Moves s .skipQuit { s with owner := .joining }
  | join (howner : s.owner = .joining) (hthread : s.thread = .exited) :
      Moves s .join { s with owner := .joined }

variable {owner} {s t : EventLoopThread Thread α} {a : ThreadAction Thread α}

theorem moves_of_step (hstep : s.step owner a = some t) : Moves owner s a t := by
  cases a with
  | startLoop =>
      simp only [step, Option.ite_none_right_eq_some, Option.some.injEq] at hstep
      obtain ⟨howner, rfl⟩ := hstep
      exact .startLoop howner
  | publish =>
      simp only [step, Option.ite_none_right_eq_some, Option.some.injEq] at hstep
      obtain ⟨hthread, rfl⟩ := hstep
      exact .publish hthread
  | startReturns =>
      simp only [step, Option.ite_none_right_eq_some, Option.some.injEq] at hstep
      obtain ⟨⟨howner, _⟩, rfl⟩ := hstep
      exact .startReturns howner
  | enterLoop =>
      simp only [step, Option.ite_none_right_eq_some, Option.map_eq_some_iff] at hstep
      obtain ⟨hthread, loop, hloop, rfl⟩ := hstep
      exact .enterLoop loop hthread hloop
  | loop action =>
      simp only [step, Option.ite_none_right_eq_some, Option.map_eq_some_iff] at hstep
      obtain ⟨hallows, loop, hloop, rfl⟩ := hstep
      exact .loop action loop hallows hloop
  | clear =>
      simp only [step, Option.ite_none_right_eq_some, Option.some.injEq] at hstep
      obtain ⟨⟨hthread, hpc⟩, rfl⟩ := hstep
      exact .clear hthread hpc
  | quitStore destroying =>
      simp only [step, Option.ite_none_right_eq_some, Option.map_eq_some_iff] at hstep
      obtain ⟨⟨howner, _⟩, loop, hloop, rfl⟩ := hstep
      exact .quitStore destroying loop howner hloop
  | quitWakeup =>
      simp only [step] at hstep
      split at hstep
      · next destroying howner =>
        rw [Option.map_eq_some_iff] at hstep
        obtain ⟨loop, hloop, rfl⟩ := hstep
        exact .quitWakeup destroying loop howner hloop
      · cases hstep
  | skipQuit =>
      simp only [step, Option.ite_none_right_eq_some, Option.some.injEq] at hstep
      obtain ⟨⟨howner, _⟩, rfl⟩ := hstep
      exact .skipQuit howner
  | join =>
      simp only [step, Option.ite_none_right_eq_some, Option.some.injEq] at hstep
      obtain ⟨⟨howner, hthread⟩, rfl⟩ := hstep
      exact .join howner hthread

/-- Each `quit()` of the owner stores into `quit_` after `loop()` has. -/
def quitsInLoop : Machine.Discipline (EventLoopThread Thread α) (ThreadAction Thread α) :=
  fun s a => match a with
    | .quitStore _ => s.thread = .inLoop
    | _ => True

instance (s : EventLoopThread Thread α) (a : ThreadAction Thread α) :
    Decidable (quitsInLoop s a) := by
  cases a <;> unfold quitsInLoop <;> infer_instance

end EventLoopThread

/-- Runs of an `EventLoopThread` with its owner and other threads. -/
def eventLoopThreads {Thread : Type} (owner : Thread) (α : Type) [DecidableEq Thread] :
    Machine (EventLoopThread Thread α) (ThreadAction Thread α) where
  init s := s = .create
  step := EventLoopThread.step owner

/-! ## The loop hears of a quit -/

namespace EventLoop

variable {Thread α : Type} [DecidableEq Thread] {s t : EventLoop Thread α} {a : Action Thread α}

/-- While `quit_` is set, a loop at its wait is or will be woken. -/
def QuitHeard (s : EventLoop Thread α) : Prop :=
  s.quit = true → s.pc = .wait → 0 < s.counter ∨ ∃ caller, s.call caller = .quitStored

theorem quitHeard_step (hs : s.QuitHeard) (hstep : s.step a = some t) : t.QuitHeard := by
  have hcallers {caller : Option Thread} {call : Call} (hmay : s.mayCall caller)
      (hquit : s.quit = true) (hwait : s.pc = .wait) :
      0 < s.counter ∨ ∃ other, s.setCall caller call other = .quitStored := by
    rcases hs hquit hwait with hreadable | ⟨other, hother⟩
    · exact .inl hreadable
    · have hne : other ≠ caller := by
        rintro rfl
        rw [hmay.1] at hother
        cases hother
      exact .inr ⟨other, (setCall_of_ne hne call).trans hother⟩
  cases moves_of_step hstep with
  | enterWait hpc hquit => exact fun hset => absurd (hquit.symm.trans hset) Bool.false_ne_true
  | push _ _ hmay | post _ _ hmay => exact fun hquit hwait => hcallers hmay hquit hwait
  | direct => exact hs
  | quit caller hmay => exact fun _ _ => .inr ⟨caller, setCall_self caller _⟩
  | wakeup caller hcall => exact fun _ _ => .inl (eventfdWrite_pos s.counter)
  | loop | leaveLoop | wait | handleWakeup | handleOther | handled | leaveHandler | leaveFunctor
  | swap | start | batchDone =>
      intro _ hwait
      cases hwait

/-- Only the store of `loop()` clears `quit_`. -/
theorem quit_step (hquit : s.quit = true) (hstep : s.step a = some t) (haction : a ≠ .loop) :
    t.quit = true := by
  cases moves_of_step hstep with
  | loop => exact absurd rfl haction
  | quit => exact rfl
  | _ => exact hquit

end EventLoop

namespace EventLoopThread

variable {Thread α : Type} [DecidableEq Thread] {owner : Thread} {s t : EventLoopThread Thread α}
  {a : ThreadAction Thread α}

/-- The owner has stored `true` into `quit_`. -/
def QuitStored (s : EventLoopThread Thread α) : Prop :=
  s.quitReturned = true ∨ ∃ destroying, s.owner = .quitting destroying

/-- A quit is remembered, because the loop has been entered before it, and heard. -/
structure Remembers (s : EventLoopThread Thread α) : Prop where
  fresh : s.owner = .idle → s.quitReturned = false
  entered : s.QuitStored → s.thread = .inLoop ∨ s.thread = .exited
  kept : s.QuitStored → s.loop.quit = true
  heard : s.loop.QuitHeard

omit [DecidableEq Thread] in
/-- A step after which the owner is not in `quit()` stores nothing. -/
theorem quitStored_of_move (hquit : t.QuitStored) (hreturned : t.quitReturned = s.quitReturned)
    (howner : ∀ destroying, t.owner ≠ .quitting destroying) : s.QuitStored := by
  rcases hquit with hquit | ⟨destroying, hquit⟩
  · exact .inl (hreturned ▸ hquit)
  · exact absurd hquit (howner destroying)

omit [DecidableEq Thread] in
theorem not_quitStored (hreturned : s.quitReturned = false)
    (howner : ∀ destroying, s.owner ≠ .quitting destroying) : ¬ s.QuitStored := by
  rintro (hyes | ⟨destroying, hquitting⟩)
  · exact absurd (hreturned.symm.trans hyes) Bool.false_ne_true
  · exact howner destroying hquitting

omit [DecidableEq Thread] in
theorem not_quitStored_of_thread (hs : s.Remembers) (hnotIn : s.thread ≠ .inLoop)
    (hnotExited : s.thread ≠ .exited) : ¬ s.QuitStored := fun hquit =>
  (hs.entered hquit).elim hnotIn hnotExited

/-- The step lemma for quits. -/
theorem remembers_step (hs : s.Remembers) (hok : quitsInLoop s a)
    (hstep : s.step owner a = some t) : t.Remembers := by
  cases moves_of_step hstep with
  | startLoop howner =>
      have hnone : ¬ QuitStored { s with owner := .starting, thread := .constructed } :=
        not_quitStored (hs.fresh howner) (by simp)
      exact ⟨fun hidle => absurd hidle (by simp), fun hquit => absurd hquit hnone,
        fun hquit => absurd hquit hnone, hs.heard⟩
  | publish hthread =>
      have hnone := not_quitStored_of_thread hs (by simp [hthread]) (by simp [hthread])
      exact ⟨hs.fresh, fun hquit => absurd hquit hnone, fun hquit => absurd hquit hnone, hs.heard⟩
  | enterLoop loop hthread hloop =>
      have hnone := not_quitStored_of_thread hs (by simp [hthread]) (by simp [hthread])
      exact ⟨hs.fresh, fun hquit => absurd hquit hnone, fun hquit => absurd hquit hnone,
        EventLoop.quitHeard_step hs.heard hloop⟩
  | loop action loop hallows hloop =>
      have haction : action ≠ .loop := by
        rintro rfl
        exact hallows
      exact ⟨hs.fresh, hs.entered, fun hquit => EventLoop.quit_step (hs.kept hquit) hloop haction,
        EventLoop.quitHeard_step hs.heard hloop⟩
  | clear hthread hpc => exact ⟨hs.fresh, fun _ => .inr rfl, hs.kept, hs.heard⟩
  | quitStore destroying loop howner hloop =>
      have hstored : loop.quit = true := by
        cases EventLoop.moves_of_step hloop
        rfl
      exact ⟨fun hidle => absurd hidle (by simp), fun _ => .inl hok, fun _ => hstored,
        EventLoop.quitHeard_step hs.heard hloop⟩
  | quitWakeup destroying loop howner hloop =>
      have hquit : s.QuitStored := .inr ⟨destroying, howner⟩
      refine ⟨fun hidle => ?_, fun _ => hs.entered hquit, fun _ => ?_,
        EventLoop.quitHeard_step hs.heard hloop⟩
      · cases destroying <;> cases hidle
      · exact EventLoop.quit_step (hs.kept hquit) hloop (by simp)
  | startReturns howner | skipQuit howner | join howner =>
      refine ⟨fun hidle => absurd hidle (by simp), fun hquit => hs.entered ?_,
        fun hquit => hs.kept ?_, hs.heard⟩
      all_goals exact quitStored_of_move hquit rfl (by simp)

omit [DecidableEq Thread] in
theorem remembers_create : (create : EventLoopThread Thread α).Remembers where
  fresh _ := rfl
  entered hquit := absurd hquit (not_quitStored rfl (by simp [create]))
  kept hquit := absurd hquit (not_quitStored rfl (by simp [create]))
  heard := by
    intro hquit
    cases hquit

/-- **A quit is not forgotten if it comes after the store of `loop()`.** In
every run in which each `quit()` of the owner stores into `quit_` after
`loop()` has, `quit_` is true in every state after `quit()` has returned: the
loop does not test it and go on to wait, and a loop that is at its wait is
readable, or is about to be made readable by another `quit()`. -/
theorem quit_remembered (owner : Thread) (s : EventLoopThread Thread α)
    (hreach : (eventLoopThreads owner α).ReachableWhere quitsInLoop s)
    (hreturned : s.quitReturned = true) :
    s.loop.quit = true ∧ (∀ loop, s.loop.step .test = some loop → loop.pc = .outside) ∧
      (s.loop.pc = .wait → 0 < s.loop.counter ∨ ∃ caller, s.loop.call caller = .quitStored) := by
  have hs : s.Remembers := by
    apply Machine.ReachableWhere.invariant
      (I := fun s : EventLoopThread Thread α => s.Remembers) _ _ hreach
    · rintro s rfl
      exact remembers_create
    · intro s a t hs hok hstep
      exact remembers_step hs hok hstep
  have hquit := hs.kept (.inl hreturned)
  refine ⟨hquit, fun loop hloop => ?_, hs.heard hquit⟩
  cases EventLoop.moves_of_step hloop with
  | leaveLoop => rfl
  | enterWait _ hnotSet => exact absurd (hnotSet.symm.trans hquit) Bool.false_ne_true

/-- A loop that is at its wait when the destructor quits it. -/
theorem quit_remembered_at_wait :
    ∃ s : EventLoopThread Unit Unit, s.owner = .joining ∧ s.loop.pc = .wait ∧
      s.loop.quit = true := by
  obtain ⟨s, hreach, howner, hwait, hreturned⟩ := Machine.exists_reachable_of_run
    (M := eventLoopThreads () Unit) (s := .create)
    (P := fun s => s.owner = .joining ∧ s.loop.pc = .wait ∧ s.quitReturned = true) quitsInLoop
    [.startLoop, .publish, .startReturns, .enterLoop, .loop .test, .quitStore true, .quitWakeup]
    rfl (by decide) (by decide)
  exact ⟨s, howner, hwait, (quit_remembered () s hreach hreturned).1⟩

/-- The destructor quits the loop right after its publication: `loop()` stores
`false`, and the destructor waits for a thread that waits for an event. -/
theorem quit_forgotten :
    (¬ ∀ s : EventLoopThread Unit Unit, (eventLoopThreads () Unit).Reachable s →
      s.quitReturned = true → s.loop.quit = true) ∧
    ∃ s : EventLoopThread Unit Unit, (eventLoopThreads () Unit).Reachable s ∧
      s.owner = .joining ∧ s.loop.pc = .wait ∧ s.loop.quit = false ∧ s.loop.counter = 0 := by
  obtain ⟨s, hreach, howner, hreturned, hwait, hquit, hcounter⟩ := Machine.exists_reachable_of_run
    (M := eventLoopThreads () Unit) (s := .create)
    (P := fun s => s.owner = .joining ∧ s.quitReturned = true ∧ s.loop.pc = .wait ∧
      s.loop.quit = false ∧ s.loop.counter = 0) Machine.anyStep
    [.startLoop, .publish, .startReturns, .quitStore true, .quitWakeup, .enterLoop, .loop .test,
      .loop (.wait [.wakeup]), .loop .handle, .loop .handle, .loop .swap, .loop .next, .loop .test]
    rfl (Machine.follows_anyStep _ _) (by decide)
  refine ⟨fun hall => ?_, s, hreach, howner, hwait, hquit, hcounter⟩
  exact absurd (hquit.symm.trans (hall s hreach hreturned)) Bool.false_ne_true

end EventLoopThread

end EpollHttpServer.Reactor
