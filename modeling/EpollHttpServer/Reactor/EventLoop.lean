/-
# The event loop and its callers

An `EventLoop` runs in one thread, and any thread may post functors to it or
ask it to quit.  A post is two steps, the `push_back` under the mutex and the
write to the eventfd, and so is `quit()`; the loop tests `quit_`, waits,
dispatches what is ready, swaps the pending functors out and runs them.  Each
atomic operation is one step here, and every order of steps is a run.

Handlers and functors run in the loop thread and may call `queueInLoop` and
`quit` themselves.  They are assumed to return, and not to call `loop()`.
-/

import Mathlib.Algebra.Group.Nat.Defs
import Mathlib.Logic.Function.Basic
import EpollHttpServer.Lib.BatchQueue
import EpollHttpServer.Lib.Machine

namespace EpollHttpServer.Reactor

open EpollHttpServer.Lib

/-- The largest value that the counter of an eventfd can have. -/
def eventfdMax : ℕ := 2 ^ 64 - 2

/-- Adding one to the counter, which fails with `EAGAIN` at its maximum. -/
def eventfdWrite (counter : ℕ) : ℕ :=
  if counter < eventfdMax then counter + 1 else counter

/-- A channel that `epoll_wait` reports. -/
inductive Ready where
  | wakeup
  | other
  deriving DecidableEq

/-- Where the loop thread is in `loop()`. -/
inductive Pc where
  | /-- Not in `loop()`. -/
    outside
  | test
  | wait
  | /-- Before the next of these events. -/
    dispatch (ready : List Ready)
  | /-- In the handler of a channel, with these events to follow. -/
    handler (ready : List Ready)
  | swap
  | /-- Before the next functor of the batch. -/
    run
  | functor
  deriving DecidableEq

/-- The loop thread runs code of others. -/
def Pc.inCallback : Pc → Prop
  | .handler _ => True
  | .functor => True
  | _ => False

instance (pc : Pc) : Decidable pc.inCallback := by
  cases pc <;> unfold Pc.inCallback <;> infer_instance

/-- The loop takes the pending functors before it waits again. -/
def Pc.beforeSwap : Pc → Prop
  | .dispatch _ => True
  | .handler _ => True
  | .swap => True
  | _ => False

/-- The call of the loop that a thread is in. -/
inductive Call where
  | idle
  | /-- In `queueInLoop`, behind the `push_back` with this number. -/
    pushed (index : ℕ)
  | /-- In `quit`, behind the store. -/
    quitStored
  deriving DecidableEq

/-- A functor, and how many batches had been taken when it was pushed. -/
structure Posted (α : Type) where
  functor : α
  round : ℕ
  deriving DecidableEq

/-- An event loop with its callers.  The loop thread is the caller `none`. -/
structure EventLoop (Thread α : Type) where
  quit : Bool
  counter : ℕ
  functors : BatchQueue (Posted α)
  pc : Pc
  call : Option Thread → Call
  /-- All functors in the order of their `push_back`. -/
  pushed : List (Posted α)
  /-- How many batches have been taken. -/
  rounds : ℕ

inductive Action (Thread α : Type) where
  | /-- Enter `loop()`, which stores `false` into `quit_`. -/
    loop
  | test
  | /-- `epoll_wait` returns; with nothing if it was interrupted. -/
    wait (ready : List Ready)
  | handle
  | /-- A handler or functor returns. -/
    leave
  | swap
  | next
  | /-- The `push_back` of `queueInLoop`. -/
    push (caller : Option Thread) (functor : α)
  | runInLoop (caller : Option Thread) (functor : α)
  | /-- The store of `quit`. -/
    quit (caller : Option Thread)
  | /-- The write to the eventfd, with which both calls end. -/
    wakeup (caller : Option Thread)

namespace EventLoop

variable {Thread α : Type}

/-- A loop that has just been constructed. -/
def create : EventLoop Thread α where
  quit := false
  counter := 0
  functors := .empty
  pc := .outside
  call _ := .idle
  pushed := []
  rounds := 0

/-- The thread may make a call: it is in none, and the loop thread makes calls
only from handlers and functors. -/
def mayCall (s : EventLoop Thread α) (caller : Option Thread) : Prop :=
  s.call caller = .idle ∧ (caller = none → s.pc.inCallback)

instance [DecidableEq Thread] (s : EventLoop Thread α) (caller : Option Thread) :
    Decidable (s.mayCall caller) :=
  inferInstanceAs (Decidable (_ ∧ _))

variable [DecidableEq Thread]

def setCall (s : EventLoop Thread α) (caller : Option Thread) (call : Call) :
    Option Thread → Call :=
  Function.update s.call caller call

/-- The `push_back` of `queueInLoop`. -/
def pushBack (s : EventLoop Thread α) (caller : Option Thread) (functor : α) :
    EventLoop Thread α :=
  let posted : Posted α := ⟨functor, s.rounds⟩
  { s with
    functors := s.functors.push posted
    pushed := s.pushed ++ [posted]
    call := s.setCall caller (.pushed s.pushed.length) }

/-- One step of the loop thread or of a caller. -/
def step (s : EventLoop Thread α) : Action Thread α → Option (EventLoop Thread α)
  | .loop => if s.pc = .outside then some { s with quit := false, pc := .test } else none
  | .test =>
    if s.pc = .test then some { s with pc := if s.quit then .outside else .wait } else none
  | .wait ready =>
    if s.pc = .wait ∧ (.wakeup ∈ ready → s.counter ≠ 0) then some { s with pc := .dispatch ready }
    else none
  | .handle =>
    match s.pc with
    | .dispatch (.wakeup :: ready) => some { s with counter := 0, pc := .dispatch ready }
    | .dispatch (.other :: ready) => some { s with pc := .handler ready }
    | .dispatch [] => some { s with pc := .swap }
    | _ => none
  | .leave =>
    match s.pc, s.call none with
    | .handler ready, .idle => some { s with pc := .dispatch ready }
    | .functor, .idle => some { s with pc := .run }
    | _, _ => none
  | .swap =>
    if s.pc = .swap then
      some { s with functors := s.functors.swap, rounds := s.rounds + 1, pc := .run }
    else none
  | .next =>
    if s.pc = .run then
      match s.functors.next with
      | some (_, functors) => some { s with functors := functors, pc := .functor }
      | none => some { s with pc := .test }
    else none
  | .push caller functor =>
    if s.mayCall caller then some (s.pushBack caller functor) else none
  | .runInLoop caller functor =>
    -- The loop thread runs the functor at once, as a part of its own callback.
    if s.mayCall caller then
      if caller = none then some s else some (s.pushBack caller functor)
    else none
  | .quit caller =>
    if s.mayCall caller then some { s with quit := true, call := s.setCall caller .quitStored }
    else none
  | .wakeup caller =>
    if s.call caller = .idle then none
    else some { s with counter := eventfdWrite s.counter, call := s.setCall caller .idle }

/-- What one step can do. -/
inductive Moves (s : EventLoop Thread α) : Action Thread α → EventLoop Thread α → Prop where
  | loop (hpc : s.pc = .outside) : Moves s .loop { s with quit := false, pc := .test }
  | leaveLoop (hpc : s.pc = .test) (hquit : s.quit = true) :
      Moves s .test { s with pc := .outside }
  | enterWait (hpc : s.pc = .test) (hquit : s.quit = false) : Moves s .test { s with pc := .wait }
  | wait (ready : List Ready) (hpc : s.pc = .wait) (hready : .wakeup ∈ ready → s.counter ≠ 0) :
      Moves s (.wait ready) { s with pc := .dispatch ready }
  | handleWakeup (ready : List Ready) (hpc : s.pc = .dispatch (.wakeup :: ready)) :
      Moves s .handle { s with counter := 0, pc := .dispatch ready }
  | handleOther (ready : List Ready) (hpc : s.pc = .dispatch (.other :: ready)) :
      Moves s .handle { s with pc := .handler ready }
  | handled (hpc : s.pc = .dispatch []) : Moves s .handle { s with pc := .swap }
  | leaveHandler (ready : List Ready) (hpc : s.pc = .handler ready) (hcall : s.call none = .idle) :
      Moves s .leave { s with pc := .dispatch ready }
  | leaveFunctor (hpc : s.pc = .functor) (hcall : s.call none = .idle) :
      Moves s .leave { s with pc := .run }
  | swap (hpc : s.pc = .swap) :
      Moves s .swap { s with functors := s.functors.swap, rounds := s.rounds + 1, pc := .run }
  | start (posted : Posted α) (functors : BatchQueue (Posted α)) (hpc : s.pc = .run)
      (hnext : s.functors.next = some (posted, functors)) :
      Moves s .next { s with functors := functors, pc := .functor }
  | batchDone (hpc : s.pc = .run) (hnext : s.functors.next = none) :
      Moves s .next { s with pc := .test }
  | push (caller : Option Thread) (functor : α) (hmay : s.mayCall caller) :
      Moves s (.push caller functor) (s.pushBack caller functor)
  | post (caller : Option Thread) (functor : α) (hmay : s.mayCall caller)
      (hcaller : caller ≠ none) :
      Moves s (.runInLoop caller functor) (s.pushBack caller functor)
  | direct (functor : α) (hmay : s.mayCall none) : Moves s (.runInLoop none functor) s
  | quit (caller : Option Thread) (hmay : s.mayCall caller) :
      Moves s (.quit caller) { s with quit := true, call := s.setCall caller .quitStored }
  | wakeup (caller : Option Thread) (hcall : s.call caller ≠ .idle) :
      Moves s (.wakeup caller)
        { s with counter := eventfdWrite s.counter, call := s.setCall caller .idle }

variable {s t : EventLoop Thread α} {a : Action Thread α}

theorem moves_of_step (hstep : s.step a = some t) : Moves s a t := by
  cases a with
  | loop =>
      simp only [step, Option.ite_none_right_eq_some, Option.some.injEq] at hstep
      obtain ⟨hpc, rfl⟩ := hstep
      exact .loop hpc
  | test =>
      simp only [step, Option.ite_none_right_eq_some, Option.some.injEq] at hstep
      obtain ⟨hpc, rfl⟩ := hstep
      by_cases hquit : s.quit = true
      · rw [if_pos hquit]
        exact .leaveLoop hpc hquit
      · rw [if_neg hquit]
        exact .enterWait hpc (by simpa using hquit)
  | wait ready =>
      simp only [step, Option.ite_none_right_eq_some, Option.some.injEq] at hstep
      obtain ⟨⟨hpc, hready⟩, rfl⟩ := hstep
      exact .wait ready hpc hready
  | handle =>
      simp only [step] at hstep
      split at hstep
      · next ready hpc =>
        cases hstep
        exact .handleWakeup ready hpc
      · next ready hpc =>
        cases hstep
        exact .handleOther ready hpc
      · next hpc =>
        cases hstep
        exact .handled hpc
      · cases hstep
  | leave =>
      simp only [step] at hstep
      split at hstep
      · next ready hpc hcall =>
        cases hstep
        exact .leaveHandler ready hpc hcall
      · next hpc hcall =>
        cases hstep
        exact .leaveFunctor hpc hcall
      · cases hstep
  | swap =>
      simp only [step, Option.ite_none_right_eq_some, Option.some.injEq] at hstep
      obtain ⟨hpc, rfl⟩ := hstep
      exact .swap hpc
  | next =>
      simp only [step, Option.ite_none_right_eq_some] at hstep
      obtain ⟨hpc, hstep⟩ := hstep
      split at hstep
      · next posted functors hnext =>
        cases hstep
        exact .start posted functors hpc hnext
      · next hnext =>
        cases hstep
        exact .batchDone hpc hnext
  | push caller functor =>
      simp only [step, Option.ite_none_right_eq_some, Option.some.injEq] at hstep
      obtain ⟨hmay, rfl⟩ := hstep
      exact .push caller functor hmay
  | runInLoop caller functor =>
      simp only [step, Option.ite_none_right_eq_some] at hstep
      obtain ⟨hmay, hstep⟩ := hstep
      split at hstep
      · next hcaller =>
        subst hcaller
        cases hstep
        exact .direct functor hmay
      · next hcaller =>
        cases hstep
        exact .post caller functor hmay hcaller
  | quit caller =>
      simp only [step, Option.ite_none_right_eq_some, Option.some.injEq] at hstep
      obtain ⟨hmay, rfl⟩ := hstep
      exact .quit caller hmay
  | wakeup caller =>
      simp only [step, Option.ite_none_left_eq_some, Option.some.injEq] at hstep
      obtain ⟨hcall, rfl⟩ := hstep
      exact .wakeup caller hcall

/-! ## Functors run once and in order -/

/-- The queue holds exactly what was pushed; the batch is run between a swap
and the next test, and everything in it was pushed before it was taken. -/
structure Consistent (s : EventLoop Thread α) : Prop where
  contents : s.functors.contents = s.pushed
  batch : s.functors.batch = [] ∨ s.pc = .run ∨ s.pc = .functor
  batchRound : ∀ posted ∈ s.functors.batch, posted.round < s.rounds
  inboxRound : ∀ posted ∈ s.functors.inbox, posted.round ≤ s.rounds

omit [DecidableEq Thread] in
/-- Away from the batch there is none. -/
theorem Consistent.batch_eq_nil (hs : s.Consistent) (hrun : s.pc ≠ .run)
    (hfunctor : s.pc ≠ .functor) : s.functors.batch = [] := by
  rcases hs.batch with hdone | hpc | hpc
  · exact hdone
  · exact absurd hpc hrun
  · exact absurd hpc hfunctor

omit [DecidableEq Thread] in
/-- A step that leaves the functors alone. -/
theorem Consistent.move (hs : s.Consistent) (hfunctors : t.functors = s.functors)
    (hpushed : t.pushed = s.pushed) (hrounds : t.rounds = s.rounds)
    (hbatch : t.functors.batch = [] ∨ t.pc = .run ∨ t.pc = .functor) : t.Consistent where
  contents := by rw [hfunctors, hpushed, hs.contents]
  batch := hbatch
  batchRound := by
    rw [hfunctors, hrounds]
    exact hs.batchRound
  inboxRound := by
    rw [hfunctors, hrounds]
    exact hs.inboxRound

omit [DecidableEq Thread] in
theorem consistent_create : (create : EventLoop Thread α).Consistent where
  contents := rfl
  batch := .inl rfl
  batchRound := by simp [create, BatchQueue.empty]
  inboxRound := by simp [create, BatchQueue.empty]

/-- The step lemma for the order of functors. -/
theorem consistent_step (hs : s.Consistent) (hstep : s.step a = some t) : t.Consistent := by
  have hdone {pc : Pc} (hpc : s.pc = pc) (hrun : pc ≠ .run) (hfunctor : pc ≠ .functor) :
      s.functors.batch = [] :=
    hs.batch_eq_nil (hpc ▸ hrun) (hpc ▸ hfunctor)
  cases moves_of_step hstep with
  | loop hpc | leaveLoop hpc | enterWait hpc | wait _ hpc | handleWakeup _ hpc | handleOther _ hpc
  | handled hpc | leaveHandler _ hpc =>
      exact hs.move rfl rfl rfl (.inl (hdone hpc (by simp) (by simp)))
  | leaveFunctor hpc => exact hs.move rfl rfl rfl (.inr (.inl rfl))
  | swap hpc =>
      have hempty := hdone hpc (by simp) (by simp)
      refine ⟨(BatchQueue.contents_swap hempty).trans hs.contents, .inr (.inl rfl), ?_, ?_⟩
      · intro posted hposted
        exact Nat.lt_succ_of_le (hs.inboxRound posted hposted)
      · intro posted hposted
        have hnone : s.functors.swap.inbox = [] := BatchQueue.inbox_swap hempty
        rw [hnone] at hposted
        cases hposted
  | start posted functors hpc hnext =>
      obtain ⟨hbatch, hstarted, hinbox⟩ := BatchQueue.next_eq_some hnext
      refine ⟨(BatchQueue.contents_next hnext).trans hs.contents, .inr (.inr rfl), ?_, ?_⟩
      · intro later hlater
        apply hs.batchRound
        rw [hbatch]
        exact List.mem_cons_of_mem _ hlater
      · intro later hlater
        apply hs.inboxRound
        rwa [← hinbox]
  | batchDone hpc hnext => exact hs.move rfl rfl rfl (.inl (BatchQueue.next_eq_none hnext))
  | push caller functor hmay | post caller functor hmay =>
      refine ⟨?_, hs.batch, hs.batchRound, ?_⟩
      · rw [pushBack, BatchQueue.contents_push, hs.contents]
      · intro posted hposted
        rcases List.mem_append.mp hposted with hearlier | hnew
        · exact hs.inboxRound posted hearlier
        · rw [List.mem_singleton.mp hnew]
          exact Nat.le_refl _
  | direct => exact hs
  | quit => exact hs.move rfl rfl rfl hs.batch
  | wakeup => exact hs.move rfl rfl rfl hs.batch

end EventLoop

/-- Runs of an event loop with the callers `Thread`. -/
def eventLoops (Thread α : Type) [DecidableEq Thread] :
    Machine (EventLoop Thread α) (Action Thread α) where
  init s := s = .create
  step := EventLoop.step

namespace EventLoop

variable {Thread α : Type} [DecidableEq Thread] {s t : EventLoop Thread α} {a : Action Thread α}

/-- The run lemma for the order of functors. -/
theorem consistent_of_reachable (hreach : (eventLoops Thread α).Reachable s) : s.Consistent := by
  apply Machine.Reachable.invariant (I := fun s : EventLoop Thread α => s.Consistent) _ _ hreach
  · rintro s rfl
    exact consistent_create
  · intro s a t hs hstep
    exact consistent_step hs hstep

/-- **Queued functors run exactly once and in order.** In every reachable state
the functors started so far, the rest of the batch and the pending functors are
together the functors pushed so far, in the order of their `push_back`.  A
batch is taken only when the handlers have returned and the batch before has
been run, and a functor is started only after a batch has been taken that it
was pushed before: whatever was running when it was pushed has finished. -/
theorem functors_run_in_order (s : EventLoop Thread α)
    (hreach : (eventLoops Thread α).Reachable s) :
    s.functors.started ++ s.functors.batch ++ s.functors.inbox = s.pushed ∧
    (∀ t, (eventLoops Thread α).step s .swap = some t →
      s.pc = .swap ∧ s.functors.batch = [] ∧ t.rounds = s.rounds + 1) ∧
    ∀ a t, (eventLoops Thread α).step s a = some t →
      t.functors.started = s.functors.started ∨
        ∃ posted,
          t.functors.started = s.functors.started ++ [posted] ∧ posted.round < s.rounds := by
  have hs := consistent_of_reachable hreach
  refine ⟨hs.contents, fun t hstep => ?_, fun a t hstep => ?_⟩
  · simp only [eventLoops, step, Option.ite_none_right_eq_some, Option.some.injEq] at hstep
    obtain ⟨hpc, rfl⟩ := hstep
    exact ⟨hpc, hs.batch_eq_nil (by simp [hpc]) (by simp [hpc]), rfl⟩
  · cases moves_of_step hstep with
    | start posted functors hpc hnext =>
        obtain ⟨hbatch, hstarted, _⟩ := BatchQueue.next_eq_some hnext
        refine .inr ⟨posted, hstarted, hs.batchRound posted ?_⟩
        rw [hbatch]
        exact List.mem_cons_self ..
    | _ => exact .inl rfl

/-- A functor that posts another one while a third is pending. -/
theorem functors_run_in_order_nested :
    ∃ s : EventLoop Unit ℕ, s.pushed = [⟨1, 0⟩, ⟨2, 0⟩, ⟨3, 1⟩] ∧
      s.functors.started ++ s.functors.batch ++ s.functors.inbox = s.pushed := by
  obtain ⟨s, hreach, hpushed⟩ := Machine.exists_reachable_of_run
    (M := eventLoops Unit ℕ) (s := .create)
    (P := fun s => s.pushed = [⟨1, 0⟩, ⟨2, 0⟩, ⟨3, 1⟩]) Machine.anyStep
    [.push (some ()) 1, .wakeup (some ()), .loop, .test, .push (some ()) 2, .wait [.wakeup],
      .handle, .handle, .swap, .next, .push none 3, .wakeup none, .leave, .next]
    rfl (Machine.follows_anyStep _ _) (by decide)
  exact ⟨s, hpushed, (functors_run_in_order s hreach).1⟩

/-! ## No lost wakeup -/

/-- A functor is pending only while its caller has yet to write to the eventfd,
the eventfd is readable, or the loop is about to take it. -/
def Awake (s : EventLoop Thread α) : Prop :=
  ∀ i, s.functors.taken ≤ i → i < s.pushed.length →
    (∃ caller, s.call caller = .pushed i) ∨ 0 < s.counter ∨ s.pc.beforeSwap

theorem eventfdWrite_pos (counter : ℕ) : 0 < eventfdWrite counter := by
  unfold eventfdWrite eventfdMax
  split <;> omega

theorem setCall_of_ne {caller other : Option Thread} (hne : other ≠ caller) (call : Call) :
    s.setCall caller call other = s.call other := by
  rw [setCall, Function.update_of_ne hne]

theorem setCall_self (caller : Option Thread) (call : Call) :
    s.setCall caller call caller = call := by
  rw [setCall, Function.update_self]

omit [DecidableEq Thread] in
/-- A caller in the middle of a call is not the one that starts another. -/
theorem ne_of_mayCall {caller other : Option Thread} {i : ℕ} (hmay : s.mayCall caller)
    (hother : s.call other = .pushed i) : other ≠ caller := by
  rintro rfl
  rw [hmay.1] at hother
  cases hother

omit [DecidableEq Thread] in
/-- A step of the loop thread that takes no functor and leaves the eventfd alone. -/
theorem Awake.move (hs : s.Awake) (htaken : t.functors.taken = s.functors.taken)
    (hpushed : t.pushed = s.pushed) (hcall : t.call = s.call) (hcounter : t.counter = s.counter)
    (hpc : s.pc.beforeSwap → t.pc.beforeSwap) : t.Awake := by
  intro i hnotTaken hi
  rw [htaken] at hnotTaken
  rw [hpushed] at hi
  rw [hcall, hcounter]
  rcases hs i hnotTaken hi with hcaller | hreadable | hbefore
  · exact .inl hcaller
  · exact .inr (.inl hreadable)
  · exact .inr (.inr (hpc hbefore))

/-- The step lemma for wakeups. -/
theorem awake_step (hconsistent : s.Consistent) (hs : s.Awake) (hstep : s.step a = some t) :
    t.Awake := by
  cases moves_of_step hstep with
  | loop hpc | leaveLoop hpc | enterWait hpc | leaveFunctor hpc | batchDone hpc =>
      exact hs.move rfl rfl rfl rfl (by simp [hpc, Pc.beforeSwap])
  | wait | handleOther | handled | leaveHandler =>
      exact hs.move rfl rfl rfl rfl fun _ => trivial
  | handleWakeup => exact fun i _ _ => .inr (.inr trivial)
  | swap hpc =>
      have hempty := hconsistent.batch_eq_nil (by simp [hpc]) (by simp [hpc])
      have hnone : s.functors.swap.inbox = [] := BatchQueue.inbox_swap hempty
      have hlength := s.functors.swap.length_contents
      rw [BatchQueue.contents_swap hempty, hconsistent.contents, hnone] at hlength
      intro i hnotTaken hi
      have hall : s.pushed.length = s.functors.swap.taken := hlength
      have hle : s.functors.swap.taken ≤ i := hnotTaken
      exact absurd hi (by show ¬ i < s.pushed.length; omega)
  | start posted functors hpc hnext =>
      exact hs.move (BatchQueue.taken_next hnext) rfl rfl rfl (by simp [hpc, Pc.beforeSwap])
  | push caller functor hmay | post caller functor hmay =>
      intro i hnotTaken hi
      have hle : i ≤ s.pushed.length := by
        have hlength : (s.pushBack caller functor).pushed.length = s.pushed.length + 1 := by
          simp [pushBack]
        omega
      rcases Nat.lt_or_eq_of_le hle with hearlier | rfl
      · rcases hs i hnotTaken hearlier with ⟨other, hother⟩ | hrest
        · refine .inl ⟨other, ?_⟩
          exact (setCall_of_ne (ne_of_mayCall hmay hother) _).trans hother
        · exact .inr hrest
      · exact .inl ⟨caller, setCall_self caller _⟩
  | direct => exact hs
  | quit caller hmay =>
      intro i hnotTaken hi
      rcases hs i hnotTaken hi with ⟨other, hother⟩ | hrest
      · refine .inl ⟨other, ?_⟩
        exact (setCall_of_ne (ne_of_mayCall hmay hother) _).trans hother
      · exact .inr hrest
  | wakeup caller hcall => exact fun i _ _ => .inr (.inl (eventfdWrite_pos s.counter))

/-- The run lemma for wakeups. -/
theorem awake_of_reachable (hreach : (eventLoops Thread α).Reachable s) :
    s.Consistent ∧ s.Awake := by
  apply Machine.Reachable.invariant
    (I := fun s : EventLoop Thread α => s.Consistent ∧ s.Awake) _ _ hreach
  · rintro s rfl
    exact ⟨consistent_create, fun i _ hi => absurd hi (Nat.not_lt_zero i)⟩
  · intro s a t ⟨hconsistent, hawake⟩ hstep
    exact ⟨consistent_step hconsistent hstep, awake_step hconsistent hawake hstep⟩

/-- **No lost wakeup.** In every reachable state in which the loop is at its
wait and the eventfd is not readable, each functor that is still pending has
been pushed by a caller that has yet to write to the eventfd.  If no caller is
between its push and its write, nothing is pending. -/
theorem no_lost_wakeup (s : EventLoop Thread α) (hreach : (eventLoops Thread α).Reachable s)
    (hwait : s.pc = .wait) (hcounter : s.counter = 0) :
    (∀ i, s.functors.taken ≤ i → i < s.pushed.length → ∃ caller, s.call caller = .pushed i) ∧
    ((∀ caller i, s.call caller ≠ .pushed i) → s.functors.inbox = []) := by
  obtain ⟨hconsistent, hawake⟩ := awake_of_reachable hreach
  have hpending : ∀ i, s.functors.taken ≤ i → i < s.pushed.length →
      ∃ caller, s.call caller = .pushed i := by
    intro i hnotTaken hi
    rcases hawake i hnotTaken hi with hcaller | hreadable | hbefore
    · exact hcaller
    · omega
    · rw [hwait] at hbefore
      exact hbefore.elim
  refine ⟨hpending, fun hnobody => ?_⟩
  apply BatchQueue.inbox_eq_nil_of_taken
  rw [hconsistent.contents]
  by_contra hmore
  obtain ⟨caller, hcaller⟩ := hpending s.functors.taken (Nat.le_refl _) (Nat.lt_of_not_le hmore)
  exact hnobody caller _ hcaller

/-- A loop that has run the functor of a caller and waits again. -/
theorem no_lost_wakeup_after_batch :
    ∃ s : EventLoop Unit ℕ, s.pc = .wait ∧ s.functors.started = [⟨1, 0⟩] ∧
      s.functors.inbox = [] := by
  obtain ⟨s, hreach, hwait, hcounter, hidle, hstarted⟩ := Machine.exists_reachable_of_run
    (M := eventLoops Unit ℕ) (s := .create)
    (P := fun s => s.pc = .wait ∧ s.counter = 0 ∧
      (∀ caller ∈ [none, some ()], s.call caller = .idle) ∧ s.functors.started = [⟨1, 0⟩])
    Machine.anyStep
    [.loop, .test, .push (some ()) 1, .wakeup (some ()), .wait [.wakeup], .handle, .handle, .swap,
      .next, .leave, .next, .test]
    rfl (Machine.follows_anyStep _ _) (by decide)
  have hnobody (caller : Option Unit) (i : ℕ) : s.call caller ≠ .pushed i := by
    rw [hidle caller (by cases caller <;> simp)]
    simp
  exact ⟨s, hwait, hstarted, (no_lost_wakeup s hreach hwait hcounter).2 hnobody⟩

end EventLoop

end EpollHttpServer.Reactor
