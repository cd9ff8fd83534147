/-
# Leaving the loop

Once `quit_` is set, the loop thread leaves `loop()` at its next test.  Until
then it takes one more batch at most, finitely many steps of its own whatever
the other threads do, and it never blocks: at its wait the eventfd is readable,
or a thread is about to make it so.  Functors that are pending behind the last
swap stay where they are.

The destructor of an `EventLoopThread` joins the thread.  If every `quit()` of
the owner comes after the store of `loop()`, the join returns.
-/

import Mathlib.Data.Prod.Lex
import EpollHttpServer.Lib.Exhaustion
import EpollHttpServer.Reactor.EventLoopThread

namespace EpollHttpServer.Reactor

open EpollHttpServer.Lib

/-- What the loop thread does in `loop()` itself.  A wait that is interrupted
does not count. -/
def Action.isOwn {Thread α : Type} : Action Thread α → Prop
  | .wait ready => ready ≠ []
  | .test | .handle | .leave | .swap | .next => True
  | _ => False

/-- How far the loop thread is from the end of `loop()`, if `quit_` is set. -/
def Pc.stage : Pc → ℕ
  | .outside => 0
  | .test => 1
  | .run => 2
  | .functor => 2
  | .swap => 3
  | .dispatch _ => 4
  | .handler _ => 4
  | .wait => 5

/-- What the loop thread has to do in this stage, but for the batch. -/
def Pc.left : Pc → ℕ
  | .dispatch ready => 2 * ready.length
  | .handler ready => 2 * ready.length + 1
  | .functor => 1
  | _ => 0

/-- No batch is taken any more, if `quit_` is set. -/
def Pc.pastSwap : Pc → Prop
  | .outside => True
  | .test => True
  | .run => True
  | .functor => True
  | _ => False

instance : (pc : Pc) → Decidable pc.pastSwap
  | .outside => isTrue trivial
  | .test => isTrue trivial
  | .run => isTrue trivial
  | .functor => isTrue trivial
  | .wait => isFalse id
  | .dispatch _ => isFalse id
  | .handler _ => isFalse id
  | .swap => isFalse id

namespace EventLoop

variable {Thread α : Type} {s t : EventLoop Thread α} {a : Action Thread α}

/-- What the loop thread has to do until it leaves `loop()`. -/
def toLeave (s : EventLoop Thread α) : ℕ ×ₗ ℕ :=
  toLex (s.pc.stage, 2 * s.functors.batch.length + s.pc.left)

theorem toLeave_lt_of_stage (hstage : t.pc.stage < s.pc.stage) : t.toLeave < s.toLeave :=
  Prod.Lex.toLex_lt_toLex.mpr (.inl hstage)

theorem toLeave_lt_of_left (hstage : t.pc.stage = s.pc.stage)
    (hleft : 2 * t.functors.batch.length + t.pc.left < 2 * s.functors.batch.length + s.pc.left) :
    t.toLeave < s.toLeave :=
  Prod.Lex.toLex_lt_toLex.mpr (.inr ⟨hstage, hleft⟩)

variable [DecidableEq Thread]

/-- The loop has been asked to quit and is not entered again. -/
def leaving : Machine.Discipline (EventLoop Thread α) (Action Thread α) :=
  fun s a => s.quit = true ∧ a ≠ .loop

/-- The steps of the loop thread itself. -/
def own : Machine.Discipline (EventLoop Thread α) (Action Thread α) := fun _ a => a.isOwn

omit [DecidableEq Thread] in
theorem gets_on {P : Prop} (hlt : t.toLeave < s.toLeave) :
    t.toLeave ≤ s.toLeave ∧ (P → t.toLeave < s.toLeave) :=
  ⟨hlt.le, fun _ => hlt⟩

/-- The step lemma: as long as the loop thread does not enter its wait, it gets
on, and nobody keeps it from leaving. -/
theorem toLeave_step (hloop : a ≠ .loop) (hwait : s.quit = true ∨ t.pc ≠ .wait)
    (hstep : s.step a = some t) :
    t.toLeave ≤ s.toLeave ∧ (a.isOwn → t.toLeave < s.toLeave) := by
  cases moves_of_step hstep with
  | loop => exact absurd rfl hloop
  | enterWait _ hquit =>
      rcases hwait with hset | hnot
      · exact absurd (hquit.symm.trans hset) Bool.false_ne_true
      · exact absurd rfl hnot
  | leaveLoop hpc | wait _ hpc | handled hpc | swap hpc | batchDone hpc =>
      exact gets_on (toLeave_lt_of_stage (by simp [hpc, Pc.stage]))
  | handleWakeup ready hpc | handleOther ready hpc =>
      refine gets_on (toLeave_lt_of_left (by simp [hpc, Pc.stage]) ?_)
      simp only [hpc, Pc.left, List.length_cons]
      omega
  | leaveHandler ready hpc | leaveFunctor hpc =>
      refine gets_on (toLeave_lt_of_left (by simp [hpc, Pc.stage]) ?_)
      simp only [hpc, Pc.left]
      omega
  | start posted functors hpc hnext =>
      refine gets_on (toLeave_lt_of_left (by simp [hpc, Pc.stage]) ?_)
      simp only [hpc, Pc.left, (BatchQueue.next_eq_some hnext).1, List.length_cons]
      omega
  | push | post | direct | quit | wakeup => exact ⟨le_rfl, fun hown => hown.elim⟩

theorem exhausts_own : (eventLoops Thread α).Exhausts leaving own :=
  Machine.exhausts_of_measure EventLoop.toLeave
    (fun _ _ _ hok hstep => (toLeave_step hok.2 (.inl hok.1) hstep).1)
    fun _ _ _ hok hown hstep => (toLeave_step hok.2 (.inl hok.1) hstep).2 hown

/-- The batches that have been taken, counting the one that is to come. -/
def lastRound (s : EventLoop Thread α) : ℕ := if s.pc.pastSwap then s.rounds else s.rounds + 1

/-- A loop that is past its swap stays so, and no swap is added. -/
theorem lastRound_step (hok : leaving s a) (hstep : s.step a = some t) :
    t.lastRound = s.lastRound ∧ (s.pc.pastSwap → t.pc.pastSwap) := by
  cases moves_of_step hstep with
  | loop => exact absurd rfl hok.2
  | enterWait _ hquit => exact absurd (hquit.symm.trans hok.1) Bool.false_ne_true
  | leaveLoop hpc | wait _ hpc | handleWakeup _ hpc | handleOther _ hpc | handled hpc
  | leaveHandler _ hpc | leaveFunctor hpc | swap hpc | start _ _ hpc | batchDone hpc =>
      simp [lastRound, hpc, Pc.pastSwap]
  | push | post | direct | quit | wakeup => exact ⟨rfl, id⟩

/-- What is pending behind the last swap stays pending. -/
theorem inbox_step (hok : leaving s a) (hpast : s.pc.pastSwap) (hstep : s.step a = some t) :
    ∃ later, t.functors.inbox = s.functors.inbox ++ later := by
  cases moves_of_step hstep with
  | loop => exact absurd rfl hok.2
  | swap hpc =>
      rw [hpc] at hpast
      exact hpast.elim
  | start posted functors hpc hnext =>
      exact ⟨[], by rw [List.append_nil, ← (BatchQueue.next_eq_some hnext).2.2]⟩
  | push | post => exact ⟨_, rfl⟩
  | leaveLoop | enterWait | wait | handleWakeup | handleOther | handled | leaveHandler
  | leaveFunctor | batchDone | direct | quit | wakeup => exact ⟨[], (List.append_nil _).symm⟩

/-- The run lemma for what is left behind. -/
theorem left_of_leaving (hrun : (eventLoops Thread α).ReachesWhere leaving s t) :
    t.lastRound = s.lastRound ∧
      (s.pc.pastSwap → t.pc.pastSwap ∧ ∃ later, t.functors.inbox = s.functors.inbox ++ later) := by
  induction hrun with
  | refl => exact ⟨rfl, fun hpast => ⟨hpast, [], (List.append_nil _).symm⟩⟩
  | tail _ hlast ih =>
      obtain ⟨a, hok, hstep⟩ := hlast
      obtain ⟨hround, hpast⟩ := lastRound_step hok hstep
      refine ⟨hround.trans ih.1, fun hstart => ?_⟩
      obtain ⟨hnow, later, hinbox⟩ := ih.2 hstart
      obtain ⟨more, hmore⟩ := inbox_step hok hnow hstep
      exact ⟨hpast hnow, later ++ more, by rw [hmore, hinbox, List.append_assoc]⟩

/-- A loop that has been asked to quit goes on, or some thread is in a call. -/
theorem goes_on (hheard : s.QuitHeard) (hquit : s.quit = true) (hpc : s.pc ≠ .outside) :
    (∃ a t, a.isOwn ∧ s.step a = some t) ∨ ∃ caller, s.call caller ≠ .idle := by
  cases hcase : s.pc with
  | outside => exact absurd hcase hpc
  | test =>
      refine .inl ⟨.test, ?_⟩
      simp only [step, hcase]
      exact ⟨_, trivial, rfl⟩
  | wait =>
      rcases hheard hquit hcase with hreadable | ⟨caller, hcaller⟩
      · have henabled : s.step (.wait [.wakeup]) = some { s with pc := .dispatch [.wakeup] } :=
          if_pos ⟨hcase, fun _ => hreadable.ne'⟩
        exact .inl ⟨.wait [.wakeup], _, by simp [Action.isOwn], henabled⟩
      · exact .inr ⟨caller, by simp [hcaller]⟩
  | dispatch ready =>
      refine .inl ⟨.handle, ?_⟩
      rcases ready with _ | ⟨_ | _, ready⟩ <;>
        · simp only [step, hcase]
          exact ⟨_, trivial, rfl⟩
  | handler ready =>
      by_cases hcall : s.call none = .idle
      · refine .inl ⟨.leave, ?_⟩
        simp only [step, hcase, hcall]
        exact ⟨_, trivial, rfl⟩
      · exact .inr ⟨none, hcall⟩
  | swap =>
      refine .inl ⟨.swap, ?_⟩
      simp only [step, hcase]
      exact ⟨_, trivial, rfl⟩
  | run =>
      refine .inl ⟨.next, ?_⟩
      simp only [step, hcase]
      cases s.functors.next <;> exact ⟨_, trivial, rfl⟩
  | functor =>
      by_cases hcall : s.call none = .idle
      · refine .inl ⟨.leave, ?_⟩
        simp only [step, hcase, hcall]
        exact ⟨_, trivial, rfl⟩
      · exact .inr ⟨none, hcall⟩

theorem quitHeard_of_reachable (hreach : (eventLoops Thread α).Reachable s) : s.QuitHeard := by
  apply Machine.Reachable.invariant (I := fun s : EventLoop Thread α => s.QuitHeard) _ _ hreach
  · rintro s rfl hquit
    cases hquit
  · intro s a t hs hstep
    exact quitHeard_step hs hstep

/-- **A loop that is asked to quit leaves.** When `quit_` is set, then until
`loop()` is entered again: the loop thread takes finitely many steps of its
own, whatever the others do, and one batch at most; what is pending when the
last batch has been taken stays pending; and the loop thread can always go on,
if no thread is in the middle of a call. -/
theorem quit_ends_loop (s : EventLoop Thread α) (hreach : (eventLoops Thread α).Reachable s)
    (hquit : s.quit = true) :
    (eventLoops Thread α).Exhausts leaving own ∧
      (∀ t, (eventLoops Thread α).ReachesWhere leaving s t → t.rounds ≤ s.rounds + 1 ∧
        (s.pc.pastSwap → t.rounds = s.rounds ∧
          ∃ later, t.functors.inbox = s.functors.inbox ++ later)) ∧
      (s.pc ≠ .outside →
        (∃ a t, a.isOwn ∧ s.step a = some t) ∨ ∃ caller, s.call caller ≠ .idle) := by
  refine ⟨exhausts_own, fun t hrun => ?_, goes_on (quitHeard_of_reachable hreach) hquit⟩
  obtain ⟨hround, hpast⟩ := left_of_leaving hrun
  refine ⟨?_, fun hstart => ?_⟩
  · unfold lastRound at hround
    split at hround <;> split at hround <;> omega
  · obtain ⟨hnow, hinbox⟩ := hpast hstart
    rw [lastRound, lastRound, if_pos hstart, if_pos hnow] at hround
    exact ⟨hround, hinbox⟩

/-- A loop that is asked to quit by another thread while it runs its last batch. -/
theorem quit_ends_loop_in_batch :
    ∃ s : EventLoop Unit ℕ, s.pc = .functor ∧ s.functors.inbox = [⟨2, 1⟩] ∧
      ∀ t, (eventLoops Unit ℕ).ReachesWhere leaving s t → t.rounds = 1 := by
  obtain ⟨s, hreach, hquit, hpc, hrounds, hinbox⟩ := Machine.exists_reachable_of_run
    (M := eventLoops Unit ℕ) (s := .create)
    (P := fun s => s.quit = true ∧ s.pc = .functor ∧ s.rounds = 1 ∧
      s.functors.inbox = [⟨2, 1⟩]) Machine.anyStep
    [.loop, .test, .push (some ()) 1, .wakeup (some ()), .wait [.wakeup], .handle, .handle, .swap,
      .next, .push (some ()) 2, .wakeup (some ()), .quit (some ())]
    rfl (Machine.follows_anyStep _ _) (by decide)
  refine ⟨s, hpc, hinbox, fun t hrun => ?_⟩
  have hpast : s.pc.pastSwap := by
    rw [hpc]
    trivial
  exact (((quit_ends_loop s hreach hquit).2.1 t hrun).2 hpast).1.trans hrounds

end EventLoop

/-! ## The destructor -/

/-- How far the loop thread is from its end. -/
def ThreadPc.rank : ThreadPc → ℕ
  | .notStarted => 4
  | .constructed => 3
  | .published => 2
  | .inLoop => 1
  | .exited => 0

namespace EventLoopThread

variable {Thread α : Type}

/-- The thread is not joined yet, and before that the loop has to be left. -/
def toJoin (s : EventLoopThread Thread α) : ℕ ×ₗ ℕ ×ₗ ℕ ×ₗ ℕ :=
  toLex (if s.owner = .joined then 0 else 1, toLex (s.thread.rank, s.loop.toLeave))

variable {owner : Thread} {s t : EventLoopThread Thread α} {a : ThreadAction Thread α}

theorem toJoin_lt_of_thread (howner : t.owner = s.owner)
    (hthread : t.thread.rank < s.thread.rank) : t.toJoin < s.toJoin :=
  Prod.Lex.toLex_lt_toLex.mpr (.inr ⟨by rw [howner], Prod.Lex.toLex_lt_toLex.mpr (.inl hthread)⟩)

variable [DecidableEq Thread]

/-- The destructor waits for the thread, and the loop has been asked to quit. -/
def joining : Machine.Discipline (EventLoopThread Thread α) (ThreadAction Thread α) :=
  fun s _ => s.owner = .joining ∧ s.loop.quit = true

/-- The steps of the loop thread, and the return of `join()`. -/
def ends : Machine.Discipline (EventLoopThread Thread α) (ThreadAction Thread α) :=
  fun _ a => match a with
    | .loop action => action.isOwn
    | .clear => True
    | .join => True
    | _ => False

theorem toJoin_step (hok : joining s a) (hstep : s.step owner a = some t) :
    t.toJoin ≤ s.toJoin ∧ (ends s a → t.toJoin < s.toJoin) := by
  obtain ⟨hjoining, hquit⟩ := hok
  have hlower {P : Prop} (hlt : t.toJoin < s.toJoin) :
      t.toJoin ≤ s.toJoin ∧ (P → t.toJoin < s.toJoin) := ⟨hlt.le, fun _ => hlt⟩
  cases moves_of_step hstep with
  | startLoop howner | startReturns howner | quitStore _ _ howner | quitWakeup _ _ howner
  | skipQuit howner => cases hjoining.symm.trans howner
  | publish hthread | enterLoop _ hthread | clear hthread =>
      exact hlower (toJoin_lt_of_thread rfl (by simp [hthread, ThreadPc.rank]))
  | loop action loop hallows hloop =>
      have haction : action ≠ .loop := by
        rintro rfl
        exact hallows
      obtain ⟨hle, hlt⟩ := EventLoop.toLeave_step haction (.inl hquit) hloop
      refine ⟨?_, fun hown => ?_⟩
      · exact Prod.Lex.toLex_le_toLex.mpr
          (.inr ⟨rfl, Prod.Lex.toLex_le_toLex.mpr (.inr ⟨rfl, hle⟩)⟩)
      · exact Prod.Lex.toLex_lt_toLex.mpr
          (.inr ⟨rfl, Prod.Lex.toLex_lt_toLex.mpr (.inr ⟨rfl, hlt hown⟩)⟩)
  | join howner hthread =>
      refine hlower (Prod.Lex.toLex_lt_toLex.mpr (.inl ?_))
      simp [hjoining]

theorem exhausts_ends (owner : Thread) :
    (eventLoopThreads owner α).Exhausts joining ends :=
  Machine.exhausts_of_measure toJoin (fun _ _ _ hok hstep => (toJoin_step hok hstep).1)
    fun _ _ _ hok hkind hstep => (toJoin_step hok hstep).2 hkind

/-- Where the loop thread may be while the owner is behind `startLoop`, and that
the destructor is in no other call of the loop when it waits for the thread. -/
structure Joins (owner : Thread) (s : EventLoopThread Thread α) : Prop where
  started : s.owner ≠ .idle → s.owner ≠ .starting →
    s.thread ≠ .notStarted ∧ s.thread ≠ .constructed
  joining : s.owner = .joining →
    s.thread = .exited ∨ s.quitReturned = true ∧ s.loop.call (some owner) = .idle

/-- A loop step that is not one of the owner leaves the owner alone. -/
theorem call_of_allows {action : Action Thread α} {loop : EventLoop Thread α}
    (hallows : s.allows owner action) (howner : s.owner ≠ .started)
    (hloop : s.loop.step action = some loop) :
    loop.call (some owner) = s.loop.call (some owner) := by
  cases EventLoop.moves_of_step hloop with
  | push caller | post caller | wakeup caller =>
      refine EventLoop.setCall_of_ne (fun hcaller => ?_) _
      exact howner (hallows.2 hcaller.symm)
  | quit caller => exact EventLoop.setCall_of_ne (fun hcaller => hallows.2 hcaller.symm) _
  | _ => rfl

theorem joins_step (hs : s.Joins owner) (hstep : s.step owner a = some t) : t.Joins owner := by
  cases moves_of_step hstep with
  | startLoop howner =>
      exact ⟨fun _ hnot => absurd rfl hnot, fun hjoining => by cases hjoining⟩
  | publish hthread =>
      refine ⟨fun _ _ => ⟨by simp, by simp⟩, fun hjoining => .inr ?_⟩
      have howner : s.owner = .joining := hjoining
      exact absurd hthread (hs.started (by simp [howner]) (by simp [howner])).2
  | startReturns howner =>
      simp only [step, Option.ite_none_right_eq_some] at hstep
      refine ⟨fun _ _ => ?_, fun hjoining => by cases hjoining⟩
      have hset := hstep.1.2
      cases hthread : s.thread with
      | notStarted | constructed | exited =>
          rw [hthread] at hset
          exact hset.elim
      | published | inLoop => exact ⟨by simp, by simp⟩
  | enterLoop loop hthread hloop =>
      refine ⟨fun _ _ => ⟨by simp, by simp⟩, fun hjoining => .inr ?_⟩
      rcases hs.joining hjoining with hexited | ⟨hreturned, hcall⟩
      · cases hthread.symm.trans hexited
      · refine ⟨hreturned, ?_⟩
        cases EventLoop.moves_of_step hloop
        exact hcall
  | loop action loop hallows hloop =>
      refine ⟨hs.started, fun hjoining => (hs.joining hjoining).imp_right ?_⟩
      rintro ⟨hreturned, hcall⟩
      have howner : s.owner ≠ .started := by simp [show s.owner = .joining from hjoining]
      exact ⟨hreturned, (call_of_allows hallows howner hloop).trans hcall⟩
  | clear hthread hpc => exact ⟨fun _ _ => ⟨by simp, by simp⟩, fun _ => .inl rfl⟩
  | quitStore destroying loop howner hloop =>
      exact ⟨fun _ _ => hs.started (by simp [howner]) (by simp [howner]),
        fun hjoining => by cases hjoining⟩
  | quitWakeup destroying loop howner hloop =>
      refine ⟨fun _ _ => hs.started (by simp [howner]) (by simp [howner]), fun _ => .inr ⟨rfl, ?_⟩⟩
      cases EventLoop.moves_of_step hloop
      exact EventLoop.setCall_self _ _
  | skipQuit howner =>
      simp only [step, Option.ite_none_right_eq_some] at hstep
      have hstarted := hs.started (by simp [howner]) (by simp [howner])
      refine ⟨fun _ _ => hstarted, fun _ => .inl ?_⟩
      have hunset := hstep.1.2
      cases hthread : s.thread with
      | notStarted => exact absurd hthread hstarted.1
      | constructed => exact absurd hthread hstarted.2
      | published | inLoop => exact absurd (by rw [hthread]; trivial) hunset
      | exited => rfl
  | join howner hthread =>
      exact ⟨fun _ _ => by simp [hthread], fun hjoining => by cases hjoining⟩

/-- The run lemma. -/
theorem joins_of_reachable
    (hreach : (eventLoopThreads owner α).ReachableWhere quitsInLoop s) :
    s.Remembers ∧ s.Joins owner := by
  apply Machine.ReachableWhere.invariant
    (I := fun s : EventLoopThread Thread α => s.Remembers ∧ s.Joins owner) _ _ hreach
  · rintro s rfl
    exact ⟨remembers_create, fun hnot => absurd rfl hnot, fun hjoining => by cases hjoining⟩
  · rintro s a t ⟨hremembers, hjoins⟩ hok hstep
    exact ⟨remembers_step hremembers hok hstep, joins_step hjoins hstep⟩

/-- A step of the loop thread in `loop()` is a step of the whole. -/
theorem loop_enabled {action : Action Thread α} {loop : EventLoop Thread α}
    (hallows : s.allows owner action) (hloop : s.loop.step action = some loop) :
    s.step owner (.loop action) = some { s with loop := loop } := by
  simp only [step, if_pos hallows, hloop, Option.map_some]

omit [DecidableEq Thread] in
theorem allows_of_isOwn {action : Action Thread α} (hown : action.isOwn)
    (hthread : s.thread = .inLoop) : s.allows owner action := by
  cases action with
  | test | wait | handle | leave | swap | next => exact hthread
  | loop | push | runInLoop | quit | wakeup => exact hown.elim

/-- **The destructor returns.** In every run in which each `quit()` of the owner
stores into `quit_` after `loop()` has: when the destructor is about to join
the thread, the thread has ended or been asked to; it has finitely many steps
to take until then, whatever the other threads do; and as long as the join has
not returned, it can return, or the thread can go on, or another thread can
finish the call that it is in. -/
theorem destructor_returns (owner : Thread) (s : EventLoopThread Thread α)
    (hreach : (eventLoopThreads owner α).ReachableWhere quitsInLoop s)
    (howner : s.owner = .joining) :
    (s.thread = .exited ∨ s.loop.quit = true) ∧
      (eventLoopThreads owner α).Exhausts joining ends ∧
      ((∃ a t, ends s a ∧ s.step owner a = some t) ∨
        ∃ caller t, s.loop.call caller ≠ .idle ∧
          s.step owner (.loop (.wakeup caller)) = some t) := by
  obtain ⟨hremembers, hjoins⟩ := joins_of_reachable hreach
  have hjoin (hexited : s.thread = .exited) : ∃ a t, ends s a ∧ s.step owner a = some t :=
    ⟨.join, { s with owner := .joined }, trivial, if_pos ⟨howner, hexited⟩⟩
  rcases hjoins.joining howner with hexited | ⟨hreturned, hcall⟩
  · exact ⟨.inl hexited, exhausts_ends owner, .inl (hjoin hexited)⟩
  have hquit := hremembers.kept (.inl hreturned)
  refine ⟨.inr hquit, exhausts_ends owner, ?_⟩
  rcases hremembers.entered (.inl hreturned) with hin | hexited
  · by_cases hpc : s.loop.pc = .outside
    · exact .inl ⟨.clear, { s with thread := .exited }, trivial, if_pos ⟨hin, hpc⟩⟩
    · rcases EventLoop.goes_on hremembers.heard hquit hpc with
        ⟨action, loop, hown, hloop⟩ | ⟨caller, hbusy⟩
      · exact .inl ⟨.loop action, _, hown, loop_enabled (allows_of_isOwn hown hin) hloop⟩
      · refine .inr ⟨caller, _, hbusy, loop_enabled ⟨by simp [hin, ThreadPc.loopIsSet], ?_⟩
          (if_neg hbusy)⟩
        rintro rfl
        exact absurd hcall hbusy
  · exact .inl (hjoin hexited)

/-- The destructor waits while the loop thread is still at its wait. -/
theorem destructor_returns_at_wait :
    ∃ s : EventLoopThread Unit Unit, s.owner = .joining ∧ s.loop.pc = .wait ∧
      (s.thread = .exited ∨ s.loop.quit = true) := by
  obtain ⟨s, hreach, howner, hwait⟩ := Machine.exists_reachable_of_run
    (M := eventLoopThreads () Unit) (s := .create)
    (P := fun s => s.owner = .joining ∧ s.loop.pc = .wait) quitsInLoop
    [.startLoop, .publish, .startReturns, .enterLoop, .loop .test, .quitStore true, .quitWakeup]
    rfl (by decide) (by decide)
  exact ⟨s, howner, hwait, (destructor_returns () s hreach howner).1⟩

end EventLoopThread

end EpollHttpServer.Reactor
