/-
# Turns come to an end

A loop gets new work when `epoll_wait` reports events and when the base loop
hands it a connection.  All its other steps use up work: the events of the
turn, then the batch of functors, and the code that is running.  In whatever
order the loops take such steps, they come to an end.

With erasures settled nothing stops a loop before: the end is reached only when
every loop waits again.
-/

import Mathlib.Data.Prod.Lex
import EpollHttpServer.Lib.Exhaustion
import EpollHttpServer.Server.Lifetimes

namespace EpollHttpServer.Server

open EpollHttpServer.Lib EpollHttpServer.Http EpollHttpServer.Reactor

/-- Steps that give no loop new work: all but a return of `epoll_wait` and an
accepted connection. -/
def ServerAction.isWork {n : ℕ} : ServerAction n → Prop
  | .wait _ _ => False
  | .accept _ => False
  | _ => True

/-- The steps of the running code. -/
def Task.work : Task → ℕ
  | .idle => 0
  | .starting _ _ => 2
  | .storing _ _ => 1
  | .handler _ effects => effects.length + 1

/-- The events to be dispatched, and the batch after them. -/
def Phase.work : Phase → ℕ
  | .wait => 0
  | .run => 1
  | .dispatch events => events.length + 2

/-- What a loop has to do before it waits again.  An event may lead to any
amount of code, and a swap to a batch of any length. -/
def LoopState.work (loop : LoopState) : ℕ ×ₗ ℕ ×ₗ ℕ :=
  toLex (loop.phase.work, toLex (loop.functors.batch.length, loop.task.work))

section work

variable {before after : LoopState}

theorem work_lt_of_phase (hphase : after.phase.work < before.phase.work) :
    after.work < before.work :=
  Prod.Lex.toLex_lt_toLex.mpr (.inl hphase)

theorem work_lt_of_batch (hphase : after.phase = before.phase)
    (hbatch : after.functors.batch.length < before.functors.batch.length) :
    after.work < before.work :=
  Prod.Lex.toLex_lt_toLex.mpr
    (.inr ⟨congrArg Phase.work hphase, Prod.Lex.toLex_lt_toLex.mpr (.inl hbatch)⟩)

theorem work_lt_of_task (hphase : after.phase = before.phase)
    (hbatch : after.functors.batch = before.functors.batch)
    (htask : after.task.work < before.task.work) : after.work < before.work :=
  Prod.Lex.toLex_lt_toLex.mpr (.inr ⟨congrArg Phase.work hphase,
    Prod.Lex.toLex_lt_toLex.mpr (.inr ⟨congrArg List.length hbatch, htask⟩)⟩)

end work

namespace HttpServer

variable {n : ℕ} {service : Service} {s t : HttpServer n} {stages : Stages n}
  {l : Fin (n + 1)}

/-- One loop does some of its work, and no loop gets more. -/
def Progresses (s t : HttpServer n) (l : Fin (n + 1)) : Prop :=
  (t.loops l).work < (s.loops l).work ∧ ∀ l', l' ≠ l → (t.loops l').work ≤ (s.loops l').work

theorem progresses_setLoop {loop : LoopState} (hlt : loop.work < (s.loops l).work) :
    s.Progresses (s.setLoop l loop) l := by
  refine ⟨?_, fun l' hl => ?_⟩
  · rw [setLoop_self]
    exact hlt
  · rw [setLoop_of_ne hl]

/-- A loop goes on with other code, after something that is no work of a loop. -/
theorem progresses_setTask {u : HttpServer n} {task : Task}
    (hsame : ∀ l', (u.loops l').work = (s.loops l').work ∧
      (u.loops l').task = (s.loops l').task) (hlt : task.work < (s.loops l).task.work) :
    s.Progresses (u.setTask l task) l := by
  have hu : u.Progresses (u.setTask l task) l := by
    refine progresses_setLoop (work_lt_of_task rfl rfl ?_)
    rw [(hsame l).2]
    exact hlt
  refine ⟨(hsame l).1 ▸ hu.1, fun l' hl => (hsame l').1 ▸ hu.2 l' hl⟩

/-- The step lemma. -/
theorem progresses_step {a : ServerAction n} (hwork : a.isWork)
    (hstep : s.step service a = some t) : s.Progresses t a.loop := by
  cases moves_of_step hstep with
  | wait | accept => exact hwork.elim
  | handle l fd conn d events before after hphase htask hheap hdispatch =>
      refine progresses_setLoop (s := { s with heap := _ }) (work_lt_of_phase ?_)
      simp [hphase, Phase.work]
  | perform l conn effect effects htask =>
      refine progresses_setTask (fun l' => ⟨?_, ?_⟩) (by simp [htask, Task.work])
      · exact view_perform LoopState.work (fun _ _ => rfl) (fun _ _ => rfl) l effect l'
      · exact view_perform LoopState.task (fun _ _ => rfl) (fun _ _ => rfl) l effect l'
  | leave l conn htask =>
      exact progresses_setTask (fun _ => ⟨rfl, rfl⟩) (by simp [htask, Task.work])
  | acceptDone events hphase htask =>
      exact progresses_setLoop (work_lt_of_phase (by simp [hphase, Phase.work]))
  | swap l hphase htask =>
      exact progresses_setLoop (work_lt_of_phase (by simp [hphase, Phase.work]))
  | create l fd conn functors hphase htask hnext =>
      refine progresses_setLoop (work_lt_of_batch rfl ?_)
      simp [(BatchQueue.next_eq_some hnext).1]
  | erase l fd conn functors hphase htask hnext =>
      refine progresses_setLoop (s := s) (work_lt_of_batch rfl ?_)
      show functors.batch.length < (s.loops l).functors.batch.length
      simp [(BatchQueue.next_eq_some hnext).1]
  | batchDone l hphase htask hnext =>
      exact progresses_setLoop (work_lt_of_phase (by simp [hphase, Phase.work]))
  | register l fd conn htask =>
      let made : HttpServer n :=
        { s with heap := Function.update s.heap conn (some (.created l fd)) }
      refine progresses_setTask (fun l' => ⟨?_, ?_⟩) (by simp [htask, Task.work])
      · exact view_epollCtl (s := made) LoopState.work (fun _ _ => rfl) l conn fd (.add EPOLLIN) l'
      · exact view_epollCtl (s := made) LoopState.task (fun _ _ => rfl) l conn fd (.add EPOLLIN) l'
  | store l fd conn htask =>
      exact progresses_setTask (s := s) (fun _ => ⟨rfl, rfl⟩) (by simp [htask, Task.work])

/-- The discipline of doing work that is there. -/
def working : Machine.Discipline (HttpServer n) (ServerAction n) :=
  fun _ a => a.isWork

theorem exhausts_working (service : Service) (n : ℕ) :
    (servers service n).Exhausts working working := by
  refine Machine.exhausts_of_parties (fun s l => (s.loops l).work)
    (fun s a t l hwork hstep => ?_) fun s a t hwork _ hstep => ?_
  · have hprogress := progresses_step hwork hstep
    by_cases hl : l = a.loop
    · rw [hl]
      exact hprogress.1.le
    · exact hprogress.2 l hl
  · exact ⟨a.loop, (progresses_step hwork hstep).1⟩

/-- What the kernel is going to answer to the reads of reported events fits
into the buffer that it is given. -/
def Fitting (s : HttpServer n) : Prop :=
  ∀ l fd conn d, .connection fd conn d ∈ (s.loops l).phase.events → d.read.fits

/-- A loop that is not at its wait has work to do that it can do. -/
theorem enabled_of_not_waiting (hsafe : s.Safe service) (hreported : s.Reported)
    (hfits : s.Fitting) (hnot : ¬ ((s.loops l).phase = .wait ∧ (s.loops l).task = .idle)) :
    ∃ a : ServerAction n, (a.isWork ∧ a.loop = l) ∧ ∃ t, s.step service a = some t := by
  cases htask : (s.loops l).task with
  | starting fd conn =>
      refine ⟨.register l, ⟨trivial, rfl⟩, ?_⟩
      simp only [step, htask]
      exact ⟨_, rfl⟩
  | storing fd conn =>
      refine ⟨.store l, ⟨trivial, rfl⟩, ?_⟩
      simp only [step, htask]
      exact ⟨_, rfl⟩
  | handler conn effects =>
      cases effects with
      | nil =>
          refine ⟨.leave l, ⟨trivial, rfl⟩, ?_⟩
          simp only [step, htask]
          exact ⟨_, rfl⟩
      | cons effect effects =>
          refine ⟨.perform l, ⟨trivial, rfl⟩, ?_⟩
          simp only [step, htask]
          exact ⟨_, rfl⟩
  | idle =>
      cases hphase : (s.loops l).phase with
      | wait => exact absurd ⟨hphase, htask⟩ hnot
      | run =>
          refine ⟨.next l, ⟨trivial, rfl⟩, ?_⟩
          simp only [step, hphase, htask]
          split <;> exact ⟨_, rfl⟩
      | dispatch events =>
          cases events with
          | nil =>
              refine ⟨.swap l, ⟨trivial, rfl⟩, ?_⟩
              simp only [step, hphase, htask]
              exact ⟨_, rfl⟩
          | cons event events =>
              have hevent : event ∈ (s.loops l).phase.events := by
                rw [hphase]
                exact List.mem_cons_self ..
              cases event with
              | accept =>
                  obtain rfl : l = 0 := hreported l .accept hevent
                  refine ⟨.acceptDone, ⟨trivial, rfl⟩, ?_⟩
                  simp only [step, hphase, htask]
                  exact ⟨_, rfl⟩
              | connection fd conn d =>
                  exact ⟨.handle l, ⟨trivial, rfl⟩, hsafe.dispatches l fd conn d events hphase htask
                    (hfits l fd conn d hevent)⟩

/-- A loop at its wait has no work. -/
theorem finished_of_waiting
    (hwaiting : ∀ l, (s.loops l).phase = .wait ∧ (s.loops l).task = .idle) :
    (servers service n).Finished working s := by
  intro a hwork
  cases a with
  | wait | accept => exact hwork.elim
  | handle l | swap l | next l => simp [servers, step, hwaiting l]
  | perform l | leave l | register l | store l => simp [servers, step, (hwaiting l).2]
  | acceptDone => simp [servers, step, hwaiting 0]

/-- **Turns come to an end.** Without waits that return and newly accepted
connections, no order of steps of the loops goes on forever, so that from every
state an end can be reached.  In a run that settles erasures it is the end when
every loop is back at its wait, and not before.  In the source the first part
holds up to the first use of a connection that has been destroyed, of which
there is none in a run that settles erasures. -/
theorem turns_end (service : Service) (n : ℕ) :
    (servers service n).Exhausts working working ∧
      ∀ s : HttpServer n,
        (∃ t, (servers service n).ReachesWhere working s t ∧
          (servers service n).Finished working t) ∧
        ((servers service n).ReachableWhere erasesSettled s → s.Fitting →
          ((servers service n).Finished working s ↔
            ∀ l, (s.loops l).phase = .wait ∧ (s.loops l).task = .idle)) := by
  have hends := exhausts_working service n
  refine ⟨hends,
    fun s => ⟨hends.exists_finished (fun _ _ hwork => hwork) s, fun hreach hfits => ?_⟩⟩
  refine ⟨fun hfinished l => ?_, finished_of_waiting⟩
  by_contra hnot
  have hany : (servers service n).Reachable s := hreach.mono fun _ _ _ => trivial
  obtain ⟨a, ⟨hwork, _⟩, t, hstep⟩ := enabled_of_not_waiting (safe_of_reachable hreach)
    (reported_of_reachable hany) hfits hnot
  cases (hfinished a hwork).symm.trans hstep

/-- A turn in which a connection is removed is not over before its erase functor. -/
theorem turns_end_after_erase :
    ∃ s : HttpServer 0, (s.loops 0).functors.batch = [.erase 6 0] ∧
      ¬ (servers ⟨.stored, none⟩ 0).Finished working s := by
  obtain ⟨s, hreach, hbatch, hphase⟩ := Machine.exists_reachable_of_run
    (M := servers ⟨.stored, none⟩ 0) (s := .create)
    (P := fun s => (s.loops 0).functors.batch = [.erase 6 0] ∧ (s.loops 0).phase = .run)
    erasesSettled
    [.wait 0 [.accept], .accept 6, .register 0, .store 0, .acceptDone, .swap 0, .next 0,
      .wait 0 [.connection 6 0 ⟨EPOLLIN, .data [], []⟩], .handle 0, .perform 0, .perform 0,
      .perform 0, .perform 0, .leave 0, .swap 0]
    rfl (by decide +kernel) (by decide +kernel)
  have hfits : s.Fitting := by
    intro l fd conn d hevent
    obtain rfl : l = 0 := Fin.fin_one_eq_zero l
    rw [hphase] at hevent
    cases hevent
  refine ⟨s, hbatch, fun hfinished => ?_⟩
  have hwaits := ((((turns_end ⟨.stored, none⟩ 0).2 s).2 hreach hfits).mp hfinished 0).1
  cases hphase.symm.trans hwaits

end HttpServer

end EpollHttpServer.Server
